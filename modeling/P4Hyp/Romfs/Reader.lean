import P4Hyp.Romfs.Check
import P4Hyp.Romfs.Sound

/-!
# The reader on an image that was written

The header at a node's offset is the node's, and a hard link is resolved in one step.
-/

namespace P4Hyp.Romfs

/-! ## Names -/

theorem findIdx?_nul {l : List Byte} (h : 0 ∉ l) (rest : List Byte) :
    (l ++ 0 :: rest).findIdx? (· == 0) = some l.length := by
  induction l with
  | nil => rfl
  | cons b l ih =>
      rw [List.mem_cons, not_or] at h
      have hb : (b == 0) = false := beq_eq_false_iff_ne.2 (Ne.symm h.1)
      rw [List.cons_append, List.findIdx?_cons, hb, if_neg (by decide), ih h.2]
      rfl

theorem indexNul_eq {img l rest : List Byte} {pos : Nat} (h : 0 ∉ l)
    (hdrop : img.drop pos = l ++ 0 :: rest) : indexNul img pos = .ok (pos + l.length) := by
  rw [indexNul, hdrop, findIdx?_nul h]

/-! ## Headers -/

theorem hdr_eq_ok {img rest : List Byte} {pos : Nat} {a b c d : Word} {name : Str}
    (hhead : (img.drop pos).take 16 = be32 a ++ be32 b ++ be32 c ++ be32 d) (h : NulFree name)
    (hname : img.drop (pos + 16) = encode name ++ 0 :: rest) :
    hdr img pos = .ok { nxt := a.toNat, spec := b.toNat, sz := c.toNat, name } := by
  unfold hdr
  rw [hhead]
  simp only [be32, List.cons_append, List.nil_append]
  rw [indexNul_eq (encode_nulFree h) hname]
  simp only [bind, Except.bind]
  rw [hname, Nat.add_sub_cancel_left, List.take_left' rfl, decode_encode]
  simp only [ofBe32_be32]
  rfl

def Node.header (n : Node) : Hdr :=
  { nxt := n.nxt ||| n.kind, spec := n.diskSpec, sz := n.data.length, name := n.name }

section Slice

variable {img : List Byte} {n : Node}

theorem Node.bytes_eq (n : Node) :
    n.bytes = (n.fields ++ be32 (checksum n.blank)) ++ (encode n.name ++
    0 :: (List.replicate (n.hdrLen - 16 - (encode n.name ++ [0]).length) 0 ++ n.paddedData)) := by
  rw [Node.bytes, Node.block, Node.paddedName]
  simp only [List.append_assoc, List.cons_append, List.nil_append]

theorem head_length (n : Node) : (n.fields ++ be32 (checksum n.blank)).length = 16 := by
  rw [List.length_append, n.fields_length, be32_length]

theorem name_of_slice (h : SliceAt img n.off n.bytes) :
    ∃ rest, img.drop (n.off + 16) = encode n.name ++ 0 :: rest := by
  obtain ⟨rest, hrest⟩ := h.exists_eq
  rw [n.bytes_eq] at hrest
  refine ⟨List.replicate (n.hdrLen - 16 - (encode n.name ++ [0]).length) 0 ++
    n.paddedData ++ rest, ?_⟩
  rw [← List.drop_drop, hrest, List.append_assoc, List.drop_left' (head_length n)]
  simp only [List.append_assoc, List.cons_append]

theorem hdr_of_slice (hname : NulFree n.name) (hpacks : Packs n) (h : SliceAt img n.off n.bytes) :
    hdr img n.off = .ok n.header := by
  obtain ⟨rest, hrest⟩ := h.exists_eq
  obtain ⟨rest', hrest'⟩ := name_of_slice h
  have hhead : (img.drop n.off).take 16 = n.fields ++ be32 (checksum n.blank) := by
    rw [hrest, n.bytes_eq, List.append_assoc, List.take_left' (head_length n)]
  rw [hdr_eq_ok hhead hname hrest', Node.header, BitVec.toNat_ofNat, BitVec.toNat_ofNat,
    BitVec.toNat_ofNat, Nat.mod_eq_of_lt hpacks.nxt, Nat.mod_eq_of_lt hpacks.spec,
    Nat.mod_eq_of_lt hpacks.data]

theorem data_of_slice (hfits : n.NameFits) (h : SliceAt img n.off n.bytes) :
    (img.drop (n.off + n.hdrLen)).take n.data.length = n.data := by
  obtain ⟨rest, hrest⟩ := h.exists_eq
  rw [← List.drop_drop, hrest, Node.bytes, List.append_assoc,
    List.drop_left' (n.block_length hfits), Node.paddedData, List.append_assoc, List.take_left' rfl]

end Slice

/-- An image with the nodes of `flat` in it, that are as the layout makes them. -/
structure Holds (img : List Byte) (flat : List Node) : Prop where
  ok : ∀ n ∈ flat, NodeOk img.length n
  fit : ∀ n ∈ flat, Fit n
  bytes : ∀ n ∈ flat, SliceAt img n.off n.bytes
  pos : ∀ n ∈ flat, 0 < n.off ∧ n.off < img.length
  off : ∀ n ∈ flat, n.off % 16 = 0

section Holds

variable {img : List Byte} {flat : List Node} {n : Node}

theorem Holds.hdr (h : Holds img flat) (hn : n ∈ flat) : hdr img n.off = .ok n.header :=
  hdr_of_slice (h.fit n hn).name.nulFree (h.fit n hn).packs (h.bytes n hn)

theorem Holds.data (h : Holds img flat) (hn : n ∈ flat) :
    data img n.off n.data.length = .ok n.data := by
  unfold Romfs.data
  rw [h.hdr hn]
  exact congrArg Except.ok (data_of_slice (h.fit n hn).nameFits (h.bytes n hn))

/-! ## The kind and the links -/

theorem NodeOk.nxt_or {hi : Nat} (h : NodeOk hi n) : n.nxt ||| n.kind = n.nxt + n.kind := by
  have hadd := Nat.two_pow_add_eq_or_of_lt (show n.kind < 2 ^ 4 from h.kind) (n.nxt / 16)
  rw [show 2 ^ 4 * (n.nxt / 16) = n.nxt by have := h.nxt.mod; omega] at hadd
  exact hadd.symm

theorem NodeOk.header_kind {hi : Nat} (h : NodeOk hi n) : n.header.nxt % 8 = n.kind % 8 := by
  have hmod := h.nxt.mod
  have hnxt : n.header.nxt = n.nxt + n.kind := h.nxt_or
  omega

theorem mask15_of_mod {off : Nat} (h : off % 16 = 0) : mask15 off = off := by
  unfold mask15
  omega

theorem NodeOk.mask15_nxt {hi : Nat} (h : NodeOk hi n) : mask15 n.header.nxt = n.nxt := by
  have hmod := h.nxt.mod
  have hkind := h.kind
  have hnxt : n.header.nxt = n.nxt + n.kind := h.nxt_or
  unfold mask15
  omega

theorem Holds.resolve_inode (h : Holds img flat) (hn : n ∈ flat) (hkind : n.kind % 8 ≠ Kind.hrd)
    (fuel : Nat) : resolve img (fuel + 1) n.off = .ok (n.off, n.header) := by
  rw [resolve, h.hdr hn]
  simp only [bind, Except.bind]
  rw [(h.ok n hn).header_kind, if_pos hkind]
  rfl

theorem Holds.resolve_link (h : Holds img flat) (hn : n ∈ flat) {name : Str} {off : Nat}
    (hlink : IsLink name off n) (hdir : IsDir flat off) (fuel : Nat) :
    ∃ r, resolve img (fuel + 2) n.off = .ok r := by
  obtain ⟨d, hd, rfl, hkind⟩ := hdir
  have hspec : mask15 n.header.spec = d.off := by
    rw [Node.header, Node.diskSpec, hlink.kind, if_neg (by decide), hlink.spec,
      mask15_of_mod (h.off d hd)]
  refine ⟨(d.off, d.header), ?_⟩
  rw [resolve, h.hdr hn]
  simp only [bind, Except.bind]
  rw [(h.ok n hn).header_kind, hlink.kind, if_neg (by decide), hspec,
    h.resolve_inode hd (by rw [hkind]; decide)]

end Holds

end P4Hyp.Romfs
