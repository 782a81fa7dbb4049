import P4Hyp.Romfs.Build
import P4Hyp.Romfs.Utf8

/-!
# The bytes of the image

Every node is emitted into its own extent, so all of them are found in the image
in the end, and so is the superblock.
-/

namespace P4Hyp.Romfs

/-- A string that is one byte a character, none of them NUL. -/
def Ascii (s : Str) : Prop := ∀ c ∈ s, 0 < c.toNat ∧ c.toNat < 128

instance (s : Str) : Decidable (Ascii s) := List.decidableBAll _ s

theorem Ascii.nulFree {s : Str} (h : Ascii s) : NulFree s := fun c hc => Nat.ne_of_gt (h c hc).1

theorem encode_length {s : Str} (h : Ascii s) : (encode s).length = s.length := by
  rw [encode_ascii fun c hc => Nat.le_of_lt_succ (h c hc).2, List.length_map]

theorem pack_eq_ok {n : Nat} (h : n < 2 ^ 32) : pack n = .ok (be32 (BitVec.ofNat 32 n)) := if_pos h

/-! ## One node -/

/-- The fields that `struct.pack` takes. -/
structure Packs (n : Node) : Prop where
  nxt : n.nxt ||| n.kind < 2 ^ 32
  spec : n.diskSpec < 2 ^ 32
  data : n.data.length < 2 ^ 32

/-- A node that `struct.pack` takes. -/
structure Fit (n : Node) : Prop where
  name : Ascii n.name
  nxt : n.nxt ||| n.kind < 2 ^ 32
  spec : n.diskSpec < 2 ^ 32
  data : n.data.length < 2 ^ 32

theorem Fit.packs {n : Node} (h : Fit n) : Packs n := ⟨h.nxt, h.spec, h.data⟩

namespace Node

variable {n : Node}

/-- The first twelve bytes. -/
def fields (n : Node) : List Byte :=
  be32 (BitVec.ofNat 32 (n.nxt ||| n.kind)) ++ be32 (BitVec.ofNat 32 n.diskSpec) ++
    be32 (BitVec.ofNat 32 n.data.length)

theorem fields_length (n : Node) : n.fields.length = 12 := rfl

/-- The header before its checksum. -/
def blank (n : Node) : List Byte := n.fields ++ be32 0 ++ n.paddedName

def block (n : Node) : List Byte := n.fields ++ be32 (checksum n.blank) ++ n.paddedName

/-- All the bytes of a node. -/
def bytes (n : Node) : List Byte := n.block ++ n.paddedData

/-- The header has room for the name as it is written. -/
def NameFits (n : Node) : Prop := 16 + (encode n.name).length + 1 ≤ n.hdrLen

theorem paddedName_length (n : Node) :
    n.paddedName.length = max ((encode n.name).length + 1) (n.hdrLen - 16) := by
  rw [paddedName, List.length_append, List.length_replicate, List.length_append,
    List.length_singleton]
  omega

theorem block_length_eq (n : Node) :
    n.block.length = max (16 + (encode n.name).length + 1) n.hdrLen := by
  have hle : 16 + n.name.length + 1 ≤ n.hdrLen := le_pad16 _
  rw [block, List.length_append, List.length_append, n.fields_length, be32_length,
    paddedName_length]
  omega

theorem blank_length (n : Node) : n.blank.length = n.block.length := by
  simp only [blank, block, List.length_append, be32_length]

theorem block_length (h : n.NameFits) : n.block.length = n.hdrLen := by
  rw [block_length_eq]
  exact Nat.max_eq_right h

theorem paddedData_length (n : Node) : n.paddedData.length = pad16 n.data.length := by
  have hle := le_pad16 n.data.length
  rw [paddedData, List.length_append, List.length_replicate]
  omega

theorem bytes_length (h : n.NameFits) : n.bytes.length = n.totalLen := by
  rw [bytes, List.length_append, block_length h, paddedData_length]
  rfl

end Node

theorem Fit.nameFits {n : Node} (h : Fit n) : n.NameFits := by
  unfold Node.NameFits
  rw [encode_length h.name]
  exact le_pad16 _

/-- What `emit` does with any name. -/
theorem emit_eq {n : Node} (h : Packs n) (buf : List Byte) : emit buf n =
    if n.block.length % 4 ≠ 0 then .error .structError
    else .ok (setSlice (setSlice buf n.off n.block) (n.off + n.hdrLen) n.paddedData) := by
  have hblock : setSlice n.blank n.fields.length (be32 (checksum n.blank)) = n.block :=
    setSlice_mid (by rw [be32_length, be32_length])
  unfold emit
  simp only [pack_eq_ok h.nxt, pack_eq_ok h.spec, pack_eq_ok h.data, bind, Except.bind,
    ← Node.fields.eq_1, ← Node.blank.eq_1]
  rw [n.blank_length, ← n.fields_length, hblock]
  split <;> rfl

theorem emit_eq_ok {n : Node} (hpacks : Packs n) (hname : n.NameFits) {buf : List Byte}
    (hoff : n.off ≤ buf.length) : emit buf n = .ok (setSlice buf n.off n.bytes) := by
  have hlen := Node.block_length hname
  have hmod := n.hdrLen_mod
  rw [emit_eq hpacks, if_neg (by omega), ← hlen, setSlice_setSlice hoff, Node.bytes]

/-! ## All the nodes -/

/-- Emission of nodes that lie one after another: all of them are in the buffer, and what
lay before them is still there. -/
theorem foldlM_emit {lo hi : Nat} {flat : List Node} {buf : List Byte}
    (h : Ordered lo (flat.map Node.extent) hi) (hfit : ∀ n ∈ flat, Fit n) (hbuf : hi ≤ buf.length) :
    ∃ buf', flat.foldlM emit buf = .ok buf' ∧ buf'.length = buf.length ∧
      (∀ n ∈ flat, SliceAt buf' n.off n.bytes) ∧
      ∀ off l, off + l.length ≤ lo → SliceAt buf off l → SliceAt buf' off l := by
  induction flat generalizing lo buf with
  | nil => exact ⟨buf, rfl, rfl, fun n hn => (List.not_mem_nil hn).elim, fun _ _ _ hl => hl⟩
  | cons n flat ih =>
      have hn : Fit n := hfit n List.mem_cons_self
      obtain ⟨hlo, hhi, -⟩ := h.bounds n.extent List.mem_cons_self
      have hbytes := Node.bytes_length hn.nameFits
      dsimp only [Node.extent] at hlo hhi
      have hroom : n.off + n.bytes.length ≤ buf.length := by omega
      have hbuf' : hi ≤ (setSlice buf n.off n.bytes).length := by
        rw [setSlice_length hroom]
        exact hbuf
      obtain ⟨buf', hfold, hlen, hnodes, hkeep⟩ := ih h.tail
        (fun m hm => hfit m (List.mem_cons_of_mem n hm)) hbuf'
      dsimp only [Node.extent] at hkeep
      refine ⟨buf', ?_, ?_, ?_, ?_⟩
      · rw [List.foldlM_cons, emit_eq_ok hn.packs hn.nameFits (by omega)]
        exact hfold
      · rw [hlen, setSlice_length hroom]
      · intro m hm
        rcases List.mem_cons.1 hm with rfl | hm
        · exact hkeep _ _ (by rw [hbytes]) (sliceAt_setSlice hroom)
        · exact hnodes m hm
      · intro off l hl hslice
        exact hkeep off l (by omega) (hslice.setSlice hroom (.inl (by omega)))

/-- The buffer when the superblock is in it, but for its checksum. -/
def superblock (size : Nat) (volume : Str) : List Byte :=
  setSlice (setSlice (setSlice (List.replicate size 0) 0 magic) 8 (be32 (BitVec.ofNat 32 size))) 16
    (encode volume ++ [0])

section Superblock

variable {size : Nat} {volume : Str}

theorem superblock_holds (hvolume : Ascii volume) (h : 16 + volume.length + 1 ≤ size) :
    (superblock size volume).length = size ∧ SliceAt (superblock size volume) 0 magic ∧
      SliceAt (superblock size volume) 8 (be32 (BitVec.ofNat 32 size)) ∧
      SliceAt (superblock size volume) 12 (be32 0) ∧
      SliceAt (superblock size volume) 16 (encode volume ++ [0]) := by
  have hmagic : magic.length = 8 := rfl
  have hname : (encode volume ++ [0]).length = volume.length + 1 := by
    rw [List.length_append, encode_length hvolume, List.length_singleton]
  have hzeros : (List.replicate size (0 : Byte)).length = size := List.length_replicate
  have hroom₁ : 0 + magic.length ≤ (List.replicate size (0 : Byte)).length := by omega
  have hlen₁ := setSlice_length hroom₁
  have hroom₂ : 8 + (be32 (BitVec.ofNat 32 size)).length ≤
      (setSlice (List.replicate size (0 : Byte)) 0 magic).length := by
    rw [be32_length]
    omega
  have hlen₂ := setSlice_length hroom₂
  have hroom₃ : 16 + (encode volume ++ [0]).length ≤ (setSlice (setSlice
      (List.replicate size (0 : Byte)) 0 magic) 8 (be32 (BitVec.ofNat 32 size))).length := by omega
  have hzero : SliceAt (List.replicate size (0 : Byte)) 12 (be32 0) := by
    rw [SliceAt, List.drop_replicate, List.take_replicate, be32_length, Nat.min_eq_left (by omega)]
    rfl
  refine ⟨(setSlice_length hroom₃).trans (hlen₂.trans (hlen₁.trans hzeros)), ?_, ?_, ?_,
    sliceAt_setSlice hroom₃⟩
  · exact ((sliceAt_setSlice hroom₁).setSlice hroom₂ (.inl (by omega))).setSlice hroom₃
      (.inl (by omega))
  · exact (sliceAt_setSlice hroom₂).setSlice hroom₃ (.inl (by rw [be32_length]; decide))
  · exact ((hzero.setSlice hroom₁ (.inr (by omega))).setSlice hroom₂
      (.inr (by rw [be32_length]))).setSlice hroom₃ (.inl (by rw [be32_length]))

/-- What an image holds when it is written. -/
structure Written (flat : List Node) (size : Nat) (volume : Str) (img : List Byte) : Prop where
  length : img.length = size
  magic : SliceAt img 0 magic
  size : SliceAt img 8 (be32 (BitVec.ofNat 32 size))
  volume : SliceAt img 16 (encode volume ++ [0])
  nodes : ∀ n ∈ flat, SliceAt img n.off n.bytes
  checksum : (beWords (img.take (min img.length 512))).sum % 2 ^ 32 = 0

theorem mkromfs_writes {root : Tree} {flat : List Node}
    (hlayout : layout root volume = some (flat, size))
    (h : InOrder (pad16 (16 + volume.length + 1)) flat size) (hfit : ∀ n ∈ flat, Fit n)
    (hvolume : Ascii volume) (hsize : size < 2 ^ 32) :
    ∃ img, mkromfs root volume = .ok img ∧ Written flat size volume img := by
  have hlo := h.ordered.le
  have hpad := le_pad16 (16 + volume.length + 1)
  have hmod := pad16_mod (16 + volume.length + 1)
  have hsizemod := h.cursor_mod
  have hname : (encode volume ++ [0]).length = volume.length + 1 := by
    rw [List.length_append, encode_length hvolume, List.length_singleton]
  obtain ⟨hlen, hmagic, hsize', hzero, hvol⟩ := superblock_holds hvolume (hpad.trans hlo)
  obtain ⟨buf, hfold, hbuf, hnodes, hkeep⟩ := foldlM_emit h.ordered hfit (Nat.le_of_eq hlen.symm)
  rw [hlen] at hbuf
  have hspan : (buf.take (min size 512)).length = min size 512 := by
    rw [List.length_take]
    omega
  have hroom : 12 + (be32 (checksum (buf.take (min size 512)))).length ≤ buf.length := by
    rw [be32_length]
    omega
  have hend := hkeep 12 (be32 0) (by rw [be32_length]; omega) hzero
  have hspan0 : SliceAt (buf.take (min size 512)) 12 (be32 0) := by
    rw [sliceAt_iff] at hend ⊢
    intro i hi
    rw [← hend i hi, List.getElem?_take_of_lt (by rw [be32_length] at hi; omega)]
  refine ⟨setSlice buf 12 (be32 (checksum (buf.take (min size 512)))), ?_, ?_⟩
  · rw [mkromfs, hlayout]
    simp only [pack_eq_ok hsize, bind, Except.bind, ← superblock.eq_1]
    rw [hfold]
    simp only
    rw [if_neg (by omega)]
    rfl
  · refine ⟨(setSlice_length hroom).trans hbuf, ?_, ?_, ?_, ?_, ?_⟩
    · exact (hkeep _ _ (by rw [show magic.length = 8 from rfl]; omega) hmagic).setSlice hroom
        (.inl (by rw [show magic.length = 8 from rfl]; omega))
    · exact (hkeep _ _ (by rw [be32_length]; omega) hsize').setSlice hroom
        (.inl (by rw [be32_length]))
    · exact (hkeep _ _ (by omega) hvol).setSlice hroom (.inr (by rw [be32_length]))
    · intro n hn
      have hstart := (h.ordered.bounds _ (List.mem_map_of_mem hn)).1
      exact (hnodes n hn).setSlice hroom (.inr (by rw [be32_length]; exact le_trans (by omega) hstart))
    · rw [setSlice_length hroom, hbuf, take_setSlice (by rw [be32_length]; omega) (by omega)]
      exact sum_setSlice_checksum hspan0 rfl (by omega)

end Superblock

end P4Hyp.Romfs
