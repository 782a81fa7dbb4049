import P4Hyp.Romfs.Reader

/-!
# Entries by themselves

The layout makes room for the characters of a name, and `emit` writes its bytes.
-/

namespace P4Hyp.Romfs

/-- A reader of the format: the name of the entry at `pos`, and its data, which starts
at the next multiple of 16 behind the name. -/
def readEntry (img : List Byte) (pos : Nat) : Except Stop (Str × List Byte) := do
  let entry ← hdr img pos
  let stop ← indexNul img (pos + 16)
  return (entry.name, (img.drop (pos + pad16 (stop + 1 - pos))).take entry.sz)

/-- `emit` writes the header of `hdr_len` bytes and the data behind it, nothing else, and
both can be read. -/
def Node.Faithful (n : Node) : Prop :=
  ∃ header, header.length = n.hdrLen ∧ (beWords header).sum % 2 ^ 32 = 0 ∧
    ∀ buf, n.off + n.totalLen ≤ buf.length → ∃ buf', emit buf n = .ok buf' ∧
      SliceAt buf' n.off header ∧ SliceAt buf' (n.off + n.hdrLen) n.data ∧
      readEntry buf' n.off = .ok (n.name, n.data) ∧
      ∀ i, i < n.off ∨ n.off + n.totalLen ≤ i → buf'[i]? = buf[i]?

section Names

variable {n : Node} {buf buf' : List Byte}

/-! ## A name that fits -/

theorem pad16_encode_iff (n : Node) :
    pad16 (16 + (encode n.name).length + 1) = n.hdrLen ↔ n.NameFits := by
  have hle := length_le_encode n.name
  have hpad := le_pad16 (16 + (encode n.name).length + 1)
  unfold Node.NameFits Node.hdrLen pad16 alignUp at *
  constructor
  · omega
  · omega

theorem readEntry_of_slice (hname : NulFree n.name) (hpacks : Packs n) (hfits : n.NameFits)
    (h : SliceAt buf n.off n.bytes) : readEntry buf n.off = .ok (n.name, n.data) := by
  obtain ⟨rest, hrest⟩ := name_of_slice h
  have hstart : n.off + 16 + (encode n.name).length + 1 - n.off =
      16 + (encode n.name).length + 1 := by
    omega
  unfold readEntry
  rw [hdr_of_slice hname hpacks h, indexNul_eq (encode_nulFree hname) hrest]
  simp only [bind, Except.bind]
  rw [hstart, (pad16_encode_iff n).2 hfits, Node.header, data_of_slice hfits h]
  rfl

theorem faithful_of_fits (hname : NulFree n.name) (hpacks : Packs n) (hfits : n.NameFits) :
    n.Faithful := by
  have hsum : (beWords n.block).sum % 2 ^ 32 = 0 := sum_checksum (by rw [n.fields_length])
  refine ⟨n.block, n.block_length hfits, hsum, fun buf hroom => ?_⟩
  have hlen := n.bytes_length hfits
  rw [← hlen] at hroom ⊢
  have hslice := sliceAt_setSlice hroom
  have hparts := hslice
  rw [Node.bytes, sliceAt_append, n.block_length hfits, Node.paddedData, sliceAt_append] at hparts
  exact ⟨_, emit_eq_ok hpacks hfits (by omega), hparts.1, hparts.2.1,
    readEntry_of_slice hname hpacks hfits hslice, fun i hi => getElem?_setSlice_outside hroom hi⟩

/-! ## A name that does not fit -/

theorem lt_of_pack {k : Nat} {l : List Byte} (h : pack k = .ok l) : k < 2 ^ 32 := by
  unfold pack at h
  split at h
  · assumption
  · cases h

theorem emit_packs (h : emit buf n = .ok buf') : Packs n := by
  unfold emit at h
  cases h₁ : pack (n.nxt ||| n.kind) with
  | error e => simp [h₁, bind, Except.bind] at h
  | ok l₁ =>
      cases h₂ : pack n.diskSpec with
      | error e => simp [h₁, h₂, bind, Except.bind] at h
      | ok l₂ =>
          cases h₃ : pack n.data.length with
          | error e => simp [h₁, h₂, h₃, bind, Except.bind] at h
          | ok l₃ => exact ⟨lt_of_pack h₁, lt_of_pack h₂, lt_of_pack h₃⟩

/-- The first NUL is not among the bytes of the name that are left. -/
theorem indexNul_ge {l : List Byte} {pos stop : Nat} (hl : 0 ∉ l) (h : SliceAt buf pos l)
    (hstop : indexNul buf pos = .ok stop) : pos + l.length ≤ stop := by
  unfold indexNul at hstop
  cases hk : (buf.drop pos).findIdx? (· == 0) with
  | none =>
      rw [hk] at hstop
      cases hstop
  | some k =>
      rw [hk] at hstop
      obtain rfl := Except.ok.inj hstop
      obtain ⟨hlt, hzero, -⟩ := List.findIdx?_eq_some_iff_getElem.1 hk
      by_contra hge
      have hkl : k < l.length := by omega
      have hget := sliceAt_iff.1 h k hkl
      rw [← List.getElem?_drop, List.getElem?_eq_getElem hlt, List.getElem?_eq_getElem hkl] at hget
      have hmem : l[k] ∈ l := List.getElem_mem hkl
      rw [← Option.some.inj hget, beq_iff_eq.1 hzero] at hmem
      exact hl hmem

theorem readEntry_data {pos : Nat} {name : Str} {data : List Byte}
    (h : readEntry buf pos = .ok (name, data)) : ∃ stop, indexNul buf (pos + 16) = .ok stop ∧
      data.length ≤ buf.length - (pos + pad16 (stop + 1 - pos)) := by
  unfold readEntry at h
  cases hh : hdr buf pos with
  | error e => simp [hh, bind, Except.bind] at h
  | ok entry =>
      cases hs : indexNul buf (pos + 16) with
      | error e => simp [hh, hs, bind, Except.bind] at h
      | ok stop =>
          simp only [hh, hs, bind, Except.bind] at h
          obtain ⟨-, rfl⟩ := Prod.mk.inj (Except.ok.inj h)
          refine ⟨stop, rfl, ?_⟩
          rw [List.length_take, List.length_drop]
          exact Nat.min_le_right _ _

theorem fits_of_faithful (hname : NulFree n.name) (h : n.Faithful) : n.NameFits := by
  by_contra hlong
  obtain ⟨header, -, -, hall⟩ := h
  obtain ⟨buf', hemit, -, -, hread, hframe⟩ := hall (List.replicate (n.off + n.totalLen) 0)
    (Nat.le_of_eq List.length_replicate.symm)
  have hlen : (List.replicate (n.off + n.totalLen) (0 : Byte)).length = n.off + n.totalLen :=
    List.length_replicate
  generalize List.replicate (n.off + n.totalLen) (0 : Byte) = buf at hemit hframe hlen
  have hblock := n.block_length_eq
  have hdata := n.paddedData_length
  have hpad := le_pad16 n.data.length
  unfold Node.NameFits at hlong
  rw [emit_eq (emit_packs hemit)] at hemit
  split at hemit
  · cases hemit
  · obtain rfl := Except.ok.inj hemit
    -- nothing is written behind the entry
    have hend : (setSlice (setSlice buf n.off n.block) (n.off + n.hdrLen) n.paddedData).length ≤
        n.off + n.totalLen := by
      have hnone := hframe (n.off + n.totalLen) (.inr (Nat.le_refl _))
      rw [List.getElem?_eq_none (Nat.le_of_eq hlen)] at hnone
      exact List.getElem?_eq_none_iff.1 hnone
    have htotal : n.totalLen = n.hdrLen + n.paddedData.length := by rw [hdata, Node.totalLen]
    have hlen₁ := setSlice_length_max (l := n.block) (show n.off ≤ buf.length by omega)
    have hlen₂ := setSlice_length_max (l := n.paddedData)
      (show n.off + n.hdrLen ≤ (setSlice buf n.off n.block).length by omega)
    have hroom : n.off + n.block.length ≤ buf.length := by omega
    -- the data has taken the place of the end of the name
    have hleft : SliceAt (setSlice (setSlice buf n.off n.block) (n.off + n.hdrLen) n.paddedData)
        (n.off + 16) ((encode n.name).take (n.hdrLen - 16)) := by
      have hslice := sliceAt_setSlice hroom
      generalize setSlice buf n.off n.block = first at hslice hlen₁ ⊢
      rw [Node.block, sliceAt_append, head_length] at hslice
      have hpadded := hslice.2
      rw [Node.paddedName,
        List.append_assoc, ← List.take_append_drop (n.hdrLen - 16) (encode n.name),
        List.append_assoc, sliceAt_append] at hpadded
      refine hpadded.1.setSlice (by omega) (.inl ?_)
      have hle : 16 + n.name.length + 1 ≤ n.hdrLen := le_pad16 _
      have htake := List.length_take_le (n.hdrLen - 16) (encode n.name)
      omega
    obtain ⟨stop, hstop, hshort⟩ := readEntry_data hread
    have hge := indexNul_ge (fun h => encode_nulFree hname (List.mem_of_mem_take h)) hleft hstop
    have hmod := n.hdrLen_mod
    have hmod' := pad16_mod (stop + 1 - n.off)
    have hmod'' := pad16_mod n.data.length
    have hpad' := le_pad16 (stop + 1 - n.off)
    have hlt : pad16 n.data.length < n.data.length + 16 := alignUp_lt (by decide) _
    rw [List.length_take] at hge
    omega

/-- An entry is written faithfully exactly when its numbers fit and its name has as many
blocks of 16 in bytes as in characters. -/
theorem faithful_iff (hname : NulFree n.name) : n.Faithful ↔
    Packs n ∧ pad16 (16 + (encode n.name).length + 1) = pad16 (16 + n.name.length + 1) := by
  have hpad : pad16 (16 + (encode n.name).length + 1) = pad16 (16 + n.name.length + 1) ↔
      n.NameFits :=
    pad16_encode_iff n
  rw [hpad]
  constructor
  · intro h
    obtain ⟨header, -, -, hall⟩ := id h
    obtain ⟨buf', hemit, -⟩ := hall (List.replicate (n.off + n.totalLen) 0)
      (Nat.le_of_eq List.length_replicate.symm)
    exact ⟨emit_packs hemit, fits_of_faithful hname h⟩
  · rintro ⟨hpacks, hfits⟩
    exact faithful_of_fits hname hpacks hfits

end Names

/-- `é` and two bytes. -/
def accented : Node := { name := ['é'], kind := Kind.reg, data := [1, 2], off := 32, nxt := 64 }

theorem faithful_accented : accented.Faithful :=
  (faithful_iff (by decide)).2 ⟨⟨by decide, by decide, by decide⟩, by decide⟩

/-- Eleven letters and four accented ones: 15 characters, 19 bytes. -/
def longName : Node :=
  { name := List.replicate 11 'a' ++ List.replicate 4 'é', kind := Kind.reg, data := [1, 2] }

/-- The data takes the place of the end of the name, and its NUL. -/
theorem faithful_long : ¬ longName.Faithful ∧
    (emit (List.replicate 48 0) longName).toOption.map (fun buf => (buf.drop 16).take 20) =
      some (List.replicate 11 0x61 ++ [0xc3, 0xa9, 0xc3, 0xa9, 0xc3, 1, 2, 0, 0]) := by
  refine ⟨fun h => ?_, by decide +kernel⟩
  have hfits : 16 + (encode longName.name).length + 1 ≤ longName.hdrLen :=
    fits_of_faithful (by decide) h
  exact absurd hfits (by decide)

end P4Hyp.Romfs
