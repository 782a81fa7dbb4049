import P4Hyp.Mkflt.Formed

/-!
# Position independence

The image runs at any address because everything in it is measured from where
it is.  A word that the script computes from an address alone is not right at
every load address.
-/

namespace P4Hyp.Mkflt

namespace Object

variable (o : Object)

/-- How many bytes of the image are written. -/
def imageSize : Nat := min imageLimit o.layout.imageLen.toInt.toNat

/-- `r` has a site of its own in the image that is written. -/
def Own (rs : List Reloc) (r : Reloc) : Prop :=
  Exclusive rs r ∧ r.site.toNat + r.len ≤ o.imageSize

/-- Wherever the image is loaded, so that its instructions are at even addresses,
an address formed for a symbol of a placed section is the one it is loaded at. -/
def PositionIndependent (sym : List Symbol) (rs : List Reloc) (img : List Byte) : Prop :=
  ∀ r, o.Own rs r → ∀ t, o.Located sym r t → ∀ L : Word, (L + r.site).toNat % 2 = 0 →
    ∀ x, Forms sym (o.Own rs) (imageMem img) L r x → x = L + (t + r.addend)

end Object

/-- The relocation is one that this format can serve. -/
structure Reloc.Served (r : Reloc) (t : Word) : Prop where
  transfer : r.type = .jal ∨ r.type = .branch ∨ r.type.isCall = true →
    (t + r.addend - r.site).toNat % 2 = 0
  absolute : r.type.isAbsolute = false

variable {o : Object} {obj : Str} {objcopy : Str → Dump} {stack : Word} {file : List Byte}
  {sym : List Symbol} {rs : List Reloc} {r : Reloc} {m m' : Mem} {L : Word}

theorem even_add_iff {site : Word} (h : (L + site).toNat % 2 = 0) (t : Word) :
    (L + t).toNat % 2 = 0 ↔ (t - site).toNat % 2 = 0 := by
  rw [BitVec.toNat_add] at h ⊢
  rw [BitVec.toNat_sub]
  have := L.isLt
  have := t.isLt
  have := site.isLt
  omega

theorem evenAt_iff (h : (L + r.site).toNat % 2 = 0) (t : Word) :
    EvenAt L r t ↔ (r.type = .jal ∨ r.type = .branch ∨ r.type.isCall = true →
      (t - r.site).toNat % 2 = 0) := by
  unfold EvenAt
  rw [even_add_iff h]
  tauto

/-- There is more than one load address that puts the instruction at an even address. -/
theorem exists_load (site : Word) :
    ∃ L L' : Word, L ≠ L' ∧ (L + site).toNat % 2 = 0 ∧ (L' + site).toNat % 2 = 0 := by
  have hlt := site.isLt
  by_cases h : site.toNat % 2 = 0
  · refine ⟨2, 4, by decide, ?_, ?_⟩ <;> rw [BitVec.toNat_add] <;> simp <;> omega
  · refine ⟨1, 3, by decide, ?_, ?_⟩ <;> rw [BitVec.toNat_add] <;> simp <;> omega

/-- A word that is the same at every load address is no address. -/
theorem no_word {site y : Word} {t : Word} :
    ¬ ∀ L : Word, (L + site).toNat % 2 = 0 → y = L + t := by
  obtain ⟨L, L', hne, hL, hL'⟩ := exists_load site
  intro h
  exact hne ((BitVec.add_left_inj t).1 ((h L hL).symm.trans (h L' hL')))

/-- What comes of the address alone is wrong where the image is loaded elsewhere. -/
theorem absolute_moves {In : Reloc → Prop} {a v : Word} (h : Relocated sym obj rs m m' r a v)
    (habs : r.type.isAbsolute = true) : ¬ ∀ L : Word, (L + r.site).toNat % 2 = 0 →
      ∀ x, Forms sym In m' L r x → x = L + (a + r.addend) := by
  have hat : SymbolAt sym r a := symAddr_eq_ok.1 h.resolved
  obtain ⟨-, hpc, hlo⟩ := R.kind_of_isAbsolute habs
  have hv : v = a + r.addend := by
    rw [h.address hlo, hpc, if_neg Bool.false_ne_true]
  intro hall
  have hword : ¬ (r.type = .set32 ∨ r.type = .add32 ∨ r.type = .sub32) := fun ht =>
    no_word fun L hL => hall L hL _ (.word ht)
  have hlower : ∀ x : Word → Word, (∀ L, Forms sym In m' L r (x L)) →
      ¬ ∀ L, x L = hi20 (L + (a + r.addend)) <<< 12 + lo12 v := by
    intro x hx hsum
    obtain ⟨L, hL, hne⟩ := exists_lo12_ne r.site v
    have haddress := hall L hL _ (hx L)
    rw [hsum, upper_add_lower_iff, ← hv] at haddress
    exact hne haddress
  cases ht : r.type with
  | hi20 =>
      obtain ⟨L, hL, hne⟩ := exists_hi20_ne r.site v
      have haddress := (h.upper_forms ht _).1 (hall L hL _ (.upper ht hat))
      rw [← hv] at haddress
      exact hne haddress
  | lo12I =>
      refine hlower _ (fun L => .lowerI ht hat) fun L => ?_
      rw [Rv32.plusI, h.lower_imm.1 ht]
  | lo12S =>
      refine hlower _ (fun L => .lowerS ht hat) fun L => ?_
      rw [Rv32.plusS, h.lower_imm.2 ht]
  | set32 => exact hword (.inl ht)
  | add32 => exact hword (.inr (.inl ht))
  | sub32 => exact hword (.inr (.inr ht))
  | _ =>
      rw [ht] at habs
      cases habs

/-- A hint changes nothing, and forms nothing. -/
theorem not_forms_of_isHint {In : Reloc → Prop} {x : Word} (hhint : r.type.isHint = true) :
    ¬ Forms sym In m L r x := by
  intro hx
  cases hx with
  | pairI ht | pairS ht | jal ht | branch ht | distance ht | absoluteI ht | absoluteS ht | upper ht
  | lowerI ht | lowerS ht =>
      rw [ht] at hhint
      cases hhint
  | call ht =>
      rw [R.isHint_of_isPcRelative (R.isPcRelative_of_isCall ht)] at hhint
      cases hhint
  | word ht => rcases ht with ht | ht | ht <;> rw [ht] at hhint <;> cases hhint

theorem served_of_isHint {t : Word} (hhint : r.type.isHint = true) : r.Served t := by
  refine ⟨?_, Bool.eq_false_iff.2 fun habs => ?_⟩
  · rintro (ht | ht | ht)
    · rw [ht] at hhint
      cases hhint
    · rw [ht] at hhint
      cases hhint
    · rw [R.isHint_of_isPcRelative (R.isPcRelative_of_isCall ht)] at hhint
      cases hhint
  · rw [(R.kind_of_isAbsolute habs).1] at hhint
    cases hhint

/-- One relocation, at every load address. -/
theorem served_iff {a v : Word}
    (hrel : ∀ q, o.Own rs q → q.type.isHint = false → ∃ b u, Relocated sym obj rs m m' q b u)
    (hown : o.Own rs r) (h : Relocated sym obj rs m m' r a v) :
    (∀ L : Word, (L + r.site).toNat % 2 = 0 → ∀ x, Forms sym (o.Own rs) m' L r x →
        x = L + (a + r.addend)) ↔ r.Served a := by
  constructor
  · intro hall
    refine ⟨?_, ?_⟩
    · intro htransfer
      obtain ⟨L, -, -, hL, -⟩ := exists_load r.site
      have heven : ∀ x, Forms sym (o.Own rs) m' L r x → r.type.isPcRelative = true →
          (a + r.addend - r.site).toNat % 2 = 0 := fun x hx hpc =>
        (evenAt_iff hL _).1 ((forms_eq_iff hrel h hpc hown.1.only hx).1 (hall L hL x hx)) htransfer
      rcases htransfer with ht | ht | ht
      · exact heven _ (.jal ht) (by rw [ht]; rfl)
      · exact heven _ (.branch ht) (by rw [ht]; rfl)
      · exact heven _ (.call ht) (R.isPcRelative_of_isCall ht)
    · exact Bool.eq_false_iff.2 fun habs => absolute_moves h habs hall
  · intro hserved L hL x hx
    cases hpc : r.type.isPcRelative with
    | true =>
        exact (forms_eq_iff hrel h hpc hown.1.only hx).2 ((evenAt_iff hL _).2 hserved.transfer)
    | false =>
        have habs := hserved.absolute
        cases hx with
        | pairI ht | pairS ht | jal ht | branch ht | distance ht => rw [ht] at hpc; cases hpc
        | call ht =>
            rw [R.isPcRelative_of_isCall ht] at hpc
            cases hpc
        | absoluteI ht | absoluteS ht | upper ht | lowerI ht | lowerS ht =>
            rw [ht] at habs
            cases habs
        | word ht => rcases ht with ht | ht | ht <;> rw [ht] at habs <;> cases habs

/-- What the script refuses to link: a stored pointer. -/
theorem Object.no_rv32 (hlink : o.link obj objcopy stack = .ok file)
    (hsym : o.symbols obj = .ok sym) (hrs : o.relocs = .ok rs) : ∀ r ∈ rs, r.type ≠ .rv32 := by
  intro r hr ht
  obtain ⟨image, st, -, hrun, -⟩ := link_eq_ok hlink hsym hrs
  obtain ⟨t, t', hstep⟩ := step_of_mem hrun hr
  rcases relocate_eq_ok hstep with ⟨h, -⟩ | ⟨a, v, happlies⟩
  · rw [ht] at h
    cases h
  · have htype := happlies.type
    rw [ht] at htype
    cases htype

theorem Object.positionIndependent_iff (hlink : o.link obj objcopy stack = .ok file)
    (hsym : o.symbols obj = .ok sym) (hrs : o.relocs = .ok rs) :
    (∀ r ∈ rs, r.type ≠ .rv32) ∧
      (o.PositionIndependent sym rs (file.drop 64) ↔
        ∀ r, o.Own rs r → ∀ t, o.Located sym r t → r.Served t) := by
  refine ⟨no_rv32 hlink hsym hrs, ?_⟩
  obtain ⟨image, st, -, hrun, hfile⟩ := link_eq_ok hlink hsym hrs
  rw [hfile]
  have hrel : ∀ q, o.Own rs q → q.type.isHint = false → ∃ b u,
      Relocated sym obj rs image.byte (imageMem (st.image.blob o.layout.imageLen)) q b u := by
    intro q hq hhint
    refine relocated_of_exclusive hrun hq.1 ?_ hhint
    rw [Inside, Image.blob_length]
    exact hq.2
  unfold PositionIndependent
  refine forall_congr' fun r => forall_congr' fun hown => forall_congr' fun t =>
    forall_congr' fun ht => ?_
  cases hhint : r.type.isHint with
  | true =>
      exact iff_of_true (fun _ _ _ hx => absurd hx (not_forms_of_isHint hhint))
        (served_of_isHint hhint)
  | false =>
      obtain ⟨a, v, h⟩ := hrel r hown hhint
      obtain rfl : a = t := Except.ok.inj (h.resolved.symm.trans (ht.symAddr hsym))
      exact served_iff hrel hown h

theorem positionIndependent_call : (callObject (0, 0) (1, 0)).PositionIndependent
    [⟨[], 0, 0, none⟩, ⟨[], 0, 1, some 0⟩] [callReloc] ((callHeader ++ callText).drop 64) := by
  have hsym : (callObject (0, 0) (1, 0)).symbols [] =
      .ok [⟨[], 0, 0, none⟩, ⟨[], 0, 1, some 0⟩] := by
    decide +kernel
  have hrs : (callObject (0, 0) (1, 0)).relocs = .ok [callReloc] := by decide +kernel
  refine (Object.positionIndependent_iff callObject_link hsym hrs).2.2 ?_
  intro r hr t ht
  obtain rfl := List.mem_singleton.1 hr.1.mem
  obtain ⟨s, b, hs, -, -, hb, rfl⟩ := ht
  obtain rfl := Option.some.inj hs
  obtain rfl := Option.some.inj hb
  exact ⟨fun _ => by decide +kernel, rfl⟩

/-! ## An absolute address -/

/-- `lui a0, 0; addi a0, a0, 0` -/
def absoluteText : List Byte := [0x37, 5, 0, 0, 0x13, 5, 5, 0]

/-- `lui a0, %hi(f); addi a0, a0, %lo(f)`, with `f` at the start. -/
def absoluteObject : Object :=
  oneText absoluteText [0, 0, 0, 0, 26, 1, 0, 0, 0, 0, 0, 0, 4, 0, 0, 0, 27, 1, 0, 0, 0, 0, 0, 0]
    (List.replicate 16 0 ++ [0, 0, 0, 0, 0, 0, 0, 0, 0, 0, 0, 0, 0x12, 0, 1, 0])

def upperReloc : Reloc := { callReloc with number := 26 }
def lowerReloc : Reloc := { target := 1, off := 4, site := 4, number := 27, sym := 1, addend := 0 }

/-- The pair gives the offset in the image wherever that is loaded. -/
theorem positionIndependent_absolute : ¬ ∀ (o : Object) (obj : Str) (objcopy : Str → Dump)
    (stack : Word) (file : List Byte) (sym : List Symbol) (rs : List Reloc),
      o.link obj objcopy stack = .ok file → o.symbols obj = .ok sym → o.relocs = .ok rs →
        o.PositionIndependent sym rs (file.drop 64) := by
  intro h
  have hlink : absoluteObject.link [] (fun _ => .wrote absoluteText) 8192 =
      .ok (callHeader ++ absoluteText) := by
    decide +kernel
  have hsym : absoluteObject.symbols [] = .ok [⟨[], 0, 0, none⟩, ⟨[], 0, 1, some 0⟩] := by
    decide +kernel
  have hrs : absoluteObject.relocs = .ok [upperReloc, lowerReloc] := by decide +kernel
  have hpos := h _ _ _ _ _ _ _ hlink hsym hrs
  have hupper : absoluteObject.Own [upperReloc, lowerReloc] upperReloc :=
    ⟨⟨[], [lowerReloc], rfl, by decide +kernel⟩, by decide +kernel⟩
  have hlower : absoluteObject.Own [upperReloc, lowerReloc] lowerReloc :=
    ⟨⟨[upperReloc], [], rfl, by decide +kernel⟩, by decide +kernel⟩
  have haddress := hpos lowerReloc hlower 0 ⟨_, 0, rfl, by decide, by decide, rfl, rfl⟩ 0x1000
    (by decide) _ (.absoluteI rfl hupper rfl rfl)
  exact absurd haddress (by decide +kernel)

end P4Hyp.Mkflt
