import P4Hyp.Mkflt.Resolve

/-!
# The addresses the linked instructions form

`Forms … L r a`: with the image loaded at `L`, the instructions that relocation
`r` has patched form the address `a`.
-/

namespace P4Hyp.Mkflt

/-- The image as the processor sees it, by offsets into it. -/
def imageMem (img : List Byte) : Mem := fun x => img.getD x.toNat 0

/-- The address the script has for the symbol of `r`. -/
def SymbolAt (sym : List Symbol) (r : Reloc) (a : Word) : Prop :=
  ∃ s, sym[r.sym.toNat]? = some s ∧ s.addr = some a

/-- What comes of executing the instructions of `r`, or of using its word, in the
image `m` loaded at `L`.  The other instruction of a pair is one of those `In`. -/
inductive Forms (sym : List Symbol) (In : Reloc → Prop) (m : Mem) (L : Word) : Reloc → Word → Prop
  | pairI {h l : Reloc} :
      h.type = .pcrelHi20 → In l → l.type = .pcrelLo12I → SymbolAt sym l h.site → Forms sym In m L h
        (Rv32.plusI (Rv32.auipc (L + h.site) (m.load32 h.site)) (m.load32 l.site))
  | pairS {h l : Reloc} :
      h.type = .pcrelHi20 → In l → l.type = .pcrelLo12S → SymbolAt sym l h.site → Forms sym In m L h
        (Rv32.plusS (Rv32.auipc (L + h.site) (m.load32 h.site)) (m.load32 l.site))
  | call {r : Reloc} : r.type.isCall = true →
      Forms sym In m L r
        (Rv32.jalr (Rv32.auipc (L + r.site) (m.load32 r.site)) (m.load32 (r.site + 4)))
  | jal {r : Reloc} : r.type = .jal → Forms sym In m L r (Rv32.jal (L + r.site) (m.load32 r.site))
  | branch {r : Reloc} : r.type = .branch →
      Forms sym In m L r (Rv32.branch (L + r.site) (m.load32 r.site))
  | distance {r : Reloc} : r.type = .rv32Pcrel → Forms sym In m L r (L + r.site + m.load32 r.site)
  /-- An absolute pair, whatever the two add to their symbol, forms the lower half's. -/
  | absoluteI {h l : Reloc} : l.type = .lo12I → In h → h.type = .hi20 → h.sym = l.sym →
      Forms sym In m L l (Rv32.plusI (Rv32.lui (m.load32 h.site)) (m.load32 l.site))
  | absoluteS {h l : Reloc} : l.type = .lo12S → In h → h.type = .hi20 → h.sym = l.sym →
      Forms sym In m L l (Rv32.plusS (Rv32.lui (m.load32 h.site)) (m.load32 l.site))
  /-- An upper half alone is put with the lower half that the address has at `L`. -/
  | upper {r : Reloc} {t : Word} : r.type = .hi20 → SymbolAt sym r t →
      Forms sym In m L r (Rv32.lui (m.load32 r.site) + lo12 (L + (t + r.addend)))
  /-- And a lower half alone with its upper half. -/
  | lowerI {r : Reloc} {t : Word} : r.type = .lo12I → SymbolAt sym r t →
      Forms sym In m L r (Rv32.plusI (hi20 (L + (t + r.addend)) <<< 12) (m.load32 r.site))
  | lowerS {r : Reloc} {t : Word} : r.type = .lo12S → SymbolAt sym r t →
      Forms sym In m L r (Rv32.plusS (hi20 (L + (t + r.addend)) <<< 12) (m.load32 r.site))
  | word {r : Reloc} : r.type = .set32 ∨ r.type = .add32 ∨ r.type = .sub32 →
      Forms sym In m L r (m.load32 r.site)

namespace Object

variable (o : Object)

/-- The symbol of `r` is defined at `t` in a placed section. -/
def Located (sym : List Symbol) (r : Reloc) (t : Word) : Prop :=
  ∃ s b, sym[r.sym.toNat]? = some s ∧ s.shndx ≠ shnAbs ∧ s.shndx ≠ shnUndef ∧
    o.base s.shndx.toNat = some b ∧ t = b + s.value

/-- The bytes of a section, by their offsets. -/
def contents (s : Section) : Mem :=
  fun i => if s.isNobits then 0 else o.d.getD (s.offset.toNat + i.toNat) 0

end Object

variable {o : Object} {obj : Str} {sym : List Symbol} {rs : List Reloc} {m m' : Mem} {L : Word}
  {r : Reloc}

theorem Object.Located.symAddr (hsym : o.symbols obj = .ok sym) {t : Word} (h : o.Located sym r t) :
    symAddr sym obj r.sym = .ok t := by
  obtain ⟨s, b, hs, habs, hundef, hb, rfl⟩ := h
  refine symAddr_eq_ok.2 ⟨s, hs, ?_⟩
  rw [symbols_addr hsym (List.mem_of_getElem? hs), addrOf, if_neg habs, if_neg hundef, hb]

theorem SymbolAt.symAddr {a : Word} (h : SymbolAt sym r a) : symAddr sym obj r.sym = .ok a :=
  symAddr_eq_ok.2 h

/-! ## What each kind of relocation forms -/

section Kinds

variable {a v : Word}

theorem Relocated.call_forms (h : Relocated sym obj rs m m' r a v) (hcall : r.type.isCall = true)
    (pc : Word) :
    Rv32.jalr (Rv32.auipc pc (m'.load32 r.site)) (m'.load32 (r.site + 4)) = pc + v ↔
      (pc + v).toNat % 2 = 0 := by
  have hword : m'.load32 r.site = putU (m.load32 r.site) (hi20 v) := by
    rw [h.word]
    cases ht : r.type <;> rw [ht] at hcall <;> first | rfl | cases hcall
  rw [hword, h.second hcall]
  exact jalr_auipc_eq_iff _ _ _ _

theorem Relocated.jal_forms (h : Relocated sym obj rs m m' r a v) (ht : r.type = .jal) (pc : Word) :
    Rv32.jal pc (m'.load32 r.site) = pc + v ↔ v.toNat % 2 = 0 := by
  rw [h.word, ht]
  exact jal_putJ_eq_iff _ _ (h.jal ht)

theorem Relocated.branch_forms (h : Relocated sym obj rs m m' r a v) (ht : r.type = .branch)
    (pc : Word) :
    Rv32.branch pc (m'.load32 r.site) = pc + v ↔ v.toNat % 2 = 0 := by
  rw [h.word, ht]
  exact branch_putB_eq_iff _ _ (h.branch ht)

variable {l : Reloc} {b u : Word}

/-- The lower half names the site of the upper one, and was given its value. -/
theorem Relocated.lower_value (hl : Relocated sym obj rs m m' l b u) (hlo : l.type.isPcrelLo = true)
    (hat : SymbolAt sym l r.site) (hr : Relocated sym obj rs m m' r a v) (ht : r.type = .pcrelHi20)
    (honly : ∀ q ∈ rs, q.type = .pcrelHi20 → q.site = r.site → q = r) : u = v := by
  obtain ⟨q, hq, hqt, hqs, c, hc, rfl⟩ := hl.lower hlo
  obtain rfl : b = r.site := Except.ok.inj (hl.resolved.symm.trans hat.symAddr)
  obtain rfl := honly q hq hqt hqs
  obtain rfl : c = a := Except.ok.inj (hc.symm.trans hr.resolved)
  rw [hr.address (by rw [ht]; rfl), ht]
  rfl

theorem Relocated.pairI_forms (hr : Relocated sym obj rs m m' r a v) (ht : r.type = .pcrelHi20)
    (hl : Relocated sym obj rs m m' l b v) (hlt : l.type = .pcrelLo12I) (pc : Word) :
    Rv32.plusI (Rv32.auipc pc (m'.load32 r.site)) (m'.load32 l.site) = pc + v := by
  rw [hr.word, ht, hl.word, hlt]
  exact plusI_auipc _ _ _ _

theorem Relocated.pairS_forms (hr : Relocated sym obj rs m m' r a v) (ht : r.type = .pcrelHi20)
    (hl : Relocated sym obj rs m m' l b v) (hlt : l.type = .pcrelLo12S) (pc : Word) :
    Rv32.plusS (Rv32.auipc pc (m'.load32 r.site)) (m'.load32 l.site) = pc + v := by
  rw [hr.word, ht, hl.word, hlt]
  exact plusS_auipc _ _ _ _

theorem Relocated.upper_forms (h : Relocated sym obj rs m m' r a v) (ht : r.type = .hi20)
    (u : Word) :
    Rv32.lui (m'.load32 r.site) + lo12 u = u ↔ hi20 u <<< 12 = hi20 v <<< 12 := by
  have hu := hi20_add_lo12 u
  rw [h.word, ht]
  show Rv32.immU (putU _ (hi20 v)) + lo12 u = u ↔ _
  rw [immU_putU]
  constructor
  · intro he
    exact (BitVec.add_left_inj _).1 (hu.trans he.symm)
  · intro he
    rw [← he, hu]

theorem Relocated.lower_imm (h : Relocated sym obj rs m m' r a v) :
    (r.type = .lo12I → Rv32.immI (m'.load32 r.site) = lo12 v) ∧
      (r.type = .lo12S → Rv32.immS (m'.load32 r.site) = lo12 v) := by
  constructor <;> intro ht <;> rw [h.word, ht]
  · exact (immI_putI _ _).trans (signExtend_lo12 v)
  · exact (immS_putS _ _).trans (signExtend_lo12 v)

/-- An address is its own upper half with its own lower half, and with no other. -/
theorem upper_add_lower_iff (u : Word) : hi20 u <<< 12 + lo12 v = u ↔ lo12 u = lo12 v := by
  have hu := hi20_add_lo12 u
  constructor
  · intro he
    exact (BitVec.add_right_inj _).1 (hu.trans he.symm)
  · intro he
    rw [← he, hu]

end Kinds

/-! ## Relocations with a site of their own -/

/-- No other relocation touches the site of `r`. -/
def Exclusive (rs : List Reloc) (r : Reloc) : Prop :=
  ∃ pre post, rs = pre ++ r :: post ∧ ∀ q ∈ pre ++ post, ApartIn Reloc.site Reloc.len r q

/-- The site of `r` lies in the image. -/
def Inside (img : List Byte) (r : Reloc) : Prop := r.site.toNat + r.len ≤ img.length

theorem Exclusive.mem (h : Exclusive rs r) : r ∈ rs := by
  obtain ⟨pre, post, rfl, -⟩ := h
  simp

theorem Exclusive.only (h : Exclusive rs r) (ht : r.type = .pcrelHi20) :
    ∀ q ∈ rs, q.type = .pcrelHi20 → q.site = r.site → q = r := by
  obtain ⟨pre, post, rfl, hother⟩ := h
  intro q hq hqt hqs
  have hlen : ∀ p : Reloc, p.type = .pcrelHi20 → 0 < p.len := by
    intro p hp
    rw [Reloc.len, hp]
    decide
  have hmeet : ¬ ApartIn Reloc.site Reloc.len r q := by
    intro happart
    have hcov := covers_self (a := q.site) (hlen q hqt)
    rw [hqs] at hcov
    exact happart r.site (covers_self (hlen r ht)) (by rw [hqs]; exact hcov)
  rcases List.mem_append.1 hq with hq | hq
  · exact absurd (hother q (List.mem_append_left _ hq)) hmeet
  · rcases List.mem_cons.1 hq with rfl | hq
    · rfl
    · exact absurd (hother q (List.mem_append_right _ hq)) hmeet

theorem imageMem_blob {im : Image} {imageLen x : Word} (hx : x.toNat < (im.blob imageLen).length) :
    imageMem (im.blob imageLen) x = im.byte x := by
  rw [imageMem, List.getD_eq_getElem?_getD, List.getElem?_eq_getElem hx, Option.getD_some,
    Image.blob_byte hx, BitVec.ofNat_toNat, BitVec.setWidth_eq]

theorem agreeOn_imageMem {im : Image} {imageLen b : Word} {n : Nat}
    (h : b.toNat + n ≤ (im.blob imageLen).length) :
    Mem.AgreeOn im.byte (imageMem (im.blob imageLen)) b n := by
  intro x hx
  refine imageMem_blob ?_
  unfold Covers at hx
  rw [BitVec.toNat_sub] at hx
  have hb := b.isLt
  have hxlt := x.isLt
  have hlen : (im.blob imageLen).length ≤ Object.imageLimit := by
    rw [Image.blob_length]
    exact Nat.min_le_left _ _
  unfold Object.imageLimit at hlen
  omega

variable {a v : Word}

theorem Relocated.congr {m'' : Mem} (h : Relocated sym obj rs m m' r a v)
    (hagree : Mem.AgreeOn m' m'' r.site r.len) : Relocated sym obj rs m m'' r a v := by
  have hlen : r.len = if r.type.isCall then 8 else 4 := siteLen_of_isApplied h.type
  have hlen4 : 4 ≤ r.len := by
    rw [hlen]
    split <;> decide
  refine ⟨h.type, h.resolved, h.address, h.lower, ?_, ?_, h.branch, h.jal⟩
  · rw [Mem.load32_congr (hagree.mono hlen4), h.word]
  · intro hcall
    rw [if_pos hcall] at hlen
    have hnext := hagree.offset (o := 4) (k := 4) (Nat.le_of_eq hlen.symm) (by rw [hlen]; decide)
    rw [show r.site + 4 = r.site + BitVec.ofNat 32 4 from rfl, Mem.load32_congr hnext]
    exact h.second hcall

/-- Such a site holds in the file what its relocation made of what was there before. -/
theorem relocated_of_exclusive {image : Image} {st : Linking} {imageLen : Word}
    (hrun : rs.foldlM (relocate sym obj) { image, hi20At := fun _ => none } = .ok st)
    (hr : Exclusive rs r) (hin : Inside (st.image.blob imageLen) r)
      (hhint : r.type.isHint = false) :
    ∃ a v, Relocated sym obj rs image.byte (imageMem (st.image.blob imageLen)) r a v := by
  obtain ⟨pre, post, rfl, hother⟩ := hr
  obtain ⟨a, v, h⟩ := relocated_of_run hrun rfl hhint
    (fun q hq => hother q (List.mem_append_left _ hq))
      (fun q hq => hother q (List.mem_append_right _ hq))
  exact ⟨a, v, h.congr (agreeOn_imageMem hin)⟩

/-! ## The address formed -/

/-- A transfer can only go to an even address, and by an even displacement. -/
def EvenAt (L : Word) (r : Reloc) (t : Word) : Prop :=
  (r.type = .jal ∨ r.type = .branch → (t - r.site).toNat % 2 = 0) ∧
    (r.type.isCall = true → (L + t).toNat % 2 = 0)

theorem add_site_add (L t site : Word) : L + site + (t - site) = L + t := by
  rw [BitVec.add_assoc, BitVec.add_comm site, BitVec.sub_add_cancel]

/-- What a PC-relative relocation forms is the address it should be, unless that
is one that the transfer cannot reach. -/
theorem forms_eq_iff {In : Reloc → Prop} {x : Word}
    (hIn : ∀ q, In q → q.type.isHint = false → ∃ b u, Relocated sym obj rs m m' q b u)
    (hr : Relocated sym obj rs m m' r a v) (hpc : r.type.isPcRelative = true)
    (honly : r.type = .pcrelHi20 → ∀ q ∈ rs, q.type = .pcrelHi20 → q.site = r.site → q = r)
    (hforms : Forms sym In m' L r x) :
    x = L + (a + r.addend) ↔ EvenAt L r (a + r.addend) := by
  have hv : v = a + r.addend - r.site := by
    have hlo : r.type.isPcrelLo = false := by
      cases ht : r.type <;> rw [ht] at hpc <;> first | rfl | cases hpc
    rw [hr.address hlo, if_pos hpc]
  have hpcv : L + r.site + v = L + (a + r.addend) := by rw [hv, add_site_add]
  have heven : ∀ t : R, r.type = t → t ≠ .jal → t ≠ .branch → t.isCall = false →
      EvenAt L r (a + r.addend) := by
    rintro t rfl hj hb hc
    exact ⟨fun h => (h.elim hj hb).elim, fun h => by rw [hc] at h; cases h⟩
  cases hforms with
  | pairI ht hl hlt hat =>
      obtain ⟨b, u, hlrel⟩ := hIn _ hl (by rw [hlt]; rfl)
      obtain rfl := hlrel.lower_value (by rw [hlt]; rfl) hat hr ht (honly ht)
      rw [hr.pairI_forms ht hlrel hlt]
      exact iff_of_true hpcv (heven _ ht nofun nofun rfl)
  | pairS ht hl hlt hat =>
      obtain ⟨b, u, hlrel⟩ := hIn _ hl (by rw [hlt]; rfl)
      obtain rfl := hlrel.lower_value (by rw [hlt]; rfl) hat hr ht (honly ht)
      rw [hr.pairS_forms ht hlrel hlt]
      exact iff_of_true hpcv (heven _ ht nofun nofun rfl)
  | call hcall =>
      rw [← hpcv, hr.call_forms hcall, hpcv]
      refine ⟨fun h => ⟨fun hj => ?_, fun _ => h⟩, fun h => h.2 hcall⟩
      rcases hj with hj | hj <;> rw [hj] at hcall <;> cases hcall
  | jal ht =>
      rw [← hpcv, hr.jal_forms ht, hv]
      exact ⟨fun h => ⟨fun _ => h, fun hc => by rw [ht] at hc; cases hc⟩, fun h => h.1 (.inl ht)⟩
  | branch ht =>
      rw [← hpcv, hr.branch_forms ht, hv]
      exact ⟨fun h => ⟨fun _ => h, fun hc => by rw [ht] at hc; cases hc⟩, fun h => h.1 (.inr ht)⟩
  | distance ht =>
      rw [hr.word, ht]
      exact iff_of_true hpcv (heven _ ht nofun nofun rfl)
  | absoluteI ht | absoluteS ht | upper ht | lowerI ht | lowerS ht => rw [ht] at hpc; cases hpc
  | word ht => rcases ht with ht | ht | ht <;> rw [ht] at hpc <;> cases hpc

end P4Hyp.Mkflt
