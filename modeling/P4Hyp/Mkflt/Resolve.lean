import P4Hyp.Mkflt.Output

/-!
# What a relocation is resolved to

A symbol has a location when it is absolute or lies in an allocatable section.
A symbol without a base keeps its value as its address, which is right only
where its section would be at the start of the image.
-/

namespace P4Hyp.Mkflt

variable {o : Object} {obj : Str} {objcopy : Str → Dump} {stack : Word} {file : List Byte}
  {sym : List Symbol} {rs : List Reloc}

theorem symAddr_eq_ok {k a : Word} :
    symAddr sym obj k = .ok a ↔ ∃ s, sym[k.toNat]? = some s ∧ s.addr = some a := by
  unfold symAddr
  cases sym[k.toNat]? with
  | none => simp
  | some s =>
      dsimp only
      cases hs : s.addr with
      | none => simp [hs]
      | some b => simp [hs]

theorem Object.symbols_addr (hsym : o.symbols obj = .ok sym) {s : Symbol} (hs : s ∈ sym) :
    s.addr = o.addrOf s.shndx s.value := by
  unfold symbols at hsym
  cases htab : o.symtab with
  | none => simp [htab] at hsym
  | some symtab =>
      simp only [htab] at hsym
      obtain ⟨k, -, hk⟩ := mem_of_mapM_eq_ok hsym hs
      simp only [symbol, bind_eq_ok] at hk
      obtain ⟨shndx, -, value, -, off, -, name, -, hk⟩ := hk
      cases hk
      rfl

theorem Object.relocs_site (hrs : o.relocs = .ok rs) {r : Reloc} (hr : r ∈ rs) :
    ∃ b, o.base r.target = some b ∧ r.site = b + r.off := by
  obtain ⟨⟨s, b, k⟩, he, hread⟩ := mem_of_mapM_eq_ok hrs hr
  obtain ⟨t, -, ht⟩ := List.mem_flatMap.1 he
  split at ht
  · cases hb : o.base t.info.toNat with
    | none => simp [hb] at ht
    | some c =>
        simp only [hb] at ht
        obtain ⟨k', -, hk⟩ := List.mem_map.1 ht
        cases hk
        simp only [readReloc, bind_eq_ok] at hread
        obtain ⟨off, -, info, -, addend, -, hr'⟩ := hread
        cases hr'
        exact ⟨b, hb, rfl⟩
  · simp at ht

/-! ## Locations -/

namespace Object

/-- `a` is where the symbol is, by the section it is defined in. -/
def Genuine (o : Object) (s : Symbol) (a : Word) : Prop :=
  s.shndx = shnAbs ∧ a = s.value ∨
    ∃ t, o.sec[s.shndx.toNat]? = some t ∧ t.isAlloc = true ∧ a = o.baseIn s.shndx.toNat t + s.value

/-- The symbol is absolute, or its section has a base that is not taken for 0 in error. -/
def HasBase (o : Object) (s : Symbol) : Prop :=
  s.shndx = shnAbs ∨
    ∃ t, o.sec[s.shndx.toNat]? = some t ∧ t.isAlloc = true ∧
      (0 < t.size.toInt ∨ o.baseIn s.shndx.toNat t = 0)

theorem genuine_iff {s : Symbol} {a : Word} (h : o.addrOf s.shndx s.value = some a) :
    o.Genuine s a ↔ o.HasBase s := by
  unfold addrOf at h
  by_cases habs : s.shndx = shnAbs
  · rw [if_pos habs] at h
    exact iff_of_true (.inl ⟨habs, (Option.some.inj h).symm⟩) (.inl habs)
  · rw [if_neg habs] at h
    by_cases hundef : s.shndx = shnUndef
    · rw [if_pos hundef] at h
      cases h
    · rw [if_neg hundef] at h
      cases hb : o.base s.shndx.toNat with
      | some b =>
          rw [hb] at h
          obtain ⟨t, ht, halloc, hsize, rfl⟩ := base_eq_some_iff.1 hb
          exact iff_of_true (.inr ⟨t, ht, halloc, (Option.some.inj h).symm⟩)
            (.inr ⟨t, ht, halloc, .inl hsize⟩)
      | none =>
          rw [hb] at h
          obtain rfl : s.value = a := Option.some.inj h
          constructor
          · rintro (⟨h, -⟩ | ⟨t, ht, halloc, ha⟩)
            · exact absurd h habs
            · exact .inr ⟨t, ht, halloc, .inr (BitVec.add_left_eq_self.1 ha.symm)⟩
          · rintro (h | ⟨t, ht, halloc, hsize | hzero⟩)
            · exact absurd h habs
            · rw [base_eq ht halloc hsize] at hb
              cases hb
            · exact .inr ⟨t, ht, halloc, by rw [hzero]; exact (BitVec.zero_add _).symm⟩

end Object

/-- In an accepted object every relocation found an address. -/
theorem Object.resolved_of_link (hlink : o.link obj objcopy stack = .ok file)
    (hsym : o.symbols obj = .ok sym) (hrs : o.relocs = .ok rs) {r : Reloc} (hr : r ∈ rs)
    (hhint : r.type.isHint = false) : ∃ a, symAddr sym obj r.sym = .ok a := by
  obtain ⟨image, st, -, hrun, -⟩ := link_eq_ok hlink hsym hrs
  obtain ⟨t, t', hstep⟩ := step_of_mem hrun hr
  rcases relocate_eq_ok hstep with ⟨h, -⟩ | ⟨a, v, happlies⟩
  · rw [hhint] at h
    cases h
  · exact ⟨a, happlies.resolved⟩

/-- The address a relocation is given is the location of its symbol exactly when
that is absolute or its section has its bytes, or none before it, in the image. -/
theorem Object.resolves_iff (hlink : o.link obj objcopy stack = .ok file)
    (hsym : o.symbols obj = .ok sym) (hrs : o.relocs = .ok rs) {r : Reloc} (hr : r ∈ rs)
    (hhint : r.type.isHint = false) :
    (∃ s a, sym[r.sym.toNat]? = some s ∧ symAddr sym obj r.sym = .ok a ∧ o.Genuine s a) ↔
      ∃ s, sym[r.sym.toNat]? = some s ∧ o.HasBase s := by
  obtain ⟨a, ha⟩ := resolved_of_link hlink hsym hrs hr hhint
  obtain ⟨s, hs, haddr⟩ := symAddr_eq_ok.1 ha
  rw [symbols_addr hsym (List.mem_of_getElem? hs)] at haddr
  constructor
  · rintro ⟨s', a', hs', ha', hgen⟩
    obtain rfl : s = s' := Option.some.inj (hs.symm.trans hs')
    obtain rfl : a = a' := Except.ok.inj (ha.symm.trans ha')
    exact ⟨s, hs, (genuine_iff haddr).1 hgen⟩
  · rintro ⟨s', hs', hbase⟩
    obtain rfl : s = s' := Option.some.inj (hs.symm.trans hs')
    exact ⟨s, a, hs, ha, (genuine_iff haddr).2 hbase⟩

/-! ## A common symbol -/

/-- An object with one section of code, as the assembler lays it out. -/
def oneText (text rela symtab : List Byte) : Object where
  d := text ++ rela ++ symtab ++ [0]
  sec :=
    let len (l : List Byte) : Word := BitVec.ofNat 32 l.length
    let header (name : String) (type flags offset size link info align : Word) : Section :=
      { name := name.toList, type, flags, offset, size, link, info, align, entsize := 0 }
    [header "" 0 0 0 0 0 0 0, header ".text" 1 6 0 (len text) 0 0 4,
      header ".rela.text" 4 0x40 (len text) (len rela) 3 1 4,
      header ".symtab" 2 0 (len (text ++ rela)) (len symtab) 4 1 4,
      header ".strtab" 3 0 (len (text ++ rela ++ symtab)) 1 0 0 1]

/-- `auipc ra, 0; jalr ra, 0(ra)` -/
def callText : List Byte := [0x97, 0, 0, 0, 0xe7, 0x80, 0, 0]

/-- `call f`, with `f` at `value` in section `shndx`. -/
def callObject (value shndx : Byte × Byte) : Object :=
  oneText callText [0, 0, 0, 0, 19, 1, 0, 0, 0, 0, 0, 0]
    (List.replicate 16 0 ++
      [0, 0, 0, 0, value.1, value.2, 0, 0, 0, 0, 0, 0, 0x12, 0, shndx.1, shndx.2])

def callHeader : List Byte :=
  [98, 70, 76, 84] ++ be32 4 ++ be32 64 ++ be32 72 ++ be32 72 ++ be32 72 ++ be32 8192 ++ be32 72 ++
    be32 0 ++ be32 1 ++ List.replicate 24 0

/-- The file of a call to the start of its own section. -/
theorem callObject_link : (callObject (0, 0) (1, 0)).link [] (fun _ => .wrote callText) 8192 =
    .ok (callHeader ++ callText) := by
  decide +kernel

/-- A call to `.comm buf, 4` goes to the alignment of `buf`. -/
theorem callObject_common_link :
    (callObject (4, 0) (0xf2, 0xff)).link [] (fun _ => .wrote callText) 8192 =
      .ok (callHeader ++ [0x97, 0, 0, 0, 0xe7, 0x80, 0x40, 0]) := by
  decide +kernel

def callReloc : Reloc := { target := 1, off := 0, site := 0, number := 19, sym := 1, addend := 0 }

theorem resolves_local :
    ∃ s a, [Symbol.mk [] 0 0 none, ⟨[], 0, 1, some 0⟩][callReloc.sym.toNat]? = some s ∧
    symAddr [Symbol.mk [] 0 0 none, ⟨[], 0, 1, some 0⟩] [] callReloc.sym = .ok a ∧
      (callObject (0, 0) (1, 0)).Genuine s a := by
  have hsym : (callObject (0, 0) (1, 0)).symbols [] =
      .ok [⟨[], 0, 0, none⟩, ⟨[], 0, 1, some 0⟩] := by
    decide +kernel
  have hrs : (callObject (0, 0) (1, 0)).relocs = .ok [callReloc] := by decide +kernel
  refine (Object.resolves_iff callObject_link hsym hrs (List.mem_singleton_self _) rfl).2 ?_
  exact ⟨_, rfl, .inr ⟨_, rfl, by decide, .inl (by decide)⟩⟩

/-- A common symbol is resolved to its alignment. -/
theorem resolves_common : ¬ ∀ (o : Object) (obj : Str) (objcopy : Str → Dump) (stack : Word)
    (file : List Byte) (sym : List Symbol) (rs : List Reloc), o.link obj objcopy stack = .ok file →
      o.symbols obj = .ok sym → o.relocs = .ok rs → ∀ r ∈ rs, r.type.isHint = false →
        ∃ s a, sym[r.sym.toNat]? = some s ∧ symAddr sym obj r.sym = .ok a ∧ o.Genuine s a := by
  intro h
  have hsym : (callObject (4, 0) (0xf2, 0xff)).symbols [] =
      .ok [⟨[], 0, 0, none⟩, ⟨[], 4, 0xfff2, some 4⟩] := by
    decide +kernel
  have hrs : (callObject (4, 0) (0xf2, 0xff)).relocs = .ok [callReloc] := by decide +kernel
  obtain ⟨s, a, hs, -, hgen⟩ := h _ [] _ _ _ _ _ callObject_common_link hsym hrs callReloc
    (List.mem_singleton_self _) rfl
  obtain rfl := Option.some.inj hs
  rcases hgen with ⟨habs, -⟩ | ⟨t, ht, -⟩
  · exact absurd habs (by decide)
  · exact absurd ht nofun

end P4Hyp.Mkflt
