import P4Hyp.Lib.Patch
import P4Hyp.Mkflt.Link

/-!
# What a run did

An accepted object has had all its relocations read and applied one after the
other, each of them in its own site.
-/

namespace P4Hyp.Mkflt

@[simp] theorem die_eq_ok {α : Type} (text : Str) (a : α) : (die text = .ok a) = False :=
  eq_false fun h => nomatch h

/-! ## One relocation -/

namespace R

/-- What comes out of a word that a relocation of this type writes the value `v` into. -/
def patched (v w : Word) : R → Word
  | .rv32Pcrel | .set32 => v
  | .add32 => w + v
  | .sub32 => w - v
  | .pcrelHi20 | .hi20 | .call | .callPlt => putU w (Mkflt.hi20 v)
  | .pcrelLo12I | .lo12I => putI w (lo12 v)
  | .pcrelLo12S | .lo12S => putS w (lo12 v)
  | .branch => putB w v
  | .jal => putJ w v
  | _ => w

def isHint : R → Bool
  | .none | .relax => true
  | _ => false

def isCall : R → Bool
  | .call | .callPlt => true
  | _ => false

/-- Measured from the site. -/
def isPcRelative : R → Bool
  | .rv32Pcrel | .pcrelHi20 | .branch | .jal | .call | .callPlt => true
  | _ => false

/-- Takes its value from the `auipc` that its symbol is on. -/
def isPcrelLo : R → Bool
  | .pcrelLo12I | .pcrelLo12S => true
  | _ => false

/-- Its word comes of the address alone. -/
def isAbsolute : R → Bool
  | .hi20 | .lo12I | .lo12S | .set32 | .add32 | .sub32 => true
  | _ => false

/-- What `relocate` does not refuse, hints aside. -/
def isApplied : R → Bool
  | .rv32Pcrel | .pcrelHi20 | .branch | .jal | .call | .callPlt | .pcrelLo12I | .pcrelLo12S | .hi20
  | .lo12I | .lo12S | .add32 | .sub32 | .set32 => true
  | _ => false

theorem isPcRelative_of_isCall {t : R} (h : t.isCall = true) : t.isPcRelative = true := by
  cases t <;> first | rfl | cases h

theorem isHint_of_isPcRelative {t : R} (h : t.isPcRelative = true) : t.isHint = false := by
  cases t <;> first | rfl | cases h

theorem kind_of_isAbsolute {t : R} (h : t.isAbsolute = true) :
    t.isHint = false ∧ t.isPcRelative = false ∧ t.isPcrelLo = false := by
  cases t <;> first | exact ⟨rfl, rfl, rfl⟩ | cases h

def siteLen : R → Nat
  | .none | .relax => 0
  | .call | .callPlt => 8
  | _ => 4

end R

/-- The value that a relocation against the address `a` writes. -/
def Linking.value (st : Linking) (r : Reloc) (a : Word) : Option Word :=
  if r.type.isPcrelLo then st.hi20At a
  else if r.type.isPcRelative then some (a + r.addend - r.site)
  else some (a + r.addend)

def Reloc.write (r : Reloc) (v : Word) (m : Mem) : Mem :=
  let m' := m.store32 r.site (r.type.patched v (m.load32 r.site))
  if r.type.isCall then m'.store32 (r.site + 4) (putI (m'.load32 (r.site + 4)) (lo12 v)) else m'

/-- The relocation `r`, against the address `a`, takes `st` to `st'` with the value `v`. -/
structure Applies (sym : List Symbol) (obj : Str) (r : Reloc) (st st' : Linking) (a v : Word) :
    Prop where
  type : r.type.isApplied = true
  resolved : symAddr sym obj r.sym = .ok a
  value : st.value r a = some v
  byte : st'.image.byte = r.write v st.image.byte
  hi20At : st'.hi20At = if r.type = .pcrelHi20 then
    fun x => if x = r.site then some v else st.hi20At x else st.hi20At
  branch : r.type = .branch → InRange v 13
  jal : r.type = .jal → InRange v 21

theorem rd32_eq_ok {im : Image} {off w : Word} (h : im.rd32 off = .ok w) :
    w = im.byte.load32 off := by
  unfold Image.rd32 at h
  split at h
  · exact (Except.ok.inj h).symm
  · cases h

theorem checkRange_eq_ok {v off : Word} {bits : Nat} {what : String} {u : Unit}
    (hbits : 1 ≤ bits ∧ bits < 32) (h : checkRange v bits what off = .ok u) : InRange v bits := by
  have hpow : 2 ^ (bits - 1) < 2 ^ 31 := Nat.pow_lt_pow_right (by decide) (by omega)
  have hnat : ((1 : Word) <<< (bits - 1)).toNat = 2 ^ (bits - 1) := by
    rw [BitVec.toNat_shiftLeft, Nat.shiftLeft_eq, Nat.mod_eq_of_lt (by simp; omega)]
    simp
  have hlimit : ((1 : Word) <<< (bits - 1)).toInt = ((2 ^ (bits - 1) : Nat) : Int) := by
    rw [BitVec.toInt_eq_toNat_of_lt (by omega), hnat]
  have hneg : (-((1 : Word) <<< (bits - 1))).toInt = -((2 ^ (bits - 1) : Nat) : Int) := by
    have hpos := Nat.two_pow_pos (bits - 1)
    rw [BitVec.toInt_eq_toNat_cond, BitVec.toNat_neg, hnat]
    split <;> omega
  dsimp only [checkRange] at h
  split at h
  · cases h
  · unfold InRange
    rw [hlimit, hneg] at *
    push_cast at *
    omega

section Cases

variable {sym : List Symbol} {obj : Str} {st st' : Linking} {r : Reloc}

/-- What the relocation of an address writes, the lower half of a pair aside. -/
theorem value_of_address {t : R} {a : Word} (ht : r.type = t) (hlo : t.isPcrelLo = false) :
    st.value r a =
      some (if t.isPcRelative then a + r.addend - r.site else a + r.addend) := by
  subst ht
  rw [Linking.value, hlo, if_neg Bool.false_ne_true]
  exact (apply_ite some _ _ _).symm

theorem value_of_pcrelLo {t : R} {a v : Word} (ht : r.type = t) (hlo : t.isPcrelLo = true)
    (hv : st.hi20At a = some v) : st.value r a = some v := by
  subst ht
  rw [Linking.value, if_pos hlo, hv]

theorem write_of_word {v : Word} {m : Mem} (hcall : r.type.isCall = false) :
    r.write v m = m.store32 r.site (r.type.patched v (m.load32 r.site)) := by
  rw [Reloc.write, hcall, if_neg Bool.false_ne_true]

/-- A relocation of one word, whose `patched` is what the script wrote. -/
theorem applies_word {t : R} {a v x : Word} (ht : r.type = t) (happlied : t.isApplied = true)
    (hcall : t.isCall = false) (hhi : t ≠ .pcrelHi20) (ha : symAddr sym obj r.sym = .ok a)
    (hv : st.value r a = some v) (hx : x = t.patched v (st.image.byte.load32 r.site))
    (hb : t = .branch → InRange v 13) (hj : t = .jal → InRange v 21) :
    t.isHint = true ∧ st.write r.site x = st ∨
      ∃ a v, Applies sym obj r st (st.write r.site x) a v := by
  subst ht hx
  exact .inr ⟨a, v, happlied, ha, hv, (write_of_word hcall).symm, (if_neg hhi).symm, hb, hj⟩

theorem relocate_eq_ok (h : relocate sym obj st r = .ok st') :
    r.type.isHint = true ∧ st' = st ∨ ∃ a v, Applies sym obj r st st' a v := by
  cases ht : r.type <;> simp only [relocate, ht, die_eq_ok, bind_eq_ok] at h
  case none | relax => exact .inl ⟨rfl, (Except.ok.inj h).symm⟩
  case branch =>
      obtain ⟨a, ha, u, hrange, w, hw, hst⟩ := h
      cases hst
      exact applies_word ht rfl rfl nofun ha (value_of_address ht rfl)
        (congrArg (putB · _) (rd32_eq_ok hw)) (fun _ => checkRange_eq_ok (by decide) hrange) nofun
  case jal =>
      obtain ⟨a, ha, u, hrange, w, hw, hst⟩ := h
      cases hst
      exact applies_word ht rfl rfl nofun ha (value_of_address ht rfl)
        (congrArg (putJ · _) (rd32_eq_ok hw)) nofun fun _ => checkRange_eq_ok (by decide) hrange
  case rv32Pcrel =>
      obtain ⟨a, ha, hst⟩ := h
      cases hst
      exact applies_word ht rfl rfl nofun ha (value_of_address ht rfl) rfl nofun nofun
  case hi20 =>
      obtain ⟨a, ha, w, hw, hst⟩ := h
      cases hst
      exact applies_word ht rfl rfl nofun ha (value_of_address ht rfl)
        (congrArg (putU · _) (rd32_eq_ok hw)) nofun nofun
  case lo12I =>
      obtain ⟨a, ha, w, hw, hst⟩ := h
      cases hst
      exact applies_word ht rfl rfl nofun ha (value_of_address ht rfl)
        (congrArg (putI · _) (rd32_eq_ok hw)) nofun nofun
  case lo12S =>
      obtain ⟨a, ha, w, hw, hst⟩ := h
      cases hst
      exact applies_word ht rfl rfl nofun ha (value_of_address ht rfl)
        (congrArg (putS · _) (rd32_eq_ok hw)) nofun nofun
  case pcrelHi20 =>
      obtain ⟨a, ha, w, hw, hst⟩ := h
      cases hst
      obtain rfl := rd32_eq_ok hw
      refine .inr ⟨a, _, by rw [ht]; rfl, ha, value_of_address ht rfl, ?_, (if_pos ht).symm, ?_, ?_⟩
      · rw [write_of_word (by rw [ht]; rfl), ht]
        rfl
      · exact fun h => absurd (ht.symm.trans h) nofun
      · exact fun h => absurd (ht.symm.trans h) nofun
  case pcrelLo12I =>
      obtain ⟨a, ha, h⟩ := h
      cases hv : st.hi20At a with
      | none => simp [hv] at h
      | some v =>
          simp only [hv, if_true, bind_eq_ok] at h
          obtain ⟨w, hw, hst⟩ := h
          cases hst
          exact applies_word ht rfl rfl nofun ha (value_of_pcrelLo ht rfl hv)
            (congrArg (putI · _) (rd32_eq_ok hw)) nofun nofun
  case pcrelLo12S =>
      obtain ⟨a, ha, h⟩ := h
      cases hv : st.hi20At a with
      | none => simp [hv] at h
      | some v =>
          simp only [hv, reduceCtorEq, if_false, bind_eq_ok] at h
          obtain ⟨w, hw, hst⟩ := h
          cases hst
          exact applies_word ht rfl rfl nofun ha (value_of_pcrelLo ht rfl hv)
            (congrArg (putS · _) (rd32_eq_ok hw)) nofun nofun
  case call | callPlt =>
      obtain ⟨a, ha, w, hw, w', hw', hst⟩ := h
      cases hst
      obtain rfl := rd32_eq_ok hw
      obtain rfl := rd32_eq_ok hw'
      refine .inr ⟨a, _, by rw [ht]; rfl, ha, value_of_address ht rfl, ?_, ?_, ?_, ?_⟩
      · rw [Reloc.write, ht]
        rfl
      · rw [ht]
        rfl
      · exact fun h => absurd (ht.symm.trans h) nofun
      · exact fun h => absurd (ht.symm.trans h) nofun
  case add8 | add16 | sub8 | sub16 | sub6 | set6 | set8 | set16 => simp at h
  case add32 =>
      obtain ⟨a, ha, h⟩ := h
      simp only [if_true, bind_eq_ok] at h
      obtain ⟨w, hw, hst⟩ := h
      cases hst
      exact applies_word ht rfl rfl nofun ha (value_of_address ht rfl)
        (congrArg (· + _) (rd32_eq_ok hw)) nofun nofun
  case sub32 =>
      obtain ⟨a, ha, h⟩ := h
      simp only [reduceCtorEq, if_true, if_false, bind_eq_ok] at h
      obtain ⟨w, hw, hst⟩ := h
      cases hst
      exact applies_word ht rfl rfl nofun ha (value_of_address ht rfl)
        (congrArg (· - _) (rd32_eq_ok hw)) nofun nofun
  case set32 =>
      obtain ⟨a, ha, h⟩ := h
      simp only [reduceCtorEq, if_true, if_false] at h
      cases h
      exact applies_word ht rfl rfl nofun ha (value_of_address ht rfl) rfl nofun nofun

end Cases

/-! ## All of them -/

theorem siteLen_of_isApplied {t : R} (h : t.isApplied = true) :
    t.siteLen = if t.isCall then 8 else 4 := by
  cases t <;> first | rfl | cases h

theorem write_outside {r : Reloc} {v : Word} {m : Mem} {x : Word}
    (happlied : r.type.isApplied = true)
    (hx : ¬ Covers r.site r.type.siteLen x) : r.write v m x = m x := by
  rw [siteLen_of_isApplied happlied] at hx
  cases hcall : r.type.isCall with
  | false =>
      rw [hcall] at hx
      rw [write_of_word hcall]
      exact Mem.fill_outside hx
  | true =>
      rw [hcall, if_pos rfl] at hx
      rw [Reloc.write, if_pos hcall]
      have hlast : ¬ Covers (r.site + 4) 4 x := fun hc =>
        hx (covers_of_offset (o := 4) (by decide) (by decide) hc)
      exact (Mem.fill_outside hlast).trans
        (Mem.fill_outside fun hc => hx (covers_mono (by decide) hc))

variable {sym : List Symbol} {obj : Str}

abbrev Linking.mem (st : Linking) : Mem := st.image.byte

abbrev Reloc.len (r : Reloc) : Nat := r.type.siteLen

theorem relocate_local : Local (relocate sym obj) Linking.mem Reloc.site Reloc.len := by
  intro r st st' h x hx
  rcases relocate_eq_ok h with ⟨-, rfl⟩ | ⟨a, v, happlies⟩
  · rfl
  · show st'.image.byte x = st.image.byte x
    rw [happlies.byte]
    exact write_outside happlies.type hx

/-- What a map of values says that some relocations have made. -/
def HiOf (sym : List Symbol) (obj : Str) (rs : List Reloc) (hi20At : Word → Option Word) : Prop :=
  ∀ x v, hi20At x = some v → ∃ h ∈ rs, h.type = .pcrelHi20 ∧ h.site = x ∧
    ∃ a, symAddr sym obj h.sym = .ok a ∧ v = a + h.addend - h.site

theorem hiOf_of_run {rs : List Reloc} {st st' : Linking}
    (h : rs.foldlM (relocate sym obj) st = .ok st')
    (hst : st.hi20At = fun _ => none) : HiOf sym obj rs st'.hi20At := by
  refine foldlM_keeps (P := fun t => HiOf sym obj rs t.hi20At) ?_ h ?_
  · intro r hr t t' ht hof
    rcases relocate_eq_ok ht with ⟨-, rfl⟩ | ⟨a, v, happlies⟩
    · exact hof
    · intro x w hxw
      rw [happlies.hi20At] at hxw
      by_cases htype : r.type = .pcrelHi20
      · rw [if_pos htype] at hxw
        by_cases hx : x = r.site
        · rw [if_pos hx] at hxw
          have hval := happlies.value
          rw [value_of_address htype rfl] at hval
          refine ⟨r, hr, htype, hx.symm, a, happlies.resolved, ?_⟩
          rw [← Option.some.inj hxw, ← Option.some.inj hval]
          rfl
        · rw [if_neg hx] at hxw
          exact hof x w hxw
      · rw [if_neg htype] at hxw
        exact hof x w hxw
  · intro x v hv
    rw [hst] at hv
    cases hv

/-- What is found at the site of a relocation when all have been applied: `v` is
the value it wrote there, `w` and `w'` are the words it found. -/
structure Relocated (sym : List Symbol) (obj : Str) (rs : List Reloc) (m m' : Mem) (r : Reloc)
    (a v : Word) : Prop where
  type : r.type.isApplied = true
  resolved : symAddr sym obj r.sym = .ok a
  address : r.type.isPcrelLo = false →
    v = if r.type.isPcRelative then a + r.addend - r.site else a + r.addend
  lower : r.type.isPcrelLo = true → ∃ h ∈ rs, h.type = .pcrelHi20 ∧ h.site = a ∧
    ∃ b, symAddr sym obj h.sym = .ok b ∧ v = b + h.addend - h.site
  word : m'.load32 r.site = r.type.patched v (m.load32 r.site)
  second : r.type.isCall = true → m'.load32 (r.site + 4) = putI (m.load32 (r.site + 4)) (lo12 v)
  branch : r.type = .branch → InRange v 13
  jal : r.type = .jal → InRange v 21

theorem apart_next (a : Word) : Apart a 4 (a + 4) 4 := by
  simpa using apart_of_offsets (a := a) (o := 0) (n := 4) (p := 4) (k := 4) (by decide) (by decide)

theorem write_load32 {r : Reloc} {v : Word} {m : Mem} :
    (r.write v m).load32 r.site = r.type.patched v (m.load32 r.site) := by
  cases hcall : r.type.isCall with
  | false => rw [write_of_word hcall, Mem.load32_store32]
  | true =>
      rw [Reloc.write, if_pos hcall, Mem.load32_store32_apart (apart_next r.site),
        Mem.load32_store32]

theorem write_load32_second {r : Reloc} {v : Word} {m : Mem} (hcall : r.type.isCall = true) :
    (r.write v m).load32 (r.site + 4) = putI (m.load32 (r.site + 4)) (lo12 v) := by
  rw [Reloc.write, if_pos hcall, Mem.load32_store32,
    Mem.load32_store32_apart (apart_next r.site).symm]

theorem relocated_of_run {pre post : List Reloc} {r : Reloc} {st st' : Linking}
    (h : (pre ++ r :: post).foldlM (relocate sym obj) st = .ok st')
    (hst : st.hi20At = fun _ => none) (hhint : r.type.isHint = false)
    (hpre : ∀ b ∈ pre, ApartIn Reloc.site Reloc.len r b)
    (hpost : ∀ b ∈ post, ApartIn Reloc.site Reloc.len r b) :
    ∃ a v, Relocated sym obj (pre ++ r :: post) st.mem st'.mem r a v := by
  obtain ⟨t, t', ht, hstep, hbefore, hafter⟩ := relocate_local.at_range h hpre hpost
  rcases relocate_eq_ok hstep with ⟨hh, -⟩ | ⟨a, v, happlies⟩
  · rw [hhint] at hh
    cases hh
  · have hbyte := happlies.byte
    refine ⟨a, v, happlies.type, happlies.resolved, ?_, ?_, ?_, ?_, happlies.branch, happlies.jal⟩
    · intro hlo
      have hval := happlies.value
      rw [value_of_address rfl hlo] at hval
      exact (Option.some.inj hval).symm
    · intro hlo
      have hval := happlies.value
      rw [Linking.value, if_pos hlo] at hval
      obtain ⟨k, hk, hrest⟩ := hiOf_of_run ht hst a v hval
      exact ⟨k, List.mem_append_left _ hk, hrest⟩
    · have hlen : 4 ≤ r.len := by
        rw [Reloc.len, siteLen_of_isApplied happlies.type]
        split <;> decide
      have hafter4 := hafter.mono hlen
      have hbefore4 := hbefore.mono hlen
      rw [Mem.load32_congr hafter4, Linking.mem, hbyte, write_load32, Mem.load32_congr hbefore4]
    · intro hcall
      have hlen : r.len = 8 := by rw [Reloc.len, siteLen_of_isApplied happlies.type, if_pos hcall]
      have hafter4 := hafter.offset (o := 4) (k := 4) (Nat.le_of_eq hlen.symm)
        (by rw [hlen]; decide)
      have hbefore4 := hbefore.offset (o := 4) (k := 4) (Nat.le_of_eq hlen.symm)
        (by rw [hlen]; decide)
      rw [show r.site + 4 = r.site + BitVec.ofNat 32 4 from rfl,
        Mem.load32_congr hafter4, Linking.mem, hbyte, ← Mem.load32_congr hbefore4]
      exact write_load32_second hcall

end P4Hyp.Mkflt
