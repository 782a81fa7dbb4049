import P4Hyp.Lib.Memory

/-!
# Searching memory, and C strings

`memcmp` of a pattern against memory is the comparison of the bytes there as a list.
A search goes up from the first offset, so what it finds is the first occurrence.
`strlen` is `none` where no byte of the memory is zero.
-/

namespace P4Hyp

/-- The bytes of a string literal. -/
def ascii (s : String) : List Byte := s.toList.map fun c => BitVec.ofNat 8 c.toNat

end P4Hyp

namespace P4Hyp.Mem

/-- The `n` bytes at `a`. -/
def bytes (m : Mem) (a : Word) (n : Nat) : List Byte :=
  (List.range n).map fun i => m (a + BitVec.ofNat 32 i)

@[simp] theorem bytes_length (m : Mem) (a : Word) (n : Nat) : (m.bytes a n).length = n := by
  rw [bytes, List.length_map, List.length_range]

theorem bytes_getElem {m : Mem} {a : Word} {n i : Nat} (hi : i < (m.bytes a n).length) :
    (m.bytes a n)[i] = m (a + BitVec.ofNat 32 i) := by
  simp only [bytes, List.getElem_map, List.getElem_range]

/-- Memory holds a list exactly when it holds each of its elements. -/
theorem bytes_eq_iff {m : Mem} {a : Word} {bs : List Byte} :
    m.bytes a bs.length = bs ↔ ∀ i (hi : i < bs.length), m (a + BitVec.ofNat 32 i) = bs[i] := by
  constructor
  · intro h i hi
    have hi' : i < (m.bytes a bs.length).length := by rwa [bytes_length]
    rw [← bytes_getElem hi']
    exact List.getElem_of_eq h hi'
  · intro h
    refine List.ext_getElem (bytes_length m a _) fun i hi hi' => ?_
    rw [bytes_getElem hi, h i hi']

/-- The distance of a byte from the start of its range. -/
theorem toNat_add_sub (a : Word) {i : Nat} (hi : i < 2 ^ 32) :
    (a + BitVec.ofNat 32 i - a).toNat = i := by
  rw [BitVec.toNat_sub, BitVec.toNat_add, BitVec.toNat_ofNat]
  have ha := a.isLt
  omega

/-- `memcpy` of a list. -/
def copy (m : Mem) (a : Word) (bs : List Byte) : Mem := m.fill a bs.length fun i => bs.getD i 0

theorem copy_outside {m : Mem} {a x : Word} {bs : List Byte} (h : ¬ Covers a bs.length x) :
    m.copy a bs x = m x := by
  rw [copy, fill_outside h]

theorem bytes_copy {m : Mem} {a : Word} {bs : List Byte} (h : bs.length ≤ 2 ^ 32) :
    (m.copy a bs).bytes a bs.length = bs := by
  refine bytes_eq_iff.mpr fun i hi => ?_
  rw [copy, fill_at hi h]
  exact (List.getElem_eq_getD 0).symm

/-! ## The first occurrence -/

/-- The offset below `rounds` at which a search first finds `bs`. -/
def search (m : Mem) (a : Word) (bs : List Byte) (rounds : Nat) : Option Nat :=
  (List.range rounds).find? fun i => decide (m.bytes (a + BitVec.ofNat 32 i) bs.length = bs)

/-- `i` is the first offset of `bs` in memory from `a` on. -/
structure FirstAt (m : Mem) (a : Word) (bs : List Byte) (i : Nat) : Prop where
  found : m.bytes (a + BitVec.ofNat 32 i) bs.length = bs
  first : ∀ j < i, m.bytes (a + BitVec.ofNat 32 j) bs.length ≠ bs

theorem FirstAt.unique {m : Mem} {a : Word} {bs : List Byte} {i j : Nat} (hi : m.FirstAt a bs i)
    (hj : m.FirstAt a bs j) : i = j := by
  by_contra hne
  obtain hlt | hlt := Nat.lt_or_gt_of_ne hne
  · exact hj.first i hlt hi.found
  · exact hi.first j hlt hj.found

theorem search_eq_some {m : Mem} {a : Word} {bs : List Byte} {rounds i : Nat} :
    m.search a bs rounds = some i ↔ i < rounds ∧ m.FirstAt a bs i := by
  unfold search
  rw [List.find?_range_eq_some]
  simp only [decide_eq_true_eq, List.mem_range, Bool.not_eq_eq_eq_not, Bool.not_true,
    decide_eq_false_iff_not]
  exact ⟨fun ⟨hf, hi, hmin⟩ => ⟨hi, hf, hmin⟩, fun ⟨hi, hf, hmin⟩ => ⟨hf, hi, hmin⟩⟩

theorem search_eq_none {m : Mem} {a : Word} {bs : List Byte} {rounds : Nat} :
    m.search a bs rounds = none ↔ ∀ i < rounds, m.bytes (a + BitVec.ofNat 32 i) bs.length ≠ bs := by
  unfold search
  rw [List.find?_range_eq_none]
  simp only [Bool.not_eq_eq_eq_not, Bool.not_true, decide_eq_false_iff_not]

/-! ## Strings -/

def strlenFuel (m : Mem) : Nat → Word → Option Nat
  | 0, _ => none
  | fuel + 1, a => if m a = 0 then some 0 else (strlenFuel m fuel (a + 1)).map (· + 1)

def strlen (m : Mem) (a : Word) : Option Nat := m.strlenFuel (2 ^ 32) a

theorem strlenFuel_eq_some {m : Mem} {fuel n : Nat} {a : Word} : m.strlenFuel fuel a = some n ↔
    n < fuel ∧ m (a + BitVec.ofNat 32 n) = 0 ∧ ∀ i < n, m (a + BitVec.ofNat 32 i) ≠ 0 := by
  induction fuel generalizing n a with
  | zero =>
      exact iff_of_false (fun h => by cases h) fun h => Nat.not_lt_zero _ h.1
  | succ fuel ih =>
      have hshift : ∀ i, a + 1 + BitVec.ofNat 32 i = a + BitVec.ofNat 32 (i + 1) := by
        intro i
        rw [BitVec.add_assoc, BitVec.ofNat_add, BitVec.add_comm 1]
        rfl
      have h0 : a + BitVec.ofNat 32 0 = a := BitVec.add_zero a
      unfold strlenFuel
      by_cases ha : m a = 0
      · rw [if_pos ha]
        constructor
        · intro h
          obtain rfl := Option.some.inj h
          exact ⟨Nat.succ_pos fuel, h0.symm ▸ ha, fun i hi => absurd hi (Nat.not_lt_zero i)⟩
        · rintro ⟨-, -, hne⟩
          cases n with
          | zero => rfl
          | succ n => exact absurd (h0.symm ▸ ha) (hne 0 (Nat.succ_pos n))
      · rw [if_neg ha]
        cases n with
        | zero =>
            refine iff_of_false ?_ fun h => ha (h0 ▸ h.2.1)
            cases m.strlenFuel fuel (a + 1) with
            | none => exact fun h => by cases h
            | some k => exact fun h => Nat.succ_ne_zero k (Option.some.inj h)
        | succ n =>
            have hmap : (m.strlenFuel fuel (a + 1)).map (· + 1) = some (n + 1) ↔
                m.strlenFuel fuel (a + 1) = some n := by
              cases m.strlenFuel fuel (a + 1) with
              | none => exact iff_of_false (fun h => by cases h) fun h => by cases h
              | some k => exact ⟨fun h => congrArg some (Nat.succ.inj (Option.some.inj h)),
                  fun h => congrArg (Option.map (· + 1)) h⟩
            rw [hmap, ih, hshift]
            constructor
            · rintro ⟨hlt, hend, hne⟩
              refine ⟨Nat.succ_lt_succ hlt, hend, fun i hi => ?_⟩
              cases i with
              | zero => rwa [h0]
              | succ i => exact hshift i ▸ hne i (Nat.lt_of_succ_lt_succ hi)
            · rintro ⟨hlt, hend, hne⟩
              exact ⟨Nat.lt_of_succ_lt_succ hlt, hend,
                fun i hi => hshift i ▸ hne (i + 1) (Nat.succ_lt_succ hi)⟩

theorem strlen_eq_some {m : Mem} {n : Nat} {a : Word} : m.strlen a = some n ↔
    n < 2 ^ 32 ∧ m (a + BitVec.ofNat 32 n) = 0 ∧ ∀ i < n, m (a + BitVec.ofNat 32 i) ≠ 0 :=
  strlenFuel_eq_some

/-- Memory holds `bs` as a C string. -/
def IsString (m : Mem) (a : Word) (bs : List Byte) : Prop :=
  m.strlen a = some bs.length ∧ m.bytes a bs.length = bs

/-- Clearing a string and copying a shorter one over it leaves that one. -/
theorem isString_overwrite {m : Mem} {a : Word} {n : Nat} {bs : List Byte}
    (hn : m.strlen a = some n) (hle : bs.length ≤ n) (hbs : 0 ∉ bs) :
    ((m.fill a n fun _ => 0).copy a bs).IsString a bs := by
  obtain ⟨hlt, hend, -⟩ := strlen_eq_some.mp hn
  refine ⟨strlen_eq_some.mpr ⟨Nat.lt_of_le_of_lt hle hlt, ?_, ?_⟩, bytes_copy (by omega)⟩
  · have hout : ¬ Covers a bs.length (a + BitVec.ofNat 32 bs.length) := by
      unfold Covers
      rw [toNat_add_sub a (by omega)]
      exact Nat.lt_irrefl _
    rw [copy_outside hout]
    by_cases heq : bs.length = n
    · -- the old string's own terminator
      rw [fill_outside (heq ▸ hout), heq, hend]
    · rw [fill_at (by omega) (by omega)]
  · intro i hi
    rw [copy, fill_at hi (by omega)]
    show bs.getD i 0 ≠ 0
    rw [← List.getElem_eq_getD (h := hi) 0]
    exact fun h => hbs (h ▸ List.getElem_mem hi)

/-! ## Memories that agree -/

section Agree

variable {m m' : Mem} {a : Word} {n : Nat}

theorem bytes_congr {o k : Nat} (h : AgreeOn m m' a n) (hn : n ≤ 2 ^ 32) (hok : o + k ≤ n) :
    m'.bytes (a + BitVec.ofNat 32 o) k = m.bytes (a + BitVec.ofNat 32 o) k := by
  refine List.map_congr_left fun i hi => h.offset hok hn _ ?_
  have := List.mem_range.mp hi
  exact covers_at this (by omega)

theorem FirstAt.congr {bs : List Byte} {i : Nat} (h : AgreeOn m m' a n) (hn : n ≤ 2 ^ 32)
    (hi : i + bs.length ≤ n) (hf : m.FirstAt a bs i) : m'.FirstAt a bs i where
  found := by rw [bytes_congr h hn hi, hf.found]
  first j hj := by
    rw [bytes_congr h hn (by omega)]
    exact hf.first j hj

theorem strlen_congr {o k : Nat} (h : AgreeOn m m' a n) (hn : n ≤ 2 ^ 32) (hok : o + k < n)
    (hs : m.strlen (a + BitVec.ofNat 32 o) = some k) :
      m'.strlen (a + BitVec.ofNat 32 o) = some k := by
  have hat {i : Nat} (hi : i ≤ k) : m' (a + BitVec.ofNat 32 o + BitVec.ofNat 32 i) =
      m (a + BitVec.ofNat 32 o + BitVec.ofNat 32 i) :=
    h.offset (k := k + 1) hok hn _ (covers_at (by omega) (by omega))
  obtain ⟨hlt, hend, hne⟩ := strlen_eq_some.mp hs
  refine strlen_eq_some.mpr ⟨hlt, ?_, fun i hi => ?_⟩
  · rw [hat (Nat.le_refl k), hend]
  · rw [hat (Nat.le_of_lt hi)]
    exact hne i hi

end Agree

end P4Hyp.Mem
