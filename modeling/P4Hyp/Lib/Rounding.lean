import Mathlib.Data.Int.Log
import Mathlib.Data.Rat.Floor
import Mathlib.Tactic.Linarith

/-!
# Rounding to a number of digits

A positive number is rounded to so many digits of a base, to the nearest and, of two that are
as near, to the even one.  A finite double is the number that it stands for.
-/

namespace P4Hyp.Rounding

section Whole

variable {K : Type*} [Field K] [LinearOrder K] [FloorRing K]

/-- The whole number nearest to `x`, the even one of two. -/
def roundEven (x : K) : ℤ :=
  if Int.fract x < 1 / 2 ∨ Int.fract x = 1 / 2 ∧ ⌊x⌋ % 2 = 0 then ⌊x⌋ else ⌊x⌋ + 1

/-- `x` as a number of `p` digits to the base `β`, times a power of `β`. -/
def roundDigits (β p : ℕ) (x : K) : K :=
  roundEven (x / (β : K) ^ (Int.log β x + 1 - p)) * (β : K) ^ (Int.log β x + 1 - p)

variable {x : K} {n : ℤ}

theorem roundEven_cases (x : K) : roundEven x = ⌊x⌋ ∨ roundEven x = ⌊x⌋ + 1 := by
  unfold roundEven
  split
  · exact .inl rfl
  · exact .inr rfl

theorem le_roundEven (h : (n : K) ≤ x) : n ≤ roundEven x := by
  have hfloor : n ≤ ⌊x⌋ := Int.le_floor.mpr h
  rcases roundEven_cases x with he | he <;> omega

variable [IsStrictOrderedRing K]

theorem roundEven_le (h : x ≤ n) : roundEven x ≤ n := by
  rcases roundEven_cases x with he | he
  · rw [he]
    exact Int.cast_le.mp ((Int.floor_le x).trans h)
  · rw [he, Int.add_one_le_iff]
    -- above the floor there is something left, so that is below `n`
    refine Int.floor_lt.mpr (lt_of_le_of_ne h ?_)
    rintro rfl
    unfold roundEven at he
    rw [Int.fract_intCast, if_pos (.inl (by norm_num))] at he
    omega

/-- Below an even number is what is below the middle between it and the one before. -/
theorem roundEven_lt_iff (hn : n % 2 = 0) : roundEven x < n ↔ x < n - 1 / 2 := by
  have hsum := Int.floor_add_fract x
  have hfract := Int.fract_lt_one x
  have hfract' := Int.fract_nonneg x
  rcases lt_trichotomy ⌊x⌋ (n - 1) with hlt | he | hgt
  · have hcast : (⌊x⌋ : K) ≤ n - 2 := by
      exact_mod_cast (show ⌊x⌋ ≤ n - 2 by omega)
    refine iff_of_true ?_ (by linarith)
    rcases roundEven_cases x with he | he <;> omega
  · have hcast : (⌊x⌋ : K) = n - 1 := by
      rw [he]
      push_cast
      rfl
    unfold roundEven
    split
    · rename_i hdown
      have hhalf : Int.fract x < 1 / 2 := by
        rcases hdown with h | ⟨-, h⟩
        · exact h
        · omega
      exact iff_of_true (by omega) (by linarith)
    · rename_i hup
      rw [not_or] at hup
      exact iff_of_false (by omega) (by linarith [not_lt.mp hup.1])
  · have hcast : (n : K) ≤ ⌊x⌋ := by
      exact_mod_cast (show n ≤ ⌊x⌋ by omega)
    refine iff_of_false ?_ (by linarith)
    rcases roundEven_cases x with he | he <;> omega

/-! ## Digits -/

section Digits

variable {β p : ℕ} {e : ℤ}

/-- The value of one in the last place, `e` digits above which `x` ends. -/
theorem digits_unit (hβ : 1 < β) (hp : 0 < p) : 0 < (β : K) ^ (e - p) ∧
    ((β ^ (p - 1) : ℕ) : K) * (β : K) ^ (e - p) = (β : K) ^ (e - 1) ∧
    ((β ^ p : ℕ) : K) * (β : K) ^ (e - p) = (β : K) ^ e := by
  have hpos : (0 : K) < β := by exact_mod_cast (show 0 < β by omega)
  refine ⟨zpow_pos hpos _, ?_, ?_⟩
  · rw [Nat.cast_pow, ← zpow_natCast, ← zpow_add₀ hpos.ne']
    congr 1
    omega
  · rw [Nat.cast_pow, ← zpow_natCast, ← zpow_add₀ hpos.ne']
    congr 1
    omega

/-- Rounding does not leave the powers of the base that `x` is between. -/
theorem roundDigits_bounds (hβ : 1 < β) (hp : 0 < p) (hx : 0 < x) :
    (β : K) ^ Int.log β x ≤ roundDigits β p x ∧
      roundDigits β p x ≤ (β : K) ^ (Int.log β x + 1) := by
  have hlo : (β : K) ^ Int.log β x ≤ x := Int.zpow_log_le_self hβ hx
  have hhi : x < (β : K) ^ (Int.log β x + 1) := Int.lt_zpow_succ_log_self hβ x
  obtain ⟨hunit, hleast, hmost⟩ := digits_unit (K := K) (e := Int.log β x + 1) hβ hp
  rw [Int.add_sub_cancel] at hleast
  unfold roundDigits
  constructor
  · have hdigits : ((β ^ (p - 1) : ℕ) : K) ≤ x / (β : K) ^ (Int.log β x + 1 - p) := by
      rw [le_div_iff₀ hunit, hleast]
      exact hlo
    rw [← hleast]
    refine mul_le_mul_of_nonneg_right ?_ hunit.le
    exact_mod_cast le_roundEven (n := (β ^ (p - 1) : ℕ)) (by exact_mod_cast hdigits)
  · have hdigits : x / (β : K) ^ (Int.log β x + 1 - p) ≤ ((β ^ p : ℕ) : K) := by
      rw [div_le_iff₀ hunit, hmost]
      exact hhi.le
    rw [← hmost]
    refine mul_le_mul_of_nonneg_right ?_ hunit.le
    exact_mod_cast roundEven_le (n := (β ^ p : ℕ)) (by exact_mod_cast hdigits)

/-- What is rounded up to a power of an even base: the middle below it, and beyond. -/
theorem roundDigits_lt_iff (hβ : 1 < β) (heven : β % 2 = 0) (hp : 0 < p) (hx : 0 < x) :
    roundDigits β p x < (β : K) ^ e ↔ x < (β : K) ^ e - (β : K) ^ (e - p) / 2 := by
  have hbase : (1 : K) < β := by exact_mod_cast hβ
  have hlo : (β : K) ^ Int.log β x ≤ x := Int.zpow_log_le_self hβ hx
  have hhi : x < (β : K) ^ (Int.log β x + 1) := Int.lt_zpow_succ_log_self hβ x
  obtain ⟨hlo', hhi'⟩ := roundDigits_bounds hβ hp hx
  obtain ⟨hunit, hleast, hmost⟩ := digits_unit (K := K) (e := e) hβ hp
  rcases lt_trichotomy (Int.log β x + 1) e with hlt | he | hgt
  · -- `x` ends below the last place of the power
    have hbelow : (β : K) ^ (Int.log β x + 1) ≤ (β : K) ^ (e - 1) :=
      zpow_le_zpow_right₀ hbase.le (by omega)
    have hstep : (β : K) ^ (e - 1) + (β : K) ^ (e - p) ≤ (β : K) ^ e := by
      rw [← hleast, ← hmost, ← add_one_mul]
      refine mul_le_mul_of_nonneg_right ?_ hunit.le
      exact_mod_cast Nat.pow_lt_pow_right hβ (by omega)
    exact iff_of_true (by linarith) (by linarith)
  · have hevenp : ((β ^ p : ℕ) : ℤ) % 2 = 0 := by
      obtain ⟨k, rfl⟩ : ∃ k, p = k + 1 := ⟨p - 1, by omega⟩
      have hmod : β ^ (k + 1) % 2 = 0 := by
        rw [Nat.pow_succ, Nat.mul_mod, heven, Nat.mul_zero, Nat.zero_mod]
      omega
    have hround := roundEven_lt_iff (x := x / (β : K) ^ (e - p)) hevenp
    unfold roundDigits
    rw [he, ← hmost, mul_lt_mul_iff_left₀ hunit]
    have hcast : (((β ^ p : ℕ) : ℤ) : K) = ((β ^ p : ℕ) : K) := Int.cast_natCast _
    rw [← hcast, Int.cast_lt, hround, hcast, div_lt_iff₀ hunit]
    ring_nf
  · have habove : (β : K) ^ e ≤ (β : K) ^ Int.log β x := zpow_le_zpow_right₀ hbase.le (by omega)
    exact iff_of_false (by linarith) (by linarith)

end Digits

end Whole

/-! ## Doubles -/

/-- The double nearest to `x`, if the largest is not too small.  `x` is nothing, or at least
`2 ^ -1022`. -/
def binary64 (x : ℚ) : Option ℚ :=
  if roundDigits 2 53 x < 2 ^ 1024 then some (roundDigits 2 53 x) else none

theorem binary64_isSome_iff {x : ℚ} (hx : 0 < x) :
    (binary64 x).isSome ↔ x < 2 ^ 1024 - 2 ^ 970 := by
  have hhalf : (2 : ℚ) ^ (1024 - ((53 : ℕ) : ℤ)) / 2 = 2 ^ 970 := by
    rw [show (1024 : ℤ) - (53 : ℕ) = ((970 + 1 : ℕ) : ℤ) from rfl, zpow_natCast, pow_succ,
      mul_div_cancel_right₀ _ two_ne_zero]
  have hround := roundDigits_lt_iff (β := 2) (p := 53) (e := 1024) (by decide) (by decide)
    (by decide) hx
  rw [Nat.cast_ofNat, hhalf, zpow_ofNat] at hround
  unfold binary64
  split
  · rename_i h
    exact iff_of_true rfl (hround.mp h)
  · rename_i h
    exact iff_of_false Bool.false_ne_true fun h' => h (hround.mpr h')

/-- Which whole numbers have a double. -/
theorem binary64_natCast_isSome_iff (n : ℕ) : (binary64 n).isSome ↔ n < 2 ^ 1024 - 2 ^ 970 := by
  have hpow : (2 : ℕ) ^ 970 < 2 ^ 1024 := pow_lt_pow_right₀ one_lt_two (by decide)
  rcases Nat.eq_zero_or_pos n with rfl | hn
  · have hzero : roundDigits 2 53 ((0 : ℕ) : ℚ) = 0 := by
      rw [roundDigits, Nat.cast_zero, zero_div, roundEven, Int.fract_zero,
        if_pos (.inl (by norm_num)), Int.floor_zero, Int.cast_zero, zero_mul]
    rw [binary64, hzero, if_pos (pow_pos two_pos _)]
    exact iff_of_true rfl (Nat.sub_pos_of_lt hpow)
  · rw [binary64_isSome_iff (Nat.cast_pos.mpr hn), lt_sub_iff_add_lt, Nat.lt_sub_iff_add_lt,
      ← Nat.cast_lt (α := ℚ), Nat.cast_add, Nat.cast_pow, Nat.cast_pow, Nat.cast_ofNat]

end P4Hyp.Rounding
