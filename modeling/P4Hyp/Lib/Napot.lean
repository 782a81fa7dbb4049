import Mathlib.Data.Nat.Factorization.Basic
import Mathlib.Tactic.Ring

/-!
# Naturally aligned powers of two

An address register that matches a naturally aligned range of `2 ^ (k + 3)` bytes
holds the range's number, a zero, and `k` ones.  A unit decodes it without looking
for the zero: `a &&& (a + 1)` clears the trailing ones, and `a ^^^ (a + 1)` masks
them together with the zero above.  The register counts units of four bytes.
-/

namespace P4Hyp.Napot

/-- The first unit of the range that `a` encodes. -/
def low (a : Nat) : Nat := a &&& (a + 1)

/-- One past the last unit. -/
def top (a : Nat) : Nat := low a + (a ^^^ (a + 1)) + 1

/-- The byte `x` lies in the range that `a` encodes. -/
def Matches (a x : Nat) : Prop := low a ≤ x / 4 ∧ x / 4 < top a

instance (a x : Nat) : Decidable (Matches a x) := inferInstanceAs (Decidable (_ ∧ _))

/-- Range number `y` of the ranges of `2 ^ (k + 1)` units. -/
def encode (k y : Nat) : Nat := 2 ^ (k + 1) * y + (2 ^ k - 1)

theorem encode_succ (k y : Nat) : encode k y + 1 = 2 ^ (k + 1) * y + 2 ^ k := by
  have hpos : 0 < 2 ^ k := Nat.two_pow_pos k
  unfold encode
  omega

theorem encode_testBit (k y j : Nat) : (encode k y).testBit j =
    if j < k + 1 then decide (j < k) else y.testBit (j - (k + 1)) := by
  have hlt : 2 ^ k - 1 < 2 ^ (k + 1) := by
    have hpos : 0 < 2 ^ k := Nat.two_pow_pos k
    rw [Nat.pow_succ]
    omega
  rw [encode, Nat.testBit_two_pow_mul_add y hlt, Nat.testBit_two_pow_sub_one]

theorem encode_succ_testBit (k y j : Nat) : (encode k y + 1).testBit j =
    if j < k + 1 then decide (k = j) else y.testBit (j - (k + 1)) := by
  rw [encode_succ, Nat.testBit_two_pow_mul_add y (Nat.pow_lt_pow_right (by omega) (by omega)),
    Nat.testBit_two_pow]

theorem low_encode (k y : Nat) : low (encode k y) = 2 ^ (k + 1) * y := by
  apply Nat.eq_of_testBit_eq
  intro j
  rw [low, Nat.testBit_and, encode_testBit, encode_succ_testBit, Nat.testBit_two_pow_mul]
  by_cases hj : j < k + 1
  · rw [if_pos hj, if_pos hj, decide_eq_false (Nat.not_le_of_lt hj), Bool.false_and]
    -- below the zero only the first has a one, at it only the second
    by_cases hk : j < k
    · rw [decide_eq_false (by omega : ¬ k = j), Bool.and_false]
    · rw [decide_eq_false hk, Bool.false_and]
  · rw [if_neg hj, if_neg hj, Bool.and_self, decide_eq_true (Nat.le_of_not_lt hj), Bool.true_and]

theorem xor_encode (k y : Nat) : encode k y ^^^ (encode k y + 1) = 2 ^ (k + 1) - 1 := by
  apply Nat.eq_of_testBit_eq
  intro j
  rw [Nat.testBit_xor, encode_testBit, encode_succ_testBit, Nat.testBit_two_pow_sub_one]
  by_cases hj : j < k + 1
  · rw [if_pos hj, if_pos hj, decide_eq_true hj]
    by_cases hk : j < k
    · rw [decide_eq_true hk, decide_eq_false (by omega : ¬ k = j), Bool.xor_false]
    · rw [decide_eq_false hk, decide_eq_true (by omega : k = j), Bool.false_xor]
  · rw [if_neg hj, if_neg hj, Bool.xor_self, decide_eq_false hj]

theorem top_encode (k y : Nat) : top (encode k y) = 2 ^ (k + 1) * (y + 1) := by
  have hpos : 0 < 2 ^ (k + 1) := Nat.two_pow_pos (k + 1)
  rw [top, low_encode, xor_encode, Nat.mul_succ]
  omega

/-- The encoded range, in bytes. -/
theorem matches_encode (k y x : Nat) :
    Matches (encode k y) x ↔ 2 ^ (k + 3) * y ≤ x ∧ x < 2 ^ (k + 3) * (y + 1) := by
  unfold Matches
  rw [low_encode, top_encode, Nat.le_div_iff_mul_le (by omega), Nat.div_lt_iff_lt_mul (by omega)]
  rw [show 2 ^ (k + 1) * y * 4 = 2 ^ (k + 3) * y by rw [Nat.pow_add 2 k 3, Nat.pow_add 2 k 1]; ring,
    show 2 ^ (k + 1) * (y + 1) * 4 = 2 ^ (k + 3) * (y + 1) by
      rw [Nat.pow_add 2 k 3, Nat.pow_add 2 k 1]; ring]

/-- A base that is a multiple of the size, with the ones of half the size below it, in units. -/
theorem base_or_div (k y : Nat) :
    (2 ^ (k + 3) * y ||| (2 ^ (k + 2) - 1)) / 4 = encode k y := by
  have hlt : 2 ^ (k + 2) - 1 < 2 ^ (k + 3) := by
    have hpos : 0 < 2 ^ (k + 2) := Nat.two_pow_pos (k + 2)
    rw [Nat.pow_succ 2 (k + 2)]
    omega
  rw [← Nat.two_pow_add_eq_or_of_lt hlt y]
  have hpos : 0 < 2 ^ k := Nat.two_pow_pos k
  have h3 : 2 ^ (k + 3) * y = 4 * (2 ^ (k + 1) * y) := by
    rw [Nat.pow_add 2 k 3, Nat.pow_add 2 k 1]
    ring
  have h2 : 2 ^ (k + 2) = 4 * 2 ^ k := by rw [Nat.pow_add]; ring
  unfold encode
  omega

end P4Hyp.Napot
