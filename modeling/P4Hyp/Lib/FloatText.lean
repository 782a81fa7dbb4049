import P4Hyp.Lib.Rounding
import P4Hyp.Lib.Text

/-!
# Floats in text

What Python's formats make of a finite double that is not negative, given as the number that it
stands for.
-/

namespace P4Hyp

open Rounding (roundEven roundDigits)

/-- `"%d" % x`. -/
def wholeStr (x : ℚ) : Str := decimalStr ⌊x⌋₊

/-- `"%.1f" % x`. -/
def tenthsStr (x : ℚ) : Str :=
  let tenths := (roundEven (x * 10)).toNat
  decimalStr (tenths / 10) ++ ['.'] ++ decimalStr (tenths % 10)

/-- The digits behind the point, without the zeros at their end. -/
def fractionStr (digits : Str) : Str :=
  let digits := digits.rdropWhile (· = '0')
  if digits = [] then [] else '.' :: digits

/-- The exponent, with a sign and at least two digits. -/
def exponentStr (e : ℤ) : Str :=
  let digits := decimalStr e.natAbs
  ['e', if e < 0 then '-' else '+'] ++ List.replicate (2 - digits.length) '0' ++ digits

/-- `"%g" % x`: six digits. -/
def generalStr (x : ℚ) : Str :=
  if x = 0 then ['0']
  else
    let r := roundDigits 10 6 x
    let e := Int.log 10 r
    let digits := decimalStr ⌊r / 10 ^ (e - 5)⌋₊
    if e < -4 ∨ 6 ≤ e then digits.take 1 ++ fractionStr (digits.drop 1) ++ exponentStr e
    else if e < 0 then '0' :: fractionStr (List.replicate (-e - 1).toNat '0' ++ digits)
    else digits.take (e + 1).toNat ++ fractionStr (digits.drop (e + 1).toNat)

/-! ## Their characters -/

def isNumeral (c : Char) : Bool := c.isDigit || ".e+-".toList.contains c

/-- The text of a number. -/
def Numeral (t : Str) : Prop := ∀ c ∈ t, isNumeral c = true

section Numeral

variable {t u : Str}

theorem numeral_nil : Numeral [] := fun c hc => by cases hc

theorem numeral_append (ht : Numeral t) (hu : Numeral u) : Numeral (t ++ u) := fun c hc =>
  (List.mem_append.mp hc).elim (ht c) (hu c)

theorem numeral_cons {c : Char} (hc : isNumeral c = true) (ht : Numeral t) : Numeral (c :: t) := by
  intro d hd
  rcases List.mem_cons.mp hd with rfl | hd
  · exact hc
  · exact ht d hd

theorem numeral_take (h : Numeral t) (n : Nat) : Numeral (t.take n) := fun c hc =>
  h c (List.mem_of_mem_take hc)

theorem numeral_drop (h : Numeral t) (n : Nat) : Numeral (t.drop n) := fun c hc =>
  h c (List.mem_of_mem_drop hc)

theorem numeral_zeros (n : Nat) : Numeral (List.replicate n '0') := fun c hc => by
  rw [List.eq_of_mem_replicate hc]
  rfl

theorem numeral_decimalStr (n : Nat) : Numeral (decimalStr n) := fun c hc => by
  rw [isNumeral, isDigit_of_mem_decimalStr hc, Bool.true_or]

theorem numeral_fractionStr (h : Numeral t) : Numeral (fractionStr t) := by
  unfold fractionStr
  dsimp only
  split
  · exact numeral_nil
  · exact numeral_cons (by decide) fun c hc => h c ((List.rdropWhile_prefix _ _).subset hc)

theorem numeral_exponentStr (e : ℤ) : Numeral (exponentStr e) := by
  have hsign : isNumeral (if e < 0 then '-' else '+') = true := by split <;> decide
  have hstart : Numeral ['e', if e < 0 then '-' else '+'] :=
    numeral_cons (by decide) (numeral_cons hsign numeral_nil)
  exact numeral_append (numeral_append hstart (numeral_zeros _)) (numeral_decimalStr _)

theorem numeral_wholeStr (x : ℚ) : Numeral (wholeStr x) := numeral_decimalStr _

theorem numeral_tenthsStr (x : ℚ) : Numeral (tenthsStr x) :=
  numeral_append (numeral_append (numeral_decimalStr _) (numeral_cons (by decide) numeral_nil))
    (numeral_decimalStr _)

theorem numeral_generalStr (x : ℚ) : Numeral (generalStr x) := by
  unfold generalStr
  dsimp only
  split
  · exact numeral_cons (by decide) numeral_nil
  · split
    · exact numeral_append (numeral_append (numeral_take (numeral_decimalStr _) _)
        (numeral_fractionStr (numeral_drop (numeral_decimalStr _) _))) (numeral_exponentStr _)
    · split
      · exact numeral_cons (by decide)
          (numeral_fractionStr (numeral_append (numeral_zeros _) (numeral_decimalStr _)))
      · exact numeral_append (numeral_take (numeral_decimalStr _) _)
          (numeral_fractionStr (numeral_drop (numeral_decimalStr _) _))

end Numeral

end P4Hyp
