import P4Hyp.Lib.Memory
import Mathlib.Data.List.DropRight

/-!
# Python's strings

What the host's tools use of them: characters of bytes, blanks and decimal numbers.
-/

namespace P4Hyp

/-- A string, character by character. -/
abbrev Str := List Char

theorem toNat_ofNat {n : Nat} (h : n.isValidChar) : (Char.ofNat n).toNat = n := by
  rw [Char.ofNat, dif_pos h]
  rfl

/-- `chr` of a byte. -/
def chr (b : Byte) : Char := Char.ofNat b.toNat

theorem toNat_chr (b : Byte) : (chr b).toNat = b.toNat := by
  have hb := b.isLt
  exact toNat_ofNat (.inl (by omega))

/-- `str.isspace` of one character. -/
def isSpace (c : Char) : Bool :=
  let n := c.toNat
  (0x09 ≤ n && n ≤ 0x0d) || (0x1c ≤ n && n ≤ 0x20) || n == 0x85 || n == 0xa0 || n == 0x1680 ||
    (0x2000 ≤ n && n ≤ 0x200a) || n == 0x2028 || n == 0x2029 || n == 0x202f || n == 0x205f ||
    n == 0x3000

def rstrip (s : Str) : Str := s.rdropWhile isSpace

/-- Blanks at the end do not count. -/
theorem rstrip_append_blanks (s : Str) (n : Nat) :
    rstrip (s ++ List.replicate n ' ') = rstrip s := by
  induction n with
  | zero => rw [List.replicate_zero, List.append_nil]
  | succ n ih =>
      rw [List.replicate_succ', ← List.append_assoc, rstrip,
        List.rdropWhile_concat_pos _ _ _ (by decide)]
      exact ih

/-! ## Pieces -/

section Pieces

variable {α : Type*} {n : Nat}

/-- A list cut after every `n` elements; of an empty list there is one empty piece. -/
def pieces (n : Nat) (l : List α) : List (List α) :=
  (List.range (max 1 ((l.length + n - 1) / n))).map fun k => (l.drop (k * n)).take n

theorem pieces_short {l : List α} (h : l.length ≤ n) : pieces n l = [l] := by
  have hone : max 1 ((l.length + n - 1) / n) = 1 := by
    rw [Nat.max_eq_left]
    rcases Nat.eq_zero_or_pos n with rfl | hn
    · simp
    · rw [← Nat.lt_succ_iff, Nat.div_lt_iff_lt_mul hn]
      omega
  rw [pieces, hone]
  simp [List.take_of_length_le h]

theorem pieces_long {l : List α} (hn : 0 < n) (h : n < l.length) :
    pieces n l = l.take n :: pieces n (l.drop n) := by
  have hcount : max 1 ((l.length + n - 1) / n) = max 1 (((l.drop n).length + n - 1) / n) + 1 := by
    have hdiv : (l.length + n - 1) / n = (l.length - n + n - 1) / n + 1 := by
      rw [← Nat.add_div_right _ hn]
      congr 1
      omega
    have hpos : 0 < (l.length - n + n - 1) / n := Nat.div_pos (by omega) hn
    rw [List.length_drop]
    omega
  rw [pieces, hcount, List.range_succ_eq_map, List.map_cons, List.map_map]
  simp only [pieces, Nat.zero_mul, List.drop_zero, Function.comp_def, List.drop_drop, Nat.succ_mul,
    Nat.add_comm]

/-- One more element goes to the last piece, or starts another one. -/
theorem pieces_snoc (hn : 0 < n) (l : List α) (x : α) : ∃ done last,
    pieces n l = done ++ [last] ∧ last.length ≤ n ∧ pieces n (l ++ [x]) =
      if last.length < n then done ++ [last ++ [x]] else done ++ [last, [x]] := by
  induction hlen : l.length using Nat.strong_induction_on generalizing l with
  | _ m ih =>
      by_cases hlong : n < l.length
      · obtain ⟨done, last, hp, hle, hs⟩ :=
          ih (l.drop n).length (by rw [List.length_drop]; omega) _ rfl
        refine ⟨l.take n :: done, last, ?_, hle, ?_⟩
        · rw [pieces_long hn hlong, hp]
          rfl
        · rw [pieces_long hn (by rw [List.length_append]; omega),
            List.take_append_of_le_length (Nat.le_of_lt hlong),
            List.drop_append_of_le_length (Nat.le_of_lt hlong), hs]
          split <;> rfl
      · refine ⟨[], l, pieces_short (Nat.le_of_not_lt hlong), Nat.le_of_not_lt hlong, ?_⟩
        split
        · rename_i hroom
          rw [pieces_short (by rw [List.length_append]; exact hroom)]
          rfl
        · rename_i hfull
          have heq : l.length = n :=
            Nat.le_antisymm (Nat.le_of_not_lt hlong) (Nat.le_of_not_lt hfull)
          rw [pieces_long hn (by rw [List.length_append, heq]; exact Nat.lt_succ_self n), ← heq,
            List.take_left, List.drop_left, pieces_short (by rw [heq]; exact hn)]
          rfl
end Pieces

/-! ## Decimal numbers -/

/-- `str.isdigit`, of ASCII. -/
def isAsciiDigit (c : Char) : Bool := '0' ≤ c && c ≤ '9'

/-- `"%d" % n`. -/
def decimalStr (n : Nat) : Str := Nat.toDigits 10 n

theorem isDigit_of_mem_decimalStr {n : Nat} {c : Char} (h : c ∈ decimalStr n) : c.isDigit = true :=
  Nat.isDigit_of_mem_toDigits (by decide) (by decide) h

/-- `int` of a string of digits. -/
def intOfDigits (s : Str) : Nat := s.foldl (fun n c => 10 * n + (c.toNat - '0'.toNat)) 0

/-- More digits than this, and `int` raises `ValueError`. -/
def intMaxStrDigits : Nat := 4300

def tooLong (s : Str) : Bool := s.all isAsciiDigit && intMaxStrDigits < s.length

end P4Hyp
