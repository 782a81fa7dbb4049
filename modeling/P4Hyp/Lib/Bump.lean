import Mathlib.Data.List.Induction

/-!
# Allocation end to end

Requests with an alignment and a size are served one after another from zero:
each starts where the last one ended, rounded up.
-/

namespace P4Hyp

/-- `n` rounded up to a multiple of `a`. -/
def alignUp (a n : Nat) : Nat := (n + a - 1) / a * a

theorem le_alignUp {a : Nat} (ha : 0 < a) (n : Nat) : n ≤ alignUp a n := by
  unfold alignUp
  have hdiv := Nat.div_add_mod (n + a - 1) a
  have hmod := Nat.mod_lt (n + a - 1) ha
  rw [Nat.mul_comm] at hdiv
  omega

theorem alignUp_lt {a : Nat} (ha : 0 < a) (n : Nat) : alignUp a n < n + a := by
  unfold alignUp
  have hdiv := Nat.div_mul_le_self (n + a - 1) a
  omega

theorem dvd_alignUp (a n : Nat) : a ∣ alignUp a n := Nat.dvd_mul_left _ _

theorem alignUp_one (n : Nat) : alignUp 1 n = n := by
  simp [alignUp]

namespace Bump

variable {α : Type*} (align size : α → Nat)

/-- Where the last request of `l` ends. -/
def top (l : List α) : Nat := l.foldl (fun t x => alignUp (align x) t + size x) 0

/-- Where a request starts that comes after those of `l`. -/
def start (l : List α) (x : α) : Nat := alignUp (align x) (top align size l)

variable {align size}

theorem top_concat (l : List α) (x : α) :
    top align size (l ++ [x]) = start align size l x + size x := by
  rw [top, List.foldl_append]
  rfl

theorem top_le_append (halign : ∀ x, 0 < align x) (l m : List α) :
    top align size l ≤ top align size (l ++ m) := by
  induction m using List.reverseRecOn with
  | nil => exact Nat.le_of_eq (by rw [List.append_nil])
  | append_singleton m x ih =>
      rw [← List.append_assoc, top_concat]
      exact Nat.le_trans ih (Nat.le_trans (le_alignUp (halign x) _) (Nat.le_add_right _ _))

end Bump

end P4Hyp
