import Mathlib.Algebra.Order.Ring.Nat
import Mathlib.Data.List.Infix

/-!
# Scanners fed in pieces

A scanner takes tokens off the front of its input, and holds the input back where
the next token depends on what has not arrived yet.  If a token, once taken,
would still be taken after more input, then the tokens and what is held back do
not depend on how the input was cut.
-/

namespace P4Hyp

/-- The next token of the input `a :: as` and what it leaves, or `none` while
more is needed. -/
structure Scanner (α β : Type*) where
  next : α → List α → Option (β × List α)
  suffix : ∀ a as b rest, next a as = some (b, rest) → rest <:+ as

namespace Scanner

variable {α β : Type*} (S : Scanner α β)

/-- The tokens of an input, at most `fuel` of them, and what is left. -/
def drainFuel : Nat → List α → List β × List α
  | 0, as => ([], as)
  | _ + 1, [] => ([], [])
  | fuel + 1, a :: as =>
      match S.next a as with
      | none => ([], a :: as)
      | some (b, rest) =>
          let r := drainFuel fuel rest
          (b :: r.1, r.2)

/-- All the tokens of an input, and what is held back. -/
def drain (as : List α) : List β × List α := S.drainFuel as.length as

variable {S} {a : α} {as rest : List α} {b : β}

/-- A token takes at least one symbol, so more fuel than the input is long changes
nothing. -/
theorem drainFuel_eq {fuel : Nat} (h : as.length ≤ fuel) : S.drainFuel fuel as = S.drain as := by
  induction fuel using Nat.strong_induction_on generalizing as with
  | _ fuel ih =>
      cases as with
      | nil => cases fuel <;> rfl
      | cons a as =>
          rw [List.length_cons] at h
          obtain ⟨fuel, rfl⟩ : ∃ n, fuel = n + 1 := ⟨fuel - 1, by omega⟩
          simp only [drain, drainFuel, List.length_cons]
          cases hn : S.next a as with
          | none => rfl
          | some p =>
              have hle : p.2.length ≤ as.length := (S.suffix a as p.1 p.2 hn).length_le
              have hlong : S.drainFuel fuel p.2 = S.drain p.2 := by
                apply ih fuel (Nat.lt_succ_self fuel)
                omega
              have hshort : S.drainFuel as.length p.2 = S.drain p.2 := by
                apply ih as.length (by omega) hle
              simp only [hlong, hshort]

@[simp] theorem drain_nil : S.drain [] = ([], []) := rfl

theorem drain_hold (h : S.next a as = none) : S.drain (a :: as) = ([], a :: as) := by
  simp only [drain, drainFuel, List.length_cons, h]

theorem drain_token (h : S.next a as = some (b, rest)) :
    S.drain (a :: as) = (b :: (S.drain rest).1, (S.drain rest).2) := by
  simp only [drain, drainFuel, List.length_cons, h]
  rw [drainFuel_eq (S.suffix a as b rest h).length_le]
  rfl

/-- Induction along the tokens of an input. -/
theorem induction (S : Scanner α β) {P : List α → Prop} (nil : P [])
    (hold : ∀ a as, S.next a as = none → P (a :: as))
    (token : ∀ a as b rest, S.next a as = some (b, rest) → P rest → P (a :: as))
    (xs : List α) : P xs := by
  induction hn : xs.length using Nat.strong_induction_on generalizing xs with
  | _ n ih =>
      cases xs with
      | nil => exact nil
      | cons a as =>
          cases h : S.next a as with
          | none => exact hold a as h
          | some p =>
              have hlt : p.2.length < n := by
                rw [← hn]
                exact Nat.lt_succ_of_le (S.suffix a as p.1 p.2 h).length_le
              exact token a as p.1 p.2 h (ih p.2.length hlt p.2 rfl)

/-- On inputs that satisfy `D`, a token stays the same when more arrives. -/
def Stable (S : Scanner α β) (D : List α → Prop) : Prop :=
  ∀ a as b rest ys, D (a :: (as ++ ys)) → S.next a as = some (b, rest) →
    S.next a (as ++ ys) = some (b, rest ++ ys)

/-- The scan of the end of an input can be put off until more has arrived. -/
theorem drain_append {D : List α → Prop} (hstable : S.Stable D)
    (hsuffix : ∀ s t, t <:+ s → D s → D t) {xs ys : List α} (hD : D (xs ++ ys)) :
    S.drain (xs ++ ys) = ((S.drain xs).1 ++ (S.drain ((S.drain xs).2 ++ ys)).1,
      (S.drain ((S.drain xs).2 ++ ys)).2) := by
  induction xs using S.induction with
  | nil => simp
  | hold a as h =>
      rw [drain_hold h]
      rfl
  | token a as b rest h ih =>
      have hrest : D (rest ++ ys) := by
        apply hsuffix _ _ _ hD
        obtain ⟨t, rfl⟩ := S.suffix a as b rest h
        exact ⟨a :: t, by simp⟩
      rw [List.cons_append, drain_token (hstable a as b rest ys hD h), drain_token h, ih hrest]
      rfl

end Scanner

end P4Hyp
