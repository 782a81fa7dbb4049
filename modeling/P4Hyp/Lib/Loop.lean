import Mathlib.Logic.Function.Iterate

/-!
# Loops with fuel

`loop step fuel s` iterates a body that either goes round again or leaves with
a result.  `none` means that `fuel` rounds were not enough; a loop that leaves
does so with the same result under any larger fuel.
-/

namespace P4Hyp

variable {σ ρ : Type*}

def loop (step : σ → σ ⊕ ρ) : Nat → σ → Option ρ
  | 0, _ => none
  | fuel + 1, s =>
      match step s with
      | .inl s' => loop step fuel s'
      | .inr r => some r

theorem loop_again {step : σ → σ ⊕ ρ} {s s' : σ} (h : step s = .inl s') (fuel : Nat) :
    loop step (fuel + 1) s = loop step fuel s' := by
  simp only [loop, h]

theorem loop_leave {step : σ → σ ⊕ ρ} {s : σ} {r : ρ} (h : step s = .inr r) (fuel : Nat) :
    loop step (fuel + 1) s = some r := by
  simp only [loop, h]

/-- The rule of a loop: `I` is kept by every round, and what is said of a start and a result follows
for a round from what is said of those after it. -/
theorem loop_induct {step : σ → σ ⊕ ρ} {I : σ → Prop} {Q : σ → ρ → Prop}
    (leave : ∀ s r, I s → step s = .inr r → Q s r)
    (go : ∀ s s', I s → step s = .inl s' → I s' ∧ ∀ r, Q s' r → Q s r)
    {fuel : Nat} {s : σ} {r : ρ} (h : loop step fuel s = some r) (hs : I s) : Q s r := by
  induction fuel generalizing s with
  | zero => cases h
  | succ fuel ih =>
      cases hstep : step s with
      | inl s' =>
          rw [loop_again hstep] at h
          obtain ⟨hs', hback⟩ := go s s' hs hstep
          exact hback r (ih h hs')
      | inr r' =>
          rw [loop_leave hstep] at h
          obtain rfl := Option.some.inj h
          exact leave s r' hs hstep

/-- A loop that follows `next` as long as nothing `Ends` leaves within `fuel`
rounds when one of the first `fuel` points is an end. -/
theorem loop_ends_iff {τ : Type*} {step : σ → σ ⊕ ρ} {next : τ → τ} {Ends : τ → Prop}
    {R : σ → τ → Prop} (leave : ∀ s t, R s t → Ends t → ∃ r, step s = .inr r)
    (go : ∀ s t, R s t → ¬ Ends t → ∃ s', step s = .inl s' ∧ R s' (next t))
    (fuel : Nat) {s : σ} {t : τ} (h : R s t) :
    (∃ r, loop step fuel s = some r) ↔ ∃ j < fuel, Ends (next^[j] t) := by
  induction fuel generalizing s t with
  | zero => exact iff_of_false (fun ⟨_, hr⟩ => by cases hr) fun ⟨_, hj, _⟩ => Nat.not_lt_zero _ hj
  | succ fuel ih =>
      by_cases he : Ends t
      · obtain ⟨r, hr⟩ := leave s t h he
        exact iff_of_true ⟨r, loop_leave hr fuel⟩ ⟨0, Nat.succ_pos fuel, he⟩
      · obtain ⟨s', hs, h'⟩ := go s t h he
        rw [loop_again hs, ih h']
        constructor
        · rintro ⟨j, hj, hend⟩
          exact ⟨j + 1, Nat.succ_lt_succ hj, hend⟩
        · rintro ⟨j, hj, hend⟩
          cases j with
          | zero => exact absurd hend he
          | succ j => exact ⟨j, Nat.lt_of_succ_lt_succ hj, hend⟩

end P4Hyp
