import Mathlib.Order.WellFounded
import Mathlib.Algebra.Order.Ring.Nat

/-!
# Fair schedules

Parties take turns, each turn a step of its party.  When a step that changes the state
makes a rank smaller, every schedule that gives each party turns without end comes to
rest, in a state that no party changes.
-/

namespace P4Hyp

variable {σ κ : Type*}

/-- The state before turn `n`, when party `turn i` takes turn `i`. -/
def scheduled (step : κ → σ → σ) (turn : Nat → κ) (s : σ) : Nat → σ
  | 0 => s
  | n + 1 => step (turn n) (scheduled step turn s n)

/-- Every party has turns without end. -/
def Fair (turn : Nat → κ) : Prop := ∀ k n, ∃ m, n ≤ m ∧ turn m = k

/-- No party changes the state. -/
def Settled (step : κ → σ → σ) (s : σ) : Prop := ∀ k, step k s = s

section

variable {step : κ → σ → σ} {turn : Nat → κ} {s : σ}

theorem scheduled_invariant {I : σ → Prop} (hstart : I s)
    (hstep : ∀ k s, I s → I (step k s)) (n : Nat) :
    I (scheduled step turn s n) := by
  induction n with
  | zero => exact hstart
  | succ n ih => exact hstep _ _ ih

/-- The state that a schedule comes to rest in. -/
theorem Fair.settles (hfair : Fair turn) (rank : σ → Nat) {I : σ → Prop} (hstart : I s)
    (hstep : ∀ k s, I s → I (step k s))
    (hrank : ∀ k s, I s → step k s ≠ s → rank (step k s) < rank s) :
    ∃ N s', I s' ∧ Settled step s' ∧ ∀ n, N ≤ n → scheduled step turn s n = s' := by
  have hinv (n : Nat) : I (scheduled step turn s n) := scheduled_invariant hstart hstep n
  obtain ⟨N, hmin⟩ : ∃ N, ∀ n,
      ¬ rank (scheduled step turn s n) < rank (scheduled step turn s N) := by
    obtain ⟨r, ⟨N, rfl⟩, hr⟩ := WellFounded.has_min Nat.lt_wfRel.wf
      (Set.range fun n => rank (scheduled step turn s n)) ⟨_, ⟨0, rfl⟩⟩
    exact ⟨N, fun n => hr _ ⟨n, rfl⟩⟩
  -- a step that changed the state would lead below the smallest rank
  have hrest : ∀ j, scheduled step turn s (N + j) = scheduled step turn s N := by
    intro j
    induction j with
    | zero => rfl
    | succ j ih =>
        by_contra hne
        have hnext : scheduled step turn s (N + (j + 1)) =
            step (turn (N + j)) (scheduled step turn s N) := by
          rw [← ih]
          rfl
        rw [hnext] at hne
        apply hmin (N + (j + 1))
        rw [hnext]
        exact hrank _ _ (hinv N) hne
  refine ⟨N, scheduled step turn s N, hinv N, fun k => ?_, fun n hn => ?_⟩
  · obtain ⟨m, hm, rfl⟩ := hfair k N
    obtain ⟨j, rfl⟩ := Nat.exists_eq_add_of_le hm
    have hnext : scheduled step turn s (N + (j + 1)) =
        step (turn (N + j)) (scheduled step turn s N) := by
      rw [← hrest j]
      rfl
    rw [← hnext]
    exact hrest (j + 1)
  · obtain ⟨j, rfl⟩ := Nat.exists_eq_add_of_le hn
    exact hrest j

end

end P4Hyp
