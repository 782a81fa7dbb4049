import P4Hyp.Lib.Run

/-!
# Simulation of an event system

An abstract machine is a labelled step relation, and `Steps` is its reflexive and
transitive closure with the labels kept.  A run of an event system is simulated
when each of its events is matched by the steps that its label lists.
-/

namespace P4Hyp

/-- `Steps step t as t'`: the steps labelled `as` lead from `t` to `t'`. -/
inductive Steps {τ α : Type*} (step : τ → α → τ → Prop) : τ → List α → τ → Prop
  | nil {t} : Steps step t [] t
  | cons {t a t' as t''} : step t a t' → Steps step t' as t'' → Steps step t (a :: as) t''

namespace Steps

variable {τ α : Type*} {step : τ → α → τ → Prop} {t t' t'' : τ}

theorem single {a : α} (h : step t a t') : Steps step t [a] t' := .cons h .nil

theorem append {as bs : List α} (h : Steps step t as t') (h' : Steps step t' bs t'') :
    Steps step t (as ++ bs) t'' := by
  induction h with
  | nil => exact h'
  | cons hstep _ ih => exact .cons hstep (ih h')

end Steps

/-- The rule of simulation: under an invariant of the states, each event is matched
by the steps that it is labelled with. -/
theorem Run.simulates {σ ε τ α : Type*} {fire : σ → ε → Option σ} {s₀ s : σ}
    {h : List (σ × ε)} (step : τ → α → τ → Prop) (C : σ → ε → Prop) (I : σ → Prop) (abs : σ → τ)
    (label : σ → ε → List α) (hstart : I s₀)
    (hstep : ∀ s e s', I s → C s e → fire s e = some s' →
      I s' ∧ Steps step (abs s) (label s e) (abs s'))
    (hrun : Run fire s₀ h s) (hC : Run.Meets C h) :
    I s ∧ Steps step (abs s₀) (h.flatMap fun p => label p.1 p.2) (abs s) := by
  refine Run.invariant C
    (fun h s => I s ∧ Steps step (abs s₀) (h.flatMap fun p => label p.1 p.2) (abs s))
    ⟨hstart, .nil⟩ ?_ hrun hC
  intro h s e s' hI hc hf
  obtain ⟨hs', hsteps⟩ := hstep s e s' hI.1 hc hf
  refine ⟨hs', ?_⟩
  rw [List.flatMap_append, List.flatMap_singleton]
  exact hI.2.append hsteps

end P4Hyp
