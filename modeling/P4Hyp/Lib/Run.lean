import Mathlib.Algebra.Order.Ring.Nat
import Mathlib.Data.List.Induction

/-!
# Runs of event systems

A system is a partial function `fire`: the state after an event, or `none` when
the event cannot happen there.  All nondeterminism is in the choice of events,
so an interleaving of several parties is a list of events, and a system stays
executable.

A run carries its history, each event paired with the state it happened in.
Conditions on a step read that pair, and quantities that the system itself does
not store (what has been published, what has been seen) are folds of it.
-/

namespace P4Hyp

/-- `Run fire s₀ h s`: the events of `h`, fired in order from `s₀`, lead to
`s`. -/
inductive Run {σ ε : Type*} (fire : σ → ε → Option σ) (s₀ : σ) : List (σ × ε) → σ → Prop
  | start : Run fire s₀ [] s₀
  | step {h s e s'} : Run fire s₀ h s → fire s e = some s' → Run fire s₀ (h ++ [(s, e)]) s'

namespace Run

variable {σ ε : Type*} {fire : σ → ε → Option σ} {s₀ s : σ} {h : List (σ × ε)}

/-- Every step of the history satisfies `C` in the state it was taken in. -/
def Meets (C : σ → ε → Prop) (h : List (σ × ε)) : Prop := ∀ p ∈ h, C p.1 p.2

@[simp] theorem meets_nil (C : σ → ε → Prop) : Meets C ([] : List (σ × ε)) := by
  simp [Meets]

@[simp] theorem meets_snoc {C : σ → ε → Prop} {e : ε} :
    Meets C (h ++ [(s, e)]) ↔ Meets C h ∧ C s e := by
  simp only [Meets, List.mem_append, List.mem_singleton]
  constructor
  · exact fun hm => ⟨fun p hp => hm p (.inl hp), hm (s, e) (.inr rfl)⟩
  · rintro ⟨hh, he⟩ p (hp | rfl)
    · exact hh p hp
    · exact he

/-- An invariant of histories and states.  The step may use that the run so far
meets `C`, and that the new step does. -/
theorem invariant (C : σ → ε → Prop) (I : List (σ × ε) → σ → Prop) (hstart : I [] s₀)
    (hstep : ∀ h s e s', I h s → C s e → fire s e = some s' → I (h ++ [(s, e)]) s')
    (hrun : Run fire s₀ h s) (hC : Meets C h) : I h s := by
  induction hrun with
  | start => exact hstart
  | step _ hfire ih =>
      rw [meets_snoc] at hC
      exact hstep _ _ _ _ (ih hC.1) hC.2 hfire

/-- The invariant rule for states alone. -/
theorem stateInvariant (C : σ → ε → Prop) (I : σ → Prop) (hstart : I s₀)
    (hstep : ∀ s e s', I s → C s e → fire s e = some s' → I s')
    (hrun : Run fire s₀ h s) (hC : Meets C h) : I s :=
  invariant C (fun _ s => I s) hstart (fun _ s e s' hI hc hf => hstep s e s' hI hc hf) hrun hC

/-- Every event of the history has happened. -/
theorem fired (hrun : Run fire s₀ h s) : ∀ p ∈ h, ∃ s', fire p.1 p.2 = some s' := by
  induction hrun with
  | start => exact fun p hp => absurd hp List.not_mem_nil
  | @step h s e s' _ hfire ih =>
      intro p hp
      rcases List.mem_append.mp hp with hp | hp
      · exact ih p hp
      · rw [List.mem_singleton.mp hp]
        exact ⟨s', hfire⟩

/-! ## Parts of a run -/

theorem of_nil (hrun : Run fire s₀ [] s) : s = s₀ := by
  generalize hh : ([] : List (σ × ε)) = h' at hrun
  cases hrun with
  | start => rfl
  | step _ _ => exact absurd hh.symm (List.append_ne_nil_of_right_ne_nil _ (List.cons_ne_nil _ _))

theorem of_snoc {p : σ × ε} (hrun : Run fire s₀ (h ++ [p]) s) :
    Run fire s₀ h p.1 ∧ fire p.1 p.2 = some s := by
  generalize hh : h ++ [p] = h' at hrun
  cases hrun with
  | start => exact absurd hh (List.append_ne_nil_of_right_ne_nil _ (List.cons_ne_nil _ _))
  | step hrun hfire =>
      obtain ⟨rfl, hp⟩ := List.append_inj' hh rfl
      obtain rfl := List.cons.inj hp |>.1
      exact ⟨hrun, hfire⟩

/-- A run can be cut anywhere. -/
theorem split {h₁ h₂ : List (σ × ε)} (hrun : Run fire s₀ (h₁ ++ h₂) s) :
    ∃ t, Run fire s₀ h₁ t ∧ Run fire t h₂ s := by
  induction h₂ using List.reverseRecOn generalizing s with
  | nil =>
      rw [List.append_nil] at hrun
      exact ⟨s, hrun, .start⟩
  | append_singleton h₂ p ih =>
      rw [← List.append_assoc] at hrun
      obtain ⟨hrun', hfire⟩ := hrun.of_snoc
      obtain ⟨t, ht₁, ht₂⟩ := ih hrun'
      exact ⟨t, ht₁, ht₂.step hfire⟩

theorem of_cons {p : σ × ε} (hrun : Run fire s₀ (p :: h) s) :
    p.1 = s₀ ∧ ∃ t, fire s₀ p.2 = some t ∧ Run fire t h s := by
  have hcut : Run fire s₀ ([p] ++ h) s := hrun
  obtain ⟨t, hone, hrest⟩ := hcut.split
  obtain ⟨hnil, hfire⟩ := of_snoc (h := []) hone
  have hp := hnil.of_nil
  rw [hp] at hfire
  exact ⟨hp, t, hfire, hrest⟩

/-- `I` holds in every state of the run, the last one included. -/
def Throughout (I : σ → Prop) (h : List (σ × ε)) (s : σ) : Prop := (∀ p ∈ h, I p.1) ∧ I s

theorem throughout (C : σ → ε → Prop) {I : σ → Prop} (hstart : I s₀)
    (hstep : ∀ s e s', I s → C s e → fire s e = some s' → I s') (hrun : Run fire s₀ h s)
    (hC : Meets C h) : Throughout I h s := by
  induction hrun with
  | start => exact ⟨fun p hp => absurd hp List.not_mem_nil, hstart⟩
  | step _ hfire ih =>
      rw [meets_snoc] at hC
      obtain ⟨hall, hs⟩ := ih hC.1
      refine ⟨fun p hp => ?_, hstep _ _ _ hs hC.2 hfire⟩
      rcases List.mem_append.mp hp with hp | hp
      · exact hall p hp
      · rw [List.mem_singleton.mp hp]
        exact hs

/-- When the steps in `D` that meet `C` keep `I`, which shows as `P`, and `P` fails behind any other
one, a run in `D` shows `P` throughout exactly when each of its steps meets `C`. -/
theorem throughout_iff_shown {C D : σ → ε → Prop} {I P : σ → Prop} (hstart : I s₀)
    (hshown : ∀ s, I s → P s)
    (hkeep : ∀ s e s', I s → D s e → C s e → fire s e = some s' → I s')
    (hseen : ∀ s e s', I s → D s e → fire s e = some s' → P s' → C s e)
    (hrun : Run fire s₀ h s) (hD : Meets D h) : Throughout P h s ↔ Meets C h := by
  suffices hall : (Throughout P h s ↔ Meets C h) ∧ (Meets C h → I s) from hall.1
  induction hrun with
  | start => simp [Throughout, hshown _ hstart, hstart]
  | @step h s e s' _ hfire ih =>
      rw [meets_snoc] at hD
      obtain ⟨hiff, hI⟩ := ih hD.1
      rw [meets_snoc, ← hiff]
      have hnext (hm : Throughout P h s ∧ C s e) : I s' :=
        hkeep s e s' (hI (hiff.mp hm.1)) hD.2 hm.2 hfire
      refine ⟨⟨?_, fun hm => ⟨fun p hp => ?_, hshown s' (hnext hm)⟩⟩, hnext⟩
      · rintro ⟨hall, hlast⟩
        have hpast : Throughout P h s := ⟨fun p hp => hall p (by simp [hp]), hall (s, e) (by simp)⟩
        exact ⟨hpast, hseen s e s' (hI (hiff.mp hpast)) hD.2 hfire hlast⟩
      · rcases List.mem_append.mp hp with hp | hp
        · exact hm.1.1 p hp
        · rw [List.mem_singleton.mp hp]
          exact hm.1.2

/-- When `C` says exactly which of the steps in `D` keep `I`, a run in `D` stays
inside `I` exactly when each of its steps meets `C`. -/
theorem throughout_iff_within {C D : σ → ε → Prop} {I : σ → Prop} (hstart : I s₀)
    (hstep : ∀ s e s', I s → D s e → fire s e = some s' → (I s' ↔ C s e))
    (hrun : Run fire s₀ h s) (hD : Meets D h) : Throughout I h s ↔ Meets C h :=
  throughout_iff_shown hstart (fun _ hI => hI)
    (fun s e s' hI hd hc hf => (hstep s e s' hI hd hf).mpr hc)
    (fun s e s' hI hd hf hI' => (hstep s e s' hI hd hf).mp hI') hrun hD

/-- When `C` says exactly which steps keep `I`, a run stays inside `I` exactly
when each of its steps meets `C`. -/
theorem throughout_iff {C : σ → ε → Prop} {I : σ → Prop} (hstart : I s₀)
    (hstep : ∀ s e s', I s → fire s e = some s' → (I s' ↔ C s e))
    (hrun : Run fire s₀ h s) : Throughout I h s ↔ Meets C h :=
  throughout_iff_within hstart (fun s e s' hI _ hf => hstep s e s' hI hf) hrun
    (D := fun _ _ => True) fun _ _ => trivial

/-- Fire a list of events, keeping the history. -/
def play (fire : σ → ε → Option σ) : List (σ × ε) → σ → List ε → Option (List (σ × ε) × σ)
  | h, s, [] => some (h, s)
  | h, s, e :: es =>
      match fire s e with
      | none => none
      | some s' => play fire (h ++ [(s, e)]) s' es

/-- A played list of events continues a run. -/
theorem of_play {es : List ε} {h' : List (σ × ε)} {s' : σ} (hrun : Run fire s₀ h s)
    (hplay : play fire h s es = some (h', s')) : Run fire s₀ h' s' := by
  induction es generalizing h s with
  | nil =>
      obtain ⟨rfl, rfl⟩ : h = h' ∧ s = s' := by simpa [play] using hplay
      exact hrun
  | cons e es ih =>
      cases hf : fire s e with
      | none => simp [play, hf] at hplay
      | some t =>
          simp only [play, hf] at hplay
          exact ih (hrun.step hf) hplay

/-- What a played list of events shows is shown by a run. -/
theorem exists_of_play {β : Type*} (fire : σ → ε → Option σ) (s₀ : σ) (es : List ε)
    (f : List (σ × ε) × σ → β) (b : β) (hplay : (play fire [] s₀ es).map f = some b) :
      ∃ h s, Run fire s₀ h s ∧ f (h, s) = b := by
  obtain ⟨r, hr, hb⟩ := Option.map_eq_some_iff.mp hplay
  exact ⟨r.1, r.2, of_play .start hr, hb⟩

instance {C : σ → ε → Prop} [∀ s e, Decidable (C s e)] : Decidable (Meets C h) :=
  inferInstanceAs (Decidable (∀ p ∈ h, C p.1 p.2))

end Run

end P4Hyp
