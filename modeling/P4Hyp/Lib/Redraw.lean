import Mathlib.Data.List.Basic

/-!
# Drawing only what has changed

A device shows lines, each in a place of its own.  A program that remembers the lines it has drawn
draws, of the next ones, only those that differ; what is shown is the same as if it had drawn them
all.
-/

namespace P4Hyp

/-- Drawing a line in its place shows it there, and leaves the others. -/
structure Draws {δ ρ : Type*} (draw : Nat → ρ → δ → δ) (Good : δ → Prop) (Fits : Nat → ρ → Prop)
    (Shows : δ → Nat → ρ → Prop) : Prop where
  good : ∀ {d i l}, Good d → Fits i l → Good (draw i l d)
  same : ∀ {d i l}, Good d → Fits i l → Shows (draw i l d) i l
  other : ∀ {d i j l m}, Good d → Fits i l → j ≠ i → Shows d j m → Shows (draw i l d) j m

section Redraw

variable {δ ρ : Type*} [DecidableEq ρ] (draw : Nat → ρ → δ → δ) (force : Bool) (prev : List ρ)

/-- The line is drawn again unless it is known to be there. -/
def redrawLine (i : Nat) (l : ρ) (d : δ) : δ :=
  if force = true ∨ prev[i]? ≠ some l then draw i l d else d

/-- The lines from place `i` on. -/
def redrawFrom : Nat → List ρ → δ → δ
  | _, [], d => d
  | i, l :: lines, d => redrawFrom (i + 1) lines (redrawLine draw force prev i l d)

variable {draw prev} {Good : δ → Prop} {Fits : Nat → ρ → Prop} {Shows : δ → Nat → ρ → Prop}
  {d : δ} {lines : List ρ} {i : Nat}

theorem Draws.redrawLine {l : ρ} (h : Draws draw Good Fits Shows) (hd : Good d) (hfit : Fits i l)
    (hprev : ∀ l, prev[i]? = some l → Shows d i l) :
    Good (redrawLine draw force prev i l d) ∧ Shows (redrawLine draw force prev i l d) i l ∧
      ∀ j m, j ≠ i → Shows d j m → Shows (P4Hyp.redrawLine draw force prev i l d) j m := by
  unfold P4Hyp.redrawLine
  split
  · exact ⟨h.good hd hfit, h.same hd hfit, fun j m hj hs => h.other hd hfit hj hs⟩
  · rename_i hsame
    rw [not_or, not_not] at hsame
    exact ⟨hd, hprev l hsame.2, fun j m _ hs => hs⟩

/-- If the lines that are remembered from `i` on are shown, the new ones are afterwards, and those
before `i` are left as they were. -/
theorem Draws.redrawFrom (h : Draws draw Good Fits Shows) (hd : Good d)
    (hfits : ∀ k l, lines[k]? = some l → Fits (i + k) l)
    (hprev : ∀ j l, i ≤ j → prev[j]? = some l → Shows d j l) :
    Good (redrawFrom draw force prev i lines d) ∧
      (∀ j m, j < i → Shows d j m → Shows (redrawFrom draw force prev i lines d) j m) ∧
      ∀ k l, lines[k]? = some l → Shows (P4Hyp.redrawFrom draw force prev i lines d) (i + k) l := by
  induction lines generalizing i d with
  | nil => exact ⟨hd, fun j m _ hs => hs, fun k l hl => by cases hl⟩
  | cons l lines ih =>
      obtain ⟨hgood, hshown, hother⟩ := h.redrawLine force hd (hfits 0 l rfl) fun m =>
        hprev i m (Nat.le_refl i)
      have hfits' (k : Nat) (m : ρ) (hm : lines[k]? = some m) : Fits (i + 1 + k) m := by
        rw [show i + 1 + k = i + (k + 1) by omega]
        exact hfits (k + 1) m hm
      obtain ⟨hgood', hbefore, hrest⟩ := ih hgood hfits' fun j m hj hm =>
        hother j m (by omega) (hprev j m (by omega) hm)
      refine ⟨hgood', fun j m hj hs => hbefore j m (by omega) (hother j m (by omega) hs), ?_⟩
      intro k m hm
      cases k with
      | zero =>
          obtain rfl := Option.some.inj hm
          exact hbefore i l (Nat.lt_succ_self i) hshown
      | succ k =>
          rw [show i + (k + 1) = i + 1 + k by omega]
          exact hrest k m hm

end Redraw

end P4Hyp
