import P4Hyp.Lib.History
import P4Hyp.Screen.Frame

/-!
# The alternate buffer

While a full-screen program has the pane, the primary grid is parked and the
transcript stands still.
-/

namespace P4Hyp
namespace Screen

/-- The lines that have scrolled off. -/
def history (s : Screen) : History Str := { total := s.linesOut, kept := s.scrollback }

theorem trimmed_eq (limit : Nat) (lines : List Str) : trimmed limit lines = newest limit lines := by
  unfold trimmed newest
  split
  · rfl
  · rename_i hle
    rw [Nat.sub_eq_zero_of_le (Nat.le_of_not_lt hle), List.drop_zero]

/-- From `s` to `t` the parked grid has stayed where it is, and with it the
history; otherwise the history may have grown. -/
structure Parks (s t : Screen) : Prop where
  altGrid : t.altGrid = s.altGrid
  grows : s.history.Extends t.history
  still : s.altGrid ≠ none → t.scrollback = s.scrollback ∧ t.linesOut = s.linesOut

section Parks

variable {s t u : Screen}

theorem extends_of_eq (hs : t.scrollback = s.scrollback) (hl : t.linesOut = s.linesOut) :
    s.history.Extends t.history := by
  unfold history
  rw [hs, hl]
  exact .refl _

theorem Parks.of_eq (ha : t.altGrid = s.altGrid) (hs : t.scrollback = s.scrollback)
    (hl : t.linesOut = s.linesOut) : Parks s t := ⟨ha, extends_of_eq hs hl, fun _ => ⟨hs, hl⟩⟩

theorem Parks.refl (s : Screen) : Parks s s := .of_eq rfl rfl rfl

theorem Parks.trans (h₁ : Parks s t) (h₂ : Parks t u) : Parks s u where
  altGrid := h₂.altGrid.trans h₁.altGrid
  grows := h₁.grows.trans h₂.grows
  still ha := by
    obtain ⟨hs₁, hl₁⟩ := h₁.still ha
    obtain ⟨hs₂, hl₂⟩ := h₂.still (h₁.altGrid ▸ ha)
    exact ⟨hs₂.trans hs₁, hl₂.trans hl₁⟩

/-! ## Operations that stay in their buffer -/

/-- The row that leaves is kept. -/
theorem scrollUpOne_keep (hk : (!s.inAlt && s.top == 0) = true) : s.scrollUpOne.history =
    s.history.append s.scrollbackLimit [rowText (s.grid[s.top]?.getD [])] := by
  simp only [scrollUpOne, history, hk, if_true, trimmed_eq]
  rfl

theorem parks_scrollUpOne (s : Screen) : Parks s s.scrollUpOne := by
  cases hk : !s.inAlt && s.top == 0 with
  | true =>
      refine ⟨rfl, ?_, fun ha => ?_⟩
      · rw [scrollUpOne_keep hk]
        exact History.extends_append _ _ _
      · have halt : s.inAlt = true := Option.isSome_iff_ne_none.mpr ha
        simp [halt] at hk
  | false =>
      simp only [scrollUpOne, hk, Bool.false_eq_true, if_false]
      exact .of_eq rfl rfl rfl

theorem restoreCursor_grid (s : Screen) : s.restoreCursor.grid = s.grid := by
  unfold restoreCursor
  split <;> rfl

/-- A full clear of the primary buffer keeps the rows that are not blank. -/
theorem eraseDisplay_keep {mode : Nat} (halt : s.inAlt = false) (hm : 2 ≤ mode) :
    (s.eraseDisplay mode).history = s.history.append s.scrollbackLimit s.cleared := by
  rw [eraseDisplay, if_neg (by omega), if_neg (by omega)]
  simp only [history, halt, Bool.false_eq_true, if_false, trimmed_eq]
  rfl

theorem parks_clear (s : Screen) (mode : Nat) (hm : 2 ≤ mode) : Parks s (s.eraseDisplay mode) := by
  cases halt : s.inAlt with
  | true =>
      rw [eraseDisplay, if_neg (by omega), if_neg (by omega)]
      exact .of_eq rfl (if_pos halt) (if_pos halt)
  | false =>
      refine ⟨?_, ?_, fun ha => ?_⟩
      · rw [eraseDisplay, if_neg (by omega), if_neg (by omega)]
      · rw [eraseDisplay_keep halt hm]
        exact History.extends_append _ _ _
      · exact absurd (Option.isSome_iff_ne_none.mpr ha) (Bool.eq_false_iff.mp halt)

theorem parks_frame : Frame Parks where
  refl := .refl
  trans := .trans
  cursor := .of_eq rfl rfl rfl
  draw _ _ := .of_eq rfl rfl rfl
  scrollUpOne := parks_scrollUpOne
  fields := .of_eq rfl rfl rfl
  clear := parks_clear

theorem parks_saveCursor (s : Screen) : Parks s s.saveCursor := .of_eq rfl rfl rfl

/-! ## Modes -/

theorem modeOne_grid (on : Bool) {m : Nat} (hm : ¬ IsAltMode m) (s : Screen) :
    (s.modeOne on m).grid = s.grid := by
  unfold modeOne
  split
  · rfl
  · split
    · rfl
    · split
      · split
        · rfl
        · exact restoreCursor_grid s
      · rfl

/-- Any other mode keeps both grids. -/
theorem modeOne_other (on : Bool) {m : Nat} (hm : ¬ IsAltMode m) (s : Screen) :
    Parks s (s.modeOne on m) ∧ (s.modeOne on m).grid = s.grid :=
  ⟨parks_frame.modeOne hm s fun _ _ => parks_saveCursor, modeOne_grid on hm s⟩

theorem modeOne_alt {on : Bool} {m : Nat} (hm : IsAltMode m) (s : Screen) :
    s.modeOne on m = s.altScreen on := by
  unfold modeOne
  rw [if_neg, if_neg, if_pos hm]
  · rcases hm with rfl | rfl <;> decide
  · rcases hm with rfl | rfl <;> decide

/-- Inside the alternate buffer, entering it again does nothing. -/
theorem mode_nested (params : List Nat) (h : s.altGrid ≠ none) : Parks s (s.mode params true) := by
  induction params generalizing s with
  | nil => exact .refl s
  | cons m params ih =>
      have hone : Parks s (s.modeOne true m) := by
        by_cases hm : IsAltMode m
        · have halt : s.inAlt = true := Option.isSome_iff_ne_none.mpr h
          rw [modeOne_alt hm, altScreen, if_pos rfl, if_pos halt]
          exact .refl s
        · exact (modeOne_other true hm s).1
      exact hone.trans (ih (hone.altGrid ▸ h))

/-- Outside it, entering parks the visible grid. -/
theorem mode_enter (params : List Nat) (h : s.altGrid = none) :
    (s.mode params true).altGrid = none ∨ (s.mode params true).altGrid = some s.grid := by
  induction params generalizing s with
  | nil => exact .inl h
  | cons m params ih =>
      show ((s.modeOne true m).mode params true).altGrid = none ∨ _
      by_cases hm : IsAltMode m
      · have hone : (s.modeOne true m).altGrid = some s.grid := by
          rw [modeOne_alt hm]
          simp [altScreen, inAlt, h]
        have hin : (s.modeOne true m).altGrid ≠ none := by
          rw [hone]
          exact Option.some_ne_none _
        exact .inr ((mode_nested params hin).altGrid.trans hone)
      · obtain ⟨hpark, hgrid⟩ := modeOne_other true hm s
        rcases ih (hpark.altGrid.trans h) with he | he
        · exact .inl he
        · exact .inr (he.trans (congrArg some hgrid))

theorem leave_grid {g : Grid Cell} (h : s.altGrid = some g) :
    (s.altScreen false).altGrid = none ∧ (s.altScreen false).grid = g := by
  rw [altScreen_leave h]
  exact ⟨(parks_frame.restoreCursor _).altGrid, restoreCursor_grid _⟩

/-- Outside it, leaving it does nothing to the grids. -/
theorem mode_outside (params : List Nat) (h : s.altGrid = none) :
    (s.mode params false).altGrid = none ∧ (s.mode params false).grid = s.grid := by
  induction params generalizing s with
  | nil => exact ⟨h, rfl⟩
  | cons m params ih =>
      show ((s.modeOne false m).mode params false).altGrid = none ∧
        ((s.modeOne false m).mode params false).grid = s.grid
      by_cases hm : IsAltMode m
      · have hone : s.modeOne false m = s := (modeOne_alt hm s).trans (altScreen_outside h)
        rw [hone]
        exact ih h
      · obtain ⟨hpark, hgrid⟩ := modeOne_other false hm s
        obtain ⟨hnone, hgrid'⟩ := ih (hpark.altGrid.trans h)
        exact ⟨hnone, hgrid'.trans hgrid⟩

/-- Leaving it makes the parked grid visible. -/
theorem mode_leave {params : List Nat} {g : Grid Cell} (h : s.altGrid = some g)
    (hp : ∃ m ∈ params, IsAltMode m) :
    (s.mode params false).altGrid = none ∧ (s.mode params false).grid = g := by
  induction params generalizing s with
  | nil =>
      obtain ⟨m, hm, -⟩ := hp
      cases hm
  | cons m params ih =>
      show ((s.modeOne false m).mode params false).altGrid = none ∧
        ((s.modeOne false m).mode params false).grid = g
      by_cases hm : IsAltMode m
      · obtain ⟨hnone, hgrid⟩ := leave_grid h
        rw [modeOne_alt hm]
        obtain ⟨hnone', hgrid'⟩ := mode_outside params hnone
        exact ⟨hnone', hgrid'.trans hgrid⟩
      · obtain ⟨hpark, -⟩ := modeOne_other false hm s
        apply ih (hpark.altGrid.trans h)
        obtain ⟨k, hk, hak⟩ := hp
        rcases List.mem_cons.mp hk with rfl | hk
        · exact absurd hak hm
        · exact ⟨k, hk, hak⟩

end Parks

/-! ## Bytes -/

/-- The byte ends ESC `c`. -/
def Resets (s : Screen) (b : Byte) : Prop := s.state = .esc ∧ EscByte.of (chr b) = .reset

/-- The byte ends a set or a reset of a mode that switches the buffer. -/
def SwitchesBuffer (on : Bool) (s : Screen) (b : Byte) : Prop :=
  s.state = .csi ∧ Csi.of (chr b) = .mode on ∧ s.priv = true ∧
    ∃ p ∈ parmsOf 0 1 s.parm, ∃ m ∈ p, IsAltMode m

/-- The byte ends ESC `7`, or a control sequence that saves the cursor. -/
def Saves (s : Screen) (b : Byte) : Prop :=
  s.state = .esc ∧ EscByte.of (chr b) = .save ∨
    s.state = .csi ∧ ∃ p ∈ parmsOf 0 1 s.parm, SavesCursor (chr b) p s

instance (s : Screen) (b : Byte) : Decidable (Saves s b) := inferInstanceAs (Decidable (_ ∨ _))

instance (s : Screen) (b : Byte) : Decidable (Resets s b) := inferInstanceAs (Decidable (_ ∧ _))

instance (on : Bool) (s : Screen) (b : Byte) : Decidable (SwitchesBuffer on s b) :=
  inferInstanceAs (Decidable (_ ∧ _ ∧ _ ∧ _))

section Bytes

variable {s : Screen} {b : Byte}

/-- A byte that does not reset the screen or switch the buffer, nor save the cursor unless
that does not leave the relation. -/
theorem Frame.byte {R : Screen → Screen → Prop} (hR : Frame R) (hr : ¬ Resets s b)
    (hs : ∀ on, ¬ SwitchesBuffer on s b) (hsave : Saves s b → ∀ t, R t t.saveCursor) :
    R s (s.byte b) := by
  unfold Screen.byte
  cases hstate : s.state with
  | text => exact hR.textByte b s
  | esc => exact hR.escByte s (fun he => hr ⟨hstate, he⟩) fun he => hsave (.inl ⟨hstate, he⟩)
  | csi =>
      apply hR.csiByte
      · exact fun on hc hpriv p hp m hm ha => hs on ⟨hstate, hc, hpriv, p, hp, m, hm, ha⟩
      · exact fun p hp hsaves => hsave (.inr ⟨hstate, p, hp, hsaves⟩)
  | osc => exact hR.oscByte b s
  | charset => exact hR.fields
  | hash => exact hR.fields

/-- A byte that neither switches the buffer nor resets the screen. -/
theorem parks_byte (hr : ¬ Resets s b) (hs : ∀ on, ¬ SwitchesBuffer on s b) :
    Parks s (s.byte b) :=
  parks_frame.byte hr hs fun _ => parks_saveCursor

/-- A byte that ends a set or a reset of private modes carries it out. -/
theorem byte_mode {on : Bool} {p : List Nat} (hs : s.state = .csi) (hc : Csi.of (chr b) = .mode on)
    (hpriv : s.priv = true) (hp : parmsOf 0 1 s.parm = some p) :
    s.byte b = mode p on { s with state := .text } := by
  have hknown : Csi.of (chr b) ≠ .unknown := by
    rw [hc]
    exact Csi.noConfusion
  rw [byte_final hs hknown hp, control, hc]
  exact if_pos hpriv

theorem byte_switch {on : Bool} (h : SwitchesBuffer on s b) : ∃ p, (∃ m ∈ p, IsAltMode m) ∧
    s.byte b = mode p on { s with state := .text } := by
  obtain ⟨hstate, hc, hpriv, p, hp, halt⟩ := h
  exact ⟨p, halt, byte_mode hstate hc hpriv hp⟩

/-- Where the alternate buffer is active, no switch to it does anything. -/
theorem parks_byte_inAlt (halt : s.altGrid ≠ none) (hr : ¬ Resets s b)
    (hs : ¬ SwitchesBuffer false s b) : Parks s (s.byte b) := by
  by_cases hon : SwitchesBuffer true s b
  · obtain ⟨p, -, he⟩ := byte_switch hon
    have ht : Parks s { s with state := .text } := .of_eq rfl rfl rfl
    rw [he]
    exact ht.trans (mode_nested p halt)
  · apply parks_byte hr
    intro on
    cases on with
    | false => exact hs
    | true => exact hon

theorem byte_reset (h : Resets s b) : s.byte b = { s with state := .text }.reset := by
  rw [byte, h.1]
  show s.escByte b = _
  rw [escByte, h.2]

/-- A byte after which the alternate buffer is active has parked the grid. -/
theorem byte_enter {g : Grid Cell} (h : s.altGrid = none) (hg : (s.byte b).altGrid = some g) :
    g = s.grid := by
  by_cases hr : Resets s b
  · rw [byte_reset hr] at hg
    cases hg
  · by_cases hon : SwitchesBuffer true s b
    · obtain ⟨p, -, he⟩ := byte_switch hon
      rw [he] at hg
      rcases mode_enter (s := { s with state := .text }) p h with hm | hm
      · rw [hm] at hg
        cases hg
      · exact (Option.some.inj (hm.symm.trans hg)).symm
    · by_cases hoff : SwitchesBuffer false s b
      · obtain ⟨p, -, he⟩ := byte_switch hoff
        rw [he, (mode_outside (s := { s with state := .text }) p h).1] at hg
        cases hg
      · have hpark : Parks s (s.byte b) := by
          apply parks_byte hr
          intro on
          cases on with
          | false => exact hoff
          | true => exact hon
        rw [hpark.altGrid, h] at hg
        cases hg

end Bytes

/-! ## Whole streams -/

/-- The event does not take the guest out of the alternate buffer, and does not
resize the screen. -/
def StaysInAlt (f : Feeding) (e : FeedEvent) : Prop :=
  ¬ NextByte Resets f e ∧ ¬ NextByte (SwitchesBuffer false) f e ∧ e.resizes = false

instance (f : Feeding) (e : FeedEvent) : Decidable (StaysInAlt f e) :=
  inferInstanceAs (Decidable (_ ∧ _ ∧ _))

/-- What the alternate buffer leaves alone from `f₀` to `f`, the primary grid `g`
being parked. -/
structure AltKept (f₀ f : Feeding) (g : Grid Cell) : Prop where
  parked : f.screen.altGrid = some g
  scrollback : f.screen.scrollback = f₀.screen.scrollback
  linesOut : f.screen.linesOut = f₀.screen.linesOut
  lines : f.screen.allLinesWithIds = f₀.screen.allLinesWithIds
  /-- The parked grid is the one that was visible before. -/
  entered : ∀ f₁ e, f₁.screen.altGrid = none → feedFire f₁ e = some f₀ →
    e.resizes = false → f₁.screen.grid = g
  /-- When the alternate buffer is left it is visible again. -/
  left : ∀ e f', NextByte (SwitchesBuffer false) f e → feedFire f e = some f' →
    f'.screen.altGrid = none ∧ f'.screen.grid = g
  /-- ESC `c` leaves a blank grid in its place. -/
  reset : ∀ e f', NextByte Resets f e → feedFire f e = some f' →
    f'.screen.altGrid = none ∧ f'.screen.grid = newGrid f.screen.rows f.screen.cols

section Runs

variable {f₀ f f' : Feeding} {e : FeedEvent} {g : Grid Cell} {h : List (Feeding × FeedEvent)}

theorem parks_step (halt : f.screen.altGrid ≠ none) (hstay : StaysInAlt f e)
    (hf : feedFire f e = some f') : Parks f.screen f'.screen := by
  cases e with
  | feed data =>
      obtain ⟨-, rfl⟩ := feedFire_feed hf
      exact .of_eq rfl rfl rfl
  | byte =>
      obtain ⟨b, bs, hleft, rfl⟩ := feedFire_byte hf
      obtain ⟨hr, hs, -⟩ := hstay
      exact parks_byte_inAlt halt (mt (nextByte_iff hleft).mpr hr) (mt (nextByte_iff hleft).mpr hs)
  | resize rows cols => cases hstay.2.2

/-- The transcript stands still. -/
theorem parks_run (halt : f₀.screen.altGrid ≠ none) (hrun : Run feedFire f₀ h f)
    (hstay : Run.Meets StaysInAlt h) : Parks f₀.screen f.screen := by
  apply Run.stateInvariant _ (fun f => Parks f₀.screen f.screen) (.refl _) ?_ hrun hstay
  intro s e s' hpark hs hf
  apply hpark.trans (parks_step ?_ hs hf)
  rw [hpark.altGrid]
  exact halt

theorem parks_lines {s t : Screen} (hpark : Parks s t) (hg : s.altGrid = some g) :
    t.allLinesWithIds = s.allLinesWithIds := by
  obtain ⟨hsb, hlo⟩ := hpark.still (by rw [hg]; exact Option.some_ne_none g)
  have hprim : t.primary = s.primary := by
    rw [primary, primary, hpark.altGrid, hg]
    rfl
  rw [allLinesWithIds, allLinesWithIds, hsb, hlo, hprim]

theorem enter_step (hnone : f.screen.altGrid = none) (hg : f'.screen.altGrid = some g)
    (hsize : e.resizes = false) (hf : feedFire f e = some f') :
    f.screen.grid = g := by
  cases e with
  | feed data =>
      obtain ⟨-, rfl⟩ := feedFire_feed hf
      exact absurd (hnone.symm.trans hg) (Option.some_ne_none g).symm
  | byte =>
      obtain ⟨b, bs, -, rfl⟩ := feedFire_byte hf
      exact (byte_enter hnone hg).symm
  | resize rows cols => cases hsize

theorem leave_step (hg : f.screen.altGrid = some g) (hl : NextByte (SwitchesBuffer false) f e)
    (hf : feedFire f e = some f') : f'.screen.altGrid = none ∧ f'.screen.grid = g := by
  cases e with
  | feed data => cases hl
  | resize rows cols => cases hl
  | byte =>
      obtain ⟨b, bs, hleft, rfl⟩ := feedFire_byte hf
      obtain ⟨p, hp, he⟩ := byte_switch ((nextByte_iff hleft).mp hl)
      show (f.screen.byte b).altGrid = none ∧ (f.screen.byte b).grid = g
      rw [he]
      exact mode_leave (s := { f.screen with state := .text }) hg hp

theorem reset_step (hr : NextByte Resets f e) (hf : feedFire f e = some f') :
    f'.screen.altGrid = none ∧ f'.screen.grid = newGrid f.screen.rows f.screen.cols := by
  cases e with
  | feed data => cases hr
  | resize rows cols => cases hr
  | byte =>
      obtain ⟨b, bs, hleft, rfl⟩ := feedFire_byte hf
      show (f.screen.byte b).altGrid = none ∧ (f.screen.byte b).grid = _
      rw [byte_reset ((nextByte_iff hleft).mp hr)]
      exact ⟨rfl, rfl⟩

theorem alternate_run (hg : f₀.screen.altGrid = some g) (hrun : Run feedFire f₀ h f)
    (hstay : Run.Meets StaysInAlt h) : AltKept f₀ f g := by
  have hne : f₀.screen.altGrid ≠ none := by
    rw [hg]
    exact Option.some_ne_none g
  have hpark := parks_run hne hrun hstay
  have hparked : f.screen.altGrid = some g := hpark.altGrid.trans hg
  exact {
    parked := hparked
    scrollback := (hpark.still hne).1
    linesOut := (hpark.still hne).2
    lines := parks_lines hpark hg
    entered := fun f₁ e hnone hf hsize => enter_step hnone hg hsize hf
    left := fun e f' hl hf => leave_step hparked hl hf
    reset := fun e f' hr hf => reset_step hr hf }

end Runs

/-- ESC `[ ? 1 0 4 9` and a final. -/
def altSequence (final : Byte) : List Byte := [0x1b, 0x5b, 0x3f, 0x31, 0x30, 0x34, 0x39, final]

/-- `a` on the primary grid, parked. -/
def parkedLetter : Feeding :=
  ⟨(init 2 3 10).feed (0x61 :: altSequence 0x68), []⟩

theorem alternate_run_scroll : ∃ h f, Run feedFire parkedLetter h f ∧ h.length = 6 ∧
    AltKept parkedLetter f (parkedLetter.screen.altGrid.getD []) := by
  obtain ⟨h, f, hrun, hd⟩ := Run.exists_of_play feedFire parkedLetter
    (.feed [0x62, 0x0a, 0x0a, 0x0a, 0x63] :: rounds 5)
    (fun r => decide (r.1.length = 6 ∧ Run.Meets StaysInAlt r.1)) true (by decide +kernel)
  obtain ⟨hlen, hstay⟩ := of_decide_eq_true hd
  exact ⟨h, f, hrun, hlen, alternate_run (by decide +kernel) hrun hstay⟩

/-- ESC `c` leaves the alternate buffer with a blank grid. -/
theorem reset_blanks : ∃ h f f', Run feedFire parkedLetter h f ∧ Run.Meets StaysInAlt h ∧
    NextByte Resets f .byte ∧ feedFire f .byte = some f' ∧ f'.screen.altGrid = none ∧
    some f'.screen.grid ≠ parkedLetter.screen.altGrid := by
  obtain ⟨h, f, hrun, hd⟩ := Run.exists_of_play feedFire parkedLetter
    (.feed [0x1b, 0x63] :: rounds 1)
    (fun r => decide (Run.Meets StaysInAlt r.1 ∧ NextByte Resets r.2 .byte ∧
      ∃ f' ∈ feedFire r.2 .byte, f'.screen.altGrid = none ∧
        some f'.screen.grid ≠ parkedLetter.screen.altGrid)) true (by decide +kernel)
  obtain ⟨hstay, hnext, f', hf, hrest⟩ := of_decide_eq_true hd
  exact ⟨h, f, f', hrun, hstay, hnext, hf, hrest⟩

end Screen
end P4Hyp
