import P4Hyp.Screen.Shape

/-!
# The pending wrap

A character in the last column leaves the cursor on it, with a wrap pending.  Most of
what moves the cursor clears the flag; what does not takes the next character away
from where the cursor was put.
-/

namespace P4Hyp

/-- What a byte does to the cursor and to the flag. -/
inductive CursorEffect
  /-- The cursor is moved by characters that are written, or not at all. -/
  | stays
  | clears
  /-- The cursor is moved and the flag left alone. -/
  | keeps
deriving DecidableEq

namespace Screen

def restoreEffect (s : Screen) : CursorEffect := if s.saved.isSome then .clears else .keeps

/-- Switching the mode on enters the alternate buffer. -/
def Enters (s : Screen) (m : Nat) : Prop := s.inAlt = false ∧ IsAltMode m

/-- Switching the mode off restores the cursor. -/
def Restores (s : Screen) (m : Nat) : Prop := s.inAlt = true ∧ IsAltMode m ∨ m = 1048

instance (s : Screen) (m : Nat) : Decidable (s.Enters m) := inferInstanceAs (Decidable (_ ∧ _))

instance (s : Screen) (m : Nat) : Decidable (s.Restores m) := inferInstanceAs (Decidable (_ ∨ _))

def modeEffect (on : Bool) (p : List Nat) (s : Screen) : CursorEffect :=
  if on then if ∃ m ∈ p, s.Enters m then .keeps else .stays
  else if ∃ m ∈ p, s.Restores m then s.restoreEffect else .stays

def marginsEffect (s : Screen) : CursorEffect :=
  match pairOf 0 s.parm with
  | some (top, bot) => if (regionOf s.rows top bot).isSome then .keeps else .stays
  | none => .stays

def controlEffect (final : Char) (p : List Nat) (s : Screen) : CursorEffect :=
  match Csi.of final with
  | .mode on => if s.priv then s.modeEffect on p else .stays
  | .cup => if (pairOf 1 s.parm).isSome then .clears else .stays
  | .cuu | .cud | .cuf | .cub | .cha | .vpa => .clears
  | .cnl | .cpl => .keeps
  | .il | .dl => if s.InRegion then .keeps else .stays
  | .decstbm => s.marginsEffect
  | .restore => s.restoreEffect
  | _ => .stays

def textEffect (b : Byte) : CursorEffect :=
  match TextByte.of b with
  | .carriageReturn | .lineFeed | .backspace | .tab => .clears
  | _ => .stays

def escEffect (b : Byte) (s : Screen) : CursorEffect :=
  match EscByte.of (chr b) with
  | .restore => s.restoreEffect
  | .reverseIndex => if s.cy = s.top ∨ s.cy = 0 then .stays else .keeps
  | .index | .nextLine | .reset => .clears
  | _ => .stays

def csiEffect (b : Byte) (s : Screen) : CursorEffect :=
  match parmsOf 0 1 s.parm with
  | none => .stays
  | some p => s.controlEffect (chr b) p

def cursorEffect (s : Screen) (b : Byte) : CursorEffect :=
  match s.state with
  | .text => textEffect b
  | .esc => s.escEffect b
  | .csi => s.csiEffect b
  | .osc | .charset | .hash => .stays

/-- The byte sets the cursor. -/
def SetsCursor (s : Screen) (b : Byte) : Prop := s.cursorEffect b ≠ .stays

/-- The byte sets the cursor and leaves a wrap pending. -/
def LeavesWrap (s : Screen) (b : Byte) : Prop :=
  s.pendingWrap = true ∧ s.cursorEffect b = .keeps

/-- The byte writes a character: it completes one, or ends a REP. -/
def Prints (s : Screen) (b : Byte) : Prop :=
  s.state = .text ∧ TextByte.of b = .graphic ∧ (s.decode b).1 ≠ none ∨
    s.state = .csi ∧ Csi.of (chr b) = .rep ∧ parmsOf 0 1 s.parm ≠ none ∧ s.lastCh ≠ none

instance (s : Screen) (b : Byte) : Decidable (SetsCursor s b) := inferInstanceAs (Decidable (_ ≠ _))

instance (s : Screen) (b : Byte) : Decidable (LeavesWrap s b) := inferInstanceAs (Decidable (_ ∧ _))

instance (s : Screen) (b : Byte) : Decidable (Prints s b) := inferInstanceAs (Decidable (_ ∨ _))

/-! ## Where a character is written -/

/-- The screen once `_put` has taken the pending wrap. -/
def wrapped (s : Screen) : Screen :=
  if s.pendingWrap ∧ s.autowrap then { newline { s with cx := 0 } with pendingWrap := false } else s

/-- Column and row of the cell that the next character goes to. -/
def writesAt (s : Screen) : Nat × Nat := (s.wrapped.cx, s.wrapped.cy)

theorem put_wrapped (ch : Char) (s : Screen) : s.put ch = s.wrapped.putHere ch := by
  unfold put wrapped
  rw [apply_ite (putHere ch)]

theorem wrapped_of_clear {s : Screen} (h : s.pendingWrap = false) : s.wrapped = s := by
  rw [wrapped, if_neg]
  simp [h]

section Cells

variable {s : Screen} {r : Option Exn}

theorem Ok.wrapped (h : s.Ok r) : s.wrapped.Ok r := by
  unfold Screen.wrapped
  split
  · have hc : Ok { s with cx := 0 } r := { h with cx := h.cols }
    exact { hc.newline with }
  · exact h

theorem writeCell_grid (h : s.Ok r) (ch : Char) {row : List Cell}
    (hrow : s.grid[s.cy]? = some row) :
    (s.writeCell ch).grid = s.grid.set s.cy (row.set s.cx { ch := ch, style := s.style }) := by
  have hlen : row.length = s.cols := h.grid.cols row (List.mem_of_getElem? hrow)
  have hx : s.cx < row.length := by
    rw [hlen]
    exact h.cx
  show (Grid.onRow s.cy _ s.grid).getD s.grid = _
  rw [Grid.onRow, hrow, Option.bind_some, setAt, if_pos hx]
  rfl

theorem advance_grid (s : Screen) : s.advance.grid = s.grid := by
  unfold advance
  split <;> rfl

theorem shiftRow_eq (s : Screen) : s.shiftRow.cx = s.cx ∧ s.shiftRow.cy = s.cy ∧
    s.shiftRow.cols = s.cols ∧ s.shiftRow.style = s.style ∧
    s.shiftRow.pendingWrap = s.pendingWrap := by
  unfold shiftRow
  split <;> exact ⟨rfl, rfl, rfl, rfl, rfl⟩

theorem newline_style (s : Screen) : s.newline.style = s.style := by
  unfold newline
  simp only
  split
  · rfl
  · split <;> rfl

theorem wrapped_style (s : Screen) : s.wrapped.style = s.style := by
  unfold wrapped
  split
  · exact newline_style _
  · rfl

/-- A character is written to the cell that `writesAt` names. -/
theorem put_cell (h : s.Ok r) (ch : Char) :
    ((s.put ch).grid[s.writesAt.2]?).bind (·[s.writesAt.1]?) =
      some { ch := ch, style := s.style } := by
  have hw : Ok ({ s.wrapped with lastCh := some ch } : Screen).shiftRow r := by
    have hl : Ok { s.wrapped with lastCh := some ch } r := { h.wrapped with }
    exact hl.shiftRow
  obtain ⟨hx, hy, -, hs, -⟩ := shiftRow_eq { s.wrapped with lastCh := some ch }
  generalize ht : ({ s.wrapped with lastCh := some ch } : Screen).shiftRow = t at hw hx hy hs
  have hcy : t.cy < t.grid.length := by
    rw [hw.grid.rows]
    exact hw.cy
  have hrow : t.grid[t.cy]? = some t.grid[t.cy] := List.getElem?_eq_getElem hcy
  have hcx : t.cx < t.grid[t.cy].length := by
    rw [hw.grid.cols _ (List.getElem_mem hcy)]
    exact hw.cx
  have hput : (s.put ch).grid =
      t.grid.set t.cy (t.grid[t.cy].set t.cx { ch := ch, style := t.style }) := by
    rw [put_wrapped, putHere, ht, advance_grid, writeCell_grid hw ch hrow]
  have hstyle : t.style = s.style := hs.trans (wrapped_style s)
  have hat : s.writesAt = (t.cx, t.cy) := Prod.ext hx.symm hy.symm
  rw [hput, hat, List.getElem?_set_self hcy, Option.bind_some, List.getElem?_set_self hcx, hstyle]

end Cells

/-! ## Operations that leave the cursor where it is -/

structure Stays (s t : Screen) : Prop where
  cx : t.cx = s.cx
  cy : t.cy = s.cy
  cols : t.cols = s.cols
  wrap : t.pendingWrap = true → s.pendingWrap = true

section Stays

variable {s t u : Screen}

theorem Stays.of_eq (hx : t.cx = s.cx) (hy : t.cy = s.cy) (hc : t.cols = s.cols)
    (hw : t.pendingWrap = s.pendingWrap) : Stays s t := ⟨hx, hy, hc, fun h => hw ▸ h⟩

theorem Stays.of_clear (hx : t.cx = s.cx) (hy : t.cy = s.cy) (hc : t.cols = s.cols)
    (hw : t.pendingWrap = false) : Stays s t :=
  ⟨hx, hy, hc, fun h => absurd (hw.symm.trans h) Bool.false_ne_true⟩

theorem Stays.refl (s : Screen) : Stays s s := .of_eq rfl rfl rfl rfl

theorem Stays.trans (h₁ : Stays s t) (h₂ : Stays t u) : Stays s u where
  cx := h₂.cx.trans h₁.cx
  cy := h₂.cy.trans h₁.cy
  cols := h₂.cols.trans h₁.cols
  wrap hw := h₁.wrap (h₂.wrap hw)

theorem stays_draw (f : Grid Cell → Option (Grid Cell)) (s : Screen) : Stays s (s.draw f) :=
  .of_eq rfl rfl rfl rfl

theorem stays_scrollUp (n : Nat) (s : Screen) : Stays s (s.scrollUp n) :=
  Function.Iterate.rec (Stays s) (f := scrollUpOne) (.refl s)
    (fun _ ht => ht.trans (.of_eq rfl rfl rfl rfl)) n

theorem stays_eraseLine (mode : Nat) (s : Screen) : Stays s (s.eraseLine mode) := by
  unfold eraseLine
  simp only
  repeat' split
  all_goals exact .of_clear rfl rfl rfl rfl

theorem stays_eraseDisplay (mode : Nat) (s : Screen) : Stays s (s.eraseDisplay mode) := by
  unfold eraseDisplay
  split
  · have hrow := stays_eraseLine 0 s
    exact .of_clear hrow.cx hrow.cy hrow.cols rfl
  · split
    · have hrow := stays_eraseLine 1 s
      exact .of_clear hrow.cx hrow.cy hrow.cols rfl
    · exact .of_clear rfl rfl rfl rfl

theorem stays_ansiMode (params : List Nat) (on : Bool) (s : Screen) :
    Stays s (s.ansiMode params on) := by
  induction params generalizing s with
  | nil => exact .refl s
  | cons m params ih =>
      have hone : Stays s (s.ansiModeOne on m) := by
        unfold ansiModeOne
        split <;> exact .of_eq rfl rfl rfl rfl
      exact hone.trans (ih _)

end Stays

/-! ## Every byte has its effect -/

/-- From `s` to `t` the effect `e` has taken place. -/
def Follows (s t : Screen) : CursorEffect → Prop
  | .stays => Stays s t
  | .clears => t.pendingWrap = false
  | .keeps => t.pendingWrap = true → s.pendingWrap = true

section Follows

variable {s : Screen} {b : Byte}

theorem restoreCursor_saved (s : Screen) : s.restoreCursor.saved = s.saved := by
  unfold restoreCursor
  split <;> simp [*]

theorem restoreCursor_wrap {s : Screen} (h : s.restoreCursor.pendingWrap = true) :
    s.pendingWrap = true ∧ s.saved = none := by
  cases hs : s.saved with
  | none =>
      rw [restoreCursor_none hs] at h
      exact ⟨h, rfl⟩
  | some c =>
      rw [restoreCursor_some hs] at h
      cases h

theorem follows_restore {s t : Screen}
    (h : t.pendingWrap = true → s.pendingWrap = true ∧ s.saved = none) :
    Follows s t s.restoreEffect := by
  unfold restoreEffect
  cases hs : s.saved with
  | none => exact fun ht => (h ht).1
  | some c =>
      apply Bool.eq_false_iff.mpr
      intro ht
      rw [(h ht).2] at hs
      cases hs

/-- Switching a mode on never looks at the flag. -/
theorem modeOne_on (m : Nat) (s : Screen) : (s.modeOne true m).pendingWrap = s.pendingWrap ∧
    (¬ s.Enters m → Stays s (s.modeOne true m) ∧ (s.modeOne true m).inAlt = s.inAlt) := by
  unfold modeOne
  split
  · exact ⟨rfl, fun _ => ⟨.of_eq rfl rfl rfl rfl, rfl⟩⟩
  · split
    · exact ⟨rfl, fun _ => ⟨.of_eq rfl rfl rfl rfl, rfl⟩⟩
    · split
      · rename_i halt
        unfold altScreen
        rw [if_pos rfl]
        split
        · exact ⟨rfl, fun _ => ⟨.refl s, rfl⟩⟩
        · rename_i hin
          exact ⟨rfl, fun he => absurd ⟨Bool.eq_false_iff.mpr hin, halt⟩ he⟩
      · split
        · exact ⟨rfl, fun _ => ⟨.of_eq rfl rfl rfl rfl, rfl⟩⟩
        · exact ⟨rfl, fun _ => ⟨.refl s, rfl⟩⟩

theorem modeOn_wrap (p : List Nat) (s : Screen) : (s.mode p true).pendingWrap = s.pendingWrap := by
  induction p generalizing s with
  | nil => rfl
  | cons m p ih => exact (ih (s.modeOne true m)).trans (modeOne_on m s).1

theorem modeOn_stays {p : List Nat} {s : Screen} (hp : ∀ m ∈ p, ¬ s.Enters m) :
    Stays s (s.mode p true) := by
  induction p generalizing s with
  | nil => exact .refl s
  | cons m p ih =>
      obtain ⟨hone, halt⟩ := (modeOne_on m s).2 (hp m List.mem_cons_self)
      apply hone.trans (ih _)
      intro k hk
      rw [Enters, halt]
      exact hp k (List.mem_cons_of_mem _ hk)

/-- Switching a mode off restores the cursor or leaves it where it is. -/
theorem modeOne_off (m : Nat) (s : Screen) : (s.modeOne false m).saved = s.saved ∧
    ((s.modeOne false m).pendingWrap = true →
      s.pendingWrap = true ∧ (s.Restores m → s.saved = none)) ∧
    (¬ s.Restores m → Stays s (s.modeOne false m) ∧ (s.modeOne false m).inAlt = s.inAlt) := by
  have hplain {t : Screen} (hr : ¬ s.Restores m) (hs : t.saved = s.saved) (ht : Stays s t)
      (ha : t.inAlt = s.inAlt) : t.saved = s.saved ∧ (t.pendingWrap = true →
        s.pendingWrap = true ∧ (s.Restores m → s.saved = none)) ∧
      (¬ s.Restores m → Stays s t ∧ t.inAlt = s.inAlt) :=
    ⟨hs, fun hw => ⟨ht.wrap hw, fun h => absurd h hr⟩, fun _ => ⟨ht, ha⟩⟩
  unfold modeOne
  split
  · rename_i h7
    have hr : ¬ s.Restores m := by simp [Restores, IsAltMode, h7]
    exact hplain hr rfl (.of_eq rfl rfl rfl rfl) rfl
  · split
    · rename_i h25
      have hr : ¬ s.Restores m := by simp [Restores, IsAltMode, h25]
      exact hplain hr rfl (.of_eq rfl rfl rfl rfl) rfl
    · split
      · rename_i halt
        cases hg : s.altGrid with
        | none =>
            have hr : ¬ s.Restores m := by
              rcases halt with rfl | rfl <;> simp [Restores, inAlt, hg]
            rw [altScreen_outside hg]
            exact hplain hr rfl (.refl s) rfl
        | some g =>
            have hr : s.Restores m := .inl ⟨by simp [inAlt, hg], halt⟩
            rw [altScreen_leave hg]
            refine ⟨restoreCursor_saved _, fun hw => ?_, fun h => absurd hr h⟩
            exact ⟨(restoreCursor_wrap hw).1, fun _ => (restoreCursor_wrap hw).2⟩
      · rename_i hne
        split
        · rename_i h1048
          have hr : s.Restores m := .inr h1048
          refine ⟨restoreCursor_saved s, fun hw => ?_, fun h => absurd hr h⟩
          exact ⟨(restoreCursor_wrap hw).1, fun _ => (restoreCursor_wrap hw).2⟩
        · rename_i hother
          have hr : ¬ s.Restores m := by
            rintro (⟨-, ha⟩ | hm)
            · exact hne ha
            · exact hother hm
          exact hplain hr rfl (.refl s) rfl

theorem modeOff_wrap {p : List Nat} {s : Screen} (h : (s.mode p false).pendingWrap = true) :
    s.pendingWrap = true ∧ ∀ m ∈ p, s.Restores m → s.saved = none := by
  induction p generalizing s with
  | nil => exact ⟨h, fun m hm => absurd hm List.not_mem_nil⟩
  | cons m p ih =>
      obtain ⟨hsaved, hwrap, hstays⟩ := modeOne_off m s
      obtain ⟨hone, hrest⟩ := ih (s := s.modeOne false m) h
      obtain ⟨hw, hm⟩ := hwrap hone
      refine ⟨hw, fun k hk hr => ?_⟩
      rcases List.mem_cons.mp hk with rfl | hk
      · exact hm hr
      · by_cases hrm : s.Restores m
        · exact hm hrm
        · rw [← hsaved]
          apply hrest k hk
          rw [Restores, (hstays hrm).2]
          exact hr

theorem modeOff_stays {p : List Nat} {s : Screen} (hp : ∀ m ∈ p, ¬ s.Restores m) :
    Stays s (s.mode p false) := by
  induction p generalizing s with
  | nil => exact .refl s
  | cons m p ih =>
      obtain ⟨hone, halt⟩ := (modeOne_off m s).2.2 (hp m List.mem_cons_self)
      apply hone.trans (ih _)
      intro k hk
      rw [Restores, halt]
      exact hp k (List.mem_cons_of_mem _ hk)

theorem follows_mode (on : Bool) (p : List Nat) (s : Screen) :
    Follows s (s.mode p on) (s.modeEffect on p) := by
  unfold modeEffect
  cases on with
  | true =>
      rw [if_pos rfl]
      split
      · exact fun h => (modeOn_wrap p s).symm.trans h
      · rename_i hp
        exact modeOn_stays fun m hm he => hp ⟨m, hm, he⟩
  | false =>
      rw [if_neg Bool.false_ne_true]
      split
      · rename_i hp
        obtain ⟨m, hm, hr⟩ := hp
        exact follows_restore fun h => ⟨(modeOff_wrap h).1, (modeOff_wrap h).2 m hm hr⟩
      · rename_i hp
        exact modeOff_stays fun m hm hr => hp ⟨m, hm, hr⟩

theorem follows_moveTo (s : Screen) :
    Follows s s.moveTo (if (pairOf 1 s.parm).isSome then .clears else .stays) := by
  unfold moveTo
  cases pairOf 1 s.parm with
  | none => exact Stays.of_eq rfl rfl rfl rfl
  | some m => exact rfl

theorem follows_setMargins (s : Screen) : Follows s s.setMargins s.marginsEffect := by
  unfold setMargins marginsEffect
  cases pairOf 0 s.parm with
  | none => exact Stays.of_eq rfl rfl rfl rfl
  | some m =>
      simp only
      cases regionOf s.rows m.1 m.2 with
      | none => exact Stays.refl s
      | some m => exact id

/-- Of an operation of the scrolling region. -/
theorem follows_inRegion {t : Screen} (h : t.pendingWrap = s.pendingWrap) :
    Follows s (if s.InRegion then t else s) (if s.InRegion then .keeps else .stays) := by
  split
  · exact fun ht => h.symm.trans ht
  · exact Stays.refl s

theorem newline_wrap (s : Screen) : s.newline.pendingWrap = false := by
  unfold newline
  simp only
  split
  · rfl
  · split <;> rfl

theorem follows_control {final : Char} {p : List Nat} (n : Nat)
    (hp : Csi.of final = .rep → s.lastCh = none) :
    Follows s (s.control final p n) (s.controlEffect final p) := by
  unfold control controlEffect
  cases hk : Csi.of final with
  | mode on =>
      show Follows s (if s.priv then _ else _) (if s.priv then _ else _)
      split
      · exact follows_mode on p s
      · exact stays_ansiMode p on s
  | cup => exact follows_moveTo s
  | cuu => exact rfl
  | cud => exact rfl
  | cuf => exact rfl
  | cub => exact rfl
  | cnl => exact id
  | cpl => exact id
  | cha => exact rfl
  | vpa => exact rfl
  | ed => exact stays_eraseDisplay _ s
  | el => exact stays_eraseLine _ s
  | il => exact follows_inRegion rfl
  | dl => exact follows_inRegion rfl
  | ich => exact stays_draw _ s
  | dch => exact stays_draw _ s
  | rep =>
      show Stays s (s.repeatLast n)
      rw [repeatLast, hp hk]
      exact .refl s
  | ech => exact stays_draw _ s
  | su => exact stays_scrollUp n s
  | sd => exact stays_draw _ s
  | sgr => exact Stays.of_eq rfl rfl rfl rfl
  | decstbm => exact follows_setMargins s
  | save => exact Stays.of_eq rfl rfl rfl rfl
  | restore => exact follows_restore restoreCursor_wrap
  | report => exact Stays.refl s
  | unknown => exact Stays.of_eq rfl rfl rfl rfl

theorem stays_decode (b : Byte) (s : Screen) : Stays s (s.decode b).2 := by
  unfold decode
  split
  · exact .refl s
  · simp only
    split
    · exact .of_eq rfl rfl rfl rfl
    · split <;> exact .of_eq rfl rfl rfl rfl

theorem follows_textByte (hp : ¬ (TextByte.of b = .graphic ∧ (s.decode b).1 ≠ none)) :
    Follows s (s.textByte b) (textEffect b) := by
  unfold textByte textEffect
  cases hb : TextByte.of b with
  | escape => exact Stays.of_eq rfl rfl rfl rfl
  | carriageReturn => exact rfl
  | lineFeed => exact newline_wrap s
  | backspace =>
      show (if s.pendingWrap then _ else _ : Screen).pendingWrap = false
      split
      · rfl
      · exact Bool.eq_false_iff.mpr ‹_›
  | tab => exact rfl
  | bell => exact Stays.of_eq rfl rfl rfl rfl
  | shiftOut => exact Stays.of_eq rfl rfl rfl rfl
  | shiftIn => exact Stays.of_eq rfl rfl rfl rfl
  | ignored => exact Stays.refl s
  | graphic =>
      show Stays s (s.graphic b)
      have hnone : (s.decode b).1 = none := by
        by_contra hsome
        exact hp ⟨hb, hsome⟩
      have hs : s.graphic b = (s.decode b).2 := by
        unfold graphic
        split
        · rename_i ch t he
          rw [he] at hnone
          cases hnone
        · rename_i t he
          rw [he]
      rw [hs]
      exact stays_decode b s

theorem follows_escByte (b : Byte) (s : Screen) : Follows s (s.escByte b) (s.escEffect b) := by
  unfold escByte escEffect
  cases EscByte.of (chr b) with
  | csi => exact Stays.of_eq rfl rfl rfl rfl
  | osc => exact Stays.of_eq rfl rfl rfl rfl
  | charset => exact Stays.of_eq rfl rfl rfl rfl
  | hash => exact Stays.of_eq rfl rfl rfl rfl
  | save => exact Stays.of_eq rfl rfl rfl rfl
  | restore => exact follows_restore (restoreCursor_wrap (s := { s with state := .text }))
  | reverseIndex =>
      show Follows s (reverseIndex { s with state := .text })
        (if s.cy = s.top ∨ s.cy = 0 then .stays else .keeps)
      by_cases htop : s.cy = s.top
      · rw [reverseIndex, if_pos htop, if_pos (.inl htop)]
        exact Stays.of_eq rfl rfl rfl rfl
      · rw [reverseIndex, if_neg htop]
        split
        · rename_i h
          have hzero := h.resolve_left htop
          have hcy : s.cy - 1 = s.cy := by omega
          exact Stays.of_eq rfl hcy rfl rfl
        · exact id
  | index => exact newline_wrap _
  | nextLine => exact newline_wrap _
  | reset => exact rfl
  | keypad => exact Stays.of_eq rfl rfl rfl rfl
  | unknown => exact Stays.of_eq rfl rfl rfl rfl

theorem stays_oscByte (b : Byte) (s : Screen) : Stays s (s.oscByte b) := by
  unfold oscByte
  split
  · exact .of_eq rfl rfl rfl rfl
  · split <;> exact .of_eq rfl rfl rfl rfl

theorem follows_state {t : Screen} {st : ParserState} {e : CursorEffect}
    (h : Follows { s with state := st } t e) : Follows s t e := by
  cases e with
  | stays => exact ⟨h.cx, h.cy, h.cols, h.wrap⟩
  | clears => exact h
  | keeps => exact h

theorem follows_dispatch (hp : ∀ p, parmsOf 0 1 s.parm = some p → Csi.of (chr b) = .rep →
    s.lastCh = none) : Follows s (s.dispatch (chr b)) (s.csiEffect b) := by
  unfold dispatch csiEffect
  cases hparms : parmsOf 0 1 s.parm with
  | none => exact Stays.of_eq rfl rfl rfl rfl
  | some p => exact follows_control _ (hp p hparms)

/-- A parameter or an intermediate. -/
theorem csiEffect_stays (h : 0x20 ≤ b.toNat ∧ b.toNat ≤ 0x3f) (s : Screen) :
    s.csiEffect b = .stays := by
  unfold csiEffect
  split
  · rfl
  · rw [controlEffect, csi_unknown h.1 h.2]

theorem follows_csiByte (hp : ∀ p, parmsOf 0 1 s.parm = some p → Csi.of (chr b) = .rep →
    s.lastCh = none) : Follows s (s.csiByte b) (s.csiEffect b) := by
  unfold csiByte
  by_cases hb : 0x20 ≤ b.toNat ∧ b.toNat ≤ 0x3f
  · rw [csiEffect_stays hb]
    split
    · exact Stays.of_eq rfl rfl rfl rfl
    · rw [if_pos (by omega)]
      exact Stays.of_eq rfl rfl rfl rfl
  · rw [if_neg (by omega), if_neg (by omega)]
    exact follows_state (follows_dispatch (s := { s with state := .text }) hp)

/-- Every byte that writes no character has its effect. -/
theorem byte_follows (hp : ¬ Prints s b) : Follows s (s.byte b) (s.cursorEffect b) := by
  unfold byte cursorEffect
  cases hstate : s.state with
  | text => exact follows_textByte fun h => hp (.inl ⟨hstate, h⟩)
  | esc => exact follows_escByte b s
  | csi =>
      apply follows_csiByte
      intro p hparms hk
      by_contra hch
      exact hp (.inr ⟨hstate, hk, by rw [hparms]; exact Option.some_ne_none p, hch⟩)
  | osc => exact stays_oscByte b s
  | charset => exact Stays.of_eq rfl rfl rfl rfl
  | hash => exact Stays.of_eq rfl rfl rfl rfl

/-- A byte that writes one does not set the cursor. -/
theorem Prints.stays (hp : Prints s b) : s.cursorEffect b = .stays := by
  unfold cursorEffect
  rcases hp with ⟨hs, hb, -⟩ | ⟨hs, hb, -⟩
  · rw [hs]
    simp [textEffect, hb]
  · rw [hs]
    simp only [csiEffect, controlEffect, hb]
    split <;> rfl

end Follows

/-! ## Whole streams -/

/-- A wrap is pending only in the last column. -/
def WrapsAtEnd (s : Screen) : Prop := s.pendingWrap = true → s.cx + 1 = s.cols

section Ends

variable {s : Screen} {r : Option Exn}

theorem wrapsAtEnd_advance (hx : s.cx < s.cols) (h : s.WrapsAtEnd) : s.advance.WrapsAtEnd := by
  unfold advance
  split
  · rename_i hfull
    exact fun _ => Nat.le_antisymm hx hfull
  · rename_i hroom
    exact fun hp => absurd (Nat.le_of_eq (h hp).symm) hroom

theorem wrapsAtEnd_put (hs : s.Ok r) (h : s.WrapsAtEnd) (ch : Char) : (s.put ch).WrapsAtEnd := by
  have hw : s.wrapped.WrapsAtEnd := by
    unfold wrapped
    split
    · exact fun hf => absurd hf Bool.false_ne_true
    · exact h
  obtain ⟨hx, -, hc, -, hp⟩ := shiftRow_eq { s.wrapped with lastCh := some ch }
  rw [put_wrapped, putHere]
  generalize ({ s.wrapped with lastCh := some ch } : Screen).shiftRow = t at hx hc hp
  apply wrapsAtEnd_advance
  · show t.cx < t.cols
    rw [hx, hc]
    exact hs.wrapped.cx
  · show t.pendingWrap = true → t.cx + 1 = t.cols
    rw [hx, hc, hp]
    exact hw

theorem wrapsAtEnd_repeatLast (hs : s.Ok r) (h : s.WrapsAtEnd) (n : Nat) :
    (s.repeatLast n).WrapsAtEnd := by
  unfold repeatLast
  cases s.lastCh with
  | none => exact h
  | some ch =>
      have hall : ((put ch)^[min n (s.cols * s.rows)] s).Ok r ∧
          ((put ch)^[min n (s.cols * s.rows)] s).WrapsAtEnd :=
        Function.Iterate.rec (fun t : Screen => t.Ok r ∧ t.WrapsAtEnd) ⟨hs, h⟩
          (fun t ht => ⟨ht.1.put ch, wrapsAtEnd_put ht.1 ht.2 ch⟩) _
      exact hall.2

theorem wrapsAtEnd_graphic (hs : s.Ok r) (h : s.WrapsAtEnd) (b : Byte) :
    (s.graphic b).WrapsAtEnd := by
  rcases graphic_cases b s with ⟨ch, p, he⟩ | ⟨p, he⟩
  · have hp : Ok { s with pending := p } r := { hs with }
    rw [he]
    exact wrapsAtEnd_put hp h ch
  · rw [he]
    exact h

theorem wrapsAtEnd_byte {b : Byte} (hs : s.Ok r) (h : s.WrapsAtEnd) (hc : ¬ LeavesWrap s b) :
    (s.byte b).WrapsAtEnd := by
  by_cases hp : Prints s b
  · rcases hp with ⟨hstate, hb, -⟩ | ⟨hstate, hb, hparms, -⟩
    · have he : s.byte b = s.graphic b := by
        rw [byte, hstate]
        show s.textByte b = _
        rw [textByte, hb]
      rw [he]
      exact wrapsAtEnd_graphic hs h b
    · obtain ⟨p, hp⟩ := Option.ne_none_iff_exists'.mp hparms
      have hknown : Csi.of (chr b) ≠ .unknown := by
        rw [hb]
        exact Csi.noConfusion
      have ht : Ok { s with state := .text } r := { hs with }
      rw [byte_final hstate hknown hp, control, hb]
      exact wrapsAtEnd_repeatLast ht h _
  · have hf := byte_follows hp
    cases he : s.cursorEffect b with
    | stays =>
        rw [he] at hf
        intro hw
        rw [hf.cx, hf.cols]
        exact h (hf.wrap hw)
    | clears =>
        rw [he] at hf
        exact fun hw => absurd (hf.symm.trans hw) Bool.false_ne_true
    | keeps =>
        rw [he] at hf
        exact fun hw => absurd ⟨hf hw, he⟩ hc

end Ends

/-- No sequence leaves a wrap pending behind it. -/
def ClearsWrap (f : Feeding) (e : FeedEvent) : Prop := ¬ NextByte LeavesWrap f e

/-- The event neither sets the cursor nor writes a character. -/
def Between (f : Feeding) (e : FeedEvent) : Prop :=
  ¬ NextByte SetsCursor f e ∧ ¬ NextByte Prints f e ∧ e.resizes = false

instance (f : Feeding) (e : FeedEvent) : Decidable (ClearsWrap f e) :=
  inferInstanceAs (Decidable (¬ _))

/-- The wrap, in every state of the run. -/
structure WrapOk (h : List (Feeding × FeedEvent)) (f : Feeding) : Prop where
  atEnd : Run.Throughout (fun f => f.screen.WrapsAtEnd) h f
  /-- A character goes where the last sequence has set the cursor. -/
  placed : ∀ h₁ f₁ e₁ f₁' h₂ f₂ e₂ h₃, h = h₁ ++ (f₁, e₁) :: (h₂ ++ (f₂, e₂) :: h₃) →
    NextByte SetsCursor f₁ e₁ → feedFire f₁ e₁ = some f₁' → Run.Meets Between h₂ →
    NextByte Prints f₂ e₂ → f₂.screen.writesAt = (f₁'.screen.cx, f₁'.screen.cy)

section Runs

variable {f f' : Feeding} {e : FeedEvent}

theorem wrapsAtEnd_resize {s : Screen} (h : s.WrapsAtEnd) (rows cols : Int) :
    (s.resize rows cols).WrapsAtEnd := by
  unfold resize
  simp only
  split
  · exact h
  · exact fun hw => absurd hw Bool.false_ne_true

theorem wrapsAtEnd_step (hs : f.screen.Sound) (h : f.screen.WrapsAtEnd) (hc : ClearsWrap f e)
    (hf : feedFire f e = some f') : f'.screen.WrapsAtEnd := by
  cases e with
  | feed data =>
      obtain ⟨-, rfl⟩ := feedFire_feed hf
      exact h
  | byte =>
      obtain ⟨b, bs, hleft, rfl⟩ := feedFire_byte hf
      exact wrapsAtEnd_byte hs.1 h (mt (nextByte_iff hleft).mpr hc)
  | resize rows cols =>
      obtain ⟨-, rfl⟩ := feedFire_resize hf
      exact wrapsAtEnd_resize h rows cols

/-- Behind a sequence that sets the cursor no wrap is pending. -/
theorem setsCursor_step (hset : NextByte SetsCursor f e) (hc : ClearsWrap f e)
    (hf : feedFire f e = some f') : f'.screen.pendingWrap = false := by
  cases e with
  | feed data => cases hset
  | resize rows cols => cases hset
  | byte =>
      obtain ⟨b, bs, hleft, rfl⟩ := feedFire_byte hf
      have hset' : f.screen.cursorEffect b ≠ .stays := (nextByte_iff hleft).mp hset
      have hc' : ¬ LeavesWrap f.screen b := mt (nextByte_iff hleft).mpr hc
      have hfollows : Follows f.screen (f.screen.byte b) (f.screen.cursorEffect b) :=
        byte_follows fun hp => hset' hp.stays
      show (f.screen.byte b).pendingWrap = false
      cases he : f.screen.cursorEffect b with
      | stays => exact absurd he hset'
      | clears =>
          rw [he] at hfollows
          exact hfollows
      | keeps =>
          rw [he] at hfollows
          exact Bool.eq_false_iff.mpr fun hw => hc' ⟨hfollows hw, he⟩

theorem between_step (hb : Between f e) (hf : feedFire f e = some f') :
    Stays f.screen f'.screen := by
  obtain ⟨hset, hprint, hsize⟩ := hb
  cases e with
  | feed data =>
      obtain ⟨-, rfl⟩ := feedFire_feed hf
      exact .of_eq rfl rfl rfl rfl
  | byte =>
      obtain ⟨b, bs, hleft, rfl⟩ := feedFire_byte hf
      have hstays : f.screen.cursorEffect b = .stays := by
        by_contra hne
        exact hset ((nextByte_iff hleft).mpr hne)
      have hfollows := byte_follows (mt (nextByte_iff hleft).mpr hprint)
      rw [hstays] at hfollows
      exact hfollows
  | resize rows cols => cases hsize

/-- In a run in which no sequence leaves a wrap pending, every character goes where
the cursor was set. -/
theorem wrap_run {rows cols : Int} {limit : Nat} {h : List (Feeding × FeedEvent)}
    (hrun : Run feedFire ⟨init rows cols limit, []⟩ h f) (hC : Run.Meets ClearsWrap h) :
    WrapOk h f := by
  constructor
  · have hall := hrun.throughout ClearsWrap
      (I := fun f => f.screen.Sound ∧ f.screen.WrapsAtEnd)
      ⟨(ok_init rows cols limit).sound (by decide), fun hw => absurd hw Bool.false_ne_true⟩
      (fun _ _ _ hs hc hf => ⟨sound_step hs.1 hf, wrapsAtEnd_step hs.1 hs.2 hc hf⟩) hC
    exact ⟨fun p hp => (hall.1 p hp).2, hall.2.2⟩
  · rintro h₁ f₁ e₁ f₁' h₂ f₂ e₂ h₃ rfl hset hfire hmid -
    obtain ⟨_, -, hrun₁⟩ := hrun.split
    obtain ⟨rfl, t, ht, hrun₂⟩ := hrun₁.of_cons
    obtain rfl := Option.some.inj (hfire.symm.trans ht)
    obtain ⟨_, hbetween, hrun₃⟩ := hrun₂.split
    obtain ⟨rfl, -⟩ := hrun₃.of_cons
    have hclear := setsCursor_step hset (hC (f₁, e₁) (by simp)) hfire
    have hstays : Stays f₁'.screen f₂.screen :=
      Run.stateInvariant Between (fun f => Stays f₁'.screen f.screen) (.refl _)
        (fun _ _ _ hs hb hf => hs.trans (between_step hb hf)) hbetween hmid
    have hw : f₂.screen.pendingWrap = false :=
      Bool.eq_false_iff.mpr fun hw => absurd (hclear.symm.trans (hstays.wrap hw)) Bool.false_ne_true
    rw [writesAt, wrapped_of_clear hw, hstays.cx, hstays.cy]

end Runs

/-- A full line, `ESC [ 2 ; 3 H` and a character. -/
theorem wrap_run_moved : ∃ h f, Run feedFire ⟨init 4 5 10, []⟩ h f ∧ h.length = 13 ∧
    WrapOk h f := by
  obtain ⟨h, f, hrun, hd⟩ := Run.exists_of_play feedFire ⟨init 4 5 10, []⟩
    (.feed [0x61, 0x62, 0x63, 0x64, 0x65, 0x1b, 0x5b, 0x32, 0x3b, 0x33, 0x48, 0x78] :: rounds 12)
    (fun r => decide (r.1.length = 13 ∧ Run.Meets ClearsWrap r.1)) true (by decide +kernel)
  obtain ⟨hlen, hC⟩ := of_decide_eq_true hd
  exact ⟨h, f, hrun, hlen, wrap_run hrun hC⟩

/-- A full line and `ESC [ E`: the cursor is in the first column of the second row, and
the next character goes to the third. -/
theorem nextLine_wraps : ∃ h f, Run feedFire ⟨init 4 5 10, []⟩ h f ∧
    (f.screen.cx, f.screen.cy) = (0, 1) ∧ ¬ f.screen.WrapsAtEnd ∧
    (f.screen.feed [0x78]).allLines = [['a', 'b', 'c', 'd', 'e'], [], ['x']] := by
  obtain ⟨h, f, hrun, hd⟩ := Run.exists_of_play feedFire ⟨init 4 5 10, []⟩
    (.feed [0x61, 0x62, 0x63, 0x64, 0x65, 0x1b, 0x5b, 0x45] :: rounds 8)
    (fun r => decide ((r.2.screen.cx, r.2.screen.cy) = (0, 1) ∧
      (r.2.screen.pendingWrap = true ∧ r.2.screen.cx + 1 ≠ r.2.screen.cols) ∧
      (r.2.screen.feed [0x78]).allLines = [['a', 'b', 'c', 'd', 'e'], [], ['x']])) true
    (by decide +kernel)
  obtain ⟨hat, ⟨hw, hne⟩, hlines⟩ := of_decide_eq_true hd
  exact ⟨h, f, hrun, hat, fun hend => hne (hend hw), hlines⟩

end Screen
end P4Hyp
