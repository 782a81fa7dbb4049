import P4Hyp.Screen.Parse

/-!
# What bytes leave alone

A relation between a screen and a later one that allows for the cursor, the cells, the
modes and the parser to change holds across every byte but for those that reset the
screen, switch the buffer or save the cursor.
-/

namespace P4Hyp
namespace Screen

/-- Writing text does not leave the relation. -/
structure TextFrame (R : Screen → Screen → Prop) : Prop where
  refl : ∀ s, R s s
  trans : ∀ {s t u}, R s t → R t u → R s u
  cursor : ∀ {s : Screen} {cx cy : Nat} {pendingWrap : Bool} {lastCh : Option Char},
    R s { s with cx, cy, pendingWrap, lastCh }
  draw : ∀ f s, R s (s.draw f)
  scrollUpOne : ∀ s, R s s.scrollUpOne

/-- Nor do the modes, the attributes, the parser and a full clear. -/
structure Frame (R : Screen → Screen → Prop) : Prop extends TextFrame R where
  fields : ∀ {s : Screen} {cx cy top bot bellCount unknown : Nat} {style : Style}
    {autowrap insertMode pendingWrap cursorVisible graphics shifted : Bool}
      {title parm inter osc : Str}
    {unknownSeqs : List Str} {state : ParserState} {pending : List Byte} {raised : Option Exn},
    R s { s with
      cx, cy, top, bot, bellCount, unknown, style, autowrap, insertMode, pendingWrap, cursorVisible,
      graphics, shifted, title, parm, inter, osc, unknownSeqs, state, pending, raised }
  clear : ∀ s mode, 2 ≤ mode → R s (s.eraseDisplay mode)

variable {R : Screen → Screen → Prop}

/-! ## Text -/

section TextFrame

variable (hR : TextFrame R)

include hR

theorem TextFrame.iterate {f : Screen → Screen} (hf : ∀ s, R s (f s)) (n : Nat) (s : Screen) :
    R s (f^[n] s) :=
  Function.Iterate.rec (R s) (hR.refl s) (fun t ht => hR.trans ht (hf t)) n

theorem TextFrame.scrollUp (n : Nat) (s : Screen) : R s (s.scrollUp n) :=
  hR.iterate hR.scrollUpOne n s

theorem TextFrame.newline (s : Screen) : R s s.newline := by
  have hw : R s { s with pendingWrap := false } := hR.cursor
  show R s (if s.cy = s.bot then _ else _)
  split
  · exact hR.trans hw (hR.scrollUp 1 _)
  · split
    · exact hR.cursor
    · exact hw

theorem TextFrame.putHere (ch : Char) (s : Screen) : R s (s.putHere ch) := by
  have hlast : R s { s with lastCh := some ch } := hR.cursor
  have hshift (t : Screen) : R t t.shiftRow := by
    unfold shiftRow
    split
    · exact hR.draw _ t
    · exact hR.refl t
  have hadvance (t : Screen) : R t t.advance := by
    unfold advance
    split <;> exact hR.cursor
  exact hR.trans (hR.trans (hR.trans hlast (hshift _)) (hR.draw _ _)) (hadvance _)

theorem TextFrame.put (ch : Char) (s : Screen) : R s (s.put ch) := by
  unfold Screen.put
  split
  · have hstart : R s { s with cx := 0 } := hR.cursor
    have hclear (t : Screen) : R t { t with pendingWrap := false } := hR.cursor
    exact hR.trans (hR.trans (hR.trans hstart (hR.newline _)) (hclear _)) (hR.putHere ch _)
  · exact hR.putHere ch s

theorem TextFrame.repeatLast (n : Nat) (s : Screen) : R s (s.repeatLast n) := by
  unfold Screen.repeatLast
  split
  · exact hR.refl s
  · exact hR.iterate (hR.put _) _ s

theorem TextFrame.reverseIndex (s : Screen) : R s s.reverseIndex := by
  unfold Screen.reverseIndex
  split
  · exact hR.draw _ s
  · exact hR.cursor

theorem TextFrame.eraseLine (mode : Nat) (s : Screen) : R s (s.eraseLine mode) := by
  have hwrap (t : Screen) : R t { t with pendingWrap := false } := hR.cursor
  unfold Screen.eraseLine
  simp only
  repeat' split
  all_goals exact hR.trans (hR.draw _ s) (hwrap _)

theorem TextFrame.insertLines (n : Nat) (s : Screen) : R s (s.insertLines n) := by
  unfold Screen.insertLines
  split
  · exact hR.trans (hR.draw _ s) hR.cursor
  · exact hR.refl s

theorem TextFrame.deleteLines (n : Nat) (s : Screen) : R s (s.deleteLines n) := by
  unfold Screen.deleteLines
  split
  · exact hR.trans (hR.draw _ s) hR.cursor
  · exact hR.refl s

end TextFrame

/-! ## Control functions -/

/-- The final character of a control sequence saves the cursor. -/
def SavesCursor (final : Char) (p : List Nat) (s : Screen) : Prop :=
  Csi.of final = .save ∨ Csi.of final = .mode true ∧ s.priv = true ∧ 1048 ∈ p

instance (final : Char) (p : List Nat) (s : Screen) : Decidable (SavesCursor final p s) :=
  inferInstanceAs (Decidable (_ ∨ _))

section Frame

variable (hR : Frame R)

include hR

theorem Frame.graphic (b : Byte) (s : Screen) : R s (s.graphic b) := by
  rcases graphic_cases b s with ⟨ch, p, he⟩ | ⟨p, he⟩
  · have hp : R s { s with pending := p } := hR.fields
    rw [he]
    exact hR.trans hp (hR.put ch _)
  · rw [he]
    exact hR.fields

theorem Frame.eraseDisplay (mode : Nat) (s : Screen) : R s (s.eraseDisplay mode) := by
  by_cases hm : 2 ≤ mode
  · exact hR.clear s mode hm
  · have hwrap (t : Screen) : R t { t with pendingWrap := false } := hR.cursor
    have hrows (t : Screen) (lo hi : Nat) : R t (t.blankRows lo hi) := hR.draw _ t
    unfold Screen.eraseDisplay
    split
    · exact hR.trans (hR.trans (hR.eraseLine 0 s) (hrows _ _ _)) (hwrap _)
    · rw [if_pos (by omega)]
      exact hR.trans (hR.trans (hR.eraseLine 1 s) (hrows _ _ _)) (hwrap _)

theorem Frame.restoreCursor (s : Screen) : R s s.restoreCursor := by
  unfold Screen.restoreCursor
  split <;> exact hR.fields

theorem Frame.moveTo (s : Screen) : R s s.moveTo := by
  unfold Screen.moveTo
  split <;> exact hR.fields

theorem Frame.setMargins (s : Screen) : R s s.setMargins := by
  unfold Screen.setMargins
  split
  · split
    · exact hR.fields
    · exact hR.refl s
  · exact hR.fields

theorem Frame.ansiMode (params : List Nat) (on : Bool) (s : Screen) :
    R s (s.ansiMode params on) := by
  induction params generalizing s with
  | nil => exact hR.refl s
  | cons m params ih =>
      have hone : R s (s.ansiModeOne on m) := by
        unfold ansiModeOne
        split
        · exact hR.fields
        · exact hR.refl s
      exact hR.trans hone (ih _)

/-- A mode that does not switch the buffer.  The last hypothesis of this and what follows is
that the cursor is not saved, unless that does not leave the relation. -/
theorem Frame.modeOne {on : Bool} {m : Nat} (hm : ¬ IsAltMode m) (s : Screen)
    (hsave : on = true → m = 1048 → ∀ t, R t t.saveCursor) : R s (s.modeOne on m) := by
  unfold Screen.modeOne
  split
  · exact hR.fields
  · split
    · exact hR.fields
    · split
      · rename_i h1048
        split
        · exact hsave ‹_› h1048 s
        · exact hR.restoreCursor s
      · exact hR.refl s

theorem Frame.mode {params : List Nat} (on : Bool) (hp : ∀ m ∈ params, ¬ IsAltMode m) (s : Screen)
    (hsave : on = true → 1048 ∈ params → ∀ t, R t t.saveCursor) : R s (s.mode params on) := by
  induction params generalizing s with
  | nil => exact hR.refl s
  | cons m params ih =>
      have hone : R s (s.modeOne on m) := by
        apply hR.modeOne (hp m List.mem_cons_self)
        rintro hon rfl
        exact hsave hon List.mem_cons_self
      refine hR.trans hone (ih (fun k hk => hp k (List.mem_cons_of_mem m hk)) _ ?_)
      exact fun hon hk => hsave hon (List.mem_cons_of_mem m hk)

theorem Frame.control {final : Char} {p : List Nat} (n : Nat) (s : Screen)
    (hmode : ∀ on, Csi.of final = .mode on → s.priv = true → ∀ m ∈ p, ¬ IsAltMode m)
    (hsave : SavesCursor final p s → ∀ t, R t t.saveCursor) : R s (s.control final p n) := by
  unfold Screen.control
  cases hc : Csi.of final with
  | mode on =>
      show R s (if s.priv then _ else _)
      split
      · rename_i hpriv
        refine hR.mode on (hmode on hc hpriv) s ?_
        rintro rfl hm
        exact hsave (.inr ⟨hc, hpriv, hm⟩)
      · exact hR.ansiMode p on s
  | cup => exact hR.moveTo s
  | cuu => exact hR.fields
  | cud => exact hR.fields
  | cuf => exact hR.fields
  | cub => exact hR.fields
  | cnl => exact hR.fields
  | cpl => exact hR.fields
  | cha => exact hR.fields
  | vpa => exact hR.fields
  | ed => exact hR.eraseDisplay _ s
  | el => exact hR.eraseLine _ s
  | il => exact hR.insertLines n s
  | dl => exact hR.deleteLines n s
  | ich => exact hR.draw _ s
  | dch => exact hR.draw _ s
  | rep => exact hR.repeatLast n s
  | ech => exact hR.draw _ s
  | su => exact hR.scrollUp n s
  | sd => exact hR.draw _ s
  | sgr => exact hR.fields
  | decstbm => exact hR.setMargins s
  | save => exact hsave (.inl hc) s
  | restore => exact hR.restoreCursor s
  | report => exact hR.refl s
  | unknown => exact hR.fields

theorem Frame.dispatch {final : Char} (s : Screen)
    (hmode : ∀ on, Csi.of final = .mode on → s.priv = true →
      ∀ p, parmsOf 0 1 s.parm = some p → ∀ m ∈ p, ¬ IsAltMode m)
    (hsave : ∀ p, parmsOf 0 1 s.parm = some p → SavesCursor final p s → ∀ t, R t t.saveCursor) :
    R s (s.dispatch final) := by
  unfold Screen.dispatch
  split
  · exact hR.fields
  · rename_i p hp
    exact hR.control _ s (fun on hc hpriv => hmode on hc hpriv p hp) (hsave p hp)

/-! ## Bytes -/

theorem Frame.textByte (b : Byte) (s : Screen) : R s (s.textByte b) := by
  unfold Screen.textByte
  cases TextByte.of b with
  | escape => exact hR.fields
  | carriageReturn => exact hR.fields
  | lineFeed => exact hR.newline s
  | backspace =>
      show R s (if s.pendingWrap then _ else _)
      split <;> exact hR.fields
  | tab => exact hR.fields
  | bell => exact hR.fields
  | shiftOut => exact hR.fields
  | shiftIn => exact hR.fields
  | ignored => exact hR.refl s
  | graphic => exact hR.graphic b s

theorem Frame.escByte {b : Byte} (s : Screen) (hr : EscByte.of (chr b) ≠ .reset)
    (hsave : EscByte.of (chr b) = .save → ∀ t, R t t.saveCursor) : R s (s.escByte b) := by
  have ht : R s { s with state := .text } := hR.fields
  unfold Screen.escByte
  cases he : EscByte.of (chr b) with
  | csi => exact hR.fields
  | osc => exact hR.fields
  | charset => exact hR.fields
  | hash => exact hR.fields
  | save => exact hR.trans ht (hsave he _)
  | restore => exact hR.trans ht (hR.restoreCursor _)
  | reverseIndex => exact hR.trans ht (hR.reverseIndex _)
  | index => exact hR.trans ht (hR.newline _)
  | nextLine =>
      have hx : R s { s with state := .text, cx := 0 } := hR.fields
      exact hR.trans hx (hR.newline _)
  | reset => exact absurd he hr
  | keypad => exact ht
  | unknown => exact hR.fields

theorem Frame.oscByte (b : Byte) (s : Screen) : R s (s.oscByte b) := by
  unfold Screen.oscByte
  split
  · exact hR.fields
  · split <;> exact hR.fields

theorem Frame.csiByte {b : Byte} (s : Screen)
    (hmode : ∀ on, Csi.of (chr b) = .mode on → s.priv = true →
      ∀ p, parmsOf 0 1 s.parm = some p → ∀ m ∈ p, ¬ IsAltMode m)
    (hsave : ∀ p, parmsOf 0 1 s.parm = some p → SavesCursor (chr b) p s → ∀ t, R t t.saveCursor) :
    R s (s.csiByte b) := by
  unfold Screen.csiByte
  split
  · exact hR.fields
  · split
    · exact hR.fields
    · have ht : R s { s with state := .text } := hR.fields
      exact hR.trans ht (hR.dispatch _ hmode hsave)

end Frame

end Screen
end P4Hyp
