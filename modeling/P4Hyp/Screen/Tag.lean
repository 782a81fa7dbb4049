import P4Hyp.Screen.Parse

/-!
# Control functions and the parser

No control function looks at the state of the parser or at the bytes of a
character that is not complete, nor changes them.
-/

namespace P4Hyp
namespace Screen

/-- The same screen with the parser elsewhere. -/
def tag (st : ParserState) (p : List Byte) (s : Screen) : Screen :=
  { s with state := st, pending := p }

section Tag

variable (st : ParserState) (p : List Byte) (s : Screen)

theorem tag_iterate {f : Screen → Screen} (hf : ∀ s, f (s.tag st p) = (f s).tag st p) (n : Nat) :
    f^[n] (s.tag st p) = (f^[n] s).tag st p := by
  induction n generalizing s with
  | zero => rfl
  | succ n ih =>
      show f^[n] (f (s.tag st p)) = _
      rw [hf, ih]
      rfl

theorem tag_scrollUp (n : Nat) : (s.tag st p).scrollUp n = (s.scrollUp n).tag st p :=
  tag_iterate (f := scrollUpOne) st p s (fun _ => rfl) n

theorem tag_newline : (s.tag st p).newline = s.newline.tag st p := by
  unfold newline
  rw [apply_ite (tag st p), apply_ite (tag st p), ← tag_scrollUp]
  rfl

theorem tag_putHere (ch : Char) : (s.tag st p).putHere ch = (s.putHere ch).tag st p := by
  have hshift (t : Screen) : (t.tag st p).shiftRow = t.shiftRow.tag st p := by
    unfold shiftRow
    rw [apply_ite (tag st p)]
    rfl
  have hadvance (t : Screen) : (t.tag st p).advance = t.advance.tag st p := by
    unfold advance
    rw [apply_ite (tag st p)]
    rfl
  have hwrite (t : Screen) : (t.tag st p).writeCell ch = (t.writeCell ch).tag st p := rfl
  unfold putHere
  rw [← hadvance, ← hwrite, ← hshift]
  rfl

theorem tag_put (ch : Char) : (s.tag st p).put ch = (s.put ch).tag st p := by
  unfold put
  rw [apply_ite (tag st p), ← tag_putHere, ← tag_putHere]
  have hwrap : ({ newline { s.tag st p with cx := 0 } with pendingWrap := false } : Screen) =
      ({ newline { s with cx := 0 } with pendingWrap := false } : Screen).tag st p := by
    have := tag_newline st p { s with cx := 0 }
    exact congrArg (fun t : Screen => { t with pendingWrap := false }) this
  rw [hwrap]
  rfl

theorem tag_restoreCursor : (s.tag st p).restoreCursor = s.restoreCursor.tag st p := by
  cases h : s.saved with
  | none =>
      rw [restoreCursor_none h, restoreCursor_none (s := s.tag st p) h]
      rfl
  | some c =>
      rw [restoreCursor_some h, restoreCursor_some (s := s.tag st p) h]
      rfl

theorem tag_altScreen (on : Bool) : (s.tag st p).altScreen on = (s.altScreen on).tag st p := by
  cases on with
  | true =>
      show (if s.inAlt then _ else _) = (if s.inAlt then _ else _ : Screen).tag st p
      split <;> rfl
  | false =>
      cases hg : s.altGrid with
      | none =>
          rw [altScreen_outside hg]
          exact altScreen_outside (s := s.tag st p) hg
      | some g =>
          rw [altScreen_leave hg, altScreen_leave (s := s.tag st p) hg]
          exact tag_restoreCursor st p
            { s with grid := g, altGrid := none, top := 0, bot := s.rows - 1 }

theorem tag_eraseLine (mode : Nat) : (s.tag st p).eraseLine mode = (s.eraseLine mode).tag st p := by
  unfold eraseLine
  simp only
  repeat' split
  all_goals rfl

theorem tag_eraseDisplay (mode : Nat) :
    (s.tag st p).eraseDisplay mode = (s.eraseDisplay mode).tag st p := by
  unfold eraseDisplay
  rw [tag_eraseLine, tag_eraseLine]
  split
  · rfl
  · split
    · rfl
    · rfl

theorem tag_insertLines (n : Nat) : (s.tag st p).insertLines n = (s.insertLines n).tag st p := by
  unfold insertLines
  rw [apply_ite (tag st p)]
  rfl

theorem tag_deleteLines (n : Nat) : (s.tag st p).deleteLines n = (s.deleteLines n).tag st p := by
  unfold deleteLines
  rw [apply_ite (tag st p)]
  rfl

theorem tag_modeOne (on : Bool) (m : Nat) :
    (s.tag st p).modeOne on m = (s.modeOne on m).tag st p := by
  unfold modeOne
  rw [tag_altScreen, tag_restoreCursor]
  simp only [apply_ite (tag st p)]
  rfl

theorem tag_mode (params : List Nat) (on : Bool) :
    (s.tag st p).mode params on = (s.mode params on).tag st p := by
  induction params generalizing s with
  | nil => rfl
  | cons m params ih =>
      show ((s.tag st p).modeOne on m).mode params on = _
      rw [tag_modeOne, ih]
      rfl

theorem tag_ansiMode (params : List Nat) (on : Bool) :
    (s.tag st p).ansiMode params on = (s.ansiMode params on).tag st p := by
  induction params generalizing s with
  | nil => rfl
  | cons m params ih =>
      have hone : (s.tag st p).ansiModeOne on m = (s.ansiModeOne on m).tag st p := by
        unfold ansiModeOne
        rw [apply_ite (tag st p)]
        rfl
      show ((s.tag st p).ansiModeOne on m).ansiMode params on = _
      rw [hone, ih]
      rfl

theorem tag_moveTo : (s.tag st p).moveTo = s.moveTo.tag st p := by
  have hparm : (s.tag st p).parm = s.parm := rfl
  unfold moveTo
  rw [hparm]
  cases pairOf 1 s.parm <;> rfl

theorem tag_setMargins : (s.tag st p).setMargins = s.setMargins.tag st p := by
  have hparm : (s.tag st p).parm = s.parm := rfl
  have hrows : (s.tag st p).rows = s.rows := rfl
  unfold setMargins
  rw [hparm, hrows]
  cases pairOf 0 s.parm with
  | none => rfl
  | some m =>
      simp only
      cases regionOf s.rows m.1 m.2 <;> rfl

theorem tag_repeatLast (n : Nat) : (s.tag st p).repeatLast n = (s.repeatLast n).tag st p := by
  have hlast : (s.tag st p).lastCh = s.lastCh := rfl
  unfold repeatLast
  rw [hlast]
  cases s.lastCh with
  | none => rfl
  | some ch => exact tag_iterate st p s (fun t => tag_put st p t ch) _

theorem tag_reverseIndex : (s.tag st p).reverseIndex = s.reverseIndex.tag st p := by
  unfold reverseIndex
  rw [apply_ite (tag st p)]
  rfl

theorem tag_control (final : Char) (q : List Nat) (n : Nat) :
    (s.tag st p).control final q n = (s.control final q n).tag st p := by
  unfold control
  cases Csi.of final with
  | mode on =>
      show (if s.priv then _ else _) = Screen.tag st p (if s.priv then _ else _)
      rw [apply_ite (tag st p), tag_mode, tag_ansiMode]
  | cup => exact tag_moveTo st p s
  | ed => exact tag_eraseDisplay st p s _
  | el => exact tag_eraseLine st p s _
  | il => exact tag_insertLines st p s n
  | dl => exact tag_deleteLines st p s n
  | rep => exact tag_repeatLast st p s n
  | su => exact tag_scrollUp st p s n
  | decstbm => exact tag_setMargins st p s
  | restore => exact tag_restoreCursor st p s
  | _ => rfl

theorem tag_dispatch (final : Char) :
    (s.tag st p).dispatch final = (s.dispatch final).tag st p := by
  have hparm : (s.tag st p).parm = s.parm := rfl
  unfold dispatch
  rw [hparm]
  cases parmsOf 0 1 s.parm with
  | none => rfl
  | some q => exact tag_control st p s final q _

/-- A control function leaves the parser alone. -/
theorem dispatch_state (final : Char) : (s.dispatch final).state = s.state := by
  have h : s.dispatch final = (s.dispatch final).tag s.state s.pending :=
    tag_dispatch s.state s.pending s final
  rw [h]
  rfl

end Tag

/-! ## The bytes of a character that is not complete -/

/-- The same screen with other bytes carried. -/
def carry (p : List Byte) (s : Screen) : Screen := { s with pending := p }

section Carry

variable (p : List Byte) (s : Screen)

theorem carry_of_tag {f : Screen → Screen}
    (hf : ∀ st p s, f (s.tag st p) = (f s).tag st p) : f (s.carry p) = (f s).carry p := by
  have hstate : (f s).state = s.state := by
    have h : f s = (f s).tag s.state s.pending := hf s.state s.pending s
    rw [h]
    rfl
  show f (s.tag s.state p) = (f s).tag (f s).state p
  rw [hf, hstate]

theorem carry_put (ch : Char) : (s.carry p).put ch = (s.put ch).carry p :=
  carry_of_tag p s (f := put ch) fun st p s => tag_put st p s ch

theorem carry_newline : (s.carry p).newline = s.newline.carry p :=
  carry_of_tag p s tag_newline

theorem carry_escByte (b : Byte) : (s.carry p).escByte b = (s.escByte b).carry p := by
  unfold escByte
  cases EscByte.of (chr b) with
  | restore => exact carry_of_tag p { s with state := .text } tag_restoreCursor
  | reverseIndex => exact carry_of_tag p { s with state := .text } tag_reverseIndex
  | index => exact carry_newline p { s with state := .text }
  | nextLine => exact carry_newline p { s with state := .text, cx := 0 }
  | _ => rfl

theorem carry_csiByte (b : Byte) : (s.carry p).csiByte b = (s.csiByte b).carry p := by
  unfold csiByte
  split
  · rfl
  · split
    · rfl
    · exact carry_of_tag p { s with state := .text } (f := dispatch (chr b))
        fun st p s => tag_dispatch st p s (chr b)

theorem carry_oscByte (b : Byte) : (s.carry p).oscByte b = (s.oscByte b).carry p := by
  unfold oscByte
  rw [apply_ite (carry p), apply_ite (carry p)]
  rfl

theorem carry_textByte {b : Byte} (hb : b.toNat < 0x80) :
    (s.carry p).textByte b = (s.textByte b).carry p := by
  unfold textByte
  cases TextByte.of b with
  | lineFeed => exact carry_newline p s
  | backspace =>
      show (if s.pendingWrap then _ else _) = Screen.carry p (if s.pendingWrap then _ else _)
      split <;> rfl
  | graphic =>
      show (s.carry p).graphic b = (s.graphic b).carry p
      simp only [graphic, decode, if_pos hb]
      exact carry_put p s _
  | _ => rfl

/-- Where no character is decoded, the bytes carried are left alone. -/
theorem carry_byte {b : Byte} (h : s.state = .text → b.toNat < 0x80) :
    (s.carry p).byte b = (s.byte b).carry p := by
  have hcarry : (s.carry p).state = s.state := rfl
  cases hs : s.state with
  | text =>
      simp only [byte, hcarry, hs]
      exact carry_textByte p s (h hs)
  | esc =>
      simp only [byte, hcarry, hs]
      exact carry_escByte p s b
  | csi =>
      simp only [byte, hcarry, hs]
      exact carry_csiByte p s b
  | osc =>
      simp only [byte, hcarry, hs]
      exact carry_oscByte p s b
  | charset =>
      simp only [byte, hcarry, hs]
      rfl
  | hash =>
      simp only [byte, hcarry, hs]
      rfl

theorem byte_pending {b : Byte} (h : s.state = .text → b.toNat < 0x80) :
    (s.byte b).pending = s.pending := by
  have he : s.byte b = (s.byte b).carry s.pending := carry_byte s.pending s h
  rw [he]
  rfl

end Carry

/-- ASCII leaves no bytes behind. -/
theorem bytes_pending_ascii {s : Screen} {data : List Byte} (hd : ∀ b ∈ data, b.toNat < 0x80) :
    (s.bytes data).pending = s.pending := by
  induction data generalizing s with
  | nil => rfl
  | cons b data ih =>
      have hone : (s.consume b).pending = s.pending := by
        unfold consume
        split
        · rfl
        · exact byte_pending s fun _ => hd b List.mem_cons_self
      show ((s.consume b).bytes data).pending = s.pending
      rw [ih fun b hb => hd b (List.mem_cons_of_mem _ hb), hone]

end Screen
end P4Hyp
