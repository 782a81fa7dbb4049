import P4Hyp.Screen.Plain
import P4Hyp.Screen.Transcript

/-!
# How fast the history grows

A byte may complete a sequence with any count.  REP stops at the size of the screen, and a full
clear at its rows; scrolling up does not stop.
-/

namespace P4Hyp
namespace Screen

/-- From `s` to `t` not more than `k` lines have been pushed, and not more dropped. -/
structure Pushes (k : Nat) (s t : Screen) : Prop where
  linesOut : t.linesOut ≤ s.linesOut + k
  evicted : t.history.evicted ≤ s.history.evicted + k

/-- The byte ends SU with a count beyond the rows of the screen, where the rows that leave are
kept. -/
def Overscrolls (s : Screen) (b : Byte) : Prop :=
  s.state = .csi ∧ Csi.of (chr b) = .su ∧ s.inAlt = false ∧ s.top = 0 ∧
    ∃ p ∈ parmsOf 0 1 s.parm, s.rows < p.headD 0

instance (s : Screen) (b : Byte) : Decidable (Overscrolls s b) :=
  inferInstanceAs (Decidable (_ ∧ _ ∧ _ ∧ _ ∧ _))

/-! ## What is dropped -/

/-- Lines have been appended to a history within its limit, which is the same. -/
def Appends (s t : Screen) : Prop :=
  s.scrollback.length ≤ s.scrollbackLimit → t.scrollbackLimit = s.scrollbackLimit ∧
    t.scrollback.length ≤ s.scrollbackLimit ∧
    ∃ lines, t.history = s.history.append s.scrollbackLimit lines

section Appends

variable {s t u : Screen} {b : Byte}

theorem appends_of_eq (hs : t.scrollback = s.scrollback) (hl : t.linesOut = s.linesOut)
    (hm : t.scrollbackLimit = s.scrollbackLimit) : Appends s t := by
  intro hlim
  refine ⟨hm, by rwa [hs], [], ?_⟩
  rw [History.append_nil hlim, history, history, hs, hl]

theorem Appends.trans (h₁ : Appends s t) (h₂ : Appends t u) : Appends s u := by
  intro hlim
  obtain ⟨hm₁, hlim₁, lines₁, he₁⟩ := h₁ hlim
  obtain ⟨hm₂, hlim₂, lines₂, he₂⟩ := h₂ (hm₁ ▸ hlim₁)
  refine ⟨hm₂.trans hm₁, hm₁ ▸ hlim₂, lines₁ ++ lines₂, ?_⟩
  rw [he₂, he₁, hm₁, History.append_append]

theorem appends_append {lines : List Str} (hm : t.scrollbackLimit = s.scrollbackLimit)
    (ht : t.history = s.history.append s.scrollbackLimit lines) : Appends s t := by
  intro _
  refine ⟨hm, ?_, lines, ht⟩
  show t.history.kept.length ≤ _
  rw [ht]
  show (newest _ _).length ≤ _
  rw [newest_length]
  exact Nat.min_le_left _ _

theorem appends_frame : Frame Appends where
  refl _ := appends_of_eq rfl rfl rfl
  trans := .trans
  cursor := appends_of_eq rfl rfl rfl
  draw _ _ := appends_of_eq rfl rfl rfl
  scrollUpOne s := by
    cases hk : !s.inAlt && s.top == 0 with
    | true => exact appends_append rfl (scrollUpOne_keep hk)
    | false =>
        simp only [scrollUpOne, hk, Bool.false_eq_true, if_false]
        exact appends_of_eq rfl rfl rfl
  fields := appends_of_eq rfl rfl rfl
  clear s mode hm := by
    have hlimit : (s.eraseDisplay mode).scrollbackLimit = s.scrollbackLimit := by
      rw [eraseDisplay, if_neg (by omega), if_neg (by omega)]
    cases halt : s.inAlt with
    | true =>
        rw [eraseDisplay, if_neg (by omega), if_neg (by omega)]
        exact appends_of_eq (if_pos halt) (if_pos halt) rfl
    | false => exact appends_append hlimit (eraseDisplay_keep halt hm)

/-- What is dropped makes room for what is pushed. -/
theorem evicted_le (hlim : s.scrollback.length ≤ s.scrollbackLimit) (h : Appends s t) :
    t.history.evicted + s.linesOut ≤ s.history.evicted + t.linesOut := by
  obtain ⟨-, -, lines, he⟩ := h hlim
  have htotal : t.linesOut = s.linesOut + lines.length := congrArg History.total he
  have hkept : t.scrollback.length =
      min s.scrollbackLimit (s.scrollback.length + lines.length) := by
    have := congrArg (fun h => h.kept.length) he
    simp only [history, History.append, newest_length, List.length_append] at this
    exact this
  show t.linesOut - t.scrollback.length + s.linesOut ≤ s.linesOut - s.scrollback.length + t.linesOut
  omega

end Appends

/-! ## What is pushed -/

section Lines

variable {s : Screen} {r : Option Exn} {b : Byte}

/-- The row that scrolls off is kept. -/
def Keeps (s : Screen) : Prop := s.inAlt = false ∧ s.top = 0

instance (s : Screen) : Decidable (Keeps s) := inferInstanceAs (Decidable (_ ∧ _))

theorem scrollUpOne_linesOut (s : Screen) :
    s.scrollUpOne.linesOut = if Keeps s then s.linesOut + 1 else s.linesOut := by
  have hiff : (!s.inAlt && s.top == 0) = true ↔ Keeps s := by simp [Keeps]
  exact if_congr hiff rfl rfl

theorem scrollUp_linesOut (n : Nat) (s : Screen) :
    (s.scrollUp n).linesOut = if Keeps s then s.linesOut + n else s.linesOut := by
  induction n generalizing s with
  | zero => exact (ite_self _).symm
  | succ n ih =>
      have hkeeps : Keeps s.scrollUpOne ↔ Keeps s := Iff.rfl
      show (scrollUp n s.scrollUpOne).linesOut = _
      rw [ih, scrollUpOne_linesOut]
      simp only [hkeeps]
      split <;> omega

theorem newline_linesOut (s : Screen) : s.newline.linesOut ≤ s.linesOut + 1 := by
  show (if s.cy = s.bot then scrollUp 1 _ else if s.cy + 1 < s.rows then _ else _).linesOut ≤ _
  split
  · rw [scrollUp_linesOut]
    show (if _ then s.linesOut + 1 else s.linesOut) ≤ _
    split
    · exact Nat.le_refl _
    · exact Nat.le_succ _
  · split <;> exact Nat.le_succ _

theorem newline_cx (s : Screen) : s.newline.cx = s.cx := by
  show (if s.cy = s.bot then scrollUp 1 _ else if s.cy + 1 < s.rows then _ else _).cx = s.cx
  split
  · rfl
  · split <;> rfl

theorem cleared_length (h : s.Ok r) : s.cleared.length ≤ s.rows := by
  rw [← h.grid.rows, ← List.length_map (f := rowText)]
  exact List.length_filter_le _ _

theorem eraseDisplay_linesOut (h : s.Ok r) (mode : Nat) :
    (s.eraseDisplay mode).linesOut ≤ s.linesOut + s.rows := by
  have hline (m : Nat) : (s.eraseLine m).linesOut = s.linesOut := by
    unfold eraseLine
    repeat' split
    all_goals rfl
  have hcleared := cleared_length h
  unfold eraseDisplay
  split
  · exact (hline 0).trans_le (Nat.le_add_right _ _)
  · split
    · exact (hline 1).trans_le (Nat.le_add_right _ _)
    · show (if _ then s.linesOut else s.linesOut + s.cleared.length) ≤ _
      split
      · exact Nat.le_add_right _ _
      · exact Nat.add_le_add_left hcleared _

/-! ## Characters -/

/-- How many cells the line of the cursor has been written to; the last one leaves the cursor where
it is. -/
def filled (s : Screen) : Nat := if s.pendingWrap then s.cols else s.cx

/-- The cells of all lines so far. -/
def cells (s : Screen) : Nat := s.cols * s.linesOut + s.filled

theorem advance_cells (hx : s.cx < s.cols) :
    s.advance.cells ≤ s.cells + 1 ∧ 0 < s.advance.filled := by
  have hpos : 0 < s.cols := Nat.zero_lt_of_lt hx
  unfold advance
  split
  · show s.cols * s.linesOut + s.cols ≤ s.cols * s.linesOut + s.filled + 1 ∧ 0 < s.cols
    unfold filled
    split <;> omega
  · show s.cols * s.linesOut + (if s.pendingWrap then s.cols else s.cx + 1) ≤
      s.cols * s.linesOut + s.filled + 1 ∧ 0 < if s.pendingWrap then s.cols else s.cx + 1
    unfold filled
    split <;> omega

theorem putHere_cells (hx : s.cx < s.cols) (ch : Char) :
    (s.putHere ch).cells ≤ s.cells + 1 ∧ 0 < (s.putHere ch).filled := by
  have hdrawn : ∃ g x, ({ s with lastCh := some ch }.shiftRow).writeCell ch =
      { s with lastCh := some ch, grid := g, raised := x } := by
    unfold shiftRow
    split <;> exact ⟨_, _, rfl⟩
  obtain ⟨g, x, hd⟩ := hdrawn
  rw [putHere, hd]
  exact advance_cells (s := { s with lastCh := some ch, grid := g, raised := x }) hx

/-- A line is pushed only after all of its cells have been written to. -/
theorem put_cells (h : s.Ok r) (ch : Char) :
    (s.put ch).cells ≤ s.cells + 1 ∧ 0 < (s.put ch).filled := by
  unfold put
  split
  · rename_i hw
    have hstart : Ok { s with cx := 0 } r := { h with cx := h.cols }
    have hsize := sameSize_text.newline { s with cx := 0 }
    have hlines := newline_linesOut { s with cx := 0 }
    have hx : (newline { s with cx := 0 }).cx = 0 := newline_cx _
    have hnext := putHere_cells (s := { newline { s with cx := 0 } with pendingWrap := false })
      hstart.newline.cx ch
    refine ⟨hnext.1.trans (Nat.succ_le_succ ?_), hnext.2⟩
    show (newline _).cols * (newline _).linesOut + (newline _).cx ≤ s.cols * s.linesOut + s.filled
    rw [hsize.cols, hx, filled, if_pos hw.1]
    exact Nat.mul_le_mul_left s.cols hlines
  · exact putHere_cells h.cx ch

theorem puts_cells (h : s.Ok r) (ch : Char) (m : Nat) :
    ((put ch)^[m] s).cells ≤ s.cells + m ∧ (0 < m → 0 < ((put ch)^[m] s).filled) := by
  induction m with
  | zero => exact ⟨Nat.le_refl _, fun hm => absurd hm (Nat.lt_irrefl 0)⟩
  | succ m ih =>
      have hok : ((put ch)^[m] s).Ok r := Function.Iterate.rec (Ok · r) h (fun _ hs => hs.put ch) m
      rw [Function.iterate_succ_apply']
      obtain ⟨hcells, hfilled⟩ := put_cells hok ch
      exact ⟨hcells.trans (Nat.succ_le_succ ih.1), fun _ => hfilled⟩

/-- The characters that fill `k` lines push `k` lines at most. -/
theorem puts_linesOut {m k : Nat} (h : s.Ok r) (hm : m ≤ s.cols * k) (ch : Char) :
    ((put ch)^[m] s).linesOut ≤ s.linesOut + k := by
  have hsize := sameSize_text.iterate (sameSize_text.put ch) m s
  obtain ⟨hcells, hfilled⟩ := puts_cells h ch m
  have hstart : s.filled ≤ s.cols := by
    unfold filled
    split
    · exact Nat.le_refl _
    · exact Nat.le_of_lt h.cx
  rcases Nat.eq_zero_or_pos m with rfl | hpos
  · exact Nat.le_add_right _ _
  · -- the line that is being written to has not been pushed
    have hlt : s.cols * ((put ch)^[m] s).linesOut < s.cols * (s.linesOut + k + 1) := by
      have hdef : ((put ch)^[m] s).cells =
          s.cols * ((put ch)^[m] s).linesOut + ((put ch)^[m] s).filled := by rw [cells, hsize.cols]
      have hpos' := hfilled hpos
      unfold cells at hcells hdef
      rw [Nat.mul_add, Nat.mul_add, Nat.mul_one]
      omega
    exact Nat.lt_succ_iff.mp (Nat.lt_of_mul_lt_mul_left hlt)

/-- One REP fills the screen once. -/
theorem repeatLast_linesOut (h : s.Ok r) (n : Nat) :
    (s.repeatLast n).linesOut ≤ s.linesOut + s.rows := by
  unfold repeatLast
  split
  · exact Nat.le_add_right _ _
  · exact puts_linesOut h (Nat.min_le_right _ _) _

theorem graphic_linesOut (h : s.Ok r) (b : Byte) : (s.graphic b).linesOut ≤ s.linesOut + 1 := by
  rcases graphic_cases b s with ⟨ch, p, he⟩ | ⟨p, he⟩
  · have hp : Ok { s with pending := p } r := { h with }
    rw [he]
    exact puts_linesOut (m := 1) hp ((Nat.mul_one _).symm ▸ h.cols) ch
  · rw [he]
    exact Nat.le_succ _

/-! ## Bytes -/

theorem restoreCursor_linesOut (s : Screen) : s.restoreCursor.linesOut = s.linesOut := by
  unfold restoreCursor
  split <;> rfl

theorem modeOne_linesOut (on : Bool) (m : Nat) (s : Screen) :
    (s.modeOne on m).linesOut = s.linesOut := by
  have halt : (s.altScreen on).linesOut = s.linesOut := by
    unfold altScreen
    split
    · split <;> rfl
    · split
      · rfl
      · exact restoreCursor_linesOut _
  unfold modeOne
  split
  · rfl
  · split
    · rfl
    · split
      · exact halt
      · split
        · split
          · rfl
          · exact restoreCursor_linesOut s
        · rfl

theorem mode_linesOut (params : List Nat) (on : Bool) (s : Screen) :
    (s.mode params on).linesOut = s.linesOut := by
  induction params generalizing s with
  | nil => rfl
  | cons m params ih => exact (ih (s.modeOne on m)).trans (modeOne_linesOut on m s)

theorem ansiMode_linesOut (params : List Nat) (on : Bool) (s : Screen) :
    (s.ansiMode params on).linesOut = s.linesOut := by
  induction params generalizing s with
  | nil => rfl
  | cons m params ih =>
      have hone : (s.ansiModeOne on m).linesOut = s.linesOut := by
        unfold ansiModeOne
        split <;> rfl
      exact (ih (s.ansiModeOne on m)).trans hone

theorem control_linesOut {final : Char} {n : Nat} (h : s.Ok r)
    (hn : Csi.of final = .su → Keeps s → n ≤ s.rows) (p : List Nat) :
    (s.control final p n).linesOut ≤ s.linesOut + s.rows := by
  have hsame {t : Screen} (ht : t.linesOut = s.linesOut) : t.linesOut ≤ s.linesOut + s.rows :=
    ht.trans_le (Nat.le_add_right _ _)
  unfold control
  cases hc : Csi.of final with
  | mode on =>
      show (if s.priv then _ else _ : Screen).linesOut ≤ _
      split
      · exact hsame (mode_linesOut p on s)
      · exact hsame (ansiMode_linesOut p on s)
  | cup =>
      apply hsame
      show s.moveTo.linesOut = _
      unfold moveTo
      split <;> rfl
  | el =>
      apply hsame
      show (s.eraseLine _).linesOut = _
      unfold eraseLine
      repeat' split
      all_goals rfl
  | il =>
      apply hsame
      show (s.insertLines n).linesOut = _
      unfold insertLines
      split <;> rfl
  | dl =>
      apply hsame
      show (s.deleteLines n).linesOut = _
      unfold deleteLines
      split <;> rfl
  | decstbm =>
      apply hsame
      show s.setMargins.linesOut = _
      unfold setMargins
      split
      · split <;> rfl
      · rfl
  | restore => exact hsame (restoreCursor_linesOut s)
  | ed => exact eraseDisplay_linesOut h _
  | rep => exact repeatLast_linesOut h n
  | su =>
      show (s.scrollUp n).linesOut ≤ _
      rw [scrollUp_linesOut]
      split
      · exact Nat.add_le_add_left (hn hc ‹_›) _
      · exact Nat.le_add_right _ _
  | _ => exact hsame rfl

theorem byte_linesOut (h : s.Ok r) (hno : ¬ Overscrolls s b) :
    (s.byte b).linesOut ≤ s.linesOut + s.rows := by
  have hone {t : Screen} (ht : t.linesOut ≤ s.linesOut + 1) : t.linesOut ≤ s.linesOut + s.rows :=
    ht.trans (Nat.add_le_add_left h.rows _)
  have hsame {t : Screen} (ht : t.linesOut = s.linesOut) : t.linesOut ≤ s.linesOut + s.rows :=
    ht.trans_le (Nat.le_add_right _ _)
  unfold byte
  cases hs : s.state with
  | text =>
      show (s.textByte b).linesOut ≤ _
      unfold textByte
      cases TextByte.of b with
      | lineFeed => exact hone (newline_linesOut s)
      | graphic => exact hone (graphic_linesOut h b)
      | backspace =>
          apply hsame
          show (if s.pendingWrap then _ else _ : Screen).linesOut = _
          split <;> rfl
      | _ => exact hsame rfl
  | esc =>
      show (s.escByte b).linesOut ≤ _
      unfold escByte
      cases EscByte.of (chr b) with
      | index => exact hone (newline_linesOut { s with state := .text })
      | nextLine => exact hone (newline_linesOut { s with state := .text, cx := 0 })
      | restore => exact hsame (restoreCursor_linesOut { s with state := .text })
      | reverseIndex =>
          apply hsame
          show (reverseIndex _).linesOut = _
          unfold reverseIndex
          split <;> rfl
      | _ => exact hsame rfl
  | csi =>
      show (s.csiByte b).linesOut ≤ _
      unfold csiByte
      split
      · exact hsame rfl
      · split
        · exact hsame rfl
        · unfold dispatch
          split
          · exact hsame rfl
          · rename_i p hp
            refine control_linesOut (s := { s with state := .text }) { h with }
              (fun hk hkeeps => ?_) _
            have hle := Nat.le_of_not_lt fun hlt => hno ⟨hs, hk, hkeeps.1, hkeeps.2, p, hp, hlt⟩
            have hrows := h.rows
            show (if p.headD 0 = 0 then 1 else p.headD 0) ≤ s.rows
            split <;> omega
  | osc =>
      apply hsame
      show (s.oscByte b).linesOut = _
      unfold oscByte
      split
      · rfl
      · split <;> rfl
  | charset => exact hsame rfl
  | hash => exact hsame rfl

/-- SU pushes as many lines as it says, where the rows are kept. -/
theorem overscrolls_linesOut (hover : Overscrolls s b) :
    s.linesOut + s.rows < (s.byte b).linesOut := by
  obtain ⟨hs, hk, halt, htop, p, hp, hlt⟩ := hover
  have hknown : Csi.of (chr b) ≠ .unknown := by
    rw [hk]
    exact Csi.noConfusion
  have hkeeps : Keeps { s with state := .text } := ⟨halt, htop⟩
  rw [byte_final hs hknown hp, if_neg (Nat.ne_zero_of_lt hlt), control, hk]
  show _ < (scrollUp _ _).linesOut
  rw [scrollUp_linesOut, if_pos hkeeps]
  exact Nat.add_lt_add_left hlt _

/-- No byte pushes or drops more than a screenful exactly if it does not end SU with a count beyond
that. -/
theorem byte_pushes_iff (h : s.Ok none) (b : Byte) :
    Pushes s.rows s (s.byte b) ↔ ¬ Overscrolls s b := by
  constructor
  · intro hpush hover
    have hgrows := overscrolls_linesOut hover
    have hle := hpush.linesOut
    omega
  · intro hno
    have hlines := byte_linesOut h hno
    have hdropped := evicted_le h.limit (appends_frame.byte_any appends_of_eq b s)
    exact ⟨hlines, by omega⟩

end Lines

/-- `ESC [ 2 S` on three rows. -/
theorem byte_pushes_iff_two :
    Pushes 3 ((init 3 5 10).bytes [0x1b, 0x5b, 0x32])
      (((init 3 5 10).bytes [0x1b, 0x5b, 0x32]).byte 0x53) :=
  (byte_pushes_iff ((ok_init 3 5 10).bytes [0x1b, 0x5b, 0x32] (by decide +kernel)) 0x53).mpr
    (by decide +kernel)

/-- `ESC [ 9 S` on three rows pushes nine lines, and drops those of a history of two. -/
theorem su_overscrolls :
    let s := (init 3 5 2).bytes [0x1b, 0x5b, 0x39]
    s.linesOut = 0 ∧ (s.byte 0x53).linesOut = 9 ∧ (s.byte 0x53).history.evicted = 7 ∧
      ¬ Pushes s.rows s (s.byte 0x53) := by
  refine ⟨by decide +kernel, by decide +kernel, by decide +kernel, fun h => ?_⟩
  have hle := h.linesOut
  revert hle
  decide +kernel

end Screen
end P4Hyp
