import P4Hyp.Screen.Shape

/-!
# Scrolling

Every scrolling function takes rows out at one end of a region and puts blank ones in at
the other, and leaves the rows outside the region where they are.
-/

namespace P4Hyp
namespace Screen

/-- The functions that scroll, with their counts. -/
inductive ScrollOp
  | lineFeed
  | reverseIndex
  | scrollUp (n : Nat)
  | scrollDown (n : Nat)
  | insertLines (n : Nat)
  | deleteLines (n : Nat)

/-- The scrolling function that the byte is or ends: LF, VT and FF, the index, the next line
and the reverse index, and CSI `S`, `T`, `L` and `M`. -/
def scrollOp (s : Screen) (b : Byte) : Option ScrollOp :=
  match s.state with
  | .text => if TextByte.of b = .lineFeed then some .lineFeed else none
  | .esc =>
      match EscByte.of (chr b) with
      | .index | .nextLine => some .lineFeed
      | .reverseIndex => some .reverseIndex
      | _ => none
  | .csi =>
      match parmsOf 0 1 s.parm with
      | none => none
      | some p =>
          let n := if p.headD 0 = 0 then 1 else p.headD 0
          match Csi.of (chr b) with
          | .su => some (.scrollUp n)
          | .sd => some (.scrollDown n)
          | .il => some (.insertLines n)
          | .dl => some (.deleteLines n)
          | _ => none
  | _ => none

/-- The rows of `t` are those of `s` after the function: a line feed scrolls from the last row of
the region and a reverse index from its first one, and lines are inserted and deleted inside
the region only, from the cursor on. -/
def ScrollOp.Moves (s t : Screen) : ScrollOp → Prop
  | .lineFeed =>
      if s.cy = s.bot then ShiftedUp s.top s.bot 1 (blankRow s.cols) s.grid t.grid
      else t.grid = s.grid
  | .reverseIndex =>
      if s.cy = s.top then ShiftedDown s.top s.bot 1 (blankRow s.cols) s.grid t.grid
      else t.grid = s.grid
  | .scrollUp n => ShiftedUp s.top s.bot n (blankRow s.cols) s.grid t.grid
  | .scrollDown n => ShiftedDown s.top s.bot n (blankRow s.cols) s.grid t.grid
  | .insertLines n =>
      if s.InRegion then ShiftedDown s.cy s.bot n (blankRow s.cols) s.grid t.grid
      else t.grid = s.grid
  | .deleteLines n =>
      if s.InRegion then ShiftedUp s.cy s.bot n (blankRow s.cols) s.grid t.grid else t.grid = s.grid

/-- The rows outside the scrolling region are kept, and those inside it have moved. -/
structure Scrolled (op : ScrollOp) (s t : Screen) : Prop where
  outside : ∀ k, k < s.top ∨ s.bot < k → t.grid[k]? = s.grid[k]?
  moves : op.Moves s t

section Ops

variable {s t : Screen} {r : Option Exn}

theorem ScrollOp.Moves.outside {op : ScrollOp} (h : op.Moves s t) {k : Nat}
    (hk : k < s.top ∨ s.bot < k) :
    t.grid[k]? = s.grid[k]? := by
  have hsame {P : Prop} [Decidable P] {Q : Prop} (hq : P → Q → t.grid[k]? = s.grid[k]?)
      (hif : if P then Q else t.grid = s.grid) : t.grid[k]? = s.grid[k]? := by
    split at hif
    · exact hq ‹_› hif
    · rw [hif]
  cases op with
  | lineFeed => exact hsame (fun _ hm => hm.outside k hk) h
  | reverseIndex => exact hsame (fun _ hm => hm.outside k hk) h
  | scrollUp n => exact ShiftedUp.outside h k hk
  | scrollDown n => exact ShiftedDown.outside h k hk
  | insertLines n =>
      exact hsame (fun hin hm => hm.outside k (hk.imp_left fun hlt => hlt.trans_le hin.1)) h
  | deleteLines n =>
      exact hsame (fun hin hm => hm.outside k (hk.imp_left fun hlt => hlt.trans_le hin.1)) h

theorem Ok.bot_lt (h : s.Ok r) : s.bot < s.grid.length := by
  rw [h.grid.rows]
  exact h.bot

theorem scrollUpOne_moves (h : s.Ok r) :
    ShiftedUp s.top s.bot 1 (blankRow s.cols) s.grid s.scrollUpOne.grid := by
  obtain ⟨g, hg, hs⟩ := popInsert_up (x := blankRow s.cols) h.region h.bot_lt
  have he : s.scrollUpOne.grid = g := by
    show (popInsert s.top s.bot (blankRow s.cols) s.grid).getD s.grid = g
    rw [hg]
    rfl
  rwa [he]

theorem scrollUp_moves (h : s.Ok r) (n : Nat) :
    ShiftedUp s.top s.bot n (blankRow s.cols) s.grid (s.scrollUp n).grid := by
  induction n generalizing s with
  | zero => exact .refl
  | succ n ih => exact (scrollUpOne_moves h).trans (ih h.scrollUpOne)

theorem scrollDown_moves (h : s.Ok r) (n : Nat) :
    ShiftedDown s.top s.bot n (blankRow s.cols) s.grid (s.scrollDown n).grid := by
  obtain ⟨g, hg, hs⟩ := times_down (x := blankRow s.cols) h.region h.bot_lt n
  have he : (s.scrollDown n).grid = g := by
    show (times n (popInsert s.bot s.top (blankRow s.cols)) s.grid).getD s.grid = g
    rw [hg]
    rfl
  rwa [he]

theorem newline_moves (h : s.Ok r) : ScrollOp.lineFeed.Moves s s.newline := by
  show if s.cy = s.bot then ShiftedUp _ _ _ _ _ (if s.cy = s.bot then _ else _ : Screen).grid
    else (if s.cy = s.bot then _ else _ : Screen).grid = _
  split
  · exact scrollUp_moves (s := { s with pendingWrap := false }) { h with } 1
  · split <;> rfl

theorem reverseIndex_moves (h : s.Ok r) : ScrollOp.reverseIndex.Moves s s.reverseIndex := by
  show if s.cy = s.top then ShiftedDown _ _ _ _ _ (if s.cy = s.top then _ else _ : Screen).grid
    else (if s.cy = s.top then _ else _ : Screen).grid = _
  split
  · exact scrollDown_moves h 1
  · rfl

theorem insertLines_moves (h : s.Ok r) (n : Nat) :
    (ScrollOp.insertLines n).Moves s (s.insertLines n) := by
  show if s.InRegion then ShiftedDown _ _ _ _ _ (if s.InRegion then _ else _ : Screen).grid
    else (if s.InRegion then _ else _ : Screen).grid = _
  split
  · rename_i hin
    obtain ⟨g, hg, hs⟩ :=
      times_down (x := blankRow s.cols) hin.2 h.bot_lt (min n (s.bot - s.cy + 1))
    apply ShiftedDown.of_min
    show ShiftedDown _ _ _ _ _ ((times _ (popInsert s.bot s.cy (blankRow s.cols)) s.grid).getD s.grid)
    rwa [hg]
  · rfl

theorem deleteLines_moves (h : s.Ok r) (n : Nat) :
    (ScrollOp.deleteLines n).Moves s (s.deleteLines n) := by
  show if s.InRegion then ShiftedUp _ _ _ _ _ (if s.InRegion then _ else _ : Screen).grid
    else (if s.InRegion then _ else _ : Screen).grid = _
  split
  · rename_i hin
    obtain ⟨g, hg, hs⟩ := times_up (x := blankRow s.cols) hin.2 h.bot_lt (min n (s.bot - s.cy + 1))
    apply ShiftedUp.of_min
    show ShiftedUp _ _ _ _ _ ((times _ (popInsert s.cy s.bot (blankRow s.cols)) s.grid).getD s.grid)
    rwa [hg]
  · rfl

end Ops

/-! ## Bytes -/

section Bytes

variable {s : Screen} {r : Option Exn} {b : Byte} {op : ScrollOp}

theorem textByte_moves (h : s.Ok r) (hb : TextByte.of b = .lineFeed) :
    ScrollOp.lineFeed.Moves s (s.textByte b) := by
  unfold textByte
  rw [hb]
  exact newline_moves h

/-- The byte does what its scrolling function does. -/
theorem byte_moves (h : s.Ok r) (hop : s.scrollOp b = some op) : op.Moves s (s.byte b) := by
  have ht : Ok { s with state := .text } r := { h with }
  unfold scrollOp at hop
  unfold byte
  cases hstate : s.state with
  | text =>
      rw [hstate] at hop
      dsimp only at hop ⊢
      split at hop
      · obtain rfl := Option.some.inj hop
        exact textByte_moves h ‹_›
      · cases hop
  | esc =>
      rw [hstate] at hop
      dsimp only at hop ⊢
      unfold escByte
      cases he : EscByte.of (chr b) <;> rw [he] at hop <;> cases hop
      · exact reverseIndex_moves ht
      · exact newline_moves ht
      · exact newline_moves (s := { s with state := .text, cx := 0 }) { h with cx := h.cols }
  | csi =>
      rw [hstate] at hop
      dsimp only at hop ⊢
      cases hp : parmsOf 0 1 s.parm with
      | none => rw [hp] at hop; cases hop
      | some p =>
          rw [hp] at hop
          dsimp only at hop
          have hknown : Csi.of (chr b) ≠ .unknown := fun hc => by rw [hc] at hop; cases hop
          have hbyte := byte_final hstate hknown hp
          rw [byte, hstate] at hbyte
          dsimp only at hbyte
          rw [hbyte]
          unfold control
          cases hc : Csi.of (chr b) <;> rw [hc] at hop <;> cases hop
          · exact insertLines_moves ht _
          · exact deleteLines_moves ht _
          · exact scrollUp_moves ht _
          · exact scrollDown_moves ht _
  | osc => rw [hstate] at hop; cases hop
  | charset => rw [hstate] at hop; cases hop
  | hash => rw [hstate] at hop; cases hop

/-- In every state that bytes and changes of size lead to, a scrolling function moves the rows of
the region, and no other. -/
theorem byte_scrolled {rows cols : Int} {limit : Nat} {f : Feeding} {h : List (Feeding × FeedEvent)}
    (hrun : Run feedFire ⟨init rows cols limit, []⟩ h f) (hop : f.screen.scrollOp b = some op) :
    Scrolled op f.screen (f.screen.byte b) := by
  have hmoves := byte_moves (sound_run hrun).1 hop
  exact ⟨fun k hk => hmoves.outside hk, hmoves⟩

end Bytes

/-- A reverse index in the first row of a region below the screen's first row. -/
theorem byte_scrolled_region : ∃ h f, Run feedFire ⟨init 4 3 10, []⟩ h f ∧ f.screen.top = 1 ∧
    f.screen.bot = 2 ∧ Scrolled .reverseIndex f.screen (f.screen.byte 0x4d) := by
  obtain ⟨h, f, hrun, hd⟩ := Run.exists_of_play feedFire ⟨init 4 3 10, []⟩
    (.feed [0x61, 0x1b, 0x5b, 0x32, 0x3b, 0x33, 0x72, 0x62, 0x1b, 0x4d] :: rounds 9)
    (fun r => decide (r.2.screen.top = 1 ∧ r.2.screen.bot = 2 ∧ r.2.screen.state = .esc)) true
    (by decide +kernel)
  obtain ⟨htop, hbot, hstate⟩ := of_decide_eq_true hd
  have hop : f.screen.scrollOp 0x4d = some .reverseIndex := by
    unfold scrollOp
    rw [hstate]
    rfl
  exact ⟨h, f, hrun, htop, hbot, byte_scrolled hrun hop⟩

end Screen
end P4Hyp
