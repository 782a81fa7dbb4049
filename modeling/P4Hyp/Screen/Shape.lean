import P4Hyp.Screen.Parse

/-!
# The shape of the screen

Every control function finds its cells inside the grid and leaves a grid of the
same size, with the cursor and the scrolling region inside it.
-/

namespace P4Hyp
namespace Screen

/-- The invariant, after the exception `r`. -/
structure Ok (s : Screen) (r : Option Exn) : Prop where
  rows : 0 < s.rows
  cols : 0 < s.cols
  grid : Grid.Sized s.rows s.cols s.grid
  /-- The parked grid has the same size. -/
  parked : ∀ g, s.altGrid = some g → Grid.Sized s.rows s.cols g
  cx : s.cx < s.cols
  cy : s.cy < s.rows
  region : s.top ≤ s.bot
  bot : s.bot < s.rows
  limit : s.scrollback.length ≤ s.scrollbackLimit
  linesOut : s.scrollback.length ≤ s.linesOut
  raised : s.raised = r

theorem sized_newGrid (rows cols : Nat) : Grid.Sized rows cols (newGrid rows cols) :=
  Grid.sized_blank

theorem one_le_atLeastOne (n : Int) : 0 < atLeastOne n := by
  unfold atLeastOne
  omega

theorem ok_init (rows cols : Int) (limit : Nat) : (init rows cols limit).Ok none where
  rows := one_le_atLeastOne rows
  cols := one_le_atLeastOne cols
  grid := sized_newGrid _ _
  parked g h := by cases h
  cx := one_le_atLeastOne cols
  cy := one_le_atLeastOne rows
  region := Nat.zero_le _
  bot := Nat.sub_lt (one_le_atLeastOne rows) Nat.one_pos
  limit := Nat.zero_le _
  linesOut := Nat.le_refl 0
  raised := rfl

namespace Ok

variable {s : Screen} {r : Option Exn}

/-! ## The grid -/

theorem draw {f : Grid Cell → Option (Grid Cell)} (h : s.Ok r)
    (hf : Grid.KeepsSize s.rows s.cols f) : (s.draw f).Ok r := by
  obtain ⟨g, hg, hsize⟩ := hf s.grid h.grid
  have he : s.draw f = { s with grid := g } := by
    rw [Screen.draw, hg]
    rfl
  rw [he]
  exact { h with grid := hsize }

theorem trimmed_length (limit : Nat) (lines : List Str) :
    (trimmed limit lines).length ≤ limit ∧ (trimmed limit lines).length ≤ lines.length := by
  unfold trimmed
  split
  · rw [List.length_drop]
    omega
  · omega

theorem blankRow_length (cols : Nat) : (blankRow cols).length = cols := List.length_replicate

theorem scrollUpOne (h : s.Ok r) : s.scrollUpOne.Ok r := by
  have hd : (s.draw (popInsert s.top s.bot (blankRow s.cols))).Ok r :=
    h.draw (Grid.keepsSize_popInsert (Nat.lt_of_le_of_lt h.region h.bot) (blankRow_length _))
  have htrim := trimmed_length s.scrollbackLimit
    (s.scrollback ++ [rowText (s.grid[s.top]?.getD [])])
  rw [List.length_append, List.length_singleton] at htrim
  have hlimit := h.limit
  have hout := h.linesOut
  refine { hd with limit := ?_, linesOut := ?_ }
  · show (if _ then _ else _ : List Str).length ≤ s.scrollbackLimit
    split
    · exact htrim.1
    · exact hlimit
  · show (if _ then _ else _ : List Str).length ≤ if _ then _ else _
    split
    · exact htrim.2.trans (Nat.succ_le_succ hout)
    · exact hout

theorem scrollUp (h : s.Ok r) (n : Nat) : (s.scrollUp n).Ok r :=
  Function.Iterate.rec (Ok · r) h (fun _ hs => hs.scrollUpOne) n

theorem scrollDown (h : s.Ok r) (n : Nat) : (s.scrollDown n).Ok r :=
  h.draw (Grid.keepsSize_times (Grid.keepsSize_popInsert h.bot (blankRow_length _)) n)

theorem newline (h : s.Ok r) : s.newline.Ok r := by
  have hw : Ok { s with pendingWrap := false } r := { h with }
  show (if s.cy = s.bot then _ else _ : Screen).Ok r
  split
  · exact hw.scrollUp 1
  · split
    · rename_i hlt
      exact { hw with cy := hlt }
    · exact hw

/-! ## Cells of the cursor's row -/

theorem onRow {f : List Cell → Option (List Cell)} (h : s.Ok r)
    (hf : ∀ row, row.length = s.cols → KeepsLength f row) : (s.draw (Grid.onRow s.cy f)).Ok r :=
  h.draw (Grid.keepsSize_onRow h.cy hf)

theorem insertBlank (h : s.Ok r) {row : List Cell} (hrow : row.length = s.cols) :
    KeepsLength s.insertBlank row := by
  apply keepsLength_popInsert
  have := h.cols
  omega

theorem blankCells (h : s.Ok r) {lo hi : Nat} (hle : hi ≤ lo ∨ hi ≤ s.cols) :
    (s.blankCells lo hi).Ok r := by
  apply h.onRow
  intro row hrow
  apply keepsLength_mapRange
  rwa [hrow]

theorem blankRows (h : s.Ok r) {lo hi : Nat} (hle : hi ≤ lo ∨ hi ≤ s.rows) :
    (s.blankRows lo hi).Ok r :=
  h.draw (Grid.keepsSize_mapRange hle fun _ => List.length_map _)

theorem shiftRow (h : s.Ok r) : s.shiftRow.Ok r := by
  unfold Screen.shiftRow
  split
  · exact h.onRow fun _ hrow => h.insertBlank hrow
  · exact h

theorem writeCell (h : s.Ok r) (ch : Char) : (s.writeCell ch).Ok r := by
  apply h.onRow
  intro row hrow
  apply keepsLength_setAt
  rw [hrow]
  exact h.cx

theorem advance (h : s.Ok r) : s.advance.Ok r := by
  unfold Screen.advance
  split
  · exact { h with }
  · rename_i hlt
    exact { h with cx := Nat.lt_of_not_le hlt }

theorem putHere (h : s.Ok r) (ch : Char) : (s.putHere ch).Ok r := by
  have hl : Ok { s with lastCh := some ch } r := { h with }
  exact (hl.shiftRow.writeCell ch).advance

theorem put (h : s.Ok r) (ch : Char) : (s.put ch).Ok r := by
  unfold Screen.put
  split
  · have hc : Ok { s with cx := 0 } r := { h with cx := h.cols }
    have hw : Ok { Screen.newline { s with cx := 0 } with pendingWrap := false } r :=
      { hc.newline with }
    exact hw.putHere ch
  · exact h.putHere ch

theorem tab (h : s.Ok r) : s.tab.Ok r := by
  have hlt : min ((s.cx / 8 + 1) * 8) (s.cols - 1) < s.cols := by
    have := h.cols
    omega
  exact { h with cx := hlt }

/-! ## Cursor and buffers -/

theorem saveCursor (h : s.Ok r) : s.saveCursor.Ok r := { h with }

theorem restoreCursor (h : s.Ok r) : s.restoreCursor.Ok r := by
  have hcols := h.cols
  have hrows := h.rows
  unfold Screen.restoreCursor
  split
  · exact { h with cx := hcols, cy := hrows }
  · rename_i c _
    have hx : min c.cx (s.cols - 1) < s.cols := by omega
    have hy : min c.cy (s.rows - 1) < s.rows := by omega
    exact { h with cx := hx, cy := hy }

theorem lastRow (h : s.Ok r) : s.rows - 1 < s.rows := Nat.sub_lt h.rows Nat.one_pos

theorem altScreen (h : s.Ok r) (on : Bool) : (s.altScreen on).Ok r := by
  cases on with
  | true =>
      simp only [Screen.altScreen, if_true]
      split
      · exact h
      · exact { h.saveCursor with
          grid := sized_newGrid _ _
          parked := fun g hg => by
            obtain rfl := Option.some.inj hg
            exact h.grid
          cx := h.cols
          cy := h.rows
          region := Nat.zero_le _
          bot := h.lastRow }
  | false =>
      simp only [Screen.altScreen, Bool.false_eq_true, if_false]
      split
      · exact h
      · rename_i g hg
        have hback : Ok { s with grid := g, altGrid := none, top := 0, bot := s.rows - 1 } r :=
          { h with
            grid := h.parked g hg
            parked := fun g hg => by cases hg
            region := Nat.zero_le _
            bot := h.lastRow }
        exact hback.restoreCursor

theorem reset (h : s.Ok r) : s.reset.Ok r :=
  { h with
    grid := sized_newGrid _ _
    parked := fun g hg => by cases hg
    cx := h.cols
    cy := h.rows
    region := Nat.zero_le _
    bot := h.lastRow }

/-! ## Erasing, inserting and deleting -/

theorem eraseLine (h : s.Ok r) (mode : Nat) : (s.eraseLine mode).Ok r := by
  have hrow : Ok (if mode = 0 then s.blankCells s.cx s.cols
      else if mode = 1 then s.blankCells 0 (min (s.cx + 1) s.cols)
      else s.blankCells 0 s.cols) r := by
    split
    · exact h.blankCells (.inr (Nat.le_refl _))
    · split
      · exact h.blankCells (.inr (Nat.min_le_right _ _))
      · exact h.blankCells (.inr (Nat.le_refl _))
  exact { hrow with }

theorem sized_blanked {g : Grid Cell} (h : Grid.Sized s.rows s.cols g) :
    Grid.Sized s.rows s.cols (g.map fun row => row.map fun _ => Cell.blank) where
  rows := (List.length_map _).trans h.rows
  cols row hrow := by
    obtain ⟨row, hmem, rfl⟩ := List.mem_map.mp hrow
    exact (List.length_map _).trans (h.cols row hmem)

/-- A full clear of the primary buffer. -/
theorem keepCleared (h : s.Ok r) :
    (if s.inAlt then s.scrollback
        else trimmed s.scrollbackLimit (s.scrollback ++ s.cleared)).length ≤ s.scrollbackLimit ∧
      (if s.inAlt then s.scrollback
        else trimmed s.scrollbackLimit (s.scrollback ++ s.cleared)).length ≤
        if s.inAlt then s.linesOut else s.linesOut + s.cleared.length := by
  have hlimit := h.limit
  have hout := h.linesOut
  have htrim := trimmed_length s.scrollbackLimit (s.scrollback ++ s.cleared)
  rw [List.length_append] at htrim
  split
  · exact ⟨hlimit, hout⟩
  · exact ⟨htrim.1, htrim.2.trans (Nat.add_le_add_right hout _)⟩

theorem eraseDisplay (h : s.Ok r) (mode : Nat) : (s.eraseDisplay mode).Ok r := by
  unfold Screen.eraseDisplay
  split
  · have hrows : ((s.eraseLine 0).blankRows (s.cy + 1) s.rows).Ok r :=
      (h.eraseLine 0).blankRows (.inr (Nat.le_refl _))
    exact { hrows with }
  · split
    · have hrows : ((s.eraseLine 1).blankRows 0 s.cy).Ok r :=
        (h.eraseLine 1).blankRows (.inr (Nat.le_of_lt h.cy))
      exact { hrows with }
    · exact { h with
        grid := sized_blanked h.grid
        limit := h.keepCleared.1
        linesOut := h.keepCleared.2 }

theorem insertLines (h : s.Ok r) (n : Nat) : (s.insertLines n).Ok r := by
  unfold Screen.insertLines
  split
  · have hd := h.draw (Grid.keepsSize_times (Grid.keepsSize_popInsert (j := s.cy) h.bot
      (blankRow_length _)) (min n (s.bot - s.cy + 1)))
    exact { hd with cx := h.cols }
  · exact h

theorem deleteLines (h : s.Ok r) (n : Nat) : (s.deleteLines n).Ok r := by
  unfold Screen.deleteLines
  split
  · have hd := h.draw (Grid.keepsSize_times (Grid.keepsSize_popInsert (j := s.bot) h.cy
      (blankRow_length _)) (min n (s.bot - s.cy + 1)))
    exact { hd with cx := h.cols }
  · exact h

theorem insertChars (h : s.Ok r) (n : Nat) : (s.insertChars n).Ok r := by
  apply h.onRow
  intro row hrow
  apply keepsLength_times
  exact fun row' hlen => h.insertBlank (hlen.trans hrow)

theorem deleteChars (h : s.Ok r) (n : Nat) : (s.deleteChars n).Ok r := by
  apply h.onRow
  intro row hrow
  apply keepsLength_times
  intro row' hlen
  apply keepsLength_popInsert
  rw [hlen, hrow]
  exact h.cx

/-! ## Control functions -/

theorem mode (h : s.Ok r) (params : List Nat) (on : Bool) : (s.mode params on).Ok r := by
  induction params generalizing s with
  | nil => exact h
  | cons m params ih =>
      apply ih
      unfold modeOne
      split
      · exact { h with }
      · split
        · exact { h with }
        · split
          · exact h.altScreen on
          · split
            · split
              · exact h.saveCursor
              · exact h.restoreCursor
            · exact h

theorem ansiMode (h : s.Ok r) (params : List Nat) (on : Bool) : (s.ansiMode params on).Ok r := by
  induction params generalizing s with
  | nil => exact h
  | cons m params ih =>
      apply ih
      unfold ansiModeOne
      split
      · exact { h with }
      · exact h

theorem raiseValueError (h : s.Ok r) : s.raiseValueError.Ok (some .valueError) :=
  { h with raised := rfl }

theorem moveTo (h : s.Ok r) (hp : pairOf 1 s.parm ≠ none) : s.moveTo.Ok r := by
  unfold Screen.moveTo
  split
  · rename_i y x _
    have hcols := h.cols
    have hrows := h.rows
    have hx : min (max 1 x) s.cols - 1 < s.cols := by omega
    have hy : min (max 1 y) s.rows - 1 < s.rows := by omega
    exact { h with cx := hx, cy := hy }
  · exact absurd ‹_› hp

theorem regionOf_bounds {rows top bot : Nat} {m : Nat × Nat} (h : regionOf rows top bot = some m) :
    m.1 < m.2 ∧ m.2 < rows := by
  simp only [regionOf] at h
  generalize (if top = 0 then 1 else top) = t at h
  generalize (if bot = 0 then rows else bot) = b at h
  split at h
  · obtain rfl := Option.some.inj h
    omega
  · cases h

theorem setMargins (h : s.Ok r) (hp : pairOf 0 s.parm ≠ none) : s.setMargins.Ok r := by
  unfold Screen.setMargins
  split
  · split
    · rename_i hr
      obtain ⟨hlt, hbot⟩ := regionOf_bounds hr
      exact { h with
        cx := h.cols
        cy := Nat.lt_trans hlt hbot
        region := Nat.le_of_lt hlt
        bot := hbot }
    · exact h
  · exact absurd ‹_› hp

theorem repeatLast (h : s.Ok r) (n : Nat) : (s.repeatLast n).Ok r := by
  unfold Screen.repeatLast
  split
  · exact h
  · rename_i ch _
    exact Function.Iterate.rec (Ok · r) h (fun _ hs => hs.put ch) _

theorem control {final : Char} (h : s.Ok r) (hr : ¬ Raises final s.parm) (p : List Nat)
    (n : Nat) : (s.control final p n).Ok r := by
  have hcols := h.cols
  have hrows := h.rows
  have hcx := h.cx
  have hcy := h.cy
  have hregion := h.region
  have hbot := h.bot
  have hup : max s.top (s.cy - n) < s.rows := by omega
  have hdown : min s.bot (s.cy + n) < s.rows := by omega
  have hpair (hk : Csi.of final = .cup ∨ Csi.of final = .decstbm) (default : Nat) :
      pairOf default s.parm ≠ none := by
    rw [Ne, pairOf_eq_none]
    exact fun hp => hr (hp.imp_right fun hlt => ⟨hk, hlt⟩)
  unfold Screen.control
  cases hk : Csi.of final with
  | mode on =>
      show (if s.priv then _ else _ : Screen).Ok r
      split
      · exact h.mode p on
      · exact h.ansiMode p on
  | cup => exact h.moveTo (hpair (.inl hk) 1)
  | cuu => exact { h with cy := hup }
  | cud => exact { h with cy := hdown }
  | cuf =>
      have hx : min (s.cols - 1) (s.cx + n) < s.cols := by omega
      exact { h with cx := hx }
  | cub => exact { h with cx := Nat.lt_of_le_of_lt (Nat.sub_le _ _) hcx }
  | cnl => exact { h with cx := hcols, cy := hdown }
  | cpl => exact { h with cx := hcols, cy := hup }
  | cha =>
      have hx : min (max 1 n) s.cols - 1 < s.cols := by omega
      exact { h with cx := hx }
  | vpa =>
      have hy : min (max 1 n) s.rows - 1 < s.rows := by omega
      exact { h with cy := hy }
  | ed => exact h.eraseDisplay _
  | el => exact h.eraseLine _
  | il => exact h.insertLines n
  | dl => exact h.deleteLines n
  | ich => exact h.insertChars n
  | dch => exact h.deleteChars n
  | rep => exact h.repeatLast n
  | ech => exact h.blankCells (.inr (Nat.min_le_left _ _))
  | su => exact h.scrollUp n
  | sd => exact h.scrollDown n
  | sgr => exact { h with }
  | decstbm => exact h.setMargins (hpair (.inr hk) 0)
  | save => exact h.saveCursor
  | restore => exact h.restoreCursor
  | report => exact h
  | unknown => exact { h with }

theorem dispatch {final : Char} (h : s.Ok r) (hr : ¬ Raises final s.parm) :
    (s.dispatch final).Ok r := by
  unfold Screen.dispatch
  split
  · rename_i hp
    exact absurd (.inl (parmsOf_eq_none.mp hp)) hr
  · exact h.control hr _ _

/-! ## Bytes -/

theorem graphic (h : s.Ok r) (b : Byte) : (s.graphic b).Ok r := by
  rcases graphic_cases b s with ⟨ch, p, he⟩ | ⟨p, he⟩
  · rw [he]
    have hp : Ok { s with pending := p } r := { h with }
    exact hp.put ch
  · rw [he]
    exact { h with }

theorem textByte (h : s.Ok r) (b : Byte) : (s.textByte b).Ok r := by
  unfold Screen.textByte
  cases TextByte.of b with
  | escape => exact { h with }
  | carriageReturn => exact { h with cx := h.cols }
  | lineFeed => exact h.newline
  | backspace =>
      show (if s.pendingWrap then _ else _ : Screen).Ok r
      split
      · exact { h with }
      · exact { h with cx := Nat.lt_of_le_of_lt (Nat.sub_le _ _) h.cx }
  | tab => exact h.tab
  | bell => exact { h with }
  | shiftOut => exact { h with }
  | shiftIn => exact { h with }
  | ignored => exact h
  | graphic => exact h.graphic b

theorem reverseIndex (h : s.Ok r) : s.reverseIndex.Ok r := by
  unfold Screen.reverseIndex
  split
  · exact h.scrollDown 1
  · exact { h with cy := Nat.lt_of_le_of_lt (Nat.sub_le _ _) h.cy }

theorem escByte (h : s.Ok r) (b : Byte) : (s.escByte b).Ok r := by
  have ht : Ok { s with state := .text } r := { h with }
  unfold Screen.escByte
  cases EscByte.of (chr b) with
  | csi => exact { h with }
  | osc => exact { h with }
  | charset => exact { h with }
  | hash => exact { h with }
  | save => exact ht.saveCursor
  | restore => exact ht.restoreCursor
  | reverseIndex => exact ht.reverseIndex
  | index => exact ht.newline
  | nextLine =>
      have hx : Ok { s with state := .text, cx := 0 } r := { h with cx := h.cols }
      exact hx.newline
  | reset => exact ht.reset
  | keypad => exact ht
  | unknown => exact { ht with }

theorem oscByte (h : s.Ok r) (b : Byte) : (s.oscByte b).Ok r := by
  unfold Screen.oscByte
  split
  · exact { h with }
  · split
    · exact { h with }
    · exact { h with }

/-- The end of a sequence may raise, and nothing else. -/
theorem csiByte (h : s.Ok r) (b : Byte) :
    (s.csiByte b).Ok r ∨ (s.csiByte b).Ok (some .valueError) := by
  unfold Screen.csiByte
  split
  · exact .inl { h with }
  · split
    · exact .inl { h with }
    · have ht : Ok { s with state := .text } r := { h with }
      by_cases hr : Raises (chr b) s.parm
      · right
        rw [dispatch_raises (s := { s with state := .text }) hr]
        exact ht.raiseValueError
      · exact .inl (ht.dispatch hr)

theorem byte (h : s.Ok r) (b : Byte) : (s.byte b).Ok r ∨ (s.byte b).Ok (some .valueError) := by
  unfold Screen.byte
  cases s.state with
  | text => exact .inl (h.textByte b)
  | esc => exact .inl (h.escByte b)
  | csi => exact h.csiByte b
  | osc => exact .inl (h.oscByte b)
  | charset => exact .inl { h with }
  | hash => exact .inl { h with }

/-! ## `resize` -/

theorem sized_resizeGrid (rows cols : Nat) (g : Grid Cell) :
    Grid.Sized rows cols (resizeGrid rows cols g) := by
  have hfit (row : List Cell) : (if cols < row.length then row.take cols
      else row ++ blankRow (cols - row.length)).length = cols := by
    split
    · rw [List.length_take]
      omega
    · rw [List.length_append, blankRow_length]
      omega
  have hrows : ∀ row ∈ (g.map fun row : List Cell => if cols < row.length then row.take cols
      else row ++ blankRow (cols - row.length)), row.length = cols := by
    intro row hrow
    obtain ⟨row, -, rfl⟩ := List.mem_map.mp hrow
    exact hfit row
  unfold resizeGrid
  generalize (g.map fun row : List Cell => if cols < row.length then row.take cols
      else row ++ blankRow (cols - row.length)) = g' at hrows
  simp only
  split
  · refine ⟨?_, fun row hrow => hrows row (List.mem_of_mem_take hrow)⟩
    rw [List.length_take]
    omega
  · have hnew := sized_newGrid (rows - g'.length) cols
    refine ⟨?_, fun row hrow => ?_⟩
    · rw [List.length_append, hnew.rows]
      omega
    · rcases List.mem_append.mp hrow with hrow | hrow
      · exact hrows row hrow
      · exact hnew.cols row hrow

theorem resize (h : s.Ok r) (rows cols : Int) : (s.resize rows cols).Ok r := by
  unfold Screen.resize
  simp only
  split
  · exact h
  · have hrows := one_le_atLeastOne rows
    have hcols := one_le_atLeastOne cols
    have hx : min s.cx (atLeastOne cols - 1) < atLeastOne cols := by omega
    have hy : min s.cy (atLeastOne rows - 1) < atLeastOne rows := by omega
    exact { h with
      rows := hrows
      cols := hcols
      grid := sized_resizeGrid _ _ _
      parked := fun g hg => by
        obtain ⟨g', -, rfl⟩ := Option.map_eq_some_iff.mp hg
        exact sized_resizeGrid _ _ g'
      cx := hx
      cy := hy
      region := Nat.zero_le _
      bot := Nat.sub_lt hrows Nat.one_pos }

end Ok

/-- The invariant holds, and no index has been out of range. -/
def Sound (s : Screen) : Prop := s.Ok s.raised ∧ s.raised ≠ some .indexError

theorem Ok.sound {s : Screen} {r : Option Exn} (h : s.Ok r) (hr : r ≠ some .indexError) :
    s.Sound := by
  rw [Sound, h.raised]
  exact ⟨h, hr⟩

theorem Sound.byte {s : Screen} (h : s.Sound) (b : Byte) : (s.byte b).Sound := by
  rcases h.1.byte b with hs | hs
  · exact hs.sound h.2
  · exact hs.sound (by decide)

theorem Sound.bytes {s : Screen} (h : s.Sound) (bs : List Byte) : (s.bytes bs).Sound := by
  induction bs generalizing s with
  | nil => exact h
  | cons b bs ih =>
      apply ih
      unfold consume
      split
      · exact h
      · exact h.byte b

/-- As long as nothing is raised, the screen stays in order. -/
theorem Ok.bytes {s : Screen} (h : s.Ok none) (bs : List Byte) (hr : (s.bytes bs).raised = none) :
    (s.bytes bs).Ok none := by
  have hsound := (h.sound (by decide)).bytes bs
  rw [Sound, hr] at hsound
  exact hsound.1

theorem sound_step {f f' : Feeding} {e : FeedEvent} (h : f.screen.Sound)
    (hf : feedFire f e = some f') : f'.screen.Sound := by
  cases e with
  | feed data =>
      obtain ⟨-, rfl⟩ := feedFire_feed hf
      have hok : Ok { f.screen with pending := f.screen.held data } f.screen.raised := { h.1 with }
      exact hok.sound h.2
  | byte =>
      obtain ⟨b, bs, -, rfl⟩ := feedFire_byte hf
      exact h.byte b
  | resize rows cols =>
      obtain ⟨-, rfl⟩ := feedFire_resize hf
      exact (h.1.resize rows cols).sound h.2

/-- Whatever the guest sends and however the window is resized, the screen is in
order after every byte. -/
theorem sound_run {rows cols : Int} {limit : Nat} {f : Feeding} {h : List (Feeding × FeedEvent)}
    (hrun : Run feedFire ⟨init rows cols limit, []⟩ h f) : f.screen.Sound :=
  Run.stateInvariant (fun _ _ => True) (fun f => f.screen.Sound)
    ⟨ok_init rows cols limit, by simp [init]⟩ (fun _ _ _ hs _ hf => sound_step hs hf) hrun
    fun _ _ => trivial

/-- Two lines on a screen of two rows, cut to one in the middle of a sequence. -/
theorem sound_run_resized : ∃ h f, Run feedFire ⟨init 2 3 10, []⟩ h f ∧ h.length = 9 ∧
    f.screen.rows = 1 ∧ f.screen.state = .esc ∧ f.screen.Sound := by
  obtain ⟨h, f, hrun, hd⟩ := Run.exists_of_play feedFire ⟨init 2 3 10, []⟩
    (.feed [0x61, 0x0d, 0x0a, 0x62, 0x0d, 0x0a, 0x1b] :: (rounds 7 ++ [.resize (-4) 1]))
    (fun r => decide (r.1.length = 9 ∧ r.2.screen.rows = 1 ∧ r.2.screen.state = .esc)) true
    (by decide +kernel)
  obtain ⟨hlen, hrows, hstate⟩ := of_decide_eq_true hd
  exact ⟨h, f, hrun, hlen, hrows, hstate, sound_run hrun⟩

end Screen
end P4Hyp
