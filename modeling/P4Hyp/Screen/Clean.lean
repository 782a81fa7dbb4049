import P4Hyp.Render
import P4Hyp.Screen.Wrap

/-!
# Control characters

The ground state drops the control characters of ASCII.  Those of Latin-1 come as two bytes of
UTF-8, which are not looked at one by one.
-/

namespace P4Hyp

/-- C0, DEL and C1. -/
def IsControl (c : Char) : Prop := c.toNat < 0x20 ∨ 0x7f ≤ c.toNat ∧ c.toNat ≤ 0x9f

instance (c : Char) : Decidable (IsControl c) := inferInstanceAs (Decidable (_ ∨ _))

def PlainText (t : Str) : Prop := ∀ c ∈ t, ¬ IsControl c

def Cell.Plain (a : Cell) : Prop := ¬ IsControl a.ch

namespace Screen

/-- Every cell of both grids holds a character that is no control character. -/
structure CellsPlain (s : Screen) : Prop where
  grid : ∀ row ∈ s.grid, RowAll Cell.Plain row
  parked : ∀ g, s.altGrid = some g → ∀ row ∈ g, RowAll Cell.Plain row

/-- Neither do the lines that have scrolled off, and what REP would write. -/
structure Plain (s : Screen) : Prop extends CellsPlain s where
  lines : ∀ line ∈ s.scrollback, PlainText line
  last : ∀ c, s.lastCh = some c → ¬ IsControl c

/-- The byte completes a C1 character. -/
def CompletesControl (s : Screen) (b : Byte) : Prop :=
  s.state = .text ∧ s.pending = [0xc2] ∧ 0x80 ≤ b.toNat ∧ b.toNat ≤ 0x9f

instance (s : Screen) (b : Byte) : Decidable (CompletesControl s b) :=
  inferInstanceAs (Decidable (_ ∧ _ ∧ _ ∧ _))

end Screen

/-! ## Characters -/

section Characters

variable {b : Byte} {c : Char} {p : List Byte} {t u : Str}

theorem plain_blank : Cell.blank.Plain := by
  show ¬ IsControl ' '
  decide

theorem plain_ascii (h₁ : 0x20 ≤ b.toNat) (h₂ : b.toNat < 0x7f) : ¬ IsControl (chr b) := by
  rw [IsControl, toNat_chr]
  omega

theorem graphic_bounds (hb : TextByte.of b = .graphic) : 0x20 ≤ b.toNat ∧ b.toNat ≠ 0x7f := by
  unfold TextByte.of at hb
  repeat' split at hb
  all_goals cases hb
  rename_i hlow
  rw [not_or] at hlow
  exact ⟨Nat.le_of_not_lt hlow.1, fun he => hlow.2 (BitVec.eq_of_toNat_eq he)⟩

theorem plain_toGraphics (h : ¬ IsControl c) : ¬ IsControl (toGraphics c) := by
  have htable : ∀ q ∈ decGraphics, ¬ IsControl q.2 := by
    have hall : decGraphics.all (fun q => decide (¬ IsControl q.2)) = true := by decide
    exact fun q hq => of_decide_eq_true (List.all_eq_true.mp hall q hq)
  unfold toGraphics
  cases hl : decGraphics.lookup c with
  | none => exact h
  | some v =>
      obtain ⟨before, after, he, -⟩ := List.lookup_eq_some_iff.mp hl
      exact htable (c, v) (by rw [he]; simp)

/-- A control character beyond ASCII has two bytes, and the first of them is `0xc2`. -/
theorem utf8Char_control (hc : utf8Char p = some c) (hctl : IsControl c) :
    ∃ b, p = [0xc2, b] ∧ 0x80 ≤ b.toNat ∧ b.toNat ≤ 0x9f := by
  unfold IsControl at hctl
  unfold utf8Char at hc
  split at hc
  · rename_i a b
    split at hc
    · rename_i hbytes
      obtain ⟨hle, hn⟩ := codePoint_some hc
      have hcont : 0x80 ≤ b.toNat ∧ b.toNat < 0xc0 := by simpa [isCont] using hbytes.2.2
      have ha : a = 0xc2 := BitVec.eq_of_toNat_eq (show a.toNat = 0xc2 by omega)
      exact ⟨b, by rw [ha], by omega, by omega⟩
    · cases hc
  · split at hc
    · have := codePoint_some hc
      omega
    · cases hc
  · split at hc
    · have := codePoint_some hc
      omega
    · cases hc
  · cases hc

theorem utf8Char_c1 (h₁ : 0x80 ≤ b.toNat) (h₂ : b.toNat ≤ 0x9f) :
    ∃ c, utf8Char [0xc2, b] = some c ∧ IsControl c := by
  have hcont : isCont b = true := by
    simp [isCont]
    omega
  have hn : (0xc2 : Byte).toNat % 0x20 * 0x40 + b.toNat % 0x40 = b.toNat := by
    show 0xc2 % 0x20 * 0x40 + b.toNat % 0x40 = b.toNat
    omega
  have hvalid : b.toNat.isValidChar := .inl (by omega)
  refine ⟨Char.ofNat b.toNat, ?_, ?_⟩
  · rw [utf8Char, if_pos ⟨by decide, by decide, hcont⟩, hn, codePoint, if_pos ⟨h₁, hvalid⟩]
  · rw [IsControl, toNat_ofNat hvalid]
    omega

end Characters

namespace Screen

/-! ## Operations -/

section Operations

variable {s : Screen} {ch : Char}

theorem rowAll_blankRow (cols : Nat) : RowAll Cell.Plain (blankRow cols) :=
  rowAll_replicate plain_blank cols

theorem plainText_rowText {row : List Cell} (h : RowAll Cell.Plain row) :
    PlainText (rowText row) := by
  intro c hc
  obtain ⟨a, ha, rfl⟩ := List.mem_map.mp ((List.rdropWhile_prefix _ _).subset hc)
  exact h a ha

theorem mem_trimmed {limit : Nat} {lines : List Str} {line : Str} (h : line ∈ trimmed limit lines) :
    line ∈ lines := by
  unfold trimmed at h
  split at h
  · exact List.mem_of_mem_drop h
  · exact h

theorem plain_newGrid (rows cols : Nat) : ∀ row ∈ newGrid rows cols, RowAll Cell.Plain row := by
  intro row hrow
  rw [List.eq_of_mem_replicate hrow]
  exact rowAll_blankRow cols

namespace Plain

theorem draw {f : Grid Cell → Option (Grid Cell)} (h : s.Plain)
    (hf : KeepsAll (RowAll Cell.Plain) f) :
    (s.draw f).Plain where
  grid := by
    show ∀ row ∈ (f s.grid).getD s.grid, _
    cases hg : f s.grid with
    | none => exact h.grid
    | some g => exact hf s.grid g h.grid hg
  parked := h.parked
  lines := h.lines
  last := h.last

theorem onRow {f : List Cell → Option (List Cell)} (h : s.Plain) (hf : KeepsAll Cell.Plain f) :
    (s.draw (Grid.onRow s.cy f)).Plain :=
  h.draw (keepsAll_onRow hf)

theorem scrollUpOne (h : s.Plain) : s.scrollUpOne.Plain := by
  have hd : Screen.Plain (s.draw (popInsert s.top s.bot (blankRow s.cols))) :=
    h.draw (keepsAll_popInsert (rowAll_blankRow s.cols))
  have hrow : PlainText (rowText (s.grid[s.top]?.getD [])) := by
    apply plainText_rowText
    cases hrow : s.grid[s.top]? with
    | none => exact fun a ha => absurd ha List.not_mem_nil
    | some row => exact h.grid row (List.mem_of_getElem? hrow)
  refine { hd with lines := fun line hline => ?_ }
  unfold Screen.scrollUpOne at hline
  dsimp only at hline
  split at hline
  · rcases List.mem_append.mp (mem_trimmed hline) with hline | hline
    · exact h.lines line hline
    · rw [List.mem_singleton.mp hline]
      exact hrow
  · exact h.lines line hline

theorem scrollUp (h : s.Plain) (n : Nat) : (s.scrollUp n).Plain :=
  Function.Iterate.rec Screen.Plain h (fun _ ht => ht.scrollUpOne) n

theorem scrollDown (h : s.Plain) (n : Nat) : (s.scrollDown n).Plain :=
  h.draw (keepsAll_times (keepsAll_popInsert (rowAll_blankRow s.cols)) n)

theorem newline (h : s.Plain) : s.newline.Plain := by
  have hw : Screen.Plain { s with pendingWrap := false } := { h with }
  show (if s.cy = s.bot then _ else _ : Screen).Plain
  split
  · exact hw.scrollUp 1
  · split
    · exact { h with }
    · exact hw

theorem insertBlank (s : Screen) : KeepsAll Cell.Plain s.insertBlank :=
  keepsAll_popInsert plain_blank

theorem blankCells (h : s.Plain) (lo hi : Nat) : (s.blankCells lo hi).Plain :=
  h.onRow (keepsAll_mapRange fun _ _ => plain_blank)

theorem rowAll_blanked (row : List Cell) : RowAll Cell.Plain (row.map fun _ => Cell.blank) := by
  intro a ha
  obtain ⟨-, -, rfl⟩ := List.mem_map.mp ha
  exact plain_blank

theorem blankRows (h : s.Plain) (lo hi : Nat) : (s.blankRows lo hi).Plain :=
  h.draw (keepsAll_mapRange fun row _ => rowAll_blanked row)

theorem putHere (h : s.Plain) (hch : ¬ IsControl ch) : (s.putHere ch).Plain := by
  have hlast : Screen.Plain { s with lastCh := some ch } :=
    { h with
      last := fun c hc => by
        obtain rfl := Option.some.inj hc
        exact hch }
  have hshift : Screen.Plain (shiftRow { s with lastCh := some ch }) := by
    unfold shiftRow
    split
    · exact hlast.onRow (insertBlank _)
    · exact hlast
  have hwrite : Screen.Plain ((shiftRow { s with lastCh := some ch }).writeCell ch) :=
    hshift.onRow (keepsAll_setAt hch)
  show Screen.Plain (advance _)
  unfold advance
  split
  · exact { hwrite with }
  · exact { hwrite with }

theorem put (h : s.Plain) (hch : ¬ IsControl ch) : (s.put ch).Plain := by
  unfold Screen.put
  split
  · have hstart : Screen.Plain { s with cx := 0 } := { h with }
    have hdown : Screen.Plain { Screen.newline { s with cx := 0 } with pendingWrap := false } :=
      { hstart.newline with }
    exact hdown.putHere hch
  · exact h.putHere hch

theorem restoreCursor (h : s.Plain) : s.restoreCursor.Plain := by
  unfold Screen.restoreCursor
  split
  · exact { h with }
  · exact { h with }

theorem altScreen (h : s.Plain) (on : Bool) : (s.altScreen on).Plain := by
  cases on with
  | true =>
      simp only [Screen.altScreen, if_true]
      split
      · exact h
      · exact { h with
          grid := plain_newGrid _ _
          parked := fun g hg => by
            obtain rfl := Option.some.inj hg
            exact h.grid }
  | false =>
      cases hg : s.altGrid with
      | none => rwa [altScreen_outside hg]
      | some g =>
          have hback : Screen.Plain { s with grid := g, altGrid := none, top := 0, bot := s.rows - 1 } :=
            { h with
              grid := h.parked g hg
              parked := fun g hg => by cases hg }
          rw [altScreen_leave hg]
          exact hback.restoreCursor

theorem reset (h : s.Plain) : s.reset.Plain :=
  { h with
    grid := plain_newGrid _ _
    parked := fun g hg => by cases hg }

theorem eraseLine (h : s.Plain) (mode : Nat) : (s.eraseLine mode).Plain := by
  have hrow : Screen.Plain (if mode = 0 then s.blankCells s.cx s.cols
      else if mode = 1 then s.blankCells 0 (min (s.cx + 1) s.cols)
      else s.blankCells 0 s.cols) := by
    split
    · exact h.blankCells _ _
    · split <;> exact h.blankCells _ _
  exact { hrow with }

theorem eraseDisplay (h : s.Plain) (mode : Nat) : (s.eraseDisplay mode).Plain := by
  unfold Screen.eraseDisplay
  split
  · exact { (h.eraseLine 0).blankRows (s.cy + 1) s.rows with }
  · split
    · exact { (h.eraseLine 1).blankRows 0 s.cy with }
    · exact { h with
        grid := fun row hrow => by
          obtain ⟨row, -, rfl⟩ := List.mem_map.mp hrow
          exact rowAll_blanked row
        lines := fun line hline => by
          dsimp only at hline
          split at hline
          · exact h.lines line hline
          · rcases List.mem_append.mp (mem_trimmed hline) with hline | hline
            · exact h.lines line hline
            · obtain ⟨row, hrow, rfl⟩ := List.mem_map.mp (List.mem_of_mem_filter hline)
              exact plainText_rowText (h.grid row hrow) }

theorem insertLines (h : s.Plain) (n : Nat) : (s.insertLines n).Plain := by
  unfold Screen.insertLines
  split
  · exact { h.draw (keepsAll_times (keepsAll_popInsert (rowAll_blankRow s.cols)) _) with }
  · exact h

theorem deleteLines (h : s.Plain) (n : Nat) : (s.deleteLines n).Plain := by
  unfold Screen.deleteLines
  split
  · exact { h.draw (keepsAll_times (keepsAll_popInsert (rowAll_blankRow s.cols)) _) with }
  · exact h

theorem insertChars (h : s.Plain) (n : Nat) : (s.insertChars n).Plain :=
  h.onRow (keepsAll_times (insertBlank s) _)

theorem deleteChars (h : s.Plain) (n : Nat) : (s.deleteChars n).Plain :=
  h.onRow fun row row' hrow hf => keepsAll_times (keepsAll_popInsert plain_blank) _ row row' hrow hf

/-! ## Bytes -/

theorem mode (h : s.Plain) (params : List Nat) (on : Bool) : (s.mode params on).Plain := by
  refine List.foldlRecOn params _ h fun t ht m _ => ?_
  unfold modeOne
  split
  · exact { ht with }
  · split
    · exact { ht with }
    · split
      · exact ht.altScreen on
      · split
        · split
          · exact { ht with }
          · exact ht.restoreCursor
        · exact ht

theorem ansiMode (h : s.Plain) (params : List Nat) (on : Bool) : (s.ansiMode params on).Plain := by
  refine List.foldlRecOn params _ h fun t ht m _ => ?_
  unfold ansiModeOne
  split
  · exact { ht with }
  · exact ht

theorem repeatLast (h : s.Plain) (n : Nat) : (s.repeatLast n).Plain := by
  unfold Screen.repeatLast
  split
  · exact h
  · rename_i ch hlast
    exact Function.Iterate.rec Screen.Plain h (fun _ ht => ht.put (h.last ch hlast)) _

theorem control (h : s.Plain) (final : Char) (p : List Nat) (n : Nat) :
    (s.control final p n).Plain := by
  unfold Screen.control
  cases Csi.of final with
  | mode on =>
      show (if s.priv then _ else _ : Screen).Plain
      split
      · exact h.mode p on
      · exact h.ansiMode p on
  | cup =>
      show s.moveTo.Plain
      unfold moveTo
      split <;> exact { h with }
  | ed => exact h.eraseDisplay _
  | el => exact h.eraseLine _
  | il => exact h.insertLines n
  | dl => exact h.deleteLines n
  | ich => exact h.insertChars n
  | dch => exact h.deleteChars n
  | rep => exact h.repeatLast n
  | ech => exact h.blankCells _ _
  | su => exact h.scrollUp n
  | sd => exact h.scrollDown n
  | decstbm =>
      show s.setMargins.Plain
      unfold setMargins
      split
      · split
        · exact { h with }
        · exact h
      · exact { h with }
  | restore => exact h.restoreCursor
  | report => exact h
  | _ => exact { h with }

/-- What is written is a character of ASCII, as it is or through the table, or a decoded one. -/
theorem graphic {b : Byte} (h : s.Plain) (hb : TextByte.of b = .graphic) (hs : s.state = .text)
    (hno : ¬ CompletesControl s b) : (s.graphic b).Plain := by
  have hcarry (p : List Byte) : Screen.Plain { s with pending := p } := { h with }
  obtain ⟨hlo, hdel⟩ := graphic_bounds hb
  unfold Screen.graphic decode
  by_cases hascii : b.toNat < 0x80
  · have hch := plain_ascii hlo (show b.toNat < 0x7f by omega)
    rw [if_pos hascii]
    apply h.put
    split
    · exact plain_toGraphics hch
    · exact hch
  · rw [if_neg hascii]
    simp only
    cases hc : utf8Char (s.pending ++ [b]) with
    | some c =>
        refine (hcarry []).put fun hctl => hno ?_
        obtain ⟨b', he, hlo', hhi'⟩ := utf8Char_control hc hctl
        obtain ⟨hp, hbb⟩ := List.append_inj' (show s.pending ++ [b] = [0xc2] ++ [b'] from he) rfl
        obtain rfl := List.singleton_inj.mp hbb
        exact ⟨hs, hp, hlo', hhi'⟩
    | none =>
        by_cases hlen : 4 ≤ (s.pending ++ [b]).length
        · simp only [if_pos hlen]
          exact (hcarry []).put (by decide)
        · simp only [if_neg hlen]
          exact hcarry _

theorem textByte {b : Byte} (h : s.Plain) (hs : s.state = .text) (hno : ¬ CompletesControl s b) :
    (s.textByte b).Plain := by
  unfold Screen.textByte
  cases hb : TextByte.of b with
  | graphic => exact h.graphic hb hs hno
  | lineFeed => exact h.newline
  | backspace =>
      show (if s.pendingWrap then _ else _ : Screen).Plain
      split <;> exact { h with }
  | ignored => exact h
  | _ => exact { h with }

theorem escByte (h : s.Plain) (b : Byte) : (s.escByte b).Plain := by
  have ht : Screen.Plain { s with state := .text } := { h with }
  unfold Screen.escByte
  cases EscByte.of (chr b) with
  | restore => exact ht.restoreCursor
  | reverseIndex =>
      show Screen.Plain (Screen.reverseIndex _)
      unfold Screen.reverseIndex
      split
      · exact ht.scrollDown 1
      · exact { h with }
  | index => exact ht.newline
  | nextLine =>
      have hx : Screen.Plain { s with state := .text, cx := 0 } := { h with }
      exact hx.newline
  | reset => exact ht.reset
  | _ => exact { h with }

theorem byte {b : Byte} (h : s.Plain) (hno : ¬ CompletesControl s b) : (s.byte b).Plain := by
  unfold Screen.byte
  cases hs : s.state with
  | text => exact h.textByte hs hno
  | esc => exact h.escByte b
  | csi =>
      show Screen.Plain (s.csiByte b)
      unfold csiByte
      split
      · exact { h with }
      · split
        · exact { h with }
        · have ht : Screen.Plain { s with state := .text } := { h with }
          unfold dispatch
          split
          · exact { h with }
          · exact ht.control _ _ _
  | osc =>
      show Screen.Plain (s.oscByte b)
      unfold oscByte
      split
      · exact { h with }
      · split <;> exact { h with }
  | charset => exact { h with }
  | hash => exact { h with }

theorem resizeGrid {g : Grid Cell} (h : ∀ row ∈ g, RowAll Cell.Plain row) (rows cols : Nat) :
    ∀ row ∈ resizeGrid rows cols g, RowAll Cell.Plain row := by
  have hfit : ∀ row ∈ g.map fun row : List Cell => if cols < row.length then row.take cols
      else row ++ blankRow (cols - row.length), RowAll Cell.Plain row := by
    intro row hrow
    obtain ⟨row, hmem, rfl⟩ := List.mem_map.mp hrow
    split
    · exact fun a ha => h row hmem a (List.mem_of_mem_take ha)
    · intro a ha
      rcases List.mem_append.mp ha with ha | ha
      · exact h row hmem a ha
      · exact rowAll_blankRow _ a ha
  unfold Screen.resizeGrid
  dsimp only
  split
  · exact fun row hrow => hfit row (List.mem_of_mem_take hrow)
  · intro row hrow
    rcases List.mem_append.mp hrow with hrow | hrow
    · exact hfit row hrow
    · exact plain_newGrid _ _ row hrow

theorem resize (h : s.Plain) (rows cols : Int) : (s.resize rows cols).Plain := by
  unfold Screen.resize
  simp only
  split
  · exact h
  · exact { h with
      grid := resizeGrid h.grid _ _
      parked := fun g hg => by
        obtain ⟨g', hg', rfl⟩ := Option.map_eq_some_iff.mp hg
        exact resizeGrid (h.parked g' hg') _ _ }

end Plain

end Operations

theorem plain_init (rows cols : Int) (limit : Nat) : (init rows cols limit).Plain where
  grid := plain_newGrid _ _
  parked g hg := by cases hg
  lines line hline := absurd hline List.not_mem_nil
  last c hc := by cases hc

end Screen

/-! ## Rows -/

theorem plainText_append {t u : Str} (ht : PlainText t) (hu : PlainText u) : PlainText (t ++ u) :=
  fun c hc => (List.mem_append.mp hc).elim (ht c) (hu c)

theorem plainText_blanks (n : Nat) : PlainText (List.replicate n ' ') := by
  intro c hc
  rw [List.eq_of_mem_replicate hc]
  decide

namespace Line

variable {ln : Line}

theorem plain_new (width : Nat) : PlainText (rowChars (new width).parts) :=
  fun _ hc => absurd hc List.not_mem_nil

theorem plain_add {text : Str} (h : PlainText (rowChars ln.parts)) (ht : PlainText text)
    (sgr : Sgr) :
    PlainText (rowChars (ln.add text sgr).parts) := by
  unfold add
  split
  · exact h
  · show PlainText (rowChars (ln.parts ++ [⟨sgr, text.take (ln.width - ln.n)⟩]))
    rw [rowChars_append]
    refine plainText_append h fun c hc => ?_
    rw [rowChars, List.flatMap_singleton] at hc
    exact ht c (List.mem_of_mem_take hc)

theorem plain_fill (h : PlainText (rowChars ln.parts)) : PlainText (rowChars ln.fill.build) := by
  unfold fill pad build
  dsimp only
  split
  · exact plain_add h (plainText_blanks _) _
  · exact h

theorem plain_addRuns {cells : List Cell} (h : PlainText (rowChars ln.parts))
    (hcells : RowAll Cell.Plain cells) : PlainText (rowChars (addRuns cells ln).parts) := by
  induction cells, ln using addRuns.induct with
  | case1 ln =>
      rw [addRuns]
      exact h
  | case2 ln cell rest ih =>
      obtain ⟨hcell, hrest⟩ := List.forall_mem_cons.mp hcells
      rw [addRuns]
      refine ih (plain_add h ?_ _) fun a ha => hrest a ((List.dropWhile_sublist _).subset ha)
      intro c hc
      rcases List.mem_cons.mp hc with rfl | hc
      · exact hcell
      · obtain ⟨a, ha, rfl⟩ := List.mem_map.mp hc
        exact hrest a (List.takeWhile_subset _ ha)

end Line

namespace Frame

variable {f : Frame} {height width : Nat}

/-- No control character is among the stamps. -/
def StampsPlain (f : Frame) : Prop := ∀ i t, f.stamps i = some t → PlainText t

theorem blanks_plain (width : Nat) : PlainText (rowChars (blanks width)) := by
  rw [rowChars, blanks, List.flatMap_singleton]
  exact plainText_blanks width

theorem screenRows_plain (h : f.screen.CellsPlain) :
    ∀ row ∈ f.screenRows height width, PlainText (rowChars row) := by
  intro row hrow
  obtain ⟨y, -, rfl⟩ := List.mem_map.mp hrow
  split
  · exact blanks_plain width
  · rename_i cells hcells
    have hplain : RowAll Cell.Plain (cells.take width) := fun a ha =>
      h.grid cells (List.mem_of_getElem? hcells) a (List.mem_of_mem_take ha)
    exact Line.plain_fill (Line.plain_addRuns (Line.plain_new width) hplain)

theorem logPairs_plain (h : f.screen.Plain) (hstamps : f.StampsPlain) :
    ∀ p ∈ f.logPairs, PlainText p.1 ∧ PlainText p.2 := by
  intro p hp
  obtain ⟨⟨text, i⟩, hline, rfl⟩ := List.mem_map.mp hp
  constructor
  · show PlainText text
    rcases List.mem_append.mp hline with hline | hline
    · exact h.lines text (List.fst_mem_of_mem_zipIdx hline)
    · have hshown := (List.rdropWhile_prefix _ _).subset (List.fst_mem_of_mem_zipIdx hline)
      obtain ⟨row, hrow, rfl⟩ := List.mem_map.mp hshown
      apply Screen.plainText_rowText
      unfold Screen.primary at hrow
      cases hg : f.screen.altGrid with
      | none =>
          rw [hg] at hrow
          exact h.grid row hrow
      | some g =>
          rw [hg] at hrow
          exact h.parked g hg row hrow
  · show PlainText ((f.stamps i).getD [])
    cases hs : f.stamps i with
    | none => exact fun c hc => absurd hc List.not_mem_nil
    | some t => exact hstamps i t hs

theorem wrapPairs_plain {pairs : List (Str × Str)} (h : ∀ p ∈ pairs, PlainText p.1 ∧ PlainText p.2)
    (width : Nat) : ∀ p ∈ wrapPairs pairs width, PlainText p.1 ∧ PlainText p.2 := by
  intro p hp
  obtain ⟨⟨text, stamp⟩, hpair, hp⟩ := List.mem_flatMap.mp hp
  obtain ⟨htext, hstamp⟩ := h _ hpair
  dsimp only at hp
  split at hp
  · rw [List.mem_singleton.mp hp]
    exact ⟨htext, hstamp⟩
  · obtain ⟨i, hi, rfl⟩ := List.mem_mapIdx.mp hp
    constructor
    · intro c hc
      obtain ⟨k, -, hk⟩ := List.mem_map.mp (List.getElem_mem hi)
      rw [← hk] at hc
      exact htext c (List.mem_of_mem_drop (List.mem_of_mem_take hc))
    · show PlainText (if i = 0 then stamp else [])
      split
      · exact hstamp
      · exact fun c hc => absurd hc List.not_mem_nil

theorem logRow_plain {text stamp : Str} (htext : PlainText text) (hstamp : PlainText stamp) :
    PlainText (rowChars (f.logRow width text stamp)) := by
  unfold logRow
  dsimp only
  refine Line.plain_fill (Line.plain_add ?_ htext _)
  split
  · refine Line.plain_add (Line.plain_new width) ?_ _
    exact plainText_append (plainText_append hstamp (plainText_blanks _)) (plainText_blanks 1)
  · exact Line.plain_new width

theorem logRows_plain (h : f.screen.Plain) (hstamps : f.StampsPlain) :
    ∀ row ∈ f.logRows height width, PlainText (rowChars row) := by
  have hpairs := logPairs_plain h hstamps
  have hall : ∀ p ∈ (if f.wrap then wrapPairs f.logPairs (width - if f.timestamps then 10 else 0)
      else f.logPairs), PlainText p.1 ∧ PlainText p.2 := by
    split
    · exact wrapPairs_plain hpairs _
    · exact hpairs
  intro row hrow
  unfold logRows at hrow
  rcases List.mem_append.mp hrow with hrow | hrow
  · obtain ⟨p, hp, rfl⟩ := List.mem_map.mp hrow
    obtain ⟨htext, hstamp⟩ := hall p (List.mem_of_mem_take (List.mem_of_mem_drop hp))
    exact logRow_plain htext hstamp
  · rw [List.eq_of_mem_replicate hrow]
    exact blanks_plain width

variable (height width) in
theorem paneContents_plain (h : f.screen.Plain) (hstamps : f.StampsPlain) :
    ∀ row ∈ f.paneContents height width, PlainText (rowChars row) := by
  unfold paneContents
  split
  · exact screenRows_plain h.toCellsPlain
  · exact logRows_plain h hstamps

end Frame

namespace Screen

/-- The pane's rows have no control character but in the codes of the renderer: with those taken out,
the characters are left, and they are plain. -/
def PanePlain (s : Screen) : Prop :=
  ∀ f : P4Hyp.Frame, f.screen = s → f.StampsPlain →
    ∀ height width, ∀ row ∈ f.paneContents height width,
    PlainText (rowChars row) ∧ P4Hyp.plain (rowStr row) = rowChars row

/-- The guest's characters stay in the pane. -/
structure Contained (f : Feeding) : Prop where
  cells : f.screen.CellsPlain
  pane : f.screen.PanePlain

/-- The next byte does not complete a C1 character. -/
def NoControl (f : Feeding) (e : FeedEvent) : Prop := ¬ NextByte CompletesControl f e

instance (f : Feeding) (e : FeedEvent) : Decidable (NoControl f e) :=
  inferInstanceAs (Decidable (¬ _))

section Runs

variable {s : Screen} {b : Byte} {f f' : Feeding} {e : FeedEvent}

theorem Plain.pane (h : s.Plain) : s.PanePlain := by
  rintro f rfl hstamps height width row hrow
  have hplain := P4Hyp.Frame.paneContents_plain height width h hstamps row hrow
  exact ⟨hplain, plain_rowStr fun hesc => hplain escChar hesc (by decide)⟩

/-- A C1 character is written to a cell. -/
theorem completes_shown {r : Option Exn} (hok : s.Ok r) (hc : CompletesControl s b) :
    ¬ (s.byte b).CellsPlain := by
  obtain ⟨hs, hp, hlo, hhi⟩ := hc
  obtain ⟨c, hdec, hctl⟩ := utf8Char_c1 hlo hhi
  have hgraphic : TextByte.of b = .graphic := textByte_graphic (by omega) (by omega)
  have hdecode : s.decode b = (some c, { s with pending := [] }) := by
    unfold decode
    rw [if_neg (by omega), hp]
    simp only [List.singleton_append, hdec]
  have hbyte : s.byte b = put c { s with pending := [] } := by
    rw [byte_text hs, textByte, hgraphic]
    show s.graphic b = _
    unfold graphic
    rw [hdecode]
  have hok' : Ok { s with pending := [] } r := { hok with }
  intro hplain
  rw [hbyte] at hplain
  obtain ⟨row, hrow, hcell⟩ := Option.bind_eq_some_iff.mp (put_cell hok' c)
  exact hplain.grid row (List.mem_of_getElem? hrow) _ (List.mem_of_getElem? hcell) hctl

theorem plain_step (h : f.screen.Plain) (hc : NoControl f e) (hf : feedFire f e = some f') :
    f'.screen.Plain := by
  cases e with
  | feed data =>
      obtain ⟨-, rfl⟩ := feedFire_feed hf
      exact { h with }
  | byte =>
      obtain ⟨b, bs, hleft, rfl⟩ := feedFire_byte hf
      exact h.byte (mt (nextByte_iff hleft).mpr hc)
  | resize rows cols =>
      obtain ⟨-, rfl⟩ := feedFire_resize hf
      exact h.resize rows cols

end Runs

/-- The guest's characters stay in the pane throughout a run exactly if no byte of it completes a C1
character. -/
theorem contained_iff {rows cols : Int} {limit : Nat} {f : Feeding} {h : List (Feeding × FeedEvent)}
    (hrun : Run feedFire ⟨init rows cols limit, []⟩ h f) :
    Run.Throughout Contained h f ↔ Run.Meets NoControl h := by
  refine Run.throughout_iff_shown (D := fun _ _ => True) (I := fun f => f.screen.Sound ∧
    f.screen.Plain) ⟨(ok_init rows cols limit).sound (by decide), plain_init rows cols limit⟩
    (fun f hf => ⟨hf.2.toCellsPlain, hf.2.pane⟩)
    (fun f e f' hf _ hc hstep => ⟨sound_step hf.1 hstep, plain_step hf.2 hc hstep⟩) ?_ hrun
    fun _ _ => trivial
  intro f e f' hf _ hstep hshown
  cases e with
  | feed data => exact id
  | resize rows cols => exact id
  | byte =>
      obtain ⟨b, bs, hleft, rfl⟩ := feedFire_byte hstep
      exact fun hnext => completes_shown hf.1.1 ((nextByte_iff hleft).mp hnext) hshown.cells

/-- `©`, whose first byte is the same. -/
theorem contained_iff_copyright : ∃ h f, Run feedFire ⟨init 3 9 10, []⟩ h f ∧ h.length = 3 ∧
    Run.Throughout Contained h f := by
  obtain ⟨h, f, hrun, hd⟩ := Run.exists_of_play feedFire ⟨init 3 9 10, []⟩
    (.feed [0xc2, 0xa9] :: rounds 2)
    (fun r => decide (r.1.length = 3 ∧ Run.Meets NoControl r.1)) true (by decide +kernel)
  obtain ⟨hlen, hC⟩ := of_decide_eq_true hd
  exact ⟨h, f, hrun, hlen, (contained_iff hrun).mpr hC⟩

/-- `C2 9B` puts U+009B into a cell, which introduces a control sequence. -/
theorem csi_in_cell : ∃ h f, Run feedFire ⟨init 2 9 10, []⟩ h f ∧
    (∃ row ∈ f.screen.grid, ∃ a ∈ row, a.ch.toNat = 0x9b) ∧ ¬ Contained f := by
  obtain ⟨h, f, hrun, hd⟩ := Run.exists_of_play feedFire ⟨init 2 9 10, []⟩
    (.feed [0xc2, 0x9b] :: rounds 2)
    (fun r => (r.2.screen.grid[0]?.bind (·[0]?)).map fun a => a.ch.toNat) (some 0x9b)
    (by decide +kernel)
  obtain ⟨a, hcell, hctl⟩ := Option.map_eq_some_iff.mp hd
  obtain ⟨row, hrow, hcell⟩ := Option.bind_eq_some_iff.mp hcell
  have hmem := List.mem_of_getElem? hrow
  refine ⟨h, f, hrun, ⟨row, hmem, a, List.mem_of_getElem? hcell, hctl⟩, fun hplain => ?_⟩
  refine hplain.cells.grid row hmem a (List.mem_of_getElem? hcell) ?_
  rw [IsControl, hctl]
  decide

end Screen

end P4Hyp
