import P4Hyp.Display.Shown

/-!
# The guest's screen on the terminal

While a full-screen program has the pane, the terminal shows every cell of the guest's screen that
the pane has room for, and its cursor stands where the guest's does.
-/

namespace P4Hyp

/-- A cell as it is shown. -/
def Cell.shown (a : Cell) : Cell := { ch := a.ch, style := a.style.shown }

/-! ## Cells of a line -/

namespace Line

variable {ln : Line}

theorem cells_add {text : Str} {sgr : Sgr} (h : text.length ≤ ln.width - ln.n) :
    rowCells (ln.add text sgr).parts = rowCells ln.parts ++ text.map fun c =>
      { ch := c, style := sgr.style } := by
  unfold add
  split
  · have htext : text = [] := by
      rename_i hnone
      rcases hnone with hfull | hnil
      · exact List.length_eq_zero_iff.mp (by omega)
      · exact hnil
    rw [htext, List.map_nil, List.append_nil]
  · rw [List.take_of_length_le h]
    show rowCells (ln.parts ++ [⟨sgr, text⟩]) = _
    rw [rowCells, List.flatMap_append, List.flatMap_singleton]
    rfl

theorem add_extends (ln : Line) (text : Str) (sgr : Sgr) :
    ∃ rest, rowCells (ln.add text sgr).parts = rowCells ln.parts ++ rest := by
  unfold add
  split
  · exact ⟨[], (List.append_nil _).symm⟩
  · exact ⟨_, List.flatMap_append⟩

theorem pad_extends (ln : Line) (upto : Nat) (ch : Char) (sgr : Sgr) :
    ∃ rest, rowCells (ln.pad upto ch sgr).parts = rowCells ln.parts ++ rest := by
  unfold pad
  dsimp only
  split
  · exact ln.add_extends _ _
  · exact ⟨[], (List.append_nil _).symm⟩

/-- The runs of a row are its cells again. -/
theorem cells_addRuns {cells : List Cell} (hexact : ln.Exact)
    (hroom : cells.length ≤ ln.width - ln.n) (hcells : ∀ a ∈ cells, a.style.Legible) :
    rowCells (addRuns cells ln).parts = rowCells ln.parts ++ cells.map Cell.shown := by
  induction cells, ln using addRuns.induct with
  | case1 ln =>
      rw [addRuns, List.map_nil, List.append_nil]
  | case2 cell rest ln ih =>
      obtain ⟨-, hstyle⟩ := sgrFor_style (hcells cell List.mem_cons_self)
      have hrest : rest = rest.takeWhile (fun c => c.style = cell.style) ++
        rest.dropWhile (fun c => c.style = cell.style) := List.takeWhile_append_dropWhile.symm
      have hlen := congrArg List.length hrest
      rw [List.length_append] at hlen
      rw [List.length_cons] at hroom
      have hmap : (cell.ch :: (rest.takeWhile fun c => c.style = cell.style).map Cell.ch).map
          (fun c => ({ ch := c, style := (sgrFor cell).style } : Cell)) =
            (cell :: rest.takeWhile fun c => c.style = cell.style).map Cell.shown := by
        rw [hstyle, List.map_cons, List.map_cons, List.map_map]
        refine congrArg (cell.shown :: ·) (List.map_congr_left fun a ha => ?_)
        have hsame : a.style = cell.style := by simpa using List.mem_takeWhile_imp ha
        show ({ ch := a.ch, style := cell.style.shown } : Cell) =
          { ch := a.ch, style := a.style.shown }
        rw [hsame]
      rw [addRuns, ih (hexact.add _ _), cells_add, hmap, List.append_assoc]
      · conv_rhs => rw [List.map_cons, hrest, List.map_append]
        rfl
      · rw [List.length_cons, List.length_map]
        omega
      · rw [add_width, add_n, List.length_cons, List.length_map]
        omega
      · exact fun a ha =>
          hcells a (List.mem_cons_of_mem cell ((List.dropWhile_sublist _).subset ha))

end Line

/-! ## Rows of the frame -/

namespace Frame

variable {f : Frame}

/-- The pane's row starts behind the sidebar. -/
theorem cells_paneRow (hcols : minCols ≤ f.cols) (side : Str × Sgr) {pane : List Span}
    (hpane : (rowCells pane).length = f.paneCols) : ∃ left right,
      rowCells (f.paneRow side pane) = left ++ rowCells pane ++ right ∧ left.length = 22 ∧
        right.length = 1 := by
  have hwidth := paneRow_width hcols side ((rowCells_length pane).symm.trans hpane)
  rw [← rowCells_length] at hwidth
  obtain ⟨ln, hleft, hn, hw, hrow⟩ := paneRow_left hcols side pane
  have hcols' := paneCols_eq hcols
  unfold minCols at hcols
  rw [hrow] at hwidth ⊢
  have hstyled : rowCells (ln.addStyled pane f.paneCols).parts =
      rowCells ln.parts ++ rowCells pane := by
    rw [Line.addStyled, if_neg (by omega)]
    exact List.flatMap_append
  obtain ⟨pad, hpad⟩ := (ln.addStyled pane f.paneCols).pad_extends (f.cols - 1) ' ' .none
  obtain ⟨edge, hedge⟩ :=
    ((ln.addStyled pane f.paneCols).pad (f.cols - 1) ' ' .none).add_extends ['│'] sBorder
  have hcount : (rowCells ln.parts).length = 22 := by
    rw [rowCells_length, hleft.count, hn]
  have hall : rowCells
      ((((ln.addStyled pane f.paneCols).pad (f.cols - 1) ' ' .none).add ['│'] sBorder).build) =
      rowCells ln.parts ++ rowCells pane ++ (pad ++ edge) := by
    rw [Line.build, hedge, hpad, hstyled, List.append_assoc]
  rw [hall] at hwidth ⊢
  refine ⟨_, _, rfl, hcount, ?_⟩
  rw [List.length_append, List.length_append, hcount, hpane] at hwidth
  omega

/-- Rows of the pane are those of `render` behind the first. -/
theorem render_pane {rows : List (List Span)} (hrender : f.render = some rows)
    (hhelp : f.showHelp = false) {y : Nat} (hy : y < f.paneRows) {pane : List Span}
    (hpane : (f.paneContents f.paneRows f.paneCols)[y]? = some pane) :
    ∃ side, rows[y + 1]? = some (f.paneRow side pane) := by
  obtain ⟨top, bottom, -, -, rfl⟩ := render_eq_some hrender
  refine ⟨(sidebarRows f.paneRows).getD y ([], .none), ?_⟩
  have hgetD : (f.paneContents f.paneRows f.paneCols).getD y [] = pane := by
    rw [List.getD_eq_getElem?_getD, hpane, Option.getD_some]
  simp only [assemble, hhelp, Bool.false_eq_true, if_false]
  rw [List.append_assoc, List.append_assoc, List.singleton_append, List.getElem?_cons_succ,
    List.getElem?_append_left (by rw [List.length_map, List.length_range]; exact hy),
      List.getElem?_map,
    List.getElem?_range hy, Option.map_some, hgetD]

end Frame

/-- What is shown of a row but its last cell. -/
theorem shownCells_getElem? {cells : List Cell} {i : Nat} (h : i + 1 < cells.length) :
    (shownCells cells)[i]? = cells[i]? := by
  rw [shownCells, List.getElem?_append_left (by rw [List.length_dropLast]; omega),
    List.getElem?_dropLast, if_pos (by omega)]

section Showing

variable {f : Frame} {t : Screen}

/-- A cell of the pane. -/
theorem Showing.pane (h : Showing f t) (hcols : minCols ≤ f.cols)
    (hhelp : f.showHelp = false) {x y : Nat}
    (hy : y < f.paneRows) (hx : x < f.paneCols) {pane : List Span}
    (hpane : (f.paneContents f.paneRows f.paneCols)[y]? = some pane) :
    (t.grid[y + 1]?).bind (·[x + 22]?) = (rowCells pane)[x]? := by
  obtain ⟨rows, hrender, hgrid⟩ := Option.map_eq_some_iff.mp h.rows
  obtain ⟨side, hrow⟩ := Frame.render_pane hrender hhelp hy hpane
  have hlen : (rowCells pane).length = f.paneCols := by
    rw [rowCells_length]
    exact (Frame.paneContents_width f f.paneRows f.paneCols).2 pane (List.mem_of_getElem? hpane)
  obtain ⟨left, right, hcells, hleft, hright⟩ := Frame.cells_paneRow hcols side hlen
  rw [← hgrid, List.getElem?_map, hrow, Option.map_some, Option.bind_some,
    shownCells_getElem?, hcells,
    List.append_assoc, List.getElem?_append_right (by omega), hleft, Nat.add_sub_cancel,
    List.getElem?_append_left (by omega)]
  rw [hcells, List.length_append, List.length_append]
  omega

/-- While a full-screen program has the pane. -/
structure Mirrors (f : Frame) (t : Screen) : Prop where
  /-- Cells of the guest's screen, up to the size of the pane. -/
  cells : ∀ y x, y < f.paneRows → x < f.paneCols → ∀ a, (f.screen.grid[y]?).bind (·[x]?) = some a →
    (t.grid[y + 1]?).bind (·[x + 22]?) = some a.shown
  visible : t.cursorVisible = f.screen.cursorVisible
  cursor : f.screen.cursorVisible = true → f.screen.cy < f.paneRows → f.screen.cx < f.paneCols →
    t.cy = f.screen.cy + 1 ∧ t.cx = f.screen.cx + 22

theorem Showing.mirrors (h : Showing f t) (hf : f.Clear) (hcols : minCols ≤ f.cols)
    (hhelp : f.showHelp = false) (halt : f.screen.inAlt = true) : Mirrors f t where
  cells y x hy hx a ha := by
    obtain ⟨row, hrow, ha⟩ := Option.bind_eq_some_iff.mp ha
    have hpane : (f.paneContents f.paneRows f.paneCols)[y]? =
        some ((addRuns (row.take f.paneCols) (.new f.paneCols)).fill.build) := by
      rw [Frame.paneContents, if_pos halt, Frame.screenRows, List.getElem?_map,
        List.getElem?_range hy, Option.map_some, hrow]
    have hlegible : ∀ a ∈ row.take f.paneCols, a.style.Legible := fun a ha =>
      hf.colours row (List.mem_of_getElem? hrow) a (List.mem_of_mem_take ha)
    have hruns := Line.cells_addRuns (Line.new_exact f.paneCols)
      (show (row.take f.paneCols).length ≤ f.paneCols - 0 from List.length_take_le _ _) hlegible
    have hfill : ∃ rest, rowCells (addRuns (row.take f.paneCols) (.new f.paneCols)).fill.build =
        (row.take f.paneCols).map Cell.shown ++ rest := by
      obtain ⟨rest, hrest⟩ := (addRuns (row.take f.paneCols) (.new f.paneCols)).pad_extends
        (addRuns (row.take f.paneCols) (.new f.paneCols)).width ' ' .none
      exact ⟨rest, hrest.trans (congrArg (· ++ rest) hruns)⟩
    obtain ⟨rest, hrest⟩ := hfill
    have hxrow : x < row.length := (List.getElem?_eq_some_iff.mp ha).1
    rw [h.pane hcols hhelp hy hx hpane, hrest,
      List.getElem?_append_left (by rw [List.length_map, List.length_take]; omega),
        List.getElem?_map,
      List.getElem?_take_of_lt hx, ha]
    rfl
  visible := by
    rw [h.visible, Frame.cursorPosition, if_neg (by rw [hhelp]; exact Bool.false_ne_true),
      if_pos halt]
    cases f.screen.cursorVisible <;> rfl
  cursor hvisible hcy hcx := by
    have hpos : f.cursorPosition = some (2 + f.screen.cy, 23 + f.screen.cx) := by
      rw [Frame.cursorPosition, if_neg (by rw [hhelp]; exact Bool.false_ne_true), if_pos halt,
        if_pos hvisible,
        Nat.min_eq_left (by omega), Nat.min_eq_left (by omega)]
      rfl
    obtain ⟨hy, hx⟩ := Prod.mk.inj (h.cursor _ hpos)
    omega

end Showing

/-! ## The log view -/

/-- The line holds as much of `s` as it has room for. -/
structure Line.Holds (ln : Line) (s : Str) : Prop where
  chars : rowChars ln.parts = s.take ln.width
  count : ln.n = min s.length ln.width

section Log

variable {ln : Line} {s : Str}

theorem Line.holds_new (width : Nat) : (Line.new width).Holds [] := ⟨List.take_nil.symm, by simp⟩

theorem Line.Holds.add (h : ln.Holds s) (text : Str) (sgr : Sgr) :
    (ln.add text sgr).Holds (s ++ text) := by
  have hcount := h.count
  constructor
  · rw [Line.add_width, List.take_append]
    unfold Line.add
    split
    · rename_i hnone
      rw [h.chars]
      rcases hnone with hfull | rfl
      · rw [show ln.width - s.length = 0 by omega, List.take_zero, List.append_nil]
      · rw [List.take_nil, List.append_nil]
    · show rowChars (ln.parts ++ [_]) = _
      rw [rowChars_append, h.chars, show ln.width - ln.n = ln.width - s.length by omega]
      exact congrArg (_ ++ ·) (List.flatMap_singleton ..)
  · rw [Line.add_n, Line.add_width, List.length_append]
    omega

/-- Behind what the line holds it is blank. -/
theorem Line.Holds.fill (h : ln.Holds s) {x : Nat} (hx : x < ln.width) :
    (rowChars ln.fill.build)[x]? = some (s.getD x ' ') := by
  have hpad : ln.fill =
      if ln.n < ln.width then ln.add (List.replicate (ln.width - ln.n) ' ') .none else ln := by
    unfold Line.fill Line.pad
    simp only [Nat.min_self]
  have hcount := h.count
  rw [hpad, Line.build, List.getD_eq_getElem?_getD]
  split
  · rw [(h.add _ _).chars, Line.add_width, List.getElem?_take_of_lt hx, List.getElem?_append]
    split
    · rename_i hin
      rw [List.getElem?_eq_getElem hin, Option.getD_some]
    · rename_i hout
      rw [List.getElem?_replicate, if_pos (by omega), List.getElem?_eq_none (by omega),
        Option.getD_none]
  · rw [h.chars, List.getElem?_take_of_lt hx, List.getElem?_eq_getElem (by omega), Option.getD_some]

end Log

namespace Frame

variable (f : Frame)

/-- What stands before a line of the log. -/
def logPrefix (stamp : Str) : Str := if f.timestamps then stampText stamp else []

/-- The lines of the log, in pieces if they are wrapped. -/
def logLines : List (Str × Str) :=
  if f.wrap then wrapPairs f.logPairs (f.paneCols - if f.timestamps then 10 else 0) else f.logPairs

/-- The first line that is not shown, for it is below the pane. -/
def logStop : Nat := f.logLines.length - f.scroll

/-- The character that the log view has in row `y` and column `x` of the pane. -/
def logChar (y x : Nat) : Char :=
  if f.logStop - f.paneRows + y < f.logStop then
    match f.logLines[f.logStop - f.paneRows + y]? with
    | some (text, stamp) => (f.logPrefix stamp ++ text).getD x ' '
    | none => ' '
  else ' '

variable {f}

theorem logRow_getElem? {width x : Nat} (hx : x < width) (text stamp : Str) :
    (rowChars (f.logRow width text stamp))[x]? = some ((f.logPrefix stamp ++ text).getD x ' ') := by
  have hstart : ∃ ln : Line, ln.width = width ∧ ln.Holds (f.logPrefix stamp) ∧
      f.logRow width text stamp = (ln.add text .none).fill.build := by
    unfold logRow logPrefix
    dsimp only
    split
    · exact ⟨_, Line.add_width _ _, (Line.holds_new width).add _ _, rfl⟩
    · exact ⟨_, rfl, Line.holds_new width, rfl⟩
  obtain ⟨ln, rfl, hln, hrow⟩ := hstart
  rw [hrow]
  exact (hln.add text .none).fill (by rw [Line.add_width]; exact hx)

/-- The rows of the log view, character by character. -/
theorem logRows_chars {y x : Nat} (hy : y < f.paneRows) (hx : x < f.paneCols) : ∃ row,
    (f.logRows f.paneRows f.paneCols)[y]? = some row ∧
      (rowChars row)[x]? = some (f.logChar y x) := by
  have hrows : f.logRows f.paneRows f.paneCols =
      (((f.logLines.take f.logStop).drop (f.logStop - f.paneRows)).map fun p =>
        f.logRow f.paneCols p.1 p.2) ++
      List.replicate (f.paneRows - (((f.logLines.take f.logStop).drop (f.logStop - f.paneRows)).map
        fun p => f.logRow f.paneCols p.1 p.2).length) (blanks f.paneCols) := by
    unfold logRows logLines logStop logLines
    rfl
  have hlen : f.logStop ≤ f.logLines.length := Nat.sub_le _ _
  rw [hrows, List.getElem?_append, List.length_map, List.length_drop, List.length_take]
  unfold logChar
  split
  · rename_i hin
    have hlt : f.logStop - f.paneRows + y < f.logStop := by omega
    have hline : f.logLines[f.logStop - f.paneRows + y]? =
        some f.logLines[f.logStop - f.paneRows + y] :=
      List.getElem?_eq_getElem (by omega)
    rw [if_pos hlt, List.getElem?_map, List.getElem?_drop, List.getElem?_take_of_lt hlt, hline]
    exact ⟨_, rfl, logRow_getElem? hx _ _⟩
  · rename_i hout
    rw [if_neg (by omega), List.getElem?_replicate, if_pos (by omega)]
    refine ⟨_, rfl, ?_⟩
    rw [blanks, rowChars, List.flatMap_singleton, List.getElem?_replicate, if_pos hx]

end Frame

/-- In the log view the pane has the last lines before the place that is scrolled to. -/
def ShowsLog (f : Frame) (t : Screen) : Prop :=
  ∀ y x, y < f.paneRows → x < f.paneCols →
    ((t.grid[y + 1]?).bind (·[x + 22]?)).map Cell.ch = some (f.logChar y x)

theorem Showing.log {f : Frame} {t : Screen} (h : Showing f t) (hcols : minCols ≤ f.cols)
    (hhelp : f.showHelp = false) (halt : f.screen.inAlt = false) : ShowsLog f t := by
  intro y x hy hx
  obtain ⟨row, hrow, hchar⟩ := Frame.logRows_chars hy hx
  have hpane : (f.paneContents f.paneRows f.paneCols)[y]? = some row := by
    rw [Frame.paneContents, if_neg (by rw [halt]; exact Bool.false_ne_true)]
    exact hrow
  rw [h.pane hcols hhelp hy hx hpane, ← List.getElem?_map, rowCells_chars, hchar]

/-! ## Runs -/

namespace Display

open Screen

variable {t : Screen} {d d' : Display} {h : List (Display × DisplayEvent)} {f : P4Hyp.Frame}
  {force : Bool}

/-- A paint in step with the window is one of the window's size. -/
theorem painted_cols (ht : t.Idle) (hsize : Fitting t.rows t.cols)
    (hrun : Run fire (start t) (h ++ [(d, .paint f force)]) d')
    (ho : Run.Meets Orderly (h ++ [(d, .paint f force)])) : minCols ≤ f.cols := by
  obtain ⟨hrun', hf⟩ := hrun.of_snoc
  have hkept := kept_run ht hsize hrun' (Run.meets_snoc.mp ho).1
  obtain ⟨hsizes, -⟩ := of_fire_paint hf
  rw [hsizes.2]
  exact hkept.size.2.2.1

/-- The guest's screen is on the terminal while a full-screen program has the pane, and the log while
none has. -/
theorem pane_mirrors (ht : t.Idle) (hsize : Fitting t.rows t.cols)
    (hrun : Run fire (start t) (h ++ [(d, .paint f force)]) d')
    (ho : Run.Meets Orderly (h ++ [(d, .paint f force)])) (hstep : d'.InStep)
      (hhelp : f.showHelp = false) :
    if f.screen.inAlt then Mirrors f d'.term else ShowsLog f d'.term := by
  have hshowing := showing_run ht hsize hrun ho hstep
  have hcols := painted_cols ht hsize hrun ho
  split
  · exact hshowing.mirrors (Run.meets_snoc.mp ho).2 hcols hhelp ‹_›
  · exact hshowing.log hcols hhelp (Bool.eq_false_iff.mpr ‹_›)

/-- An editor has just started, and written a letter. -/
def editing : P4Hyp.Frame :=
  { P4Hyp.Frame.smallest with screen := ((Screen.init 5 17 10).altScreen true).put 'A' }

theorem clear_editing : editing.Clear :=
  { clear_smallest with
    screen := ((plain_init 5 17 10).altScreen true).put (by decide)
    colours := by decide +kernel }

theorem pane_mirrors_editing : ∃ d', Run fire (start (Screen.init 8 40 10))
      ([] ++ [(start (Screen.init 8 40 10), .paint editing true)]) d' ∧
    if editing.screen.inAlt then Mirrors editing d'.term else ShowsLog editing d'.term := by
  have hidle := idle_init 8 40 10
  have hkept := kept_start hidle fitting_smallest
  obtain ⟨rows, hrender⟩ := Frame.exists_render (f := editing) { Frame.counted_smallest with }
  have hfire : fire (start (Screen.init 8 40 10)) (.paint editing true) = some _ :=
    fire_paint ⟨rfl, rfl⟩ hrender true
  have hrun := Run.start.step hfire
  refine ⟨_, hrun, pane_mirrors hidle fitting_smallest hrun ?_ ?_ rfl⟩
  · exact Run.meets_snoc.mpr ⟨Run.meets_nil _, clear_editing⟩
  · exact (inStep_paint hkept clear_editing hrender ⟨rfl, rfl⟩ true).mpr
      (inStep_start hidle fitting_smallest)

end Display

end P4Hyp
