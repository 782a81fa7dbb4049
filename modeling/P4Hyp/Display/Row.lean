import P4Hyp.Display.Codes
import P4Hyp.Screen.Slot

/-!
# A row on the terminal

A row of spans is written from the left margin.  Its cells stand in the terminal's row afterwards,
except for the last: the cursor stays on it, and the erasing that follows takes it away.
-/

namespace P4Hyp

namespace Span

/-- The cells that the span is shown as. -/
def cells (p : Span) : List Cell := p.text.map fun c => { ch := c, style := p.sgr.style }

def Clean (p : Span) : Prop := p.sgr.Pen ∧ PlainText p.text

end Span

def rowCells (row : List Span) : List Cell := row.flatMap Span.cells

def CleanRow (row : List Span) : Prop := ∀ p ∈ row, p.Clean

theorem rowCells_cons (p : Span) (row : List Span) :
    rowCells (p :: row) = p.cells ++ rowCells row :=
  List.flatMap_cons

theorem rowCells_chars (row : List Span) : (rowCells row).map Cell.ch = rowChars row := by
  rw [rowCells, rowChars, List.map_flatMap]
  refine List.flatMap_congr fun p _ => ?_
  rw [Span.cells, List.map_map]
  exact List.map_id _

theorem rowCells_length (row : List Span) : (rowCells row).length = (rowChars row).length := by
  rw [← rowCells_chars, List.length_map]

namespace Screen

/-- Another style, and something else that the parser has collected. -/
def restyle (style : Style) (parm inter : Str) (s : Screen) : Screen :=
  { s with style, parm, inter }

theorem restyle_self (s : Screen) : s.restyle s.style s.parm s.inter = s := rfl

/-- The size, the parked grid and the slot have stayed, and behind a parked grid the transcript. -/
structure Beneath (s t : Screen) : Prop where
  rows : t.rows = s.rows
  cols : t.cols = s.cols
  altGrid : t.altGrid = s.altGrid
  saved : t.saved = s.saved
  still : s.altGrid ≠ none → t.scrollback = s.scrollback ∧ t.linesOut = s.linesOut

theorem Beneath.refl (s : Screen) : Beneath s s := ⟨rfl, rfl, rfl, rfl, fun _ => ⟨rfl, rfl⟩⟩

theorem Beneath.trans {s t u : Screen} (h₁ : Beneath s t) (h₂ : Beneath t u) : Beneath s u where
  rows := h₂.rows.trans h₁.rows
  cols := h₂.cols.trans h₁.cols
  altGrid := h₂.altGrid.trans h₁.altGrid
  saved := h₂.saved.trans h₁.saved
  still halt := by
    obtain ⟨hs₁, hl₁⟩ := h₁.still halt
    obtain ⟨hs₂, hl₂⟩ := h₂.still (h₁.altGrid ▸ halt)
    exact ⟨hs₂.trans hs₁, hl₂.trans hl₁⟩

theorem beneath_frame : Frame Beneath where
  refl := .refl
  trans := .trans
  cursor := ⟨rfl, rfl, rfl, rfl, fun _ => ⟨rfl, rfl⟩⟩
  draw _ _ := ⟨rfl, rfl, rfl, rfl, fun _ => ⟨rfl, rfl⟩⟩
  scrollUpOne s := ⟨rfl, rfl, rfl, rfl, (parks_scrollUpOne s).still⟩
  fields := ⟨rfl, rfl, rfl, rfl, fun _ => ⟨rfl, rfl⟩⟩
  clear s mode hm := by
    have hslot := slotKept_frame.clear s mode hm
    exact ⟨hslot.rows, hslot.cols, hslot.altGrid, hslot.saved, (parks_clear s mode hm).still⟩

/-- What drawing leaves, on the way from `s`: the terminal reads text in the style `style`. -/
structure Drawn (s : Screen) (style : Style) (t : Screen) : Prop where
  ready : t.Ready
  style : t.style = style
  kept : Beneath s t
  visible : t.cursorVisible = s.cursorVisible

section Drawn

variable {s t u : Screen} {st : Style} {c : Char}

theorem Drawn.refl (h : s.Ready) : Drawn s s.style s := ⟨h, rfl, .refl s, rfl⟩

theorem Drawn.trans (h : Drawn s st t) {st' : Style} (h' : Drawn t st' u) : Drawn s st' u :=
  ⟨h'.ready, h'.style, h.kept.trans h'.kept, h'.visible.trans h.visible⟩

theorem Drawn.put (h : Drawn s st t) (c : Char) : Drawn s st (t.put c) where
  ready := h.ready.put c
  style := (sameModes_text.put c t).style.trans h.style
  kept := h.kept.trans (beneath_frame.put c t)
  visible := (sameModes_text.put c t).cursorVisible.trans h.visible

theorem Drawn.restyle (h : Drawn s st t) (st' : Style) (parm inter : Str) :
    Drawn s st' (t.restyle st' parm inter) where
  ready := { h.ready with ok := { h.ready.ok with } }
  style := rfl
  kept := { h.kept with }
  visible := h.visible

theorem Drawn.text {text : Str} (h : Drawn s st t) (ht : PlainText text) :
    Drawn s st (t.bytes (encode text)) := by
  rw [h.ready.bytes_text ht]
  clear ht
  induction text generalizing t with
  | nil => exact h
  | cons c text ih => exact ih (h.put c)

/-- The steps of a span: its code, its text and the reset. -/
theorem bytes_span {p : Span} (h : Drawn s .default t) (hp : p.Clean) : ∃ parm inter parm' inter',
    t.bytes (encode p.str) =
      restyle .default parm' inter' ((t.restyle p.sgr.style parm inter).bytes (encode p.text)) := by
  obtain ⟨parm, inter, hcode⟩ := bytes_pen h.ready.ok.raised h.ready.state h.style hp.1
  rw [Span.str]
  split
  · rename_i hnone
    have hstyle : p.sgr.style = .default := by rw [Sgr.style, if_pos hnone]
    refine ⟨t.parm, t.inter, (t.bytes (encode p.text)).parm, (t.bytes (encode p.text)).inter, ?_⟩
    rw [hstyle, ← h.style, restyle_self, h.style, ← (h.text hp.2).style, restyle_self]
  · have htext := (h.restyle p.sgr.style parm inter).text hp.2
    obtain ⟨parm', inter', hreset⟩ := bytes_reset htext.ready.ok.raised htext.ready.state
    refine ⟨parm, inter, parm', inter', ?_⟩
    rw [encode_append, encode_append, bytes_append, bytes_append, hcode]
    exact hreset

theorem Drawn.span {p : Span} (h : Drawn s .default t) (hp : p.Clean) :
    Drawn s .default (t.bytes (encode p.str)) := by
  obtain ⟨parm, inter, parm', inter', he⟩ := bytes_span h hp
  rw [he]
  exact ((h.restyle p.sgr.style parm inter).text hp.2).restyle .default parm' inter'

theorem Drawn.row {row : List Span} (h : Drawn s .default t) (hrow : CleanRow row) :
    Drawn s .default (t.bytes (encode (rowStr row))) := by
  induction row generalizing t with
  | nil => exact h
  | cons p row ih =>
      have hstr : rowStr (p :: row) = p.str ++ rowStr row := List.flatMap_cons
      rw [hstr, encode_append, bytes_append]
      exact ih (h.span (hrow p List.mem_cons_self)) fun q hq => hrow q (List.mem_cons_of_mem p hq)

end Drawn

/-! ## Cells of a row -/

/-- From `s` on, `done` has been written from the left margin of row `y`. -/
structure Writing (s : Screen) (y : Nat) (done : List Cell) (style : Style) (t : Screen) : Prop
    extends Drawn s style t where
  fits : done.length ≤ t.cols
  cy : t.cy = y
  cx : t.cx = min done.length (t.cols - 1)
  wrap : t.pendingWrap = decide (t.cols ≤ done.length)
  row : t.grid[y]? = (s.grid[y]?).map fun row => done ++ row.drop done.length
  others : ∀ i, i ≠ y → t.grid[i]? = s.grid[i]?

section Writing

variable {s t : Screen} {y : Nat} {done : List Cell} {st : Style}

/-- One more character, if there is room. -/
theorem Writing.put (h : Writing s y done st t) (hs : s.Ok none) (hy : y < s.rows)
    (hroom : done.length < t.cols) (c : Char) :
      Writing s y (done ++ [{ ch := c, style := st }]) st (t.put c) := by
  have hdrawn := h.toDrawn.put c
  have hcols : (t.put c).cols = t.cols := (sameModes_text.put c t).cols
  have hcx : t.cx = done.length := by
    rw [h.cx]
    omega
  have hylt : y < s.grid.length := by
    rw [hs.grid.rows]
    exact hy
  have hrow : t.grid[t.cy]? = some (done ++ s.grid[y].drop done.length) := by
    rw [h.cy, h.row, List.getElem?_eq_getElem hylt]
    rfl
  have hwidth : (s.grid[y]).length = t.cols := by
    rw [h.kept.cols]
    exact hs.grid.cols _ (List.getElem_mem hylt)
  have hput : t.put c = (writeCell c { t with lastCh := some c }).advance := by
    have hinsert : ({ t with lastCh := some c } : Screen).insertMode = false := h.ready.insertMode
    rw [put_wrapped, wrapped_of_clear (by rw [h.wrap]; exact decide_eq_false (by omega)),
      putHere, shiftRow, if_neg (by rw [hinsert]; exact Bool.false_ne_true)]
  have hok : Ok { t with lastCh := some c } none := { h.ready.ok with }
  have hgrid : (t.put c).grid = t.grid.set y ((done ++ s.grid[y].drop done.length).set done.length
      { ch := c, style := st }) := by
    rw [hput, advance_grid, writeCell_grid hok c hrow, ← h.style]
    show t.grid.set t.cy _ = _
    rw [h.cy, hcx]
  have hset : (done ++ s.grid[y].drop done.length).set done.length { ch := c, style := st } =
      done ++ [{ ch := c, style := st }] ++ s.grid[y].drop (done.length + 1) := by
    rw [List.set_append_right _ _ (Nat.le_refl _), Nat.sub_self,
      List.drop_eq_getElem_cons (by omega), List.set_cons_zero, List.append_assoc]
    rfl
  have hlen : (done ++ [({ ch := c, style := st } : Cell)]).length = done.length + 1 := by simp
  have hadvance : (t.put c).cx = (if t.cols ≤ t.cx + 1 then t.cx else t.cx + 1) ∧
      (t.put c).cy = t.cy ∧
        (t.put c).pendingWrap = (if t.cols ≤ t.cx + 1 then true else t.pendingWrap) := by
    rw [hput, advance]
    show (if t.cols ≤ t.cx + 1 then _ else _ : Screen).cx = _ ∧
      (if t.cols ≤ t.cx + 1 then _ else _ : Screen).cy = _ ∧
      (if t.cols ≤ t.cx + 1 then _ else _ : Screen).pendingWrap = _
    split <;> exact ⟨rfl, rfl, rfl⟩
  exact {
    hdrawn with
    fits := by
      rw [hlen, hcols]
      exact hroom
    cy := hadvance.2.1.trans h.cy
    cx := by
      rw [hadvance.1, hcols, hlen, hcx]
      split <;> omega
    wrap := by
      rw [hadvance.2.2, hcols, hlen, hcx, h.wrap]
      split
      · exact (decide_eq_true ‹_›).symm
      · rw [decide_eq_false (by omega), decide_eq_false (by omega)]
    row := by
      have hty : y < t.grid.length := by
        rw [h.ready.ok.grid.rows, h.kept.rows]
        exact hy
      rw [hgrid, List.getElem?_set_self hty, hset, List.getElem?_eq_getElem hylt, hlen]
      rfl
    others := by
      intro i hi
      rw [hgrid, List.getElem?_set_ne (Ne.symm hi)]
      exact h.others i hi }

theorem Writing.text (h : Writing s y done st t) (hs : s.Ok none) (hy : y < s.rows) {text : Str}
    (ht : PlainText text) (hfits : done.length + text.length ≤ t.cols) :
    Writing s y (done ++ text.map fun c => { ch := c, style := st }) st
      (t.bytes (encode text)) := by
  rw [h.ready.bytes_text ht]
  clear ht
  induction text generalizing done t with
  | nil =>
      rw [List.map_nil, List.append_nil]
      exact h
  | cons c text ih =>
      rw [List.length_cons] at hfits
      have hput := h.put hs hy (by omega) c
      have hcols : (t.put c).cols = t.cols := (sameModes_text.put c t).cols
      have hrest := ih hput (by rw [List.length_append, List.length_singleton, hcols]; omega)
      rw [List.append_assoc] at hrest
      exact hrest

theorem Writing.restyle (h : Writing s y done st t) (st' : Style) (parm inter : Str) :
    Writing s y done st' (t.restyle st' parm inter) :=
  { h.toDrawn.restyle st' parm inter with
    fits := h.fits, cy := h.cy, cx := h.cx, wrap := h.wrap, row := h.row, others := h.others }

theorem Writing.span {p : Span} (h : Writing s y done .default t) (hs : s.Ok none) (hy : y < s.rows)
    (hp : p.Clean) (hfits : done.length + p.cells.length ≤ t.cols) :
    Writing s y (done ++ p.cells) .default (t.bytes (encode p.str)) := by
  obtain ⟨parm, inter, parm', inter', he⟩ := bytes_span h.toDrawn hp
  rw [he]
  rw [Span.cells, List.length_map] at hfits
  exact ((h.restyle p.sgr.style parm inter).text hs hy hp.2 hfits).restyle .default parm' inter'

/-- A row that is not wider than the terminal. -/
theorem Writing.spans {row : List Span} (h : Writing s y done .default t) (hs : s.Ok none)
    (hy : y < s.rows) (hrow : CleanRow row) (hfits : done.length + (rowCells row).length ≤ t.cols) :
    Writing s y (done ++ rowCells row) .default (t.bytes (encode (rowStr row))) := by
  induction row generalizing done t with
  | nil =>
      rw [show rowCells [] = [] from rfl, List.append_nil]
      exact h
  | cons p row ih =>
      have hstr : rowStr (p :: row) = p.str ++ rowStr row := List.flatMap_cons
      rw [rowCells_cons, List.length_append] at hfits
      have hspan := h.span hs hy (hrow p List.mem_cons_self) (by omega)
      have hcols : (t.bytes (encode p.str)).cols = t.cols := hspan.kept.cols.trans h.kept.cols.symm
      rw [hstr, encode_append, bytes_append, rowCells_cons, ← List.append_assoc]
      refine ih hspan (fun q hq => hrow q (List.mem_cons_of_mem p hq)) ?_
      rw [List.length_append, hcols]
      omega

end Writing

/-! ## Sequences around a row -/

section Sequences

variable {s t : Screen} {st : Style}

/-- `ESC [ r ; c H`. -/
theorem bytes_moveTo (hr : t.raised = none) (hs : t.state = .text) {r c : Nat} (hrow : Legible r)
    (hcol : Legible c) : ∃ parm inter, t.bytes (encode (csi (parmStr [r, c]) 'H')) =
      { t with cy := min (max 1 r) t.rows - 1, cx := min (max 1 c) t.cols - 1, pendingWrap := false,
               parm, inter } := by
  have hall : ∀ n ∈ [r, c], Legible n := by simp [hrow, hcol]
  have hne : [r, c] ≠ [] := List.cons_ne_nil _ _
  have hone := parmsOf_parmStr hne hall 0 1
  have htwo : pairOf 1 (parmStr [r, c]) = some (r, c) := by
    rw [pairOf, parmsOf_parmStr hne hall]
    rfl
  refine ⟨parmStr [r, c], [], ?_⟩
  rw [bytes_csi hr hs (fun _ => isSgrParam_parmStr) (by decide), dispatch]
  dsimp only
  rw [hone]
  show moveTo _ = _
  rw [moveTo]
  dsimp only
  rw [htwo, hs]

/-- `ESC [ K`. -/
theorem bytes_eraseLine (hr : t.raised = none) (hs : t.state = .text) :
    ∃ parm inter, t.bytes (encode (csi [] 'K')) = { t.eraseLine 0 with parm, inter } := by
  refine ⟨[], [], ?_⟩
  rw [bytes_csi hr hs (by simp) (by decide), ← hs]
  rfl

/-- `ESC [ ? 2 5 h` and `ESC [ ? 2 5 l`. -/
theorem bytes_showCursor (hr : t.raised = none) (hs : t.state = .text) (on : Bool) :
    ∃ parm inter, t.bytes (encode (csi "?25".toList (if on then 'h' else 'l'))) =
      { t with cursorVisible := on, parm, inter } := by
  have hparams : ∀ c ∈ "?25".toList, isSgrParam c = true := List.all_eq_true.mp (by decide)
  refine ⟨"?25".toList, [], ?_⟩
  cases on with
  | true =>
      rw [if_pos rfl, bytes_csi hr hs hparams (by decide), ← hs]
      rfl
  | false =>
      rw [if_neg Bool.false_ne_true, bytes_csi hr hs hparams (by decide), ← hs]
      rfl

theorem Drawn.moveTo (h : Drawn s st t) {r c : Nat} (hrow : Legible r) (hcol : Legible c) :
    Drawn s st (t.bytes (encode (csi (parmStr [r, c]) 'H'))) := by
  obtain ⟨parm, inter, he⟩ := bytes_moveTo h.ready.ok.raised h.ready.state hrow hcol
  have hrows := h.ready.ok.rows
  have hcols := h.ready.ok.cols
  have hy : min (max 1 r) t.rows - 1 < t.rows := by omega
  have hx : min (max 1 c) t.cols - 1 < t.cols := by omega
  rw [he]
  exact { ready := { h.ready with ok := { h.ready.ok with cx := hx, cy := hy } }
          style := h.style, kept := { h.kept with }, visible := h.visible }

theorem Drawn.eraseLine (h : Drawn s st t) : Drawn s st (t.bytes (encode (csi [] 'K'))) := by
  obtain ⟨parm, inter, he⟩ := bytes_eraseLine h.ready.ok.raised h.ready.state
  have hkept := h.kept.trans (beneath_frame.eraseLine 0 t)
  have hok := h.ready.ok.eraseLine 0
  rw [he]
  exact { ready := { h.ready with ok := { hok with } }
          style := h.style, kept := { hkept with }, visible := h.visible }

end Sequences

/-! ## Whole rows -/

end Screen

/-- What is left of the cells of a full row when the one under the cursor is erased. -/
def shownCells (cells : List Cell) : List Cell := cells.dropLast ++ [Cell.blank]

theorem shownCells_eq {cells : List Cell} {cols : Nat} (h : cells.length = cols) (hpos : 0 < cols) :
    (cells.mapIdx fun i a => if cols - 1 ≤ i ∧ i < cols then Cell.blank else a) =
      shownCells cells := by
  apply List.ext_getElem
  · rw [List.length_mapIdx, shownCells, List.length_append, List.length_dropLast,
      List.length_singleton]
    omega
  · intro i hi _
    rw [List.length_mapIdx] at hi
    rw [List.getElem_mapIdx]
    by_cases hlast : i = cols - 1
    · rw [if_pos (by omega)]
      simp only [shownCells]
      rw [List.getElem_append_right (by rw [List.length_dropLast]; omega)]
      exact (List.getElem_singleton _).symm
    · rw [if_neg (by omega)]
      simp only [shownCells]
      rw [List.getElem_append_left (by rw [List.length_dropLast]; omega), List.getElem_dropLast]

namespace Screen

section Rows

variable {s t : Screen} {y : Nat} {cells : List Cell}

theorem eraseLine_row (h : Writing s y cells .default t) (hs : s.Ok none) (hy : y < s.rows)
    (hfull : cells.length = s.cols) :
    (t.eraseLine 0).grid[y]? = some (shownCells cells) ∧
      ∀ i, i ≠ y → (t.eraseLine 0).grid[i]? = s.grid[i]? := by
  have hylt : y < s.grid.length := by
    rw [hs.grid.rows]
    exact hy
  have hrow : t.grid[t.cy]? = some cells := by
    have hnone : s.grid[y].drop cells.length = [] := by
      rw [List.drop_eq_nil_iff, hs.grid.cols _ (List.getElem_mem hylt), hfull]
    rw [h.cy, h.row, List.getElem?_eq_getElem hylt, Option.map_some, hnone, List.append_nil]
  have hcols : t.cols = s.cols := h.kept.cols
  have hcx : t.cx = t.cols - 1 := by
    rw [h.cx, hcols, hfull]
    omega
  have hgrid : (t.eraseLine 0).grid = t.grid.set y (shownCells cells) := by
    show (Grid.onRow t.cy (mapRange t.cx t.cols fun _ => Cell.blank) t.grid).getD t.grid = _
    rw [Grid.onRow, hrow, Option.bind_some, mapRange, if_pos (.inr (by omega)), hcx,
      shownCells_eq (hfull.trans hcols.symm) h.ready.ok.cols, h.cy]
    rfl
  have hty : y < t.grid.length := by
    rw [h.ready.ok.grid.rows, h.kept.rows]
    exact hy
  rw [hgrid]
  refine ⟨List.getElem?_set_self hty, fun i hi => ?_⟩
  rw [List.getElem?_set_ne (Ne.symm hi)]
  exact h.others i hi

/-- The cursor at the left margin of a row, before anything is written there. -/
theorem writing_start (h : s.Ready) (hstyle : s.style = .default) (hy : y < s.rows)
    (hlegible : Legible (y + 1)) :
    Writing s y [] .default (s.bytes (encode (csi (parmStr [y + 1, 1]) 'H'))) := by
  have hone : Legible 1 := legible_of_lt (by decide)
  have hdrawn := (Drawn.refl h).moveTo hlegible hone
  rw [hstyle] at hdrawn
  obtain ⟨parm, inter, he⟩ := bytes_moveTo h.ok.raised h.state hlegible hone
  have hcols := h.ok.cols
  rw [he] at hdrawn ⊢
  refine { hdrawn with
    fits := Nat.zero_le _, cy := ?_, cx := ?_, wrap := ?_, row := ?_, others := fun _ _ => rfl }
  · show min (max 1 (y + 1)) s.rows - 1 = y
    omega
  · show min (max 1 1) s.cols - 1 = min 0 (s.cols - 1)
    omega
  · exact (decide_eq_false (Nat.not_le.mpr hcols)).symm
  · show s.grid[y]? = (s.grid[y]?).map fun row => [] ++ row.drop 0
    simp

end Rows

/-- The characters of a line in the cells of a fresh row of that width. -/
def lineCells (cols : Nat) (line : Str) : List Cell :=
  ((init 1 cols 0).bytes (encode line)).grid.headD []

theorem ready_init (rows cols : Int) (limit : Nat) : (init rows cols limit).Ready :=
  ⟨ok_init rows cols limit, rfl, rfl, rfl, rfl, rfl⟩

/-- The string of a row stands for its cells. -/
theorem lineCells_rowStr {row : List Span} {cols : Nat} (hcols : 0 < cols) (hrow : CleanRow row)
    (hlen : (rowCells row).length = cols) : lineCells cols (rowStr row) = rowCells row := by
  have hready := ready_init 1 cols 0
  have hwidth : (init 1 cols 0).cols = cols := by
    show (max 1 (cols : Int)).toNat = cols
    omega
  have hstart : Writing (init 1 cols 0) 0 [] .default (init 1 cols 0) :=
    { Drawn.refl hready with
      fits := Nat.zero_le _
      cy := rfl
      cx := rfl
      wrap := (decide_eq_false (Nat.not_le.mpr hready.ok.cols)).symm
      row := by simp
      others := fun _ _ => rfl }
  have hdone := hstart.spans hready.ok hready.ok.rows hrow
    (by rw [List.length_nil, Nat.zero_add, hlen, hwidth])
  rw [lineCells, List.headD_eq_head?_getD, List.head?_eq_getElem?, hdone.row]
  have hzero : 0 < (init 1 cols 0).grid.length := by
    rw [hready.ok.grid.rows]
    exact hready.ok.rows
  have hnone : (init 1 cols 0).grid[0].drop (rowCells row).length = [] := by
    rw [List.drop_eq_nil_iff, hready.ok.grid.cols _ (List.getElem_mem hzero), hwidth, hlen]
  rw [List.getElem?_eq_getElem hzero, Option.map_some, Option.getD_some, List.nil_append, hnone,
    List.append_nil]

end Screen
end P4Hyp
