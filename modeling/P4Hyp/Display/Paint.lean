import P4Hyp.Display.Clean
import P4Hyp.Lib.Redraw

/-!
# Painting

`paint` sends the rows that differ from those of the paint before it, and `check_resize` forgets
those when the window has changed its size.  The terminal may be resized at any time, and what has
been painted for the old size is then of no use.
-/

namespace P4Hyp

/-! ## What is sent -/

/-- `"\x1b[%d;1H%s\x1b[K" % (i + 1, line)`. -/
def paintLine (i : Nat) (line : Str) : Str := csi (parmStr [i + 1, 1]) 'H' ++ line ++ csi [] 'K'

/-- The loop over the rows, from row `i` on. -/
def paintRows (force : Bool) (prev : List Str) : Nat → List Str → Str
  | _, [] => []
  | i, line :: lines =>
      (if force = true ∨ prev[i]? ≠ some line then paintLine i line else []) ++
        paintRows force prev (i + 1) lines

def showCursor (on : Bool) : Str := csi "?25".toList (if on then 'h' else 'l')

namespace Frame

variable (f : Frame)

def paneOrigin : Nat × Nat := (2, sidebarW + 3)

def cursorPosition : Option (Nat × Nat) :=
  if f.showHelp then none
  else if f.screen.inAlt then
    if f.screen.cursorVisible then
      some (paneOrigin.1 + min f.screen.cy (f.paneRows - 1),
        paneOrigin.2 + min f.screen.cx (f.paneCols - 1))
    else none
  else if f.scroll ≠ 0 ∨ f.wrap = true then none
  else
    let shown := min f.logPairs.length f.paneRows
    if shown = 0 then none
    else
      let off := if f.timestamps then 10 else 0
      some (paneOrigin.1 + shown - 1, paneOrigin.2 + off + min f.screen.cx (f.paneCols - 1 - off))

/-- What ends a paint. -/
def placeCursor : Str :=
  match f.cursorPosition with
  | some (r, c) => csi (parmStr [r, c]) 'H' ++ showCursor true
  | none => csi (parmStr [f.rows, 1]) 'H'

/-- `"".join(buf)`, of the rows that `render` has returned. -/
def paint (rows : List (List Span)) (force : Bool) (prev : List Str) : Str :=
  showCursor false ++ paintRows force prev 0 (rows.map rowStr) ++ f.placeCursor

end Frame

/-! ## The terminal and what is known of it -/

/-- The size and the rows that the program goes by, and the terminal. -/
structure Display where
  rows : Nat
  cols : Nat
  prev : List Str
  term : Screen

inductive DisplayEvent
  /-- The window gets another size, and the terminal in it. -/
  | window (rows cols : Nat)
  /-- `check_resize`. -/
  | check
  | paint (f : Frame) (force : Bool)

namespace Display

/-- What `run` sends before it paints. -/
def opening : Str := csi "?1049".toList 'h' ++ csi "2".toList 'J' ++ csi "?1000".toList 'h' ++
    csi "?1006".toList 'h'

/-- And after its last paint. -/
def closing : Str := csi "?1006".toList 'l' ++ csi "?1000".toList 'l' ++ showCursor true ++
    csi "?1049".toList 'l'

/-- `run` in a terminal. -/
def start (t : Screen) : Display :=
  { rows := max minRows t.rows, cols := max minCols t.cols, prev := [],
    term := t.feed (encode opening) }

def fire (d : Display) : DisplayEvent → Option Display
  | .window rows cols => some { d with term := d.term.resize rows cols }
  | .check =>
      let rows := max minRows d.term.rows
      let cols := max minCols d.term.cols
      some (if rows = d.rows ∧ cols = d.cols then d else { d with rows, cols, prev := [] })
  | .paint f force =>
      if f.rows = d.rows ∧ f.cols = d.cols then
        -- where `render` raises, nothing is painted
        f.render.map fun rows =>
          { d with prev := rows.map rowStr
                   term := d.term.feed (encode (f.paint rows force d.prev)) }
      else none

/-- The program goes by the size that the window has. -/
def InStep (d : Display) : Prop := d.rows = d.term.rows ∧ d.cols = d.term.cols

/-- A size that the program draws for. -/
def Fitting (rows cols : Nat) : Prop :=
  minRows ≤ rows ∧ rows < 2 ^ 16 ∧ minCols ≤ cols ∧ cols < 2 ^ 16

instance (rows cols : Nat) : Decidable (Fitting rows cols) :=
  inferInstanceAs (Decidable (_ ∧ _ ∧ _ ∧ _))

/-- Every change of the window has been seen before the next one, and what is painted can be shown. -/
def Orderly (d : Display) : DisplayEvent → Prop
  | .window rows cols => d.InStep ∧ Fitting rows cols
  | .check => True
  | .paint f _ => f.Clear

end Display

/-! ## One row -/

namespace Screen

section Line

variable {s t : Screen} {i : Nat} {row : List Span}

/-- A row that is sent is shown in its place, and the others are left. -/
theorem bytes_paintLine (h : s.Ready) (hstyle : s.style = .default) (hi : i < s.rows)
    (hrows : s.rows < 2 ^ 16)
    (hrow : CleanRow row) (hlen : (rowCells row).length = s.cols) :
    (s.bytes (encode (paintLine i (rowStr row)))).grid[i]? = some (shownCells (rowCells row)) ∧
      ∀ j, j ≠ i → (s.bytes (encode (paintLine i (rowStr row)))).grid[j]? = s.grid[j]? := by
  have hstart := writing_start h hstyle hi (legible_of_lt (by omega))
  have hcols : (s.bytes (encode (csi (parmStr [i + 1, 1]) 'H'))).cols = s.cols := hstart.kept.cols
  have hdone := hstart.spans h.ok hi hrow (by rw [List.length_nil, Nat.zero_add, hlen, hcols])
  rw [List.nil_append] at hdone
  obtain ⟨parm, inter, herase⟩ := bytes_eraseLine hdone.ready.ok.raised hdone.ready.state
  rw [paintLine, encode_append, encode_append, bytes_append, bytes_append, herase]
  exact eraseLine_row hdone h.ok hi hlen

theorem Drawn.paintLine (h : Drawn s .default t) (hi : Legible (i + 1)) (hrow : CleanRow row) :
    Drawn s .default (t.bytes (encode (paintLine i (rowStr row)))) := by
  rw [P4Hyp.paintLine, encode_append, encode_append, bytes_append, bytes_append]
  exact ((h.moveTo hi (legible_of_lt (by decide))).row hrow).eraseLine

theorem Drawn.paintRows (force : Bool) (prev : List Str) {rows : List (List Span)}
    (h : Drawn s .default t) (hi : i + rows.length < 2 ^ 16) (hrows : ∀ row ∈ rows, CleanRow row) :
    Drawn s .default (t.bytes (encode (paintRows force prev i (rows.map rowStr)))) := by
  induction rows generalizing i t with
  | nil => exact h
  | cons row rows ih =>
      rw [List.length_cons] at hi
      rw [List.map_cons, P4Hyp.paintRows, encode_append, bytes_append]
      refine ih ?_ (by omega) fun row' hrow' => hrows row' (List.mem_cons_of_mem row hrow')
      split
      · exact h.paintLine (legible_of_lt (by omega)) (hrows row List.mem_cons_self)
      · exact h

end Line

/-! ## All rows -/

section Rows

variable {s t : Screen} {force : Bool} {prev lines : List Str}

/-- The line can be drawn as row `i` of the terminal. -/
def Fits (s : Screen) (i : Nat) (line : Str) : Prop :=
  i < s.rows ∧ ∃ row, CleanRow row ∧ (rowCells row).length = s.cols ∧ line = rowStr row

def ShowsLine (s t : Screen) (i : Nat) (line : Str) : Prop :=
  t.grid[i]? = some (shownCells (lineCells s.cols line))

/-- The terminal as a device of rows. -/
theorem draws_terminal (hrows : s.rows < 2 ^ 16) :
    Draws (fun i line t => t.bytes (encode (paintLine i line)))
    (Drawn s .default) (Fits s) (ShowsLine s) where
  good := by
    rintro t i _ h ⟨hi, row, hrow, -, rfl⟩
    exact h.paintLine (legible_of_lt (by omega)) hrow
  same := by
    rintro t i _ h ⟨hi, row, hrow, hlen, rfl⟩
    have hcols : 0 < s.cols := h.kept.cols ▸ h.ready.ok.cols
    have hline := bytes_paintLine h.ready h.style (h.kept.rows ▸ hi) (h.kept.rows ▸ hrows) hrow
      (hlen.trans h.kept.cols.symm)
    rw [ShowsLine, lineCells_rowStr hcols hrow hlen]
    exact hline.1
  other := by
    rintro t i j _ m h ⟨hi, row, hrow, hlen, rfl⟩ hj hs
    have hline := bytes_paintLine h.ready h.style (h.kept.rows ▸ hi) (h.kept.rows ▸ hrows) hrow
      (hlen.trans h.kept.cols.symm)
    exact (hline.2 j hj).trans hs

theorem bytes_paintRows (i : Nat) : t.bytes (encode (paintRows force prev i lines)) =
    redrawFrom (fun i line t => t.bytes (encode (paintLine i line))) force prev i lines t := by
  induction lines generalizing i t with
  | nil => rfl
  | cons line lines ih =>
      rw [paintRows, encode_append, bytes_append, ih, redrawFrom, redrawLine]
      split <;> rfl

end Rows

/-- A read that ends in ASCII leaves nothing behind. -/
theorem Ready.feed {s : Screen} (h : s.Ready) {text : Str} {c : Char} (hc : c.toNat ≤ 0x7f) :
    s.feed (encode (text ++ [c])) = s.bytes (encode (text ++ [c])) := by
  have hlast : encode (text ++ [c]) = encode text ++ [asciiByte c] := by
    rw [encode_append, encode_singleton, encodeChar_one hc]
    rfl
  have hbyte : (asciiByte c).toNat < 0x80 := by
    rw [asciiByte, toNat_ofNat_byte (by omega)]
    omega
  have hsame : s.carry [] = s := carry_eq h.pending
  rw [hlast, feed_snoc_ascii h.ok hbyte, h.pending, List.nil_append, hsame]

theorem Ready.feed_csi {s : Screen} (h : s.Ready) (text params : Str) {final : Char}
    (hfinal : final.toNat ≤ 0x7f) :
    s.feed (encode (text ++ csi params final)) = s.bytes (encode (text ++ csi params final)) := by
  have hends : text ++ csi params final = (text ++ escChar :: '[' :: params) ++ [final] :=
    (List.append_assoc text (escChar :: '[' :: params) [final]).symm
  rw [hends]
  exact h.feed hfinal

end Screen

end P4Hyp
