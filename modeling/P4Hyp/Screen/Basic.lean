import P4Hyp.Lib.Grid
import P4Hyp.Lib.Text

/-!
# The guest's screen

The terminal that the frame draws the guest's console from: a grid of cells, a
parked grid while an editor has the pane, and the lines that have scrolled off.
-/

namespace P4Hyp

/-! ## Cells -/

/-- Attributes, foreground and background. -/
structure Style where
  attr : BitVec 6
  fg : Int
  bg : Int
deriving DecidableEq

namespace Style

def bold : BitVec 6 := 1
def dim : BitVec 6 := 2
def italic : BitVec 6 := 4
def underline : BitVec 6 := 8
def blink : BitVec 6 := 16
def reverse : BitVec 6 := 32

def defaultFg : Int := -1
def defaultBg : Int := -1

def default : Style := { attr := 0, fg := defaultFg, bg := defaultBg }

end Style

structure Cell where
  ch : Char
  style : Style
deriving DecidableEq

def Cell.blank : Cell := { ch := ' ', style := .default }

/-- `_row_text`. -/
def rowText (row : List Cell) : Str := rstrip (row.map Cell.ch)

def blankRow (cols : Nat) : List Cell := List.replicate cols Cell.blank

/-! ## The state -/

/-- What `save_cursor` keeps. -/
structure SavedCursor where
  cx : Nat
  cy : Nat
  style : Style
  graphics : Bool
  shifted : Bool
deriving DecidableEq

/-- `_state`. -/
inductive ParserState
  | text
  | esc
  | csi
  | osc
  | charset
  | hash
deriving DecidableEq

/-- What the code may raise. -/
inductive Exn
  | indexError
  | valueError
deriving DecidableEq

structure Screen where
  rows : Nat
  cols : Nat
  scrollbackLimit : Nat
  grid : Grid Cell
  /-- The parked primary grid, while the alternate buffer is active. -/
  altGrid : Option (Grid Cell)
  cx : Nat
  cy : Nat
  style : Style
  top : Nat
  bot : Nat
  autowrap : Bool
  insertMode : Bool
  pendingWrap : Bool
  cursorVisible : Bool
  saved : Option SavedCursor
  graphics : Bool
  shifted : Bool
  scrollback : List Str
  linesOut : Nat
  lastCh : Option Char
  title : Str
  bellCount : Nat
  unknown : Nat
  unknownSeqs : List Str
  state : ParserState
  parm : Str
  inter : Str
  osc : Str
  pending : List Byte
  /-- The exception that has left `feed`, and with it the thread that calls it. -/
  raised : Option Exn
deriving DecidableEq

namespace Screen

/-- `max(1, n)`. -/
def atLeastOne (n : Int) : Nat := (max 1 n).toNat

def newGrid (rows cols : Nat) : Grid Cell := Grid.blank rows cols Cell.blank

/-- `__init__`. -/
def init (rows cols : Int) (scrollback : Nat) : Screen :=
  { rows := atLeastOne rows, cols := atLeastOne cols, scrollbackLimit := scrollback,
    grid := newGrid (atLeastOne rows) (atLeastOne cols), altGrid := none, cx := 0, cy := 0,
    style := .default, top := 0, bot := atLeastOne rows - 1, autowrap := true,
    insertMode := false, pendingWrap := false, cursorVisible := true, saved := none,
    graphics := false, shifted := false, scrollback := [], linesOut := 0, lastCh := none,
    title := [], bellCount := 0, unknown := 0, unknownSeqs := [], state := .text, parm := [],
    inter := [], osc := [], pending := [], raised := none }

def inAlt (s : Screen) : Bool := s.altGrid.isSome

/-- Change the visible grid. -/
def draw (f : Grid Cell → Option (Grid Cell)) (s : Screen) : Screen :=
  { s with grid := (f s.grid).getD s.grid,
           raised := if (f s.grid).isNone then some .indexError else s.raised }

/-- One grid of `resize`. -/
def resizeGrid (rows cols : Nat) (g : Grid Cell) : Grid Cell :=
  let g := g.map fun row =>
    if cols < row.length then row.take cols else row ++ blankRow (cols - row.length)
  if rows < g.length then g.take rows else g ++ newGrid (rows - g.length) cols

def resize (rows cols : Int) (s : Screen) : Screen :=
  let rows := atLeastOne rows
  let cols := atLeastOne cols
  if rows = s.rows ∧ cols = s.cols then s
  else
    { s with
      grid := resizeGrid rows cols s.grid
      altGrid := s.altGrid.map (resizeGrid rows cols)
      rows := rows
      cols := cols
      top := 0
      bot := rows - 1
      cx := min s.cx (cols - 1)
      cy := min s.cy (rows - 1)
      pendingWrap := false }

/-! ## Scrolling -/

/-- The newest lines, as many as the limit allows. -/
def trimmed (limit : Nat) (lines : List Str) : List Str :=
  if limit < lines.length then lines.drop (lines.length - limit) else lines

/-- One round of `_scroll_up`. -/
def scrollUpOne (s : Screen) : Screen :=
  let keep : Bool := !s.inAlt && s.top == 0
  { s.draw (popInsert s.top s.bot (blankRow s.cols)) with
    scrollback :=
      if keep then
        trimmed s.scrollbackLimit (s.scrollback ++ [rowText (s.grid[s.top]?.getD [])])
      else s.scrollback
    linesOut := if keep then s.linesOut + 1 else s.linesOut }

def scrollUp (n : Nat) (s : Screen) : Screen := scrollUpOne^[n] s

def scrollDown (n : Nat) (s : Screen) : Screen :=
  s.draw (times n (popInsert s.bot s.top (blankRow s.cols)))

def newline (s : Screen) : Screen :=
  let s := { s with pendingWrap := false }
  if s.cy = s.bot then scrollUp 1 s
  else if s.cy + 1 < s.rows then { s with cy := s.cy + 1 }
  else s

/-! ## Characters -/

/-- `row.pop(self.cols - 1)` and `row.insert(self.cx, Cell())`. -/
def insertBlank (s : Screen) : List Cell → Option (List Cell) :=
  popInsert (s.cols - 1) s.cx Cell.blank

/-- IRM: make room for a character. -/
def shiftRow (s : Screen) : Screen :=
  if s.insertMode then s.draw (Grid.onRow s.cy s.insertBlank) else s

def writeCell (ch : Char) (s : Screen) : Screen :=
  s.draw (Grid.onRow s.cy (setAt s.cx { ch := ch, style := s.style }))

/-- Past the last column the cursor stays where it is, and the next character
wraps. -/
def advance (s : Screen) : Screen :=
  if s.cols ≤ s.cx + 1 then { s with pendingWrap := true } else { s with cx := s.cx + 1 }

/-- `_put`, once the pending wrap has been taken. -/
def putHere (ch : Char) (s : Screen) : Screen :=
  (({ s with lastCh := some ch }.shiftRow).writeCell ch).advance

def put (ch : Char) (s : Screen) : Screen :=
  if s.pendingWrap ∧ s.autowrap then
    putHere ch { newline { s with cx := 0 } with pendingWrap := false }
  else putHere ch s

def tab (s : Screen) : Screen :=
  { s with cx := min ((s.cx / 8 + 1) * 8) (s.cols - 1), pendingWrap := false }

/-! ## Cursor and buffers -/

def saveCursor (s : Screen) : Screen :=
  { s with saved := some { cx := s.cx, cy := s.cy, style := s.style, graphics := s.graphics,
                           shifted := s.shifted } }

def restoreCursor (s : Screen) : Screen :=
  match s.saved with
  | none => { s with cx := 0, cy := 0 }
  | some c =>
      { s with cx := min c.cx (s.cols - 1), cy := min c.cy (s.rows - 1), style := c.style,
               graphics := c.graphics, shifted := c.shifted, pendingWrap := false }

theorem restoreCursor_none {s : Screen} (h : s.saved = none) :
    s.restoreCursor = { s with cx := 0, cy := 0 } := by
  rw [restoreCursor, h]

theorem restoreCursor_some {s : Screen} {c : SavedCursor} (h : s.saved = some c) :
    s.restoreCursor =
      { s with cx := min c.cx (s.cols - 1), cy := min c.cy (s.rows - 1), style := c.style,
               graphics := c.graphics, shifted := c.shifted, pendingWrap := false } := by
  rw [restoreCursor, h]

/-- `_alt_screen`. -/
def altScreen (on : Bool) (s : Screen) : Screen :=
  if on then
    if s.inAlt then s
    else { saveCursor s with altGrid := some s.grid, grid := newGrid s.rows s.cols, cx := 0,
                             cy := 0, top := 0, bot := s.rows - 1 }
  else
    match s.altGrid with
    | none => s
    | some g => restoreCursor { s with grid := g, altGrid := none, top := 0, bot := s.rows - 1 }

theorem altScreen_outside {s : Screen} (h : s.altGrid = none) : s.altScreen false = s := by
  simp [altScreen, h]

theorem altScreen_leave {s : Screen} {g : Grid Cell} (h : s.altGrid = some g) :
    s.altScreen false =
      restoreCursor { s with grid := g, altGrid := none, top := 0, bot := s.rows - 1 } := by
  simp [altScreen, h]

def reset (s : Screen) : Screen :=
  { s with grid := newGrid s.rows s.cols, altGrid := none, cx := 0, cy := 0, style := .default,
           top := 0, bot := s.rows - 1, autowrap := true, insertMode := false,
           pendingWrap := false, cursorVisible := true, graphics := false, shifted := false,
           saved := none }

/-! ## Erasing, inserting and deleting -/

/-- `blank` of the cells from `lo` up to `hi` of the cursor's row. -/
def blankCells (lo hi : Nat) (s : Screen) : Screen :=
  s.draw (Grid.onRow s.cy (mapRange lo hi fun _ => Cell.blank))

def blankRows (lo hi : Nat) (s : Screen) : Screen :=
  s.draw (mapRange lo hi fun row => row.map fun _ => Cell.blank)

def eraseLine (mode : Nat) (s : Screen) : Screen :=
  let s' :=
    if mode = 0 then s.blankCells s.cx s.cols
    else if mode = 1 then s.blankCells 0 (min (s.cx + 1) s.cols)
    else s.blankCells 0 s.cols
  { s' with pendingWrap := false }

/-- The texts of the rows that a full clear keeps. -/
def cleared (s : Screen) : List Str := (s.grid.map rowText).filter (· ≠ [])

def eraseDisplay (mode : Nat) (s : Screen) : Screen :=
  let s' :=
    if mode = 0 then (s.eraseLine 0).blankRows (s.cy + 1) s.rows
    else if mode = 1 then (s.eraseLine 1).blankRows 0 s.cy
    else
      { s with
        scrollback :=
          if s.inAlt then s.scrollback else trimmed s.scrollbackLimit (s.scrollback ++ s.cleared)
        linesOut := if s.inAlt then s.linesOut else s.linesOut + s.cleared.length
        grid := s.grid.map fun row => row.map fun _ => Cell.blank }
  { s' with pendingWrap := false }

/-- `_insert_lines` and `_delete_lines` look first whether the cursor is inside the
scrolling region. -/
def InRegion (s : Screen) : Prop := s.top ≤ s.cy ∧ s.cy ≤ s.bot

instance (s : Screen) : Decidable s.InRegion := inferInstanceAs (Decidable (_ ∧ _))

def insertLines (n : Nat) (s : Screen) : Screen :=
  if s.InRegion then
    { s.draw (times (min n (s.bot - s.cy + 1)) (popInsert s.bot s.cy (blankRow s.cols))) with
      cx := 0 }
  else s

def deleteLines (n : Nat) (s : Screen) : Screen :=
  if s.InRegion then
    { s.draw (times (min n (s.bot - s.cy + 1)) (popInsert s.cy s.bot (blankRow s.cols))) with
      cx := 0 }
  else s

def insertChars (n : Nat) (s : Screen) : Screen :=
  s.draw (Grid.onRow s.cy (times (min n (s.cols - s.cx)) s.insertBlank))

/-- `row.pop(self.cx)` and `row.append(Cell())`. -/
def deleteChars (n : Nat) (s : Screen) : Screen :=
  s.draw (Grid.onRow s.cy fun row =>
    times (min n (s.cols - s.cx)) (popInsert s.cx row.length Cell.blank) row)

/-! ## Output -/

/-- `while rows and not rows[-1]: rows.pop()`. -/
def withoutBlankEnd (rows : List Str) : List Str := rows.rdropWhile (· == [])

def primary (s : Screen) : Grid Cell := s.altGrid.getD s.grid

def allLinesWithIds (s : Screen) : List (Str × Nat) :=
  s.scrollback.zipIdx (s.linesOut - s.scrollback.length) ++
    (withoutBlankEnd (s.primary.map rowText)).zipIdx s.linesOut

def allLines (s : Screen) : List Str := s.allLinesWithIds.map Prod.fst

end Screen

end P4Hyp
