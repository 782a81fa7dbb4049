import P4Hyp.Lib.FloatText
import P4Hyp.Lib.Sgr
import P4Hyp.Screen.Basic

/-!
# The frame around the guest's screen

`render` and the functions that it assembles its rows with.  A counter for which there is no
double stops it.
-/

namespace P4Hyp

/-! ## Lines -/

/-- A row under construction: `n` characters of `width`. -/
structure Line where
  width : Nat
  parts : List Span
  n : Nat

namespace Line

def new (width : Nat) : Line := { width, parts := [], n := 0 }

def add (text : Str) (sgr : Sgr) (ln : Line) : Line :=
  if ln.width ≤ ln.n ∨ text = [] then ln
  else
    let text := text.take (ln.width - ln.n)
    { ln with parts := ln.parts ++ [⟨sgr, text⟩], n := ln.n + text.length }

/-- The width is the caller's word. -/
def addStyled (row : List Span) (width : Nat) (ln : Line) : Line :=
  if ln.width ≤ ln.n then ln else { ln with parts := ln.parts ++ row, n := ln.n + width }

def pad (upto : Nat) (ch : Char) (sgr : Sgr) (ln : Line) : Line :=
  let upto := min upto ln.width
  if ln.n < upto then ln.add (List.replicate (upto - ln.n) ch) sgr else ln

/-- `pad()`. -/
def fill (ln : Line) : Line := ln.pad ln.width ' ' .none

def build (ln : Line) : List Span := ln.parts

end Line

/-! ## Styles -/

def sBorder : Sgr := .of "38;5;240".toList (List.all_eq_true.1 (by decide))
def sTitle : Sgr := .of "1".toList (List.all_eq_true.1 (by decide))
def sHead : Sgr := .of "1;36".toList (List.all_eq_true.1 (by decide))
def sDim : Sgr := .of "38;5;245".toList (List.all_eq_true.1 (by decide))
def sKeyHot : Sgr := .of "1;33".toList (List.all_eq_true.1 (by decide))
def sLabel : Sgr := .none
def sNote : Sgr := .of "1;33".toList (List.all_eq_true.1 (by decide))

/-- `codes` of `sgr_for`. -/
def sgrCodes (style : Style) : List Str :=
  (if style.attr &&& Style.bold ≠ 0 then ["1".toList] else []) ++
  (if style.attr &&& Style.dim ≠ 0 then ["2".toList] else []) ++
  (if style.attr &&& Style.italic ≠ 0 then ["3".toList] else []) ++
  (if style.attr &&& Style.underline ≠ 0 then ["4".toList] else []) ++
  (if style.attr &&& Style.reverse ≠ 0 then ["7".toList] else []) ++
  (if 0 ≤ style.fg then ["38;5;".toList ++ decimalStr style.fg.toNat] else []) ++
  (if 0 ≤ style.bg then ["48;5;".toList ++ decimalStr style.bg.toNat] else [])

theorem isSgrParam_decimalStr {n : Nat} {c : Char} (h : c ∈ decimalStr n) :
    isSgrParam c = true := by
  rw [isSgrParam, isDigit_of_mem_decimalStr h]
  rfl

theorem sgrCodes_params {style : Style} {code : Str} (h : code ∈ sgrCodes style) :
    ∀ c ∈ code, isSgrParam c = true := by
  have hflag {p : Prop} [Decidable p] {t : Str} (hm : code ∈ if p then [t] else []) : code = t := by
    split at hm
    · exact List.mem_singleton.mp hm
    · cases hm
  have hcolour {t : Str} {n : Nat} (ht : ∀ c ∈ t, isSgrParam c = true) :
      ∀ c ∈ t ++ decimalStr n, isSgrParam c = true := by
    intro c hc
    rcases List.mem_append.mp hc with hc | hc
    · exact ht c hc
    · exact isSgrParam_decimalStr hc
  simp only [sgrCodes, List.mem_append] at h
  rcases h with (((((h | h) | h) | h) | h) | h) | h
  · rw [hflag h]; exact List.all_eq_true.1 (by decide)
  · rw [hflag h]; exact List.all_eq_true.1 (by decide)
  · rw [hflag h]; exact List.all_eq_true.1 (by decide)
  · rw [hflag h]; exact List.all_eq_true.1 (by decide)
  · rw [hflag h]; exact List.all_eq_true.1 (by decide)
  · rw [hflag h]; exact hcolour (List.all_eq_true.1 (by decide))
  · rw [hflag h]; exact hcolour (List.all_eq_true.1 (by decide))

theorem sgrCodes_join {codes : List Str} (h : ∀ code ∈ codes, ∀ c ∈ code, isSgrParam c = true) :
    ∀ c ∈ [';'].intercalate codes, isSgrParam c = true := by
  induction codes with
  | nil => exact fun c hc => by cases hc
  | cons code codes ih =>
      intro c hc
      cases codes with
      | nil =>
          have hc' : c ∈ code := by simpa [List.intercalate] using hc
          exact h code (List.mem_cons_self ..) c hc'
      | cons code' codes =>
          have hc' : c ∈ code ∨ c = ';' ∨ c ∈ [';'].intercalate (code' :: codes) := by
            simpa [List.intercalate] using hc
          rcases hc' with hc | rfl | hc
          · exact h code (List.mem_cons_self ..) c hc
          · rfl
          · exact ih (fun code hm => h code (List.mem_cons_of_mem _ hm)) c hc

def sgrFor (cell : Cell) : Sgr :=
  if sgrCodes cell.style = [] then .none
  else .of ([';'].intercalate (sgrCodes cell.style)) (sgrCodes_join fun _ => sgrCodes_params)

/-! ## Counts -/

open Rounding (binary64 roundDigits)

/-- The loop over the units, and what is too large for them. -/
def humanFrom : List Str → ℚ → Str
  | [], n => wholeStr n ++ ['T']
  | unit :: units, n =>
      if n < 1000 then (if unit ≠ [] ∧ n < 10 then tenthsStr n else wholeStr n) ++ unit
      else humanFrom units (roundDigits 2 53 (n / 1000))

/-- `human`, unless `float(n)` raises `OverflowError`. -/
def human (n : Nat) : Option Str := (binary64 n).map (humanFrom [[], ['k'], ['M'], ['G']])

example : human 1536 = some "1.5k".toList := by decide +kernel

/-- `"%g Mbps" % (baud / 1e6)`, unless the division raises. -/
def mbps (baud : Nat) : Option Str :=
  (binary64 baud).map fun b => generalStr (roundDigits 2 53 (b / 1000000)) ++ " Mbps".toList

/-! ## What is shown -/

/-- The runs of cells of one style. -/
def addRuns : List Cell → Line → Line
  | [], ln => ln
  | cell :: rest, ln =>
      addRuns (rest.dropWhile fun c => c.style = cell.style)
        (ln.add (cell.ch :: (rest.takeWhile fun c => c.style = cell.style).map Cell.ch) (sgrFor cell))
  termination_by cells => cells.length
  decreasing_by
    exact Nat.lt_succ_of_le (List.dropWhile_sublist _).length_le

structure Action where
  key : Char
  label : String
  hot : Bool

def actions : List Action :=
  [⟨'r', "resize guest", false⟩, ⟨'s', "trap stats", false⟩, ⟨'k', "keyboard test", false⟩,
    ⟨'b', "reset board", true⟩, ⟨'c', "clear log", false⟩, ⟨'l', "log to file", false⟩,
    ⟨'t', "timestamps", false⟩, ⟨'f', "follow tail", false⟩, ⟨'w', "wrap lines", false⟩,
    ⟨'d', "dump pane", false⟩, ⟨'?', "help", false⟩, ⟨'q', "quit", false⟩]

/-- `HELP.split("\n")`. -/
def help : List String :=
  [" hypmon -- keys",
    "",
    " Every local command is TWO presses, not a chord:",
    "",
    "     1. hold Ctrl and press  ]   (right square bracket)   -- then let go",
    "     2. press the command letter on its own",
    "",
    " Nothing appears on screen after step 1; it is waiting for step 2.",
    "",
    " Anything else you type goes to the guest, including Ctrl-C and the",
    " hypervisor's own Ctrl-^ (trap stats) and Ctrl-_ (keyboard test).",
    " Ctrl-] is the prefix because 0x1d is the only control code the board",
    " does not already use for something.",
    "",
    "   Ctrl-] r    run `resize` on the guest -- do this after login and after",
    "               any host window resize. Nothing can push a size change down",
    "               a serial line, so it has to be asked for.",
    "   Ctrl-] s    hypervisor trap histogram     Ctrl-] k   keyboard self-test",
    "   Ctrl-] b    reset the board               Ctrl-] c   clear the log",
    "   Ctrl-] l    start/stop the log file       Ctrl-] t   timestamps",
    "   Ctrl-] f    follow the tail again         Ctrl-] w   wrap long lines",
    "   Ctrl-] d    write the pane to hypmon-dump.txt",
    "   Ctrl-] q    quit                          Ctrl-] ?   this page",
    "   Ctrl-] Ctrl-]   send a literal 0x1d to the guest",
    "",
    "   Esc          back to the console",
    "   PgUp/PgDn    scroll the log",
    "   wheel        scroll",
    "   click        focus the console",
    "",
    " Scrollback applies to log mode only. When a full-screen program starts,",
    " the guest switches to the alternate screen buffer and hypmon hands the",
    " whole pane over to it -- the header then says `screen`.",
    "",
    " Press any key to go back.",
    ""]

def sidebarW : Nat := 20
def chromeRows : Nat := 3
def minCols : Nat := 40
def minRows : Nat := 8

/-- What `render` reads. -/
structure Frame where
  rows : Nat
  cols : Nat
  screen : Screen
  stamps : Nat → Option Str
  port : Str
  baud : Nat
  rx : Nat
  rate : Nat
  backlog : Nat
  peakBacklog : Nat
  /-- `hyp["traps"]` and `hyp["dropped"]`, which `int` has read. -/
  traps : Option Nat
  dropped : Option Nat
  sizeChanged : Bool
  logging : Bool
  notice : Str
  /-- `time.time() < self.notice_until`. -/
  noticeLive : Bool
  scroll : Nat
  timestamps : Bool
  wrap : Bool
  showHelp : Bool

namespace Frame

variable (f : Frame)

def paneRows : Nat := max 1 (f.rows - chromeRows)

def paneCols : Nat := max 10 (f.cols - sidebarW - 3)

def separator : Str := " · ".toList

def header : Option Str := do
  let rate ← mbps f.baud
  let traps ← (match f.traps with
    | some n => (human n).map fun t => [t ++ " traps".toList]
    | none => some [])
  return separator.intercalate (
    ["hypmon".toList, f.port, rate,
      decimalStr f.paneRows ++ ['x'] ++ decimalStr f.paneCols,
      if f.screen.inAlt then "screen".toList else "log".toList] ++
    traps ++
    (match f.dropped with
      | some n => if n = 0 then [] else ["tx dropped ".toList ++ decimalStr n]
      | none => []) ++
    (if f.sizeChanged then ["window resized -- Ctrl-] r".toList] else []) ++
    (if f.logging then ["logging".toList] else []))

def footer : Option Str := do
  let rx ← human f.rx
  let linesOut ← human f.screen.linesOut
  let rate ← (if f.rate ≠ 0 then (human f.rate).map fun t => [t ++ "B/s".toList] else some [])
  return "Ctrl+] then ? for help · type to send".toList ++ "    ".toList ++
    separator.intercalate (
      [rx ++ "B rx".toList, linesOut ++ " lines".toList] ++
      (if f.screen.scrollbackLimit ≠ 0 ∧ f.screen.scrollbackLimit ≤ f.screen.scrollback.length then
        ["scrollback full".toList] else []) ++
      rate ++
      ["q ".toList ++ decimalStr f.backlog ++ ['/'] ++ decimalStr f.peakBacklog] ++
      (if f.scroll ≠ 0 then ["SCROLLED BACK ".toList ++ decimalStr f.scroll] else []))

def borderRow (left right : Char) (text : Str) (style : Sgr) : List Span :=
  Line.new f.cols
    |>.add [left, ' '] sBorder
    |>.add (text.take (f.cols - 4)) style
    |>.add [' '] sBorder
    |>.pad (f.cols - 1) '─' sBorder
    |>.add [right] sBorder
    |>.build

/-- Appending from `more` while there are fewer than `height`. -/
def upTo {α : Type*} (height : Nat) (rows more : List α) : List α :=
  rows ++ more.take (height - rows.length)

def sidebarRows (height : Nat) : List (Str × Sgr) :=
  let rows := [(" actions  Ctrl+] then:".toList, sTitle)]
  let rows := upTo height rows (actions.map fun a =>
    ("   ".toList ++ [a.key] ++ "   ".toList ++ a.label.toList, if a.hot then sKeyHot else sLabel))
  let rows := upTo height rows
    [([], sDim), (" Esc  console".toList, sDim), (" PgUp scroll".toList, sDim)]
  rows ++ List.replicate (height - rows.length) ([], .none)

def blanks (width : Nat) : List Span := [⟨.none, List.replicate width ' '⟩]

def screenRows (height width : Nat) : List (List Span) :=
  (List.range height).map fun y =>
    match f.screen.grid[y]? with
    | none => blanks width
    | some row => (addRuns (row.take width) (.new width)).fill.build

def logPairs : List (Str × Str) :=
  f.screen.allLinesWithIds.map fun (text, idx) => (text, (f.stamps idx).getD [])

/-- `wrap_pairs`. -/
def wrapPairs (pairs : List (Str × Str)) (width : Nat) : List (Str × Str) :=
  let width := max 8 width
  pairs.flatMap fun (text, stamp) =>
    if text.length ≤ width then [(text, stamp)]
    else (pieces width text).mapIdx fun i piece => (piece, if i = 0 then stamp else [])

/-- `"%-9s " % stamp`. -/
def stampText (stamp : Str) : Str := stamp ++ List.replicate (9 - stamp.length) ' ' ++ [' ']

def logRow (width : Nat) (text stamp : Str) : List Span :=
  let ln := Line.new width
  let ln := if f.timestamps then ln.add (stampText stamp) sDim else ln
  (ln.add text .none).fill.build

def logRows (height width : Nat) : List (List Span) :=
  let pairs := f.logPairs
  let stampW := if f.timestamps then 10 else 0
  let pairs := if f.wrap then wrapPairs pairs (width - stampW) else pairs
  let stop := pairs.length - f.scroll
  let out := ((pairs.take stop).drop (stop - height)).map fun (text, stamp) =>
    f.logRow width text stamp
  out ++ List.replicate (height - out.length) (blanks width)

def paneContents (height width : Nat) : List (List Span) :=
  if f.screen.inAlt then f.screenRows height width else f.logRows height width

/-- `help_rows`, whose rows are strings. -/
def helpRows (height width : Nat) : List Str :=
  let out := help.map fun t => rowStr ((Line.new width).add t.toList .none).build
  (out ++ List.replicate (height - out.length) []).take height

def helpRow (body : Str) : List Span :=
  Line.new f.cols
    |>.add ['│'] sBorder
    |>.add body .none
    |>.pad (f.cols - 1) ' ' .none
    |>.add ['│'] sBorder
    |>.build

def paneRow (side : Str × Sgr) (pane : List Span) : List Span :=
  Line.new f.cols
    |>.add ['│'] sBorder
    |>.add (side.1.take sidebarW) side.2
    |>.pad (1 + sidebarW) ' ' .none
    |>.add ['│'] sBorder
    |>.addStyled pane f.paneCols
    |>.pad (f.cols - 1) ' ' .none
    |>.add ['│'] sBorder
    |>.build

def separatorRow : List Span :=
  Line.new f.cols
    |>.add ['├'] sBorder
    |>.pad (1 + sidebarW) '─' sBorder
    |>.add [if f.showHelp then '─' else '┴'] sBorder
    |>.pad (f.cols - 1) '─' sBorder
    |>.add ['┤'] sBorder
    |>.build

/-- The rows, with the text of the upper border, and that of the lower with its style. -/
def assemble (top : Str) (bottom : Str × Sgr) : List (List Span) :=
  [f.borderRow '┌' '┐' top sHead] ++
  (if f.showHelp then
    let body := helpRows f.paneRows (f.cols - 2)
    (List.range f.paneRows).map fun r => f.helpRow (body.getD r [])
  else
    let side := sidebarRows f.paneRows
    let pane := f.paneContents f.paneRows f.paneCols
    (List.range f.paneRows).map fun r => f.paneRow (side.getD r ([], .none)) (pane.getD r [])) ++
  [f.separatorRow] ++
  [f.borderRow '└' '┘' bottom.1 bottom.2]

/-- The notice while there is one, and else the footer. -/
def bottom : Option (Str × Sgr) :=
  if f.notice ≠ [] ∧ f.noticeLive = true then some (f.notice, sNote)
  else f.footer.map fun t => (t, sDim)

def render : Option (List (List Span)) := do
  let top ← f.header
  let bottom ← f.bottom
  return f.assemble top bottom

end Frame

/-! ## Widths -/

theorem rowChars_append (r t : List Span) : rowChars (r ++ t) = rowChars r ++ rowChars t :=
  List.flatMap_append

/-- The count is that of the characters without the codes. -/
structure Line.Exact (ln : Line) : Prop where
  count : (rowChars ln.parts).length = ln.n
  le : ln.n ≤ ln.width

namespace Line

variable {ln : Line}

theorem new_exact (width : Nat) : (new width).Exact := ⟨rfl, Nat.zero_le _⟩

@[simp] theorem new_width (width : Nat) : (new width).width = width := rfl
@[simp] theorem new_n (width : Nat) : (new width).n = 0 := rfl

@[simp] theorem add_width (text : Str) (sgr : Sgr) : (ln.add text sgr).width = ln.width := by
  unfold add
  split <;> rfl

theorem add_n (text : Str) (sgr : Sgr) :
    (ln.add text sgr).n = ln.n + min (ln.width - ln.n) text.length := by
  unfold add
  split
  · rename_i h
    rcases h with h | rfl
    · rw [Nat.sub_eq_zero_of_le h, Nat.zero_min, Nat.add_zero]
    · rw [List.length_nil, Nat.min_zero, Nat.add_zero]
  · show ln.n + (text.take _).length = _
    rw [List.length_take]

theorem Exact.add (h : ln.Exact) (text : Str) (sgr : Sgr) : (ln.add text sgr).Exact := by
  refine ⟨?_, by rw [add_n, add_width]; have := h.le; omega⟩
  unfold Line.add
  split
  · exact h.count
  · show (rowChars (ln.parts ++ [_])).length = _
    rw [rowChars_append, List.length_append, h.count]
    simp [rowChars]

@[simp] theorem pad_width (upto : Nat) (ch : Char) (sgr : Sgr) :
    (ln.pad upto ch sgr).width = ln.width := by
  unfold pad
  dsimp only
  split
  · exact add_width _ _
  · rfl

theorem pad_n (upto : Nat) (ch : Char) (sgr : Sgr) :
    (ln.pad upto ch sgr).n = ln.n + (min upto ln.width - ln.n) := by
  unfold pad
  dsimp only
  split
  · rw [add_n, List.length_replicate]
    omega
  · omega

theorem Exact.pad (h : ln.Exact) (upto : Nat) (ch : Char) (sgr : Sgr) :
    (ln.pad upto ch sgr).Exact := by
  unfold Line.pad
  dsimp only
  split
  · exact h.add _ _
  · exact h

/-- What `pad()` fills is as wide as the line. -/
theorem Exact.fill (h : ln.Exact) : (rowChars ln.fill.build).length = ln.width := by
  have hn : ln.fill.n = ln.width := by
    unfold Line.fill
    rw [pad_n]
    have := h.le
    omega
  exact (h.pad _ _ _).count.trans hn

@[simp] theorem addStyled_width (row : List Span) (width : Nat) :
    (ln.addStyled row width).width = ln.width := by
  unfold addStyled
  split <;> rfl

/-- A row of the width that is claimed for it. -/
theorem Exact.addStyled (h : ln.Exact) {row : List Span} {width : Nat}
    (hrow : (rowChars row).length = width) (hfit : ln.n + width ≤ ln.width) :
    (ln.addStyled row width).Exact ∧ (ln.addStyled row width).n = ln.n + width := by
  unfold Line.addStyled
  split
  · have hz : width = 0 := by omega
    rw [hz]
    exact ⟨h, rfl⟩
  · refine ⟨⟨?_, hfit⟩, rfl⟩
    show (rowChars (ln.parts ++ row)).length = ln.n + width
    rw [rowChars_append, List.length_append, h.count, hrow]

theorem Exact.addRuns (h : ln.Exact) (cells : List Cell) :
    (addRuns cells ln).Exact ∧ (addRuns cells ln).width = ln.width := by
  induction cells, ln using addRuns.induct with
  | case1 ln =>
      rw [P4Hyp.addRuns]
      exact ⟨h, rfl⟩
  | case2 ln cell rest ih =>
      rw [P4Hyp.addRuns]
      obtain ⟨hexact, hwidth⟩ := ih (h.add _ _)
      exact ⟨hexact, hwidth.trans (add_width _ _)⟩

end Line

namespace Frame

section Rows

variable {f : Frame} {height width : Nat} {rows : List (List Span)}

theorem paneRows_eq (hrows : minRows ≤ f.rows) : f.paneRows = f.rows - 3 := by
  unfold minRows at hrows
  unfold paneRows chromeRows
  omega

theorem paneCols_eq (hcols : minCols ≤ f.cols) : f.paneCols = f.cols - 23 := by
  unfold minCols at hcols
  unfold paneCols sidebarW
  omega

theorem borderRow_width (hcols : minCols ≤ f.cols) (left right : Char) (text : Str) (style : Sgr) :
    (rowChars (f.borderRow left right text style)).length = f.cols := by
  unfold minCols at hcols
  have hexact := ((((((Line.new_exact f.cols).add [left, ' '] sBorder).add (text.take (f.cols - 4))
    style).add [' '] sBorder).pad (f.cols - 1) '─' sBorder).add [right] sBorder).count
  refine hexact.trans ?_
  simp only [Line.add_n, Line.pad_n, Line.add_width, Line.pad_width, List.length_take,
    List.length_cons, List.length_nil, Line.new_width, Line.new_n]
  omega

theorem separatorRow_width (hcols : minCols ≤ f.cols) :
    (rowChars f.separatorRow).length = f.cols := by
  unfold minCols at hcols
  have hexact := (((((Line.new_exact f.cols).add ['├'] sBorder).pad (1 + sidebarW) '─' sBorder).add
    [if f.showHelp then '─' else '┴'] sBorder).pad (f.cols - 1) '─' sBorder).add ['┤'] sBorder
  refine hexact.count.trans ?_
  simp only [Line.add_n, Line.pad_n, Line.add_width, Line.pad_width, List.length_cons,
    List.length_nil, Line.new_width, Line.new_n]
  unfold sidebarW
  omega

theorem helpRow_width (hcols : minCols ≤ f.cols) (body : Str) :
    (rowChars (f.helpRow body)).length = f.cols := by
  unfold minCols at hcols
  have hexact := ((((Line.new_exact f.cols).add ['│'] sBorder).add body .none).pad (f.cols - 1) ' '
    .none).add ['│'] sBorder
  refine hexact.count.trans ?_
  simp only [Line.add_n, Line.pad_n, Line.add_width, Line.pad_width, List.length_cons,
    List.length_nil, Line.new_width, Line.new_n]
  omega

/-- A row with the sidebar and the borders before the pane drawn. -/
theorem paneRow_left (hcols : minCols ≤ f.cols) (side : Str × Sgr) (pane : List Span) :
    ∃ ln : Line, ln.Exact ∧ ln.n = 22 ∧ ln.width = f.cols ∧
      f.paneRow side pane =
        (((ln.addStyled pane f.paneCols).pad (f.cols - 1) ' ' .none).add ['│'] sBorder).build := by
  unfold minCols at hcols
  refine ⟨_, (((((Line.new_exact f.cols).add ['│'] sBorder).add (side.1.take sidebarW) side.2).pad
    (1 + sidebarW) ' ' .none).add ['│'] sBorder), ?_, ?_, rfl⟩
  · simp only [Line.add_n, Line.pad_n, Line.add_width, Line.pad_width, List.length_take,
      List.length_cons, List.length_nil, Line.new_width, Line.new_n]
    unfold sidebarW
    omega
  · simp only [Line.add_width, Line.pad_width, Line.new_width]

theorem paneRow_width (hcols : minCols ≤ f.cols) (side : Str × Sgr) {pane : List Span}
    (hpane : (rowChars pane).length = f.paneCols) :
    (rowChars (f.paneRow side pane)).length = f.cols := by
  obtain ⟨ln, hleft, hn, hwidth, hrow⟩ := paneRow_left hcols side pane
  have hcols' := paneCols_eq hcols
  unfold minCols at hcols
  obtain ⟨hstyled, hn'⟩ := hleft.addStyled hpane (by omega)
  rw [hrow]
  refine ((hstyled.pad (f.cols - 1) ' ' .none).add ['│'] sBorder).count.trans ?_
  simp only [Line.add_n, Line.pad_n, Line.pad_width, Line.addStyled_width, hn', hn, hwidth,
    List.length_cons, List.length_nil]
  omega

theorem blanks_width (width : Nat) : (rowChars (blanks width)).length = width := by
  simp [rowChars, blanks]

theorem screenRows_width : (f.screenRows height width).length = height ∧
    ∀ row ∈ f.screenRows height width, (rowChars row).length = width := by
  refine ⟨by simp [screenRows], fun row hrow => ?_⟩
  obtain ⟨y, -, rfl⟩ := List.mem_map.mp hrow
  split
  · exact blanks_width width
  · rename_i cells _
    obtain ⟨hexact, hwidth⟩ := (Line.new_exact width).addRuns (cells.take width)
    exact hexact.fill.trans hwidth

theorem logRow_width (text stamp : Str) :
    (rowChars (f.logRow width text stamp)).length = width := by
  unfold logRow
  dsimp only
  split
  · rw [(((Line.new_exact width).add _ _).add text .none).fill, Line.add_width, Line.add_width]
    rfl
  · rw [((Line.new_exact width).add text .none).fill, Line.add_width]
    rfl

theorem logRows_width : (f.logRows height width).length = height ∧
    ∀ row ∈ f.logRows height width, (rowChars row).length = width := by
  unfold logRows
  dsimp only
  constructor
  · rw [List.length_append, List.length_replicate, List.length_map, List.length_drop,
      List.length_take]
    omega
  · intro row hrow
    rcases List.mem_append.mp hrow with hrow | hrow
    · obtain ⟨⟨text, stamp⟩, -, rfl⟩ := List.mem_map.mp hrow
      exact logRow_width text stamp
    · rw [List.eq_of_mem_replicate hrow]
      exact blanks_width width

variable (f height width) in
theorem paneContents_width : (f.paneContents height width).length = height ∧
    ∀ row ∈ f.paneContents height width, (rowChars row).length = width := by
  unfold paneContents
  split
  · exact screenRows_width
  · exact logRows_width

theorem render_eq_some (h : f.render = some rows) : ∃ top bottom,
    f.header = some top ∧ f.bottom = some bottom ∧ rows = f.assemble top bottom := by
  obtain ⟨top, htop, h⟩ := Option.bind_eq_some_iff.mp h
  obtain ⟨bottom, hbottom, h⟩ := Option.bind_eq_some_iff.mp h
  exact ⟨top, bottom, htop, hbottom, (Option.some.inj h).symm⟩

theorem length_render (hrows : minRows ≤ f.rows) (h : f.render = some rows) :
    rows.length = f.rows := by
  obtain ⟨top, bottom, -, -, rfl⟩ := render_eq_some h
  have hbody (p : Prop) [Decidable p] (g h : Nat → List Span) :
      (if p then (List.range f.paneRows).map g else (List.range f.paneRows).map h).length =
        f.paneRows := by
    split <;> rw [List.length_map, List.length_range]
  have hheight := paneRows_eq hrows
  unfold minRows at hrows
  simp only [assemble, List.length_append, List.length_singleton, hbody]
  omega

theorem width_render (hcols : minCols ≤ f.cols) (h : f.render = some rows) :
    ∀ row ∈ rows, (rowChars row).length = f.cols := by
  obtain ⟨top, bottom, -, -, rfl⟩ := render_eq_some h
  intro row hrow
  simp only [assemble, List.mem_append, List.mem_singleton] at hrow
  rcases hrow with ((rfl | hrow) | rfl) | rfl
  · exact borderRow_width hcols _ _ _ _
  · split at hrow
    · obtain ⟨r, -, rfl⟩ := List.mem_map.mp hrow
      exact helpRow_width hcols _
    · obtain ⟨r, hr, rfl⟩ := List.mem_map.mp hrow
      obtain ⟨hlen, hpane⟩ := paneContents_width f f.paneRows f.paneCols
      have hlt : r < (f.paneContents f.paneRows f.paneCols).length := by
        rw [hlen]
        exact List.mem_range.mp hr
      refine paneRow_width hcols _ (hpane _ ?_)
      rw [List.getD_eq_getElem?_getD, List.getElem?_eq_getElem hlt, Option.getD_some]
      exact List.getElem_mem hlt
  · exact separatorRow_width hcols
  · exact borderRow_width hcols _ _ _ _

end Rows

/-! ## Counters with a double -/

/-- The counters in the borders that are drawn have a double.  A notice takes the place of those
of the footer. -/
structure Counted (f : Frame) : Prop where
  baud : f.baud < 2 ^ 1024 - 2 ^ 970
  traps : ∀ n ∈ f.traps, n < 2 ^ 1024 - 2 ^ 970
  footer : f.notice = [] ∨ f.noticeLive = false → f.rx < 2 ^ 1024 - 2 ^ 970 ∧
    f.screen.linesOut < 2 ^ 1024 - 2 ^ 970 ∧ f.rate < 2 ^ 1024 - 2 ^ 970

section Counted

variable {f : Frame}

theorem human_isSome_iff (n : Nat) : (human n).isSome ↔ n < 2 ^ 1024 - 2 ^ 970 := by
  rw [human, Option.isSome_map]
  exact Rounding.binary64_natCast_isSome_iff n

theorem mbps_isSome_iff (baud : Nat) : (mbps baud).isSome ↔ baud < 2 ^ 1024 - 2 ^ 970 := by
  rw [mbps, Option.isSome_map]
  exact Rounding.binary64_natCast_isSome_iff baud

/-- A step whose value does not matter for whether the next one can be taken. -/
theorem isSome_bind_iff {α β : Type*} {x : Option α} {g : α → Option β} {p : Prop}
    (h : ∀ a, (g a).isSome ↔ p) : (x.bind g).isSome ↔ x.isSome ∧ p := by
  cases x with
  | none => exact ⟨fun he => absurd he Bool.false_ne_true, fun he => he.1⟩
  | some a => exact (h a).trans ⟨fun hp => ⟨rfl, hp⟩, fun hp => hp.2⟩

theorem header_isSome_iff : f.header.isSome ↔
    f.baud < 2 ^ 1024 - 2 ^ 970 ∧ ∀ n ∈ f.traps, n < 2 ^ 1024 - 2 ^ 970 := by
  have htraps : (match f.traps with
      | some n => (human n).map fun t => [t ++ " traps".toList]
      | none => some []).isSome ↔ ∀ n ∈ f.traps, n < 2 ^ 1024 - 2 ^ 970 := by
    cases f.traps with
    | none => exact iff_of_true rfl fun n hn => by cases hn
    | some n =>
        dsimp only
        rw [Option.isSome_map, human_isSome_iff]
        exact ⟨fun h m hm => Option.some.inj hm ▸ h, fun h => h n rfl⟩
  refine (isSome_bind_iff fun rate => isSome_bind_iff fun traps =>
    iff_of_true rfl trivial).trans ?_
  rw [mbps_isSome_iff, and_true]
  exact and_congr_right fun _ => htraps

theorem footer_isSome_iff : f.footer.isSome ↔ f.rx < 2 ^ 1024 - 2 ^ 970 ∧
    f.screen.linesOut < 2 ^ 1024 - 2 ^ 970 ∧ f.rate < 2 ^ 1024 - 2 ^ 970 := by
  have hrate : (if f.rate ≠ 0 then (human f.rate).map fun t => [t ++ "B/s".toList]
      else some []).isSome ↔ f.rate < 2 ^ 1024 - 2 ^ 970 := by
    split
    · rw [Option.isSome_map, human_isSome_iff]
    · rename_i hzero
      rw [not_not.mp hzero]
      exact iff_of_true rfl (Nat.sub_pos_of_lt (pow_lt_pow_right₀ one_lt_two (by decide)))
  refine (isSome_bind_iff fun rx => isSome_bind_iff fun linesOut => isSome_bind_iff fun rate =>
    iff_of_true rfl trivial).trans ?_
  rw [human_isSome_iff, human_isSome_iff, and_true]
  exact and_congr_right fun _ => and_congr_right fun _ => hrate

theorem bottom_isSome_iff :
    f.bottom.isSome ↔ (f.notice = [] ∨ f.noticeLive = false → f.footer.isSome) := by
  unfold bottom
  split
  · rename_i h
    refine iff_of_true rfl fun hnone => ?_
    rcases hnone with hnone | hnone
    · exact absurd hnone h.1
    · rw [hnone] at h
      exact absurd h.2 Bool.false_ne_true
  · rename_i h
    rw [Option.isSome_map]
    refine ⟨fun h _ => h, fun h' => h' ?_⟩
    by_cases hnotice : f.notice = []
    · exact .inl hnotice
    · exact .inr (Bool.eq_false_iff.mpr fun hlive => h ⟨hnotice, hlive⟩)

theorem render_isSome_iff : f.render.isSome ↔ f.Counted := by
  refine (isSome_bind_iff fun top => isSome_bind_iff fun bottom =>
    iff_of_true rfl trivial).trans ?_
  rw [header_isSome_iff, bottom_isSome_iff, footer_isSome_iff, and_true]
  exact ⟨fun ⟨⟨hbaud, htraps⟩, hfooter⟩ => ⟨hbaud, htraps, hfooter⟩,
    fun h => ⟨⟨h.baud, h.traps⟩, h.footer⟩⟩

theorem exists_render (h : f.Counted) : ∃ rows, f.render = some rows :=
  Option.isSome_iff_exists.mp (render_isSome_iff.mpr h)

/-- The frame has the terminal's size, as many rows and in each as many characters besides the
codes, exactly when the counters that are drawn have a double. -/
theorem render_width (hrows : minRows ≤ f.rows) (hcols : minCols ≤ f.cols) :
    (∃ rows, f.render = some rows ∧ rows.length = f.rows ∧ ∀ row ∈ rows,
      (rowChars row).length = f.cols ∧
        (escChar ∉ rowChars row → (plain (rowStr row)).length = f.cols)) ↔ f.Counted := by
  constructor
  · rintro ⟨rows, hrender, -⟩
    rw [← render_isSome_iff, hrender]
    rfl
  · intro h
    obtain ⟨rows, hrender⟩ := exists_render h
    refine ⟨rows, hrender, length_render hrows hrender, fun row hrow => ?_⟩
    have hwidth := width_render hcols hrender row hrow
    refine ⟨hwidth, fun hesc => ?_⟩
    rw [plain_rowStr hesc]
    exact hwidth

/-- The smallest terminal, before the guest has written anything. -/
def smallest : Frame :=
  { rows := 8, cols := 40, screen := .init 5 17 10, stamps := fun _ => none, port := "COM17".toList
    baud := 4000000, rx := 0, rate := 0, backlog := 0, peakBacklog := 0, traps := none
    dropped := none, sizeChanged := false, logging := false, notice := [], noticeLive := false
    scroll := 0, timestamps := true, wrap := true, showHelp := false }

theorem counted_smallest : smallest.Counted where
  baud := by decide +kernel
  traps := nofun
  footer _ := by decide +kernel

theorem render_width_smallest : ∃ rows, smallest.render = some rows ∧ rows.length = 8 ∧
    ∀ row ∈ rows, (rowChars row).length = 40 ∧
      (escChar ∉ rowChars row → (plain (rowStr row)).length = 40) :=
  (render_width (f := smallest) (by decide) (by decide)).mpr counted_smallest

/-- With a number of traps that `scrape` has read from a line that the guest wrote. -/
def overflowing : Frame := { smallest with traps := some (2 ^ 1024) }

theorem render_overflows : minRows ≤ overflowing.rows ∧ minCols ≤ overflowing.cols ∧
    overflowing.render = none := by
  refine ⟨by decide, by decide, ?_⟩
  rw [← Option.not_isSome_iff_eq_none, render_isSome_iff]
  intro h
  exact absurd (h.traps _ rfl) (Nat.not_lt.mpr (Nat.sub_le _ _))

end Counted

end Frame

end P4Hyp
