import P4Hyp.Screen.Tag
import P4Hyp.Screen.Transcript
import P4Hyp.Screen.Wrap

/-!
# Plain text

Printable characters and line ends on a fresh screen: the transcript is the text,
line by line, cut at the right margin.
-/

namespace P4Hyp
namespace Screen

def Printable (b : Byte) : Prop := 0x20 ≤ b.toNat ∧ b.toNat ≤ 0x7e

instance (b : Byte) : Decidable (Printable b) := inferInstanceAs (Decidable (_ ∧ _))

theorem Printable.ascii {b : Byte} (hb : Printable b) : b.toNat < 0x80 :=
  Nat.lt_of_le_of_lt hb.2 (by decide)

/-- CR LF. -/
def lineEnd : List Byte := [0x0d, 0x0a]

/-- The text of the lines, with a line end between two of them. -/
def textOf (lines : List (List Byte)) : List Byte := lineEnd.intercalate lines

theorem textOf_singleton (line : List Byte) : textOf [line] = line :=
  List.intercalate_singleton

theorem textOf_cons (line next : List Byte) (rest : List (List Byte)) :
    textOf (line :: next :: rest) = line ++ lineEnd ++ textOf (next :: rest) :=
  List.intercalate_cons_cons

/-- The lines cut at the right margin, without the blanks at their ends. -/
def piecesOf (cols : Nat) (lines : List (List Byte)) : List Str :=
  (lines.flatMap fun line => pieces cols (line.map chr)).map rstrip

/-- What the screen shows of the pieces: those that no longer fit are in the history, as
far as it goes, and the others in the grid. -/
structure Transcribed (s : Screen) (limit : Nat) (pieces : List Str) : Prop where
  scrollback : s.scrollback = newest limit (pieces.take (pieces.length - s.rows))
  grid : s.grid.map rowText = pieces.drop (pieces.length - s.rows) ++
    List.replicate (s.rows - pieces.length) []
  lines : s.allLines = newest limit (pieces.take (pieces.length - s.rows)) ++
    withoutBlankEnd (pieces.drop (pieces.length - s.rows))
  /-- Every line has its index among the pieces. -/
  ids : s.allLinesWithIds = newest limit (pieces.zipIdx.take (pieces.length - s.rows)) ++
    (pieces.zipIdx.drop (pieces.length - s.rows)).rdropWhile fun line => line.1 == []

/-! ## The pieces so far -/

/-- A row that shows a piece. -/
def padded (cols : Nat) (piece : Str) : Str := piece ++ List.replicate (cols - piece.length) ' '

/-- How many of the pieces have scrolled off. -/
def off (rows : Nat) (done : List Str) : Nat := done.length + 1 - rows

/-- The pieces `done` are complete, and `cur` is the one in the cursor's row. -/
structure Shows (s : Screen) (done : List Str) (cur : Str) : Prop where
  ok : s.Ok none
  primary : s.altGrid = none
  top : s.top = 0
  bot : s.bot + 1 = s.rows
  autowrap : s.autowrap = true
  replaces : s.insertMode = false
  graphics : s.graphics = false
  shifted : s.shifted = false
  state : s.state = .text
  history : s.history = { total := off s.rows done,
                          kept := newest s.scrollbackLimit
                            ((done.take (off s.rows done)).map rstrip) }
  grid : s.grid.map (List.map Cell.ch) = (done.drop (off s.rows done)).map (padded s.cols) ++
    padded s.cols cur :: List.replicate (s.rows - 1 - done.length) (padded s.cols [])
  cy : s.cy + off s.rows done = done.length
  fits : cur.length ≤ s.cols

/-- The cursor is behind the piece, or on its last character. -/
structure Behind (s : Screen) (cur : Str) : Prop where
  cx : s.cx = min cur.length (s.cols - 1)
  wrap : s.pendingWrap = true ↔ cur.length = s.cols

section Shows

variable {s : Screen} {done : List Str} {cur : Str}

theorem rowText_padded {row : List Cell} {piece : Str} {cols : Nat}
    (h : row.map Cell.ch = padded cols piece) : rowText row = rstrip piece := by
  rw [rowText, h, padded, rstrip_append_blanks]

theorem blankRow_chars (cols : Nat) : (blankRow cols).map Cell.ch = padded cols [] :=
  List.map_replicate

theorem shows_init (rows cols : Int) (limit : Nat) : Shows (init rows cols limit) [] [] := by
  have hok := ok_init rows cols limit
  have hrows : 1 - atLeastOne rows = 0 := Nat.sub_eq_zero_of_le hok.rows
  have hoff : off (atLeastOne rows) [] = 0 := by
    rw [off, List.length_nil, Nat.zero_add]
    exact hrows
  exact {
    ok := hok
    primary := rfl
    top := rfl
    bot := Nat.sub_add_cancel hok.rows
    autowrap := rfl
    replaces := rfl
    graphics := rfl
    shifted := rfl
    state := rfl
    history := by
      show (init rows cols limit).history = { total := off (atLeastOne rows) [], kept := _ }
      rw [hoff]
      simp [history, init, newest]
    grid := by
      show ((List.replicate (atLeastOne rows) (blankRow (atLeastOne cols))).map (List.map Cell.ch)) =
        ([].drop (off (atLeastOne rows) [])).map _ ++
          padded (atLeastOne cols) [] :: List.replicate (atLeastOne rows - 1)
            (padded (atLeastOne cols) [])
      rw [List.drop_nil, List.map_nil, List.nil_append, ← List.replicate_succ,
        Nat.sub_add_cancel (one_le_atLeastOne rows), List.map_replicate, blankRow_chars]
    cy := (Nat.zero_add _).trans hoff
    fits := Nat.zero_le _ }

/-- The first row of the grid is the oldest piece that is shown. -/
theorem Shows.rows (h : Shows s done cur) : off s.rows done ≤ done.length ∧
    s.grid.map (List.map Cell.ch) = ((done ++ [cur]).drop (off s.rows done)).map (padded s.cols) ++
      List.replicate (s.rows - 1 - done.length) (padded s.cols []) := by
  have hrows := h.ok.rows
  have hoff : off s.rows done ≤ done.length := by
    unfold off
    omega
  refine ⟨hoff, ?_⟩
  rw [h.grid, List.drop_append_of_le_length hoff, List.map_append]
  simp

/-- There is room below the current piece. -/
theorem shows_down (h : Shows s done cur) (hroom : done.length + 1 < s.rows) :
    Shows { s with cy := s.cy + 1, pendingWrap := false } (done ++ [cur]) [] := by
  have hlen : (done ++ [cur]).length = done.length + 1 := List.length_append
  have hoff : off s.rows done = 0 := Nat.sub_eq_zero_of_le (Nat.le_of_lt hroom)
  have hoff' : off s.rows (done ++ [cur]) = 0 := by
    unfold off
    omega
  have hcy : s.cy = done.length := by
    have := h.cy
    omega
  have hcount : s.rows - 1 - done.length = s.rows - 1 - (done.length + 1) + 1 := by omega
  have hgrid := h.grid
  have hhistory := h.history
  rw [hoff] at hhistory
  rw [hoff, hcount, List.replicate_succ] at hgrid
  exact {
    ok := { h.ok with cy := by show s.cy + 1 < s.rows; omega }
    primary := h.primary
    top := h.top
    bot := h.bot
    autowrap := h.autowrap
    replaces := h.replaces
    graphics := h.graphics
    shifted := h.shifted
    state := h.state
    history := by
      show s.history = History.mk (off s.rows (done ++ [cur]))
        (newest s.scrollbackLimit (((done ++ [cur]).take (off s.rows (done ++ [cur]))).map rstrip))
      rw [hhistory, hoff']
      rfl
    grid := by
      show s.grid.map (List.map Cell.ch) =
        ((done ++ [cur]).drop (off s.rows (done ++ [cur]))).map _ ++ _
      rw [hgrid, hoff', hlen]
      simp
    cy := by
      show s.cy + 1 + off s.rows (done ++ [cur]) = _
      rw [hoff', hlen, hcy]
    fits := Nat.zero_le _ }

/-- There is none. -/
theorem shows_scroll (h : Shows s done cur) (hfull : s.rows ≤ done.length + 1) :
    Shows (scrollUpOne { s with pendingWrap := false }) (done ++ [cur]) [] := by
  have hok : Ok { s with pendingWrap := false } none := { h.ok with }
  have hlen : (done ++ [cur]).length = done.length + 1 := List.length_append
  have hoff' : off s.rows (done ++ [cur]) = off s.rows done + 1 := by
    unfold off
    omega
  obtain ⟨hle, hrows⟩ := h.rows
  have hlt : off s.rows done < (done ++ [cur]).length := by omega
  have hcount : s.rows - 1 - done.length = 0 := by omega
  rw [hcount, List.replicate_zero, List.append_nil, List.drop_eq_getElem_cons hlt, List.map_cons]
    at hrows
  obtain ⟨row, rest, hg, hrow, hrest⟩ := List.map_eq_cons_iff.mp hrows
  exact {
    ok := hok.scrollUpOne
    primary := h.primary
    top := h.top
    bot := h.bot
    autowrap := h.autowrap
    replaces := h.replaces
    graphics := h.graphics
    shifted := h.shifted
    state := h.state
    history := by
      have hkeep : (!s.inAlt && s.top == 0) = true := by simp [inAlt, h.primary, h.top]
      rw [scrollUpOne_keep (s := { s with pendingWrap := false }) hkeep]
      show s.history.append s.scrollbackLimit [rowText (s.grid[s.top]?.getD [])] =
        History.mk (off s.rows (done ++ [cur]))
          (newest s.scrollbackLimit (((done ++ [cur]).take (off s.rows (done ++ [cur]))).map rstrip))
      rw [h.top, hg, h.history, hoff', History.append, newest_newest_append,
        List.take_succ_eq_append_getElem hlt, List.take_append_of_le_length hle, List.map_append]
      rw [show rowText ((row :: rest)[0]?.getD []) = _ from rowText_padded hrow]
      rfl
    grid := by
      rw [scrollUpOne_full hok h.top h.bot]
      show (s.grid.tail ++ [blankRow s.cols]).map (List.map Cell.ch) =
        ((done ++ [cur]).drop (off s.rows (done ++ [cur]))).map (padded s.cols) ++
          padded s.cols [] :: List.replicate (s.rows - 1 - (done ++ [cur]).length)
            (padded s.cols [])
      have hzero : s.rows - 1 - (done.length + 1) = 0 := by omega
      rw [hg, List.tail_cons, List.map_append, hrest, hoff', hlen, hzero, List.map_singleton,
        blankRow_chars]
      rfl
    cy := by
      show s.cy + off s.rows (done ++ [cur]) = _
      rw [hoff', hlen, ← Nat.add_assoc, h.cy]
    fits := Nat.zero_le _ }

/-- The next line starts a piece of its own. -/
theorem shows_newline (h : Shows s done cur) : Shows s.newline (done ++ [cur]) [] ∧
    s.newline.cx = s.cx ∧ s.newline.cols = s.cols := by
  have hcy := h.cy
  have hbot := h.bot
  unfold newline
  simp only
  split
  · rename_i hend
    refine ⟨shows_scroll h ?_, rfl, rfl⟩
    unfold off at hcy
    omega
  · rename_i hmid
    have hlt : done.length + 1 < s.rows := by
      have := h.ok.cy
      unfold off at hcy
      omega
    rw [if_pos]
    · exact ⟨shows_down h hlt, rfl, rfl⟩
    · unfold off at hcy
      omega

theorem padded_set {cols : Nat} (hlt : cur.length < cols) (c : Char) :
    (padded cols cur).set cur.length c = padded cols (cur ++ [c]) := by
  have hcount : cols - cur.length = cols - (cur.length + 1) + 1 := by omega
  rw [padded, padded, hcount, List.replicate_succ, List.set_append_right _ _ (Nat.le_refl _),
    Nat.sub_self, List.set_cons_zero, List.length_append, List.append_assoc]
  rfl

theorem shows_writeCell (h : Shows s done cur) (hx : s.cx = cur.length)
    (hlt : cur.length < s.cols) (c : Char) : Shows (s.writeCell c) done (cur ++ [c]) := by
  obtain ⟨hle, -⟩ := h.rows
  have hgrid := h.grid
  have hlen : ((done.drop (off s.rows done)).map (padded s.cols)).length = s.cy := by
    have := h.cy
    rw [List.length_map, List.length_drop]
    omega
  have hget : (s.grid.map (List.map Cell.ch))[s.cy]? = some (padded s.cols cur) := by
    rw [hgrid, List.getElem?_append_right (Nat.le_of_eq hlen), hlen, Nat.sub_self]
    rfl
  rw [List.getElem?_map] at hget
  obtain ⟨row, hrow, hchars⟩ := Option.map_eq_some_iff.mp hget
  exact { h with
    ok := h.ok.writeCell c
    grid := by
      rw [writeCell_grid h.ok c hrow, List.map_set, List.map_set, hchars, hgrid,
        List.set_append_right _ _ (Nat.le_of_eq hlen), hlen, Nat.sub_self, List.set_cons_zero, hx,
        padded_set hlt]
      rfl
    fits := by
      rw [List.length_append]
      exact hlt }

theorem shows_advance (h : Shows s done cur) : Shows s.advance done cur := by
  have hok := h.ok.advance
  unfold advance at hok ⊢
  split
  · rename_i hfull
    rw [if_pos hfull] at hok
    exact { h with ok := hok }
  · rename_i hroom
    rw [if_neg hroom] at hok
    exact { h with ok := hok }

theorem behind_advance (hx : s.cx + 1 = cur.length) (hw : s.pendingWrap = false)
    (hle : cur.length ≤ s.cols) : Behind s.advance cur := by
  unfold advance
  split
  · rename_i hfull
    have hat : s.cx = min cur.length (s.cols - 1) := by omega
    have hend : cur.length = s.cols := by omega
    exact ⟨hat, fun _ => hend, fun _ => rfl⟩
  · rename_i hroom
    have hat : s.cx + 1 = min cur.length (s.cols - 1) := by omega
    have hend : cur.length ≠ s.cols := by omega
    exact ⟨hat, fun h => absurd (hw.symm.trans h) Bool.false_ne_true, fun h => absurd h hend⟩

/-- A character behind the current piece. -/
theorem shows_putHere (h : Shows s done cur) (hx : s.cx = cur.length) (hw : s.pendingWrap = false)
    (hlt : cur.length < s.cols) (c : Char) :
    Shows (s.putHere c) done (cur ++ [c]) ∧ Behind (s.putHere c) (cur ++ [c]) := by
  have hshift : ({ s with lastCh := some c } : Screen).shiftRow = { s with lastCh := some c } :=
    if_neg (Bool.eq_false_iff.mp h.replaces)
  have hlast : Shows { s with lastCh := some c } done cur := { h with ok := { h.ok with } }
  have hwritten := shows_writeCell hlast hx hlt c
  have hcx : s.cx + 1 = (cur ++ [c]).length := by rw [List.length_append, hx]; rfl
  rw [putHere, hshift]
  exact ⟨shows_advance hwritten, behind_advance hcx hw hwritten.fits⟩

/-- A character goes to the current piece, or where that is full to the next. -/
theorem shows_put (h : Shows s done cur) (hb : Behind s cur) (c : Char) :
    if cur.length < s.cols then
      Shows (s.put c) done (cur ++ [c]) ∧ Behind (s.put c) (cur ++ [c])
    else Shows (s.put c) (done ++ [cur]) [c] ∧ Behind (s.put c) [c] := by
  have hwrap := hb.wrap
  have hcx := hb.cx
  split
  · rename_i hroom
    have hx : s.cx = cur.length := by omega
    have hw : s.pendingWrap = false :=
      Bool.eq_false_iff.mpr fun hp => Nat.ne_of_lt hroom (hwrap.mp hp)
    have hput : s.put c = s.putHere c := by
      rw [put, if_neg]
      simp [hw]
    rw [hput]
    exact shows_putHere h hx hw hroom c
  · rename_i hfull
    have hw : s.pendingWrap = true := hwrap.mpr (Nat.le_antisymm h.fits (Nat.le_of_not_lt hfull))
    have hx : Shows { s with cx := 0 } done cur := { h with ok := { h.ok with cx := h.ok.cols } }
    obtain ⟨hnew, hcx', hcols⟩ := shows_newline hx
    have hclear : Shows { newline { s with cx := 0 } with pendingWrap := false }
        (done ++ [cur]) [] :=
      { hnew with ok := { hnew.ok with } }
    have hput : s.put c = putHere c { newline { s with cx := 0 } with pendingWrap := false } := by
      rw [put, if_pos ⟨hw, h.autowrap⟩]
    rw [hput]
    exact shows_putHere hclear hcx' rfl (hclear.ok.cols) c

theorem bytes_lineEnd (hr : s.raised = none) (hs : s.state = .text) :
    s.bytes lineEnd = newline { s with cx := 0, pendingWrap := false } := by
  have hcr : s.byte 0x0d = { s with cx := 0, pendingWrap := false } := byte_text hs _
  have hlf : byte 0x0a { s with cx := 0, pendingWrap := false } =
      newline { s with cx := 0, pendingWrap := false } :=
    byte_text (s := { s with cx := 0, pendingWrap := false }) hs _
  rw [lineEnd, bytes_cons hr, hcr,
    bytes_cons (s := { s with cx := 0, pendingWrap := false }) hr, hlf]
  rfl

theorem shows_lineEnd (h : Shows s done cur) :
    Shows (s.bytes lineEnd) (done ++ [cur]) [] ∧ Behind (s.bytes lineEnd) [] := by
  have hx : Shows { s with cx := 0, pendingWrap := false } done cur :=
    { h with ok := { h.ok with cx := h.ok.cols } }
  obtain ⟨hnew, hcx, hcols⟩ := shows_newline hx
  rw [bytes_lineEnd h.ok.raised h.state]
  refine ⟨hnew, ?_, ?_⟩
  · rw [hcx]
    exact (Nat.zero_min _).symm
  · rw [newline_wrap]
    have hpos := hnew.ok.cols
    constructor
    · exact fun hw => absurd hw Bool.false_ne_true
    · exact fun hzero => absurd hzero (Nat.ne_of_lt hpos)

theorem bytes_printable (h : Shows s done cur) {b : Byte} (hb : Printable b) :
    s.byte b = s.put (chr b) := by
  have hgraphic : TextByte.of b = .graphic :=
    textByte_graphic hb.1 (Nat.ne_of_lt (Nat.lt_succ_of_le hb.2))
  have hdecode : s.decode b = (some (chr b), s) := by
    rw [decode, if_pos hb.ascii, h.graphics, h.shifted]
    rfl
  rw [byte_text h.state, textByte, hgraphic]
  show s.graphic b = _
  rw [graphic, hdecode]

end Shows

/-! ## Whole texts -/

/-- The screen has kept its size. -/
structure SameSize (s t : Screen) : Prop where
  rows : t.rows = s.rows
  cols : t.cols = s.cols
  limit : t.scrollbackLimit = s.scrollbackLimit

section Texts

variable {s t u : Screen} {done : List Str} {cur : Str}

theorem sameSize_text : TextFrame SameSize where
  refl _ := ⟨rfl, rfl, rfl⟩
  trans h₁ h₂ := ⟨h₂.rows.trans h₁.rows, h₂.cols.trans h₁.cols, h₂.limit.trans h₁.limit⟩
  cursor := ⟨rfl, rfl, rfl⟩
  draw _ _ := ⟨rfl, rfl, rfl⟩
  scrollUpOne _ := ⟨rfl, rfl, rfl⟩

/-- A line is shown as its pieces. -/
theorem shows_line (h : Shows s done []) (hb : Behind s []) {line : List Byte}
    (hp : ∀ b ∈ line, Printable b) : ∃ init last, pieces s.cols (line.map chr) = init ++ [last] ∧
      Shows (s.bytes line) (done ++ init) last ∧ Behind (s.bytes line) last ∧
      SameSize s (s.bytes line) := by
  induction line using List.reverseRecOn with
  | nil =>
      refine ⟨[], [], pieces_short (Nat.zero_le _), ?_, hb, ⟨rfl, rfl, rfl⟩⟩
      rw [List.append_nil]
      exact h
  | append_singleton line b ih =>
      obtain ⟨init, last, hpieces, hshows, hbehind, hsize⟩ :=
        ih fun b hb => hp b (List.mem_append_left _ hb)
      have hput : s.bytes (line ++ [b]) = (s.bytes line).put (chr b) := by
        rw [bytes_append, bytes_cons hshows.ok.raised,
          bytes_printable hshows (hp b (List.mem_append_right _ (List.mem_singleton_self b)))]
        rfl
      obtain ⟨init', last', hpieces', -, hsnoc⟩ :=
        pieces_snoc h.ok.cols (line.map chr) (chr b)
      obtain ⟨rfl, hlast⟩ := List.append_inj' (hpieces'.symm.trans hpieces) rfl
      obtain rfl := (List.cons.inj hlast).1
      have hstep := shows_put hshows hbehind (chr b)
      rw [hsize.cols] at hstep
      rw [List.map_append, List.map_singleton, hsnoc, hput]
      have hsize' := sameSize_text.trans hsize (sameSize_text.put (chr b) _)
      by_cases hroom : last'.length < s.cols
      · rw [if_pos hroom] at hstep ⊢
        exact ⟨init', last' ++ [chr b], rfl, hstep.1, hstep.2, hsize'⟩
      · rw [if_neg hroom] at hstep ⊢
        refine ⟨init' ++ [last'], [chr b], by simp, ?_, hstep.2, hsize'⟩
        rw [← List.append_assoc]
        exact hstep.1

theorem sameSize_lineEnd (h : Shows s done cur) : SameSize s (s.bytes lineEnd) := by
  have hx : SameSize s { s with cx := 0, pendingWrap := false } := ⟨rfl, rfl, rfl⟩
  rw [bytes_lineEnd h.ok.raised h.state]
  exact sameSize_text.trans hx (sameSize_text.newline _)

/-- And a text as those of its lines. -/
theorem shows_text {lines : List (List Byte)} (h : Shows s done []) (hb : Behind s [])
    (hne : lines ≠ []) (hp : ∀ line ∈ lines, ∀ b ∈ line, Printable b) :
    ∃ init last, lines.flatMap (fun line => pieces s.cols (line.map chr)) = init ++ [last] ∧
      Shows (s.bytes (textOf lines)) (done ++ init) last ∧ SameSize s (s.bytes (textOf lines)) := by
  induction lines generalizing s done with
  | nil => exact absurd rfl hne
  | cons line rest ih =>
      obtain ⟨init, last, hpieces, hshows, hbehind, hsize⟩ :=
        shows_line h hb (hp line List.mem_cons_self)
      cases rest with
      | nil =>
          refine ⟨init, last, ?_, ?_⟩
          · rw [List.flatMap_singleton, hpieces]
          · rw [textOf_singleton]
            exact ⟨hshows, hsize⟩
      | cons next rest =>
          obtain ⟨hend, hstart⟩ := shows_lineEnd hshows
          have hsize' := sameSize_text.trans hsize (sameSize_lineEnd hshows)
          obtain ⟨init', last', hpieces', hshows', hsize''⟩ := ih hend hstart (List.cons_ne_nil _ _)
            fun line hline => hp line (List.mem_cons_of_mem _ hline)
          refine ⟨init ++ last :: init', last', ?_, ?_⟩
          · rw [hsize'.cols] at hpieces'
            rw [List.flatMap_cons, hpieces, hpieces']
            simp
          · rw [textOf_cons, bytes_append, bytes_append]
            refine ⟨?_, sameSize_text.trans hsize' hsize''⟩
            have hdone : done ++ init ++ [last] ++ init' = done ++ (init ++ last :: init') := by
              simp
            rw [← hdone]
            exact hshows'

theorem withoutBlankEnd_blanks (rows : List Str) (n : Nat) :
    withoutBlankEnd (rows ++ List.replicate n []) = withoutBlankEnd rows := by
  induction n with
  | zero => rw [List.replicate_zero, List.append_nil]
  | succ n ih =>
      rw [List.replicate_succ', ← List.append_assoc, withoutBlankEnd,
        List.rdropWhile_concat_pos _ _ _ (by rfl)]
      exact ih

/-- The pieces that the screen shows are its transcript. -/
theorem Shows.transcribed (h : Shows s done cur) :
    Transcribed s s.scrollbackLimit ((done ++ [cur]).map rstrip) := by
  obtain ⟨hle, hrows⟩ := h.rows
  have hlen : ((done ++ [cur]).map rstrip).length = done.length + 1 := by
    rw [List.length_map, List.length_append, List.length_singleton]
  have hoff : ((done ++ [cur]).map rstrip).length - s.rows = off s.rows done := by rw [hlen, off]
  have hscrolled : s.scrollback =
      newest s.scrollbackLimit (((done ++ [cur]).map rstrip).take (off s.rows done)) := by
    rw [← List.map_take, List.take_append_of_le_length hle]
    exact congrArg History.kept h.history
  have hout : s.linesOut = off s.rows done := congrArg History.total h.history
  have hgrid : s.grid.map rowText = ((done ++ [cur]).map rstrip).drop (off s.rows done) ++
      List.replicate (s.rows - ((done ++ [cur]).map rstrip).length) [] := by
    have hstrip : rstrip ∘ padded s.cols = rstrip := funext fun piece => rstrip_append_blanks _ _
    have hblank : rstrip (padded s.cols []) = [] := rstrip_append_blanks [] _
    have hcount : s.rows - 1 - done.length = s.rows - (done.length + 1) := by omega
    have hmap : s.grid.map rowText = (s.grid.map (List.map Cell.ch)).map rstrip := by
      rw [List.map_map]
      rfl
    rw [hmap, hrows, List.map_append, List.map_map, hstrip, List.map_replicate, hblank,
      List.map_drop, hlen, hcount]
  have hlines : (withoutBlankEnd (s.primary.map rowText)) =
      withoutBlankEnd (((done ++ [cur]).map rstrip).drop (off s.rows done)) := by
    have hprim : s.primary = s.grid := by rw [Screen.primary, h.primary]; rfl
    rw [hprim, hgrid, withoutBlankEnd_blanks]
  rw [← hoff] at hscrolled hgrid hlines
  refine ⟨hscrolled, hgrid, ?_, ?_⟩
  · rw [allLines, allLinesWithIds, List.map_append, List.zipIdx_map_fst, List.zipIdx_map_fst,
      hlines, hscrolled]
  · have hkept : s.linesOut - s.scrollback.length = 0 +
        ((((done ++ [cur]).map rstrip).take (off s.rows done)).length - s.scrollbackLimit) := by
      rw [hscrolled, hoff, newest_length, hout, List.length_take, hlen]
      omega
    rw [allLinesWithIds, take_zipIdx, newest_zipIdx, drop_zipIdx,
      rdropWhile_zipIdx (· == []), hlines,
      hkept, hout, hoff, Nat.zero_add (off s.rows done), hscrolled, hoff]
    rfl

theorem textOf_ascii {lines : List (List Byte)} (hp : ∀ line ∈ lines, ∀ b ∈ line, Printable b) :
    ∀ b ∈ textOf lines, b.toNat < 0x80 := by
  induction lines with
  | nil => exact fun b hb => absurd hb List.not_mem_nil
  | cons line rest ih =>
      cases rest with
      | nil =>
          rw [textOf_singleton]
          exact fun b hb => (hp line List.mem_cons_self b hb).ascii
      | cons next rest =>
          intro b hb
          rw [textOf_cons, List.mem_append, List.mem_append] at hb
          rcases hb with (hb | hb) | hb
          · exact (hp line List.mem_cons_self b hb).ascii
          · have hend : ∀ b ∈ lineEnd, b.toNat < 0x80 := by decide
            exact hend b hb
          · exact ih (fun l hl => hp l (List.mem_cons_of_mem _ hl)) b hb

/-- However ASCII is cut into reads, every byte is processed once. -/
theorem feed_chunks_ascii {s : Screen} {chunks : List (List Byte)} (hpend : s.pending = [])
    (ha : ∀ b ∈ chunks.flatten, b.toNat < 0x80) : chunks.foldl feed s = s.bytes chunks.flatten := by
  induction chunks generalizing s with
  | nil => rfl
  | cons chunk chunks ih =>
      have hchunk : ∀ b ∈ chunk, b.toNat < 0x80 :=
        fun b hb => ha b (List.mem_append_left _ hb)
      have hrest : ∀ b ∈ chunks.flatten, b.toNat < 0x80 :=
        fun b hb => ha b (List.mem_append_right _ hb)
      rw [List.foldl_cons, feed_ascii hpend hchunk,
        ih ((bytes_pending_ascii hchunk).trans hpend) hrest, List.flatten_cons, bytes_append]

/-- Whatever the size of the screen and however the text is cut into reads, the
transcript is the text. -/
theorem plain_text (rows cols : Int) (limit : Nat) {lines chunks : List (List Byte)}
    (hne : lines ≠ []) (hp : ∀ line ∈ lines, ∀ b ∈ line, Printable b)
    (hchunks : chunks.flatten = textOf lines) :
    Transcribed (chunks.foldl feed (init rows cols limit)) limit
      (piecesOf (atLeastOne cols) lines) := by
  have hcols : 0 ≠ atLeastOne cols := Nat.ne_of_lt (one_le_atLeastOne cols)
  have hbehind : Behind (init rows cols limit) [] :=
    ⟨(Nat.zero_min _).symm, fun hw => absurd hw Bool.false_ne_true, fun hz => absurd hz hcols⟩
  obtain ⟨done, cur, hpieces, hshows, hsize⟩ :=
    shows_text (shows_init rows cols limit) hbehind hne hp
  have hfeed : chunks.foldl feed (init rows cols limit) =
      (init rows cols limit).bytes (textOf lines) := by
    rw [← hchunks]
    apply feed_chunks_ascii rfl
    rw [hchunks]
    exact textOf_ascii hp
  have htranscribed := hshows.transcribed
  rw [hsize.limit] at htranscribed
  have hlist : piecesOf (atLeastOne cols) lines = ([] ++ done ++ [cur]).map rstrip :=
    congrArg (List.map rstrip) hpieces
  rw [hfeed, hlist]
  exact htranscribed

end Texts

/-- Three lines, the second longer than the screen is wide, in two reads. -/
theorem plain_text_three : Transcribed
    ([[0x61, 0x0d], [0x0a, 0x62, 0x63, 0x64, 0x65, 0x0d, 0x0a, 0x66]].foldl feed (init 2 3 10)) 10
    (piecesOf 3 [[0x61], [0x62, 0x63, 0x64, 0x65], [0x66]]) ∧
    piecesOf 3 [[0x61], [0x62, 0x63, 0x64, 0x65], [0x66]] =
      [['a'], ['b', 'c', 'd'], ['e'], ['f']] :=
  ⟨plain_text 2 3 10 (by decide) (by decide) rfl, by decide⟩

end Screen
end P4Hyp
