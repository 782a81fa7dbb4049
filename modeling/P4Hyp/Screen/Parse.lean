import P4Hyp.Lib.Run
import P4Hyp.Lib.Utf8
import P4Hyp.Screen.Basic

/-!
# What the guest's bytes do to the screen

One byte at a time, by the state of the parser; and `feed`, which holds a character
of UTF-8 back until it is whole.
-/

namespace P4Hyp

/-! ## Characters -/

/-- `DEC_GRAPHICS`. -/
def decGraphics : List (Char × Char) :=
  [('_', ' '), ('\x60', '◆'), ('a', '▒'), ('b', '␉'), ('c', '␌'), ('d', '␍'), ('e', '␊'),
    ('f', '°'), ('g', '±'), ('h', '␤'), ('i', '␋'), ('j', '┘'), ('k', '┐'), ('l', '┌'),
    ('m', '└'), ('n', '┼'), ('o', '⎺'), ('p', '⎻'), ('q', '─'), ('r', '⎼'), ('s', '⎽'),
    ('t', '├'), ('u', '┤'), ('v', '┴'), ('w', '┬'), ('x', '│'), ('y', '≤'), ('z', '≥'),
    ('{', 'π'), ('|', '≠'), ('}', '£'), ('~', '·')]

/-- `DEC_GRAPHICS.get(c, c)`. -/
def toGraphics (c : Char) : Char := (decGraphics.lookup c).getD c

/-- `int(p) if p.isdigit() else default`, where `int` does not raise. -/
def parmValue (default : Nat) (p : Str) : Nat :=
  if p ≠ [] ∧ p.all isAsciiDigit then intOfDigits p else default

def parmPieces (parm : Str) : List Str :=
  (parm.dropWhile (· ∈ ['?', '<', '>', '='])).splitOn ';'

/-- `_parms` of the collected parameters, or nothing where `int` raises. -/
def parmsOf (default count : Nat) (parm : Str) : Option (List Nat) :=
  if (parmPieces parm).any tooLong then none
  else
    let out := (parmPieces parm).map (parmValue default)
    some (out ++ List.replicate (count - out.length) default)

/-- `a, b = self._parms(default, count=2)`: with more than two parameters Python
cannot unpack them. -/
def pairOf (default : Nat) (parm : Str) : Option (Nat × Nat) :=
  match parmsOf default 2 parm with
  | some [a, b] => some (a, b)
  | _ => none

/-! ## Attributes -/

/-- A parameter of SGR that stands alone. -/
def sgrOne (v : Nat) (t : Style) : Style :=
  if v = 0 then .default
  else if v = 1 then { t with attr := t.attr ||| Style.bold }
  else if v = 2 then { t with attr := t.attr ||| Style.dim }
  else if v = 3 then { t with attr := t.attr ||| Style.italic }
  else if v = 4 then { t with attr := t.attr ||| Style.underline }
  else if v = 5 then { t with attr := t.attr ||| Style.blink }
  else if v = 7 then { t with attr := t.attr ||| Style.reverse }
  else if v = 22 then { t with attr := t.attr &&& ~~~(Style.bold ||| Style.dim) }
  else if v = 23 then { t with attr := t.attr &&& ~~~Style.italic }
  else if v = 24 then { t with attr := t.attr &&& ~~~Style.underline }
  else if v = 25 then { t with attr := t.attr &&& ~~~Style.blink }
  else if v = 27 then { t with attr := t.attr &&& ~~~Style.reverse }
  else if 30 ≤ v ∧ v ≤ 37 then { t with fg := v - 30 }
  else if v = 39 then { t with fg := Style.defaultFg }
  else if 40 ≤ v ∧ v ≤ 47 then { t with bg := v - 40 }
  else if v = 49 then { t with bg := Style.defaultBg }
  else if 90 ≤ v ∧ v ≤ 97 then { t with fg := v - 90 + 8 }
  else if 100 ≤ v ∧ v ≤ 107 then { t with bg := v - 100 + 8 }
  else t

/-- A colour of SGR 38 and 48 from the parameters behind it, and those left. -/
def sgrColour : List Nat → Nat × List Nat
  | 5 :: rest => (rest.headD 0, rest.drop 1)
  | 2 :: rest => (rest.headD 0, rest.drop 3)
  | rest => (0, rest.drop 1)

/-- The loop of `_sgr`; every round takes at least one parameter. -/
def sgrLoop : Nat → List Nat → Style → Style
  | 0, _, t => t
  | _ + 1, [], t => t
  | fuel + 1, v :: rest, t =>
      if v = 38 then sgrLoop fuel (sgrColour rest).2 { t with fg := (sgrColour rest).1 }
      else if v = 48 then sgrLoop fuel (sgrColour rest).2 { t with bg := (sgrColour rest).1 }
      else sgrLoop fuel rest (sgrOne v t)

namespace Screen

def sgr (params : List Nat) (s : Screen) : Screen :=
  let params := if params = [] then [0] else params
  { s with style := sgrLoop params.length params s.style }

/-! ## Modes -/

/-- One parameter of `_ansi_mode`. -/
def ansiModeOne (on : Bool) (s : Screen) (m : Nat) : Screen :=
  if m = 4 then { s with insertMode := on } else s

def ansiMode (params : List Nat) (on : Bool) (s : Screen) : Screen :=
  params.foldl (ansiModeOne on) s

/-- The modes that switch between the buffers. -/
def IsAltMode (m : Nat) : Prop := m = 1047 ∨ m = 1049

instance (m : Nat) : Decidable (IsAltMode m) := inferInstanceAs (Decidable (_ ∨ _))

/-- One parameter of `_mode`. -/
def modeOne (on : Bool) (s : Screen) (m : Nat) : Screen :=
  if m = 7 then { s with autowrap := on }
  else if m = 25 then { s with cursorVisible := on }
  else if IsAltMode m then s.altScreen on
  else if m = 1048 then if on then s.saveCursor else s.restoreCursor
  else s

def mode (params : List Nat) (on : Bool) (s : Screen) : Screen := params.foldl (modeOne on) s

/-! ## Control sequences -/

/-- The sequence's first character is `?`. -/
def priv (s : Screen) : Bool := s.parm.head? == some '?'

def noteUnknown (seq : Str) (s : Screen) : Screen :=
  { s with
    unknown := s.unknown + 1
    unknownSeqs :=
      if seq ∉ s.unknownSeqs ∧ s.unknownSeqs.length < 32 then s.unknownSeqs ++ [seq]
      else s.unknownSeqs }

end Screen

/-- The final characters of `_dispatch`. -/
inductive Csi
  | mode (on : Bool)
  | cup
  | cuu
  | cud
  | cuf
  | cub
  | cnl
  | cpl
  | cha
  | vpa
  | ed
  | el
  | il
  | dl
  | ich
  | dch
  | rep
  | ech
  | su
  | sd
  | sgr
  | decstbm
  | save
  | restore
  | report
  | unknown
deriving DecidableEq

def Csi.of (final : Char) : Csi :=
  match final with
  | 'h' => .mode true
  | 'l' => .mode false
  | 'H' | 'f' => .cup
  | 'A' => .cuu
  | 'B' => .cud
  | 'C' => .cuf
  | 'D' => .cub
  | 'E' => .cnl
  | 'F' => .cpl
  | 'G' | '\x60' => .cha
  | 'd' => .vpa
  | 'J' => .ed
  | 'K' => .el
  | 'L' => .il
  | 'M' => .dl
  | '@' => .ich
  | 'P' => .dch
  | 'b' => .rep
  | 'X' => .ech
  | 'S' => .su
  | 'T' => .sd
  | 'm' => .sgr
  | 'r' => .decstbm
  | 's' => .save
  | 'u' => .restore
  | 't' | 'c' | 'n' => .report
  | _ => .unknown

/-- Parameters and intermediates are no finals. -/
theorem csi_unknown {b : Byte} (h₁ : 0x20 ≤ b.toNat) (h₂ : b.toNat ≤ 0x3f) :
    Csi.of (chr b) = .unknown := by
  have hall : ∀ n < 0x40, 0x20 ≤ n → Csi.of (Char.ofNat n) = .unknown := by decide
  exact hall b.toNat (Nat.lt_succ_of_le h₂) h₁

namespace Screen

def raiseValueError (s : Screen) : Screen := { s with raised := some .valueError }

/-- `final == "H"`. -/
def moveTo (s : Screen) : Screen :=
  match pairOf 1 s.parm with
  | some (r, col) =>
      { s with cy := min (max 1 r) s.rows - 1, cx := min (max 1 col) s.cols - 1,
               pendingWrap := false }
  | none => s.raiseValueError

/-- The scrolling region that the parameters of DECSTBM name. -/
def regionOf (rows top bot : Nat) : Option (Nat × Nat) :=
  let top := if top = 0 then 1 else top
  let bot := if bot = 0 then rows else bot
  if 1 ≤ top ∧ top < bot ∧ bot ≤ rows then some (top - 1, bot - 1) else none

/-- `final == "r"`. -/
def setMargins (s : Screen) : Screen :=
  match pairOf 0 s.parm with
  | some (top, bot) =>
      match regionOf s.rows top bot with
      | some (top, bot) => { s with top := top, bot := bot, cy := top, cx := 0 }
      | none => s
  | none => s.raiseValueError

/-- REP. -/
def repeatLast (n : Nat) (s : Screen) : Screen :=
  match s.lastCh with
  | none => s
  | some ch => (put ch)^[min n (s.cols * s.rows)] s

/-- `_dispatch`, with the parameters `p` and the first of them as a count. -/
def control (final : Char) (p : List Nat) (n : Nat) (s : Screen) : Screen :=
  match Csi.of final with
  | .mode on => if s.priv then s.mode p on else s.ansiMode p on
  | .cup => s.moveTo
  | .cuu => { s with cy := max s.top (s.cy - n), pendingWrap := false }
  | .cud => { s with cy := min s.bot (s.cy + n), pendingWrap := false }
  | .cuf => { s with cx := min (s.cols - 1) (s.cx + n), pendingWrap := false }
  | .cub => { s with cx := s.cx - n, pendingWrap := false }
  | .cnl => { s with cy := min s.bot (s.cy + n), cx := 0 }
  | .cpl => { s with cy := max s.top (s.cy - n), cx := 0 }
  | .cha => { s with cx := min (max 1 n) s.cols - 1, pendingWrap := false }
  | .vpa => { s with cy := min (max 1 n) s.rows - 1, pendingWrap := false }
  | .ed => s.eraseDisplay (p.headD 0)
  | .el => s.eraseLine (p.headD 0)
  | .il => s.insertLines n
  | .dl => s.deleteLines n
  | .ich => s.insertChars n
  | .dch => s.deleteChars n
  | .rep => s.repeatLast n
  | .ech => s.blankCells s.cx (min s.cols (s.cx + n))
  | .su => s.scrollUp n
  | .sd => s.scrollDown n
  | .sgr => s.sgr p
  | .decstbm => s.setMargins
  | .save => s.saveCursor
  | .restore => s.restoreCursor
  | .report => s
  | .unknown => s.noteUnknown ("CSI ".toList ++ s.parm ++ s.inter ++ [final])

def dispatch (final : Char) (s : Screen) : Screen :=
  match parmsOf 0 1 s.parm with
  | none => s.raiseValueError
  | some p => s.control final p (if p.headD 0 = 0 then 1 else p.headD 0)

end Screen

/-- The sequence raises `ValueError`: a parameter is too long for `int`, or CUP or
DECSTBM have a third one. -/
def Raises (final : Char) (parm : Str) : Prop :=
  (∃ p ∈ parmPieces parm, tooLong p = true) ∨
    (Csi.of final = .cup ∨ Csi.of final = .decstbm) ∧ 2 < (parmPieces parm).length

instance (final : Char) (parm : Str) : Decidable (Raises final parm) :=
  inferInstanceAs (Decidable (_ ∨ _))

theorem parmsOf_eq_none {default count : Nat} {parm : Str} :
    parmsOf default count parm = none ↔ ∃ p ∈ parmPieces parm, tooLong p = true := by
  rw [parmsOf, ← List.any_eq_true]
  split
  · simp_all
  · simp_all

theorem pairOf_eq_none {default : Nat} {parm : Str} : pairOf default parm = none ↔
    (∃ p ∈ parmPieces parm, tooLong p = true) ∨ 2 < (parmPieces parm).length := by
  by_cases hlong : ∃ p ∈ parmPieces parm, tooLong p = true
  · have hnone : parmsOf default 2 parm = none := parmsOf_eq_none.mpr hlong
    simp [pairOf, hnone, hlong]
  · have hany : ¬ (parmPieces parm).any tooLong = true := by
      rw [List.any_eq_true]
      exact hlong
    have hne : parmPieces parm ≠ [] := List.splitOn_ne_nil _ _
    rw [pairOf, parmsOf, if_neg hany]
    simp only [hlong, false_or]
    match parmPieces parm, hne with
    | [p], _ => simp
    | [p, q], _ => simp
    | p :: q :: q' :: ps, _ => simp

namespace Screen

theorem dispatch_raises {final : Char} {s : Screen} (h : Raises final s.parm) :
    s.dispatch final = s.raiseValueError := by
  rw [dispatch]
  rcases h with h | ⟨hk, h⟩
  · rw [parmsOf_eq_none.mpr h]
  · split
    · rfl
    · have hpair (default : Nat) : pairOf default s.parm = none := pairOf_eq_none.mpr (.inr h)
      rcases hk with hk | hk
      · simp only [control, hk, moveTo, hpair]
      · simp only [control, hk, setMargins, hpair]

end Screen

/-! ## Bytes -/

/-- What a byte is in the ground state. -/
inductive TextByte
  | escape
  | carriageReturn
  | lineFeed
  | backspace
  | tab
  | bell
  | shiftOut
  | shiftIn
  | ignored
  | graphic
deriving DecidableEq

def TextByte.of (b : Byte) : TextByte :=
  if b = 0x1b then .escape
  else if b = 0x0d then .carriageReturn
  else if b = 0x0a ∨ b = 0x0b ∨ b = 0x0c then .lineFeed
  else if b = 0x08 then .backspace
  else if b = 0x09 then .tab
  else if b = 0x07 then .bell
  else if b = 0x0e then .shiftOut
  else if b = 0x0f then .shiftIn
  else if b.toNat < 0x20 ∨ b = 0x7f then .ignored
  else .graphic

theorem textByte_graphic {b : Byte} (h : 0x20 ≤ b.toNat) (hne : b.toNat ≠ 0x7f) :
    TextByte.of b = .graphic := by
  have hctl (c : Byte) (hc : c.toNat < 0x20) : b ≠ c := by
    rintro rfl
    omega
  have hdel : b ≠ 127#8 := by
    rintro rfl
    exact hne rfl
  simp [TextByte.of, hctl, hdel, Nat.not_lt.mpr h]

/-- What a character is after an escape. -/
inductive EscByte
  | csi
  | osc
  | charset
  | hash
  | save
  | restore
  | reverseIndex
  | index
  | nextLine
  | reset
  | keypad
  | unknown
deriving DecidableEq

def EscByte.of (c : Char) : EscByte :=
  match c with
  | '[' => .csi
  | ']' => .osc
  | '(' | ')' | '*' | '+' => .charset
  | '#' => .hash
  | '7' => .save
  | '8' => .restore
  | 'M' => .reverseIndex
  | 'D' => .index
  | 'E' => .nextLine
  | 'c' => .reset
  | '=' | '>' => .keypad
  | _ => .unknown

namespace Screen

/-- `_decode`: the character that the byte completes, if any. -/
def decode (b : Byte) (s : Screen) : Option Char × Screen :=
  if b.toNat < 0x80 then
    (some (if s.graphics || s.shifted then toGraphics (chr b) else chr b), s)
  else
    let pending := s.pending ++ [b]
    match utf8Char pending with
    | some c => (some c, { s with pending := [] })
    | none =>
        if 4 ≤ pending.length then (some '\uFFFD', { s with pending := [] })
        else (none, { s with pending := pending })

/-- A byte that is part of a character. -/
def graphic (b : Byte) (s : Screen) : Screen :=
  match s.decode b with
  | (some ch, s) => s.put ch
  | (none, s) => s

def textByte (b : Byte) (s : Screen) : Screen :=
  match TextByte.of b with
  | .escape => { s with state := .esc, parm := [], inter := [] }
  | .carriageReturn => { s with cx := 0, pendingWrap := false }
  | .lineFeed => s.newline
  | .backspace =>
      if s.pendingWrap then { s with pendingWrap := false } else { s with cx := s.cx - 1 }
  | .tab => s.tab
  | .bell => { s with bellCount := s.bellCount + 1 }
  | .shiftOut => { s with shifted := true }
  | .shiftIn => { s with shifted := false }
  | .ignored => s
  | .graphic => s.graphic b

/-- ESC M. -/
def reverseIndex (s : Screen) : Screen :=
  if s.cy = s.top then s.scrollDown 1 else { s with cy := s.cy - 1 }

def escByte (b : Byte) (s : Screen) : Screen :=
  match EscByte.of (chr b) with
  | .csi => { s with state := .csi, parm := [], inter := [] }
  | .osc => { s with state := .osc, osc := [] }
  | .charset => { s with state := .charset }
  | .hash => { s with state := .hash }
  | .save => { s with state := .text }.saveCursor
  | .restore => { s with state := .text }.restoreCursor
  | .reverseIndex => { s with state := .text }.reverseIndex
  | .index => { s with state := .text }.newline
  | .nextLine => { s with state := .text, cx := 0 }.newline
  | .reset => { s with state := .text }.reset
  | .keypad => { s with state := .text }
  | .unknown => { s with state := .text }.noteUnknown ("ESC ".toList ++ [chr b])

/-- The end of an OSC: BEL, or the `\` of ESC `\`. -/
def oscEnds (b : Byte) (s : Screen) : Bool :=
  b == 0x07 || b == 0x5c && s.osc.getLast? == some ''

/-- The title that an OSC sets. -/
def oscTitle (s : Screen) : Str :=
  let body := if s.osc.getLast? = some '' then s.osc.dropLast else s.osc
  if body.take 2 = ['0', ';'] ∨ body.take 2 = ['2', ';'] then body.drop 2 else s.title

def oscByte (b : Byte) (s : Screen) : Screen :=
  if s.oscEnds b then { s with title := s.oscTitle, state := .text, osc := [] }
  else if 512 < s.osc.length + 1 then { s with state := .text, osc := [] }
  else { s with osc := s.osc ++ [chr b] }

def csiByte (b : Byte) (s : Screen) : Screen :=
  if 0x30 ≤ b.toNat ∧ b.toNat ≤ 0x3f then { s with parm := s.parm ++ [chr b] }
  else if 0x20 ≤ b.toNat ∧ b.toNat ≤ 0x2f then { s with inter := s.inter ++ [chr b] }
  else { s with state := .text }.dispatch (chr b)

/-- `_byte`. -/
def byte (b : Byte) (s : Screen) : Screen :=
  match s.state with
  | .text => s.textByte b
  | .esc => s.escByte b
  | .csi => s.csiByte b
  | .osc => s.oscByte b
  | .charset => { s with graphics := b == 0x30, state := .text }
  | .hash => { s with state := .text }

/-- A byte that is part of a character writes one, or is accumulated. -/
theorem graphic_cases (b : Byte) (s : Screen) :
    (∃ ch p, s.graphic b = put ch { s with pending := p }) ∨
      ∃ p, s.graphic b = { s with pending := p } := by
  unfold graphic decode
  by_cases hb : b.toNat < 0x80
  · rw [if_pos hb]
    exact .inl ⟨_, s.pending, rfl⟩
  · rw [if_neg hb]
    simp only
    cases utf8Char (s.pending ++ [b]) with
    | some c => exact .inl ⟨c, [], rfl⟩
    | none =>
        by_cases hlen : 4 ≤ (s.pending ++ [b]).length
        · simp only [if_pos hlen]
          exact .inl ⟨_, [], rfl⟩
        · simp only [if_neg hlen]
          exact .inr ⟨_, rfl⟩

theorem byte_text {s : Screen} (h : s.state = .text) (b : Byte) : s.byte b = s.textByte b := by
  rw [byte, h]

/-- The final of a sequence whose parameters are `p`. -/
theorem byte_final {b : Byte} {s : Screen} {p : List Nat} (hs : s.state = .csi)
    (hk : Csi.of (chr b) ≠ .unknown) (hp : parmsOf 0 1 s.parm = some p) : s.byte b =
      control (chr b) p (if p.headD 0 = 0 then 1 else p.headD 0) { s with state := .text } := by
  have hfinal : ¬ (0x20 ≤ b.toNat ∧ b.toNat ≤ 0x3f) := fun h => hk (csi_unknown h.1 h.2)
  rw [byte, hs]
  show s.csiByte b = _
  rw [csiByte, if_neg (by omega), if_neg (by omega)]
  simp only [dispatch, hp]

/-! ## `feed` -/

/-- A round of the loop of `feed`, which an exception ends. -/
def consume (s : Screen) (b : Byte) : Screen := if s.raised.isSome then s else s.byte b

def bytes (s : Screen) (bs : List Byte) : Screen := bs.foldl consume s

end Screen

/-- How many bytes the character of a lead byte has. -/
def utf8Need (lead : Byte) : Nat :=
  if lead.toNat < 0xe0 then 2 else if lead.toNat < 0xf0 then 3 else 4

/-- The loop over the last bytes, from the end: how many to hold back.  `back` bytes
have been looked at before those of `rev`. -/
def heldFrom (back : Nat) (rev : List Byte) : Nat :=
  match rev with
  | [] => 0
  | b :: rev =>
      if back + 1 < 4 then
        if b.toNat < 0x80 then 0
        else if 0xc0 ≤ b.toNat then if back + 1 < utf8Need b then back + 1 else 0
        else heldFrom (back + 1) rev
      else 0

/-- The length of the incomplete character that `data` ends with. -/
def heldLen (data : List Byte) : Nat := heldFrom 0 data.reverse

namespace Screen

/-- Where `feed` cuts the bytes that it carries and is given. -/
def body (s : Screen) (data : List Byte) : List Byte :=
  (s.pending ++ data).take ((s.pending ++ data).length - heldLen (s.pending ++ data))

def held (s : Screen) (data : List Byte) : List Byte :=
  (s.pending ++ data).drop ((s.pending ++ data).length - heldLen (s.pending ++ data))

/-- `feed`.  What it holds back is in `_pending` before the first byte is
processed. -/
def feed (s : Screen) (data : List Byte) : Screen :=
  if data = [] ∨ s.raised.isSome then s
  else { s with pending := s.held data }.bytes (s.body data)

end Screen

/-- Nothing is held back behind a byte of ASCII. -/
theorem heldLen_ascii {b : Byte} (hb : b.toNat < 0x80) (data : List Byte) :
    heldLen (data ++ [b]) = 0 := by
  rw [heldLen, List.reverse_append]
  show heldFrom 0 (b :: data.reverse) = 0
  simp [heldFrom, hb]

namespace Screen

theorem bytes_append (s : Screen) (xs ys : List Byte) :
    s.bytes (xs ++ ys) = (s.bytes xs).bytes ys :=
  List.foldl_append

theorem bytes_cons {s : Screen} (hr : s.raised = none) (b : Byte) (bs : List Byte) :
    s.bytes (b :: bs) = (s.byte b).bytes bs := by
  show (s.consume b).bytes bs = _
  rw [consume, hr]
  rfl

theorem bytes_raised {s : Screen} (h : s.raised.isSome = true) (bs : List Byte) :
    s.bytes bs = s := by
  induction bs with
  | nil => rfl
  | cons b bs ih =>
      show (s.consume b).bytes bs = s
      rw [consume, if_pos h, ih]

/-- ASCII is processed at once. -/
theorem feed_ascii {s : Screen} {data : List Byte} (hp : s.pending = [])
    (hd : ∀ b ∈ data, b.toNat < 0x80) : s.feed data = s.bytes data := by
  unfold feed
  split
  · rename_i h
    rcases h with rfl | hr
    · rfl
    · exact (bytes_raised hr data).symm
  · rename_i h
    have hne : data ≠ [] := fun he => h (.inl he)
    obtain ⟨init, b, rfl⟩ := (List.eq_nil_or_concat' data).resolve_left hne
    have hheld : heldLen (s.pending ++ (init ++ [b])) = 0 := by
      rw [← List.append_assoc]
      exact heldLen_ascii (hd b (by simp)) _
    rw [body, held, hheld, Nat.sub_zero, List.drop_length, List.take_length, hp, List.nil_append]
    have hs : { s with pending := [] } = s := by rw [← hp]
    rw [hs]

end Screen

/-! ## The screen between and inside the calls of `feed` -/

/-- The screen, and what is left of the bytes that `feed` is working on. -/
structure Feeding where
  screen : Screen
  left : List Byte

inductive FeedEvent
  | feed (data : List Byte)
  /-- The next round of the loop of `feed`. -/
  | byte
  | resize (rows cols : Int)

def FeedEvent.resizes : FeedEvent → Bool
  | .feed _ => false
  | .byte => false
  | .resize _ _ => true

/-- An exception ends the thread that feeds the screen; another resizes it, while
no byte is being worked on. -/
def feedFire (f : Feeding) : FeedEvent → Option Feeding
  | .feed data =>
      if f.left = [] ∧ data ≠ [] ∧ f.screen.raised = none then
        some { screen := { f.screen with pending := f.screen.held data },
               left := f.screen.body data }
      else none
  | .byte =>
      match f.left with
      | [] => none
      | b :: bs =>
          some { screen := f.screen.byte b,
                 left := if (f.screen.byte b).raised.isSome then [] else bs }
  | .resize rows cols =>
      if f.left = [] then some { f with screen := f.screen.resize rows cols } else none

section Fire

variable {f f' : Feeding}

theorem feedFire_feed {data : List Byte} (hf : feedFire f (.feed data) = some f') :
    (f.left = [] ∧ data ≠ [] ∧ f.screen.raised = none) ∧
      f' = { screen := { f.screen with pending := f.screen.held data },
             left := f.screen.body data } := by
  simp only [feedFire] at hf
  split at hf
  · exact ⟨‹_›, (Option.some.inj hf).symm⟩
  · cases hf

theorem feedFire_byte (hf : feedFire f .byte = some f') : ∃ b bs, f.left = b :: bs ∧
    f' = { screen := f.screen.byte b,
           left := if (f.screen.byte b).raised.isSome then [] else bs } := by
  simp only [feedFire] at hf
  split at hf
  · cases hf
  · exact ⟨_, _, ‹_›, (Option.some.inj hf).symm⟩

theorem feedFire_resize {rows cols : Int} (hf : feedFire f (.resize rows cols) = some f') :
    f.left = [] ∧ f' = { f with screen := f.screen.resize rows cols } := by
  simp only [feedFire] at hf
  split at hf
  · exact ⟨‹_›, (Option.some.inj hf).symm⟩
  · cases hf

end Fire

/-- The rounds of the loop over `n` bytes. -/
def rounds (n : Nat) : List FeedEvent := List.replicate n .byte

/-- The next round of the loop is about a byte that satisfies `C`. -/
def NextByte (C : Screen → Byte → Prop) (f : Feeding) : FeedEvent → Prop
  | .feed _ => False
  | .byte => ∃ b ∈ f.left.head?, C f.screen b
  | .resize _ _ => False

instance (C : Screen → Byte → Prop) [∀ s b, Decidable (C s b)] (f : Feeding) :
    ∀ e, Decidable (NextByte C f e)
  | .feed _ => inferInstanceAs (Decidable False)
  | .byte => inferInstanceAs (Decidable (∃ b ∈ f.left.head?, C f.screen b))
  | .resize _ _ => inferInstanceAs (Decidable False)

theorem nextByte_iff {C : Screen → Byte → Prop} {f : Feeding} {b : Byte} {bs : List Byte}
    (hf : f.left = b :: bs) : NextByte C f .byte ↔ C f.screen b := by
  unfold NextByte
  rw [hf]
  simp

namespace Screen

/-- The rounds of the loop are a run. -/
theorem bytes_run {f₀ : Feeding} {h : List (Feeding × FeedEvent)} {s : Screen} (bs : List Byte)
    (hs : s.raised = none) (hrun : Run feedFire f₀ h ⟨s, bs⟩) :
    ∃ h', Run feedFire f₀ (h ++ h') ⟨s.bytes bs, []⟩ := by
  induction bs generalizing s h with
  | nil =>
      refine ⟨[], ?_⟩
      rw [List.append_nil]
      exact hrun
  | cons b bs ih =>
      have hstep := hrun.step (e := .byte) rfl
      have hb : s.bytes (b :: bs) = (s.byte b).bytes bs := by
        show (s.consume b).bytes bs = _
        rw [consume, hs]
        rfl
      rw [hb]
      cases hr : (s.byte b).raised with
      | none =>
          simp only [hr, Option.isSome_none, Bool.false_eq_true, if_false] at hstep
          obtain ⟨h', hrun'⟩ := ih hr hstep
          rw [List.append_assoc] at hrun'
          exact ⟨[(⟨s, b :: bs⟩, .byte)] ++ h', hrun'⟩
      | some e =>
          simp only [hr, Option.isSome_some, if_true] at hstep
          refine ⟨[(⟨s, b :: bs⟩, .byte)], ?_⟩
          rw [bytes_raised (by rw [hr]; rfl)]
          exact hstep

/-- A call of `feed` is a run. -/
theorem feed_run {f₀ : Feeding} {h : List (Feeding × FeedEvent)} {s : Screen} {data : List Byte}
    (hdata : data ≠ []) (hs : s.raised = none) (hrun : Run feedFire f₀ h ⟨s, []⟩) :
    ∃ h', Run feedFire f₀ (h ++ h') ⟨s.feed data, []⟩ := by
  have hstart := hrun.step (e := .feed data) (by rw [feedFire, if_pos ⟨rfl, hdata, hs⟩])
  obtain ⟨h', hrun'⟩ := bytes_run (s := { s with pending := s.held data }) _ hs hstart
  rw [List.append_assoc] at hrun'
  refine ⟨[(⟨s, []⟩, .feed data)] ++ h', ?_⟩
  have hf : s.feed data = { s with pending := s.held data }.bytes (s.body data) := by
    rw [feed, if_neg]
    simp [hdata, hs]
  rw [hf]
  exact hrun'

end Screen

end P4Hyp
