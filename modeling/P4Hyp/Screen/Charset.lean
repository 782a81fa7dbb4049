import P4Hyp.Screen.Frame
import P4Hyp.Screen.Plain

/-!
# Character sets

SO and SI select G1 and G0, and ESC `(` and ESC `)` designate them.  The screen keeps one
flag for the latest designation and one for the selection, and G1 is the line-drawing set
whatever it was designated as.
-/

namespace P4Hyp

/-! ## Streams -/

/-- A piece of a stream of text, selections and designations. -/
inductive CharsetItem
  | text (b : Byte) (h : b ≠ 0x1b ∧ b ≠ 0x0e ∧ b ≠ 0x0f)
  | so
  | si
  | g0 (x : Byte)
  | g1 (x : Byte)

namespace CharsetItem

def bytes : CharsetItem → List Byte
  | text b _ => [b]
  | so => [0x0e]
  | si => [0x0f]
  | g0 x => [0x1b, 0x28, x]
  | g1 x => [0x1b, 0x29, x]

/-- The printable character of ASCII that the piece is. -/
def printed : CharsetItem → Option Byte
  | text b _ => if Screen.Printable b then some b else none
  | _ => none

theorem printable_of_printed {i : CharsetItem} {b : Byte} (h : i.printed = some b) :
    Screen.Printable b := by
  cases i with
  | text b' hb' =>
      change (if Screen.Printable b' then some b' else none) = some b at h
      split at h
      · obtain rfl := Option.some.inj h
        assumption
      · cases h
  | so | si | g0 x | g1 x => cases h

end CharsetItem

/-- What the stream has said of the two sets: whether each was last designated with `0`, whether
G1 is selected, and whether the latest designation was one of G1. -/
structure Charsets where
  g0 : Bool
  g1 : Bool
  out : Bool
  g1Latest : Bool

namespace Charsets

def fresh : Charsets := ⟨false, false, false, false⟩

def step (c : Charsets) : CharsetItem → Charsets
  | .text _ _ => c
  | .so => { c with out := true }
  | .si => { c with out := false }
  | .g0 x => { c with g0 := x == 0x30, g1Latest := false }
  | .g1 x => { c with g1 := x == 0x30, g1Latest := true }

/-- The latest designation was with `0`. -/
def latest (c : Charsets) : Bool := if c.g1Latest then c.g1 else c.g0

/-- The glyph of the set that is selected. -/
def selectedGlyph (c : Charsets) (b : Byte) : Option Char :=
  some (if if c.out then c.g1 else c.g0 then toGraphics (chr b) else chr b)

/-- The glyph, as far as G1 is the line-drawing set and G0 the one last designated. -/
def glyph (c : Charsets) (b : Byte) : Option Char :=
  if c.out then some (toGraphics (chr b))
  else if c.g1Latest then none
  else some (if c.g0 then toGraphics (chr b) else chr b)

end Charsets

namespace Screen

/-! ## What is shown -/

/-- The byte writes `ch` to the next cell. -/
def ShownAs (s : Screen) (b : Byte) (ch : Char) : Prop :=
  ((s.byte b).grid[s.writesAt.2]?).bind (·[s.writesAt.1]?) = some { ch := ch, style := s.style }

instance (s : Screen) (b : Byte) (ch : Char) : Decidable (ShownAs s b ch) :=
  inferInstanceAs (Decidable (_ = _))

/-- Every printable character of the stream is shown as the glyph that `glyph` gives it, if any. -/
def AllShown (glyph : Charsets → Byte → Option Char) : Screen → Charsets → List CharsetItem → Prop
  | _, _, [] => True
  | s, c, i :: is =>
      (∀ b ch, i.printed = some b → glyph c b = some ch → ShownAs s b ch) ∧
        AllShown glyph (s.bytes i.bytes) (c.step i) is

/-- The flags are those of the stream so far. -/
structure Tracks (s : Screen) (c : Charsets) : Prop where
  ok : s.Ok none
  state : s.state = .text
  graphics : s.graphics = c.latest
  shifted : s.shifted = c.out

/-- Text leaves the flags and the parser alone. -/
structure SameSet (s t : Screen) : Prop where
  graphics : t.graphics = s.graphics
  shifted : t.shifted = s.shifted
  state : t.state = s.state

theorem sameSet_text : TextFrame SameSet where
  refl _ := ⟨rfl, rfl, rfl⟩
  trans h₁ h₂ := ⟨h₂.graphics.trans h₁.graphics, h₂.shifted.trans h₁.shifted,
    h₂.state.trans h₁.state⟩
  cursor := ⟨rfl, rfl, rfl⟩
  draw _ _ := ⟨rfl, rfl, rfl⟩
  scrollUpOne _ := ⟨rfl, rfl, rfl⟩

section Flags

variable {s : Screen} {c : Charsets} {b : Byte}

theorem textByte_plain (hb : b ≠ 0x1b ∧ b ≠ 0x0e ∧ b ≠ 0x0f) :
    TextByte.of b ≠ .escape ∧ TextByte.of b ≠ .shiftOut ∧ TextByte.of b ≠ .shiftIn := by
  unfold TextByte.of
  rw [if_neg hb.1, if_neg hb.2.1, if_neg hb.2.2]
  repeat' split
  all_goals exact ⟨by decide, by decide, by decide⟩

theorem sameSet_graphic (b : Byte) (s : Screen) : SameSet s (s.graphic b) := by
  rcases graphic_cases b s with ⟨ch, p, he⟩ | ⟨p, he⟩
  · rw [he]
    have hput := sameSet_text.put ch { s with pending := p }
    exact ⟨hput.graphics, hput.shifted, hput.state⟩
  · rw [he]
    exact ⟨rfl, rfl, rfl⟩

theorem sameSet_byte (hs : s.state = .text) (hb : b ≠ 0x1b ∧ b ≠ 0x0e ∧ b ≠ 0x0f) :
    SameSet s (s.byte b) := by
  obtain ⟨hesc, hso, hsi⟩ := textByte_plain hb
  rw [byte_text hs, textByte]
  cases hk : TextByte.of b with
  | escape => exact absurd hk hesc
  | carriageReturn => exact sameSet_text.cursor
  | lineFeed => exact sameSet_text.newline s
  | backspace =>
      show SameSet s (if s.pendingWrap then _ else _)
      split <;> exact sameSet_text.cursor
  | tab => exact sameSet_text.cursor
  | bell => exact ⟨rfl, rfl, rfl⟩
  | shiftOut => exact absurd hk hso
  | shiftIn => exact absurd hk hsi
  | ignored => exact sameSet_text.refl s
  | graphic => exact sameSet_graphic b s

/-- A designation sets the flag, whichever set it is of. -/
theorem bytes_designate (h : Tracks s c) {i x : Byte} (hi : EscByte.of (chr i) = .charset) :
    s.bytes [0x1b, i, x] = { s with parm := [], inter := [], graphics := x == 0x30 } := by
  rw [bytes_cons h.ok.raised, byte_text h.state]
  show bytes { s with state := .esc, parm := [], inter := [] } [i, x] = _
  rw [bytes_cons (s := { s with state := .esc, parm := [], inter := [] }) h.ok.raised]
  show bytes (escByte i { s with state := .esc, parm := [], inter := [] }) [x] = _
  unfold escByte
  rw [hi]
  show bytes { s with state := .charset, parm := [], inter := [] } [x] = _
  rw [bytes_cons (s := { s with state := .charset, parm := [], inter := [] }) h.ok.raised]
  show ({ s with state := .text, parm := [], inter := [], graphics := x == 0x30 } : Screen) = _
  rw [← h.state]

/-- The flags follow every piece of the stream. -/
theorem tracks_step (h : Tracks s c) (i : CharsetItem) : Tracks (s.bytes i.bytes) (c.step i) := by
  cases i with
  | text b hb =>
      have hset := sameSet_byte h.state hb
      have hok : (s.byte b).Ok none := by
        rw [byte_text h.state]
        exact h.ok.textByte b
      show Tracks (s.bytes [b]) c
      rw [bytes_cons h.ok.raised]
      exact ⟨hok, hset.state.trans h.state, hset.graphics.trans h.graphics,
        hset.shifted.trans h.shifted⟩
  | so =>
      show Tracks (s.bytes [0x0e]) _
      rw [bytes_cons h.ok.raised, byte_text h.state]
      exact ⟨{ h.ok with }, h.state, h.graphics, rfl⟩
  | si =>
      show Tracks (s.bytes [0x0f]) _
      rw [bytes_cons h.ok.raised, byte_text h.state]
      exact ⟨{ h.ok with }, h.state, h.graphics, rfl⟩
  | g0 x =>
      show Tracks (s.bytes [0x1b, 0x28, x]) _
      rw [bytes_designate h (by decide)]
      exact ⟨{ h.ok with }, h.state, rfl, h.shifted⟩
  | g1 x =>
      show Tracks (s.bytes [0x1b, 0x29, x]) _
      rw [bytes_designate h (by decide)]
      exact ⟨{ h.ok with }, h.state, rfl, h.shifted⟩

/-- A printable character is shown through the line-drawing table if either flag is set. -/
theorem tracks_shown (h : Tracks s c) (hb : Printable b) :
    ShownAs s b (if c.latest || c.out then toGraphics (chr b) else chr b) := by
  have hascii := hb.ascii
  have hbyte : s.byte b = s.put (if c.latest || c.out then toGraphics (chr b) else chr b) := by
    rw [byte_text h.state, textByte, textByte_graphic hb.1 (by have := hb.2; omega)]
    show s.graphic b = _
    simp only [graphic, decode, if_pos hascii, h.graphics, h.shifted]
  unfold ShownAs
  rw [hbyte]
  exact put_cell h.ok _

end Flags

theorem tracks_allShown {s : Screen} {c : Charsets} (h : Tracks s c) (items : List CharsetItem) :
    AllShown Charsets.glyph s c items := by
  induction items generalizing s c with
  | nil => trivial
  | cons i items ih =>
      refine ⟨fun b ch hb hch => ?_, ih (tracks_step h i)⟩
      have hshown := tracks_shown h (CharsetItem.printable_of_printed hb)
      unfold Charsets.glyph at hch
      split at hch
      · rename_i hout
        obtain rfl := Option.some.inj hch
        rwa [hout, Bool.or_true, if_pos rfl] at hshown
      · rename_i hin
        split at hch
        · cases hch
        · rename_i hlatest
          obtain rfl := Option.some.inj hch
          rwa [Bool.eq_false_iff.mpr hin, Bool.or_false, Charsets.latest, if_neg hlatest] at hshown

/-- While G1 is selected every character is shown through the table, and while G0 is selected and was
the last to be designated, it is as G0 was designated. -/
theorem charsets_shown {s : Screen} (hok : s.Ok none) (hs : s.state = .text)
    (hg : s.graphics = false)
    (hshift : s.shifted = false) (items : List CharsetItem) :
      AllShown Charsets.glyph s .fresh items :=
  tracks_allShown (c := .fresh) ⟨hok, hs, hg, hshift⟩ items

/-- `q` in either set, G0 being designated with `0` and G1 not at all. -/
theorem charsets_shown_rule :
    AllShown Charsets.glyph (init 2 9 10) .fresh
      [.text 0x71 (by decide), .g0 0x30, .text 0x71 (by decide), .so, .text 0x71 (by decide), .si,
        .g0 0x42, .text 0x71 (by decide)] :=
  charsets_shown (ok_init 2 9 10) rfl rfl rfl _

/-- After SO, `q` is a line even though no set has been designated. -/
theorem so_shows_line :
    ¬ AllShown Charsets.selectedGlyph (init 2 9 10) .fresh [.so, .text 0x71 (by decide)] := by
  rintro ⟨-, hq, -⟩
  exact absurd (hq 0x71 'q' (by decide) (by decide)) (by decide +kernel)

end Screen
end P4Hyp
