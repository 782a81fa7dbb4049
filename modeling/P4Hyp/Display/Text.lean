import P4Hyp.Screen.Clean
import P4Hyp.Screen.Stray

/-!
# A terminal that is written to

The monitor draws on a terminal, and the terminal is taken to be one like the emulator that the
monitor itself has.  Here is what such a terminal makes of encoded text and of whole control
sequences.
-/

namespace P4Hyp

/-! ## Control sequences -/

/-- `"\x1b[" + params + final`. -/
def csi (params : Str) (final : Char) : Str := escChar :: '[' :: (params ++ [final])

theorem isSgrParam_range {c : Char} (h : isSgrParam c = true) :
    0x30 ≤ c.toNat ∧ c.toNat ≤ 0x3f := by
  have hparam : (48 ≤ c.val.toNat ∧ c.val.toNat ≤ 57 ∨ c = ';') ∨ c = '?' := by
    simpa [isSgrParam, Char.isDigit, UInt32.le_iff_toNat_le] using h
  rcases hparam with (hd | rfl) | rfl
  · have : c.toNat = c.val.toNat := rfl
    omega
  · decide
  · decide

namespace Screen

/-- Where the terminal reads text, with nothing left of what came before. -/
structure Ready (s : Screen) : Prop where
  ok : s.Ok none
  state : s.state = .text
  pending : s.pending = []
  graphics : s.graphics = false
  shifted : s.shifted = false
  insertMode : s.insertMode = false

/-- What writing text leaves alone, besides the parser and the character set. -/
structure SameModes (s t : Screen) : Prop where
  rows : t.rows = s.rows
  cols : t.cols = s.cols
  insertMode : t.insertMode = s.insertMode
  style : t.style = s.style
  cursorVisible : t.cursorVisible = s.cursorVisible

theorem sameModes_text : TextFrame SameModes where
  refl _ := ⟨rfl, rfl, rfl, rfl, rfl⟩
  trans h₁ h₂ := ⟨h₂.rows.trans h₁.rows, h₂.cols.trans h₁.cols, h₂.insertMode.trans h₁.insertMode,
    h₂.style.trans h₁.style, h₂.cursorVisible.trans h₁.cursorVisible⟩
  cursor := ⟨rfl, rfl, rfl, rfl, rfl⟩
  draw _ _ := ⟨rfl, rfl, rfl, rfl, rfl⟩
  scrollUpOne _ := ⟨rfl, rfl, rfl, rfl, rfl⟩

namespace Ready

variable {s : Screen} {c : Char}

theorem reads (h : s.Ready) : s.Reads := ⟨h.ok, h.state, by rw [h.pending]; exact undecoded_nil⟩

theorem put (h : s.Ready) (c : Char) : (s.put c).Ready where
  ok := h.ok.put c
  state := (sameSet_text.put c s).state.trans h.state
  pending := (put_pending c s).trans h.pending
  graphics := (sameSet_text.put c s).graphics.trans h.graphics
  shifted := (sameSet_text.put c s).shifted.trans h.shifted
  insertMode := (sameModes_text.put c s).insertMode.trans h.insertMode

/-- A character goes to the terminal as it is, whatever the number of its bytes. -/
theorem bytes_char (h : s.Ready) (hc : ¬ IsControl c) : s.bytes (encodeChar c) = s.put c := by
  by_cases hascii : c.toNat ≤ 0x7f
  · have hrange : 0x20 ≤ c.toNat ∧ c.toNat ≠ 0x7f := by
      unfold IsControl at hc
      omega
    have hb : (asciiByte c).toNat = c.toNat := toNat_ofNat_byte (by omega)
    have hgraphic : TextByte.of (asciiByte c) = .graphic :=
      textByte_graphic (by rw [hb]; exact hrange.1) (by rw [hb]; exact hrange.2)
    have hdecode : s.decode (asciiByte c) = (some c, s) := by
      simp only [decode, if_pos (show (asciiByte c).toNat < 0x80 by omega), h.graphics, h.shifted,
        Bool.or_self, Bool.false_eq_true, if_false, chr_asciiByte hascii]
    rw [encodeChar_one hascii]
    show s.bytes [asciiByte c] = _
    rw [bytes_cons h.ok.raised, h.reads.graphic hgraphic, Screen.graphic, hdecode]
    rfl
  · rw [(bytes_beyond h.reads h.pending (utf8Char_encodeChar (Nat.lt_of_not_le hascii))).1]
    exact carry_eq ((put_pending c s).trans h.pending)

/-- Text, as far as it can be read. -/
theorem bytes_text {t : Str} (h : s.Ready) (ht : PlainText t) :
    s.bytes (encode t) = t.foldl (fun s c => s.put c) s := by
  induction t generalizing s with
  | nil => rfl
  | cons c t ih =>
      rw [encode_cons, bytes_append, h.bytes_char (ht c List.mem_cons_self)]
      exact ih (h.put c) fun d hd => ht d (List.mem_cons_of_mem c hd)

end Ready

/-- A control sequence of parameters is dispatched with them. -/
theorem bytes_csi {s : Screen} (hr : s.raised = none) (hs : s.state = .text) {params : Str}
    {final : Char} (hparams : ∀ c ∈ params, isSgrParam c = true) (hfinal : final.isAlpha = true) :
    s.bytes (encode (csi params final)) =
      dispatch final { s with state := .text, parm := params, inter := [] } := by
  have hrange (c : Char) (hc : c ∈ params) := isSgrParam_range (hparams c hc)
  have hfinal' : 0x41 ≤ final.toNat ∧ final.toNat ≤ 0x7a := by
    have h : (65 ≤ final.val.toNat ∧ final.val.toNat ≤ 90) ∨
        97 ≤ final.val.toNat ∧ final.val.toNat ≤ 122 := by
      have h : (decide (final.val ≥ 'A'.val ∧ final.val ≤ 'Z'.val) ||
        final.val ≥ 'a'.val && final.val ≤ 'z'.val) = true := hfinal
      simpa [UInt32.le_iff_toNat_le] using h
    have : final.toNat = final.val.toNat := rfl
    omega
  have hbyte (c : Char) (hc : c.toNat ≤ 0x7f) : (asciiByte c).toNat = c.toNat :=
    toNat_ofNat_byte (by omega)
  let q : Sequence :=
    { parameters := params.map asciiByte
      final := asciiByte final
      parameters_ok := by
        intro b hb
        obtain ⟨c, hc, rfl⟩ := List.mem_map.mp hb
        have := hrange c hc
        rw [hbyte c (by omega)]
        omega
      final_ok := by
        rw [hbyte final (by omega)]
        omega }
  have hencode : encode (csi params final) = q.bytes := by
    rw [encode_ascii]
    · show (_ :: _ :: List.map _ (params ++ [final])) = _
      rw [List.map_append]
      rfl
    · intro c hc
      rcases List.mem_cons.mp hc with rfl | hc
      · decide
      · rcases List.mem_cons.mp hc with rfl | hc
        · decide
        · rcases List.mem_append.mp hc with hc | hc
          · have := hrange c hc
            omega
          · rw [List.mem_singleton.mp hc]
            omega
  have hparm : q.parm = params := by
    have hall : (params.map asciiByte).filter (fun b => 0x30 ≤ b.toNat) = params.map asciiByte := by
      rw [List.filter_eq_self]
      intro b hb
      obtain ⟨c, hc, rfl⟩ := List.mem_map.mp hb
      have := hrange c hc
      rw [hbyte c (by omega)]
      exact decide_eq_true this.1
    show ((params.map asciiByte).filter (fun b => 0x30 ≤ b.toNat)).map chr = params
    rw [hall, List.map_map]
    exact (List.map_congr_left fun c hc => chr_asciiByte (by have := hrange c hc; omega)).trans
      (List.map_id _)
  have hinter : q.inter = [] := by
    have hnone : (params.map asciiByte).filter (fun b => b.toNat < 0x30) = [] := by
      rw [List.filter_eq_nil_iff]
      intro b hb
      obtain ⟨c, hc, rfl⟩ := List.mem_map.mp hb
      have := hrange c hc
      rw [hbyte c (by omega)]
      simp [this.1]
    show ((params.map asciiByte).filter (fun b => b.toNat < 0x30)).map chr = []
    rw [hnone]
    rfl
  rw [hencode, bytes_sequence hr hs, Sequence.effect, hparm, hinter]
  show dispatch (chr (asciiByte final)) _ = _
  rw [chr_asciiByte (by omega)]

end Screen
end P4Hyp
