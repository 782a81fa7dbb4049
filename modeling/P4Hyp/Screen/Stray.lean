import P4Hyp.Screen.Charset
import P4Hyp.Screen.Chunks
import P4Hyp.Screen.Resync

/-!
# Stray bytes

Bytes beyond ASCII that are no character are collected, and a character of ASCII leaves them
where they are.  The next character beyond ASCII is decoded with them in front of it.
-/

namespace P4Hyp

/-! ## Characters in UTF-8 -/

/-- A lead byte and as many continuations as it announces. -/
structure Encoded (a : Byte) (cs : List Byte) : Prop where
  lead : 0xc0 ≤ a.toNat
  cont : ∀ b ∈ cs, 0x80 ≤ b.toNat ∧ b.toNat < 0xc0
  length : cs.length + 1 = utf8Need a

section Utf8

variable {a : Byte} {bs cs q r : List Byte} {c : Char}

theorem isCont_iff : isCont a = true ↔ 0x80 ≤ a.toNat ∧ a.toNat < 0xc0 := by simp [isCont]

theorem encoded_of_utf8Char (h : utf8Char bs = some c) : ∃ a cs, bs = a :: cs ∧ Encoded a cs := by
  unfold utf8Char at h
  split at h
  · rename_i a b
    split at h
    · rename_i hab
      refine ⟨a, [b], rfl, hab.1, ?_, ?_⟩
      · simpa using isCont_iff.mp hab.2.2
      · rw [utf8Need, if_pos hab.2.1]
        rfl
    · cases h
  · rename_i a b d
    split at h
    · rename_i hab
      refine ⟨a, [b, d], rfl, by omega, ?_, ?_⟩
      · simpa using ⟨isCont_iff.mp hab.2.2.1, isCont_iff.mp hab.2.2.2⟩
      · rw [utf8Need, if_neg (by omega), if_pos hab.2.1]
        rfl
    · cases h
  · rename_i a b d e
    split at h
    · rename_i hab
      refine ⟨a, [b, d, e], rfl, by omega, ?_, ?_⟩
      · simpa using ⟨isCont_iff.mp hab.2.2.1, isCont_iff.mp hab.2.2.2.1, isCont_iff.mp hab.2.2.2.2⟩
      · rw [utf8Need, if_neg (by omega), if_neg (by omega)]
        rfl
    · cases h
  · cases h

theorem Encoded.length_le (h : Encoded a cs) : 1 ≤ cs.length ∧ cs.length ≤ 3 := by
  have hlen := h.length
  unfold utf8Need at hlen
  split at hlen
  · omega
  · split at hlen <;> omega

theorem Encoded.high (h : Encoded a cs) : ∀ b ∈ a :: cs, 0x80 ≤ b.toNat := by
  intro b hb
  rcases List.mem_cons.mp hb with rfl | hb
  · have := h.lead
    omega
  · exact (h.cont b hb).1

/-- Nothing is held back of a complete character. -/
theorem Encoded.heldLen (h : Encoded a cs) : heldLen (a :: cs) = 0 := by
  by_contra hne
  obtain ⟨a', cs', he, ha', -, hneed, -⟩ := heldOf_shape (mt heldOf_eq_nil.mp hne)
  have hall := bodyOf_append_heldOf (a :: cs)
  rw [he] at hall
  cases hb : bodyOf (a :: cs) with
  | nil =>
      rw [hb, List.nil_append] at hall
      obtain ⟨rfl, rfl⟩ := List.cons.inj hall
      have := h.length
      omega
  | cons b bs =>
      -- the bytes held back would start with one of the continuations
      rw [hb, List.cons_append] at hall
      have hmem : a' ∈ cs := by
        rw [← (List.cons.inj hall).2]
        exact List.mem_append_right _ List.mem_cons_self
      have := (h.cont a' hmem).2
      omega

/-- Behind the first byte of a character there are continuations only. -/
theorem utf8Char_behind (ha : 0xc0 ≤ a.toNat) (hq : q ≠ []) : utf8Char (q ++ a :: cs) = none := by
  cases hc : utf8Char (q ++ a :: cs) with
  | none => rfl
  | some c =>
      obtain ⟨x, r, he, henc⟩ := encoded_of_utf8Char hc
      obtain ⟨y, q, rfl⟩ := List.exists_cons_of_ne_nil hq
      have hmem : a ∈ r := by
        rw [← (List.cons.inj he).2]
        exact List.mem_append_right _ List.mem_cons_self
      have := (henc.cont a hmem).2
      omega

/-- Continuations are no character. -/
theorem utf8Char_cont (h : ∀ b ∈ bs, b.toNat < 0xc0) : utf8Char bs = none := by
  cases hc : utf8Char bs with
  | none => rfl
  | some c =>
      obtain ⟨a, cs, rfl, henc⟩ := encoded_of_utf8Char hc
      have := h a List.mem_cons_self
      have := henc.lead
      omega

theorem codePoint_replacement {least n : Nat} (h : codePoint least n = some '\uFFFD') :
    least ≤ n ∧ n = 0xfffd :=
  (codePoint_some h).imp_right Eq.symm

/-- The replacement character has three bytes. -/
theorem utf8Char_replacement (h : utf8Char bs = some '\uFFFD') : bs.length = 3 := by
  unfold utf8Char at h
  split at h
  · split at h
    · have := (codePoint_replacement h).2
      omega
    · cases h
  · rfl
  · split at h
    · have := codePoint_replacement h
      omega
    · cases h
  · cases h

/-! ## With stray bytes in front -/

theorem undecoded_cont (h : ∀ b ∈ bs, 0x80 ≤ b.toNat ∧ b.toNat < 0xc0) (hlen : bs.length < 4) :
    Undecoded bs where
  short := hlen
  high b hb := (h b hb).1
  incomplete _ hr := utf8Char_cont fun b hb => (h b (hr.subset hb)).2

theorem undecoded_stray (hq : Undecoded q) (hne : q ≠ []) (h : Encoded a cs)
    (hr : r <+: a :: cs) (hlen : (q ++ r).length < 4) : Undecoded (q ++ r) where
  short := hlen
  high b hb := by
    rcases List.mem_append.mp hb with hb | hb
    · exact hq.high b hb
    · exact h.high b (hr.subset hb)
  incomplete p hp := by
    rcases List.prefix_or_prefix_of_prefix hp (List.prefix_append q r) with hp' | ⟨t, rfl⟩
    · exact hq.incomplete p hp'
    · cases t with
      | nil =>
          rw [List.append_nil]
          exact hq.incomplete q (List.prefix_refl q)
      | cons b t =>
          have ht := (List.prefix_append_right_inj q).mp hp
          obtain ⟨rfl, -⟩ := List.cons_prefix_cons.mp (ht.trans hr)
          exact utf8Char_behind h.lead hne

end Utf8

/-! ## Text -/

/-- A character that has a cell of its own. -/
inductive Utf8Piece
  | ascii (b : Byte) (h : Screen.Printable b)
  | beyond (bs : List Byte) (c : Char) (h : utf8Char bs = some c)

namespace Utf8Piece

def bytes : Utf8Piece → List Byte
  | ascii b _ => [b]
  | beyond bs _ _ => bs

/-- The character, if it is beyond ASCII. -/
def beyond? : Utf8Piece → Option Char
  | ascii _ _ => none
  | beyond _ c _ => some c

end Utf8Piece

def utf8Bytes (text : List Utf8Piece) : List Byte := text.flatMap Utf8Piece.bytes

namespace Screen

/-- The character as it is shown, in the set that is selected. -/
def glyph (s : Screen) : Utf8Piece → Char
  | .ascii b _ => if s.graphics || s.shifted then toGraphics (chr b) else chr b
  | .beyond _ c _ => c

instance (s : Screen) (b : Byte) : Decidable (Writes s b) := inferInstanceAs (Decidable (_ ∧ _ ∧ _))

/-- The character that the byte writes to a cell, if any. -/
def written (s : Screen) (b : Byte) : Option Char := if Writes s b then (s.decode b).1 else none

def writtenBy : Screen → List Byte → List Char
  | _, [] => []
  | s, b :: bs => (s.written b).toList ++ writtenBy (s.consume b) bs

/-- The bytes of the character write it, and nothing else, to the next cell. -/
structure ShownExactly (s : Screen) (w : Utf8Piece) : Prop where
  written : s.writtenBy w.bytes = [s.glyph w]
  cell : ((s.bytes w.bytes).grid[s.writesAt.2]?).bind (·[s.writesAt.1]?) =
    some { ch := s.glyph w, style := s.style }

def AllExactly : Screen → List Utf8Piece → Prop
  | _, [] => True
  | s, w :: text => ShownExactly s w ∧ AllExactly (s.bytes w.bytes) text

/-- In one call of `feed` the text follows `p`, and every character of it is shown exactly. -/
structure ShownAfter (s : Screen) (p : List Byte) (text : List Utf8Piece) : Prop where
  fed : s.feed (p ++ utf8Bytes text) = (s.feed p).bytes (utf8Bytes text)
  shown : AllExactly (s.feed p) text

/-- As many characters beyond ASCII as there are stray bytes are the replacement character. -/
def OnlyReplacements (s : Screen) (text : List Utf8Piece) : Prop :=
  ∀ c ∈ (text.filterMap Utf8Piece.beyond?).take s.pending.length, c = '\uFFFD'

/-! ## One character -/

/-- Where text is read. -/
structure Reads (s : Screen) : Prop where
  ok : s.Ok none
  state : s.state = .text
  collected : Undecoded s.pending

section Piece

variable {s : Screen} {a b : Byte} {X Y bs : List Byte} {ch : Char}

theorem writtenBy_append (s : Screen) (X Y : List Byte) :
    s.writtenBy (X ++ Y) = s.writtenBy X ++ (s.bytes X).writtenBy Y := by
  induction X generalizing s with
  | nil => rfl
  | cons b X ih =>
      show (s.written b).toList ++ writtenBy (s.consume b) (X ++ Y) = _
      rw [ih, ← List.append_assoc]
      rfl

/-- Text of which every byte is part of a character. -/
theorem Reads.graphic (h : s.Reads) (hb : TextByte.of b = .graphic) : s.byte b = s.graphic b := by
  rw [byte_text h.state, textByte, hb]

theorem Reads.written (h : s.Reads) (hb : TextByte.of b = .graphic) :
    s.written b = (s.decode b).1 := if_pos ⟨h.ok.raised, h.state, hb⟩

theorem Reads.bytes (h : s.Reads) (hbs : ∀ b ∈ bs, TextByte.of b = .graphic) :
    (s.bytes bs).Reads := by
  induction bs generalizing s with
  | nil => exact h
  | cons b bs ih =>
      have hb := hbs b List.mem_cons_self
      have hone : (s.byte b).Reads := by
        rw [h.graphic hb]
        exact ⟨h.ok.graphic b, (sameSet_graphic b s).state.trans h.state,
          undecoded_graphic h.collected b⟩
      rw [bytes_cons h.ok.raised]
      exact ih hone fun c hc => hbs c (List.mem_cons_of_mem b hc)

theorem graphic_utf8Piece (w : Utf8Piece) : ∀ b ∈ w.bytes, TextByte.of b = .graphic := by
  cases w with
  | ascii b h =>
      intro c hc
      rw [List.mem_singleton.mp hc]
      exact textByte_graphic h.1 (by have := h.2; omega)
  | beyond bs c h =>
      obtain ⟨a, cs, rfl, henc⟩ := encoded_of_utf8Char h
      exact fun b hb => textByte_high (henc.high b hb)

/-- Bytes that are collected write nothing. -/
theorem writtenBy_collect (h : s.Reads) (hX : Undecoded (s.pending ++ X)) : s.writtenBy X = [] := by
  induction X generalizing s with
  | nil => rfl
  | cons b X ih =>
      have happ : s.pending ++ b :: X = s.pending ++ [b] ++ X := by simp
      have hone : Undecoded (s.pending ++ [b]) :=
        hX.of_prefix (by rw [happ]; exact List.prefix_append _ _)
      have hb : 0x80 ≤ b.toNat := hX.high b (by simp)
      have hdecode : (s.decode b).1 = none := by
        simp only [decode, if_neg (Nat.not_lt.mpr hb), hone.incomplete _ (List.prefix_refl _),
          if_neg (Nat.not_le.mpr hone.short)]
      have hbyte : s.consume b = s.carry (s.pending ++ [b]) := by
        rw [consume, h.ok.raised]
        exact byte_collect h.state hb hone
      show (s.written b).toList ++ writtenBy (s.consume b) X = []
      rw [h.written (textByte_high hb), hdecode, hbyte]
      exact ih (s := s.carry (s.pending ++ [b])) ⟨{ h.ok with }, h.state, hone⟩ (happ ▸ hX)

/-- The byte with which `_decode` has a result. -/
structure Finishes (p : List Byte) (b : Byte) (ch : Char) : Prop where
  high : 0x80 ≤ b.toNat
  result : utf8Char (p ++ [b]) = some ch ∨
    utf8Char (p ++ [b]) = none ∧ 4 ≤ (p ++ [b]).length ∧ ch = '\uFFFD'

theorem Finishes.decode (h : Finishes s.pending b ch) : s.decode b = (some ch, s.carry []) := by
  have hascii : ¬ b.toNat < 0x80 := Nat.not_lt.mpr h.high
  rcases h.result with hsome | ⟨hnone, hfull, rfl⟩
  · simp only [Screen.decode, if_neg hascii, hsome]
    rfl
  · simp only [Screen.decode, if_neg hascii, hnone, if_pos hfull]
    rfl

/-- Collected bytes, the byte with which there is a result, and bytes that are collected again. -/
theorem bytes_finish (h : s.Reads) (hX : Undecoded (s.pending ++ X))
    (hb : Finishes (s.pending ++ X) b ch) (hY : Undecoded Y) :
    s.bytes (X ++ b :: Y) = (s.put ch).carry Y ∧ s.writtenBy (X ++ b :: Y) = [ch] := by
  have hcollect := bytes_collect h.ok.raised h.state hX
  have ht : (s.carry (s.pending ++ X)).Reads := ⟨{ h.ok with }, h.state, hX⟩
  have hgraphic := textByte_high hb.high
  have hdecode : (s.carry (s.pending ++ X)).decode b = (some ch, s.carry []) :=
    hb.decode (s := s.carry (s.pending ++ X))
  have hbyte : (s.carry (s.pending ++ X)).consume b = (s.put ch).carry [] := by
    rw [consume, ht.ok.raised]
    show (s.carry (s.pending ++ X)).byte b = _
    rw [ht.graphic hgraphic, graphic, hdecode]
    exact carry_put [] s ch
  have hput : ((s.put ch).carry []).Reads :=
    ⟨{ h.ok.put ch with }, (sameSet_text.put ch s).state.trans h.state, undecoded_nil⟩
  constructor
  · rw [bytes_append, hcollect]
    show bytes ((s.carry (s.pending ++ X)).consume b) Y = _
    rw [hbyte, bytes_collect hput.ok.raised hput.state hY]
    rfl
  · rw [writtenBy_append, writtenBy_collect h hX, hcollect]
    show ((s.carry (s.pending ++ X)).written b).toList ++
      writtenBy ((s.carry (s.pending ++ X)).consume b) Y = [ch]
    rw [ht.written hgraphic, hdecode, hbyte, writtenBy_collect hput hY]
    rfl

/-- One character written is one character shown. -/
theorem shownExactly_put (h : s.Reads) {w : Utf8Piece} {p : List Byte}
    (hbytes : s.bytes w.bytes = (s.put (s.glyph w)).carry p)
      (hw : s.writtenBy w.bytes = [s.glyph w]) :
    ShownExactly s w where
  written := hw
  cell := by
    rw [hbytes]
    exact put_cell h.ok _

/-- A character of ASCII does not touch the bytes that are collected. -/
theorem ascii_shown (h : s.Reads) (hb : Printable b) :
    ShownExactly s (.ascii b hb) ∧ (s.bytes [b]).pending = s.pending := by
  have hgraphic := graphic_utf8Piece (.ascii b hb) b List.mem_cons_self
  have hdecode : s.decode b = (some (s.glyph (.ascii b hb)), s) := by
    simp only [decode, if_pos hb.ascii]
    rfl
  have hbytes : s.bytes [b] = s.put (s.glyph (.ascii b hb)) := by
    rw [bytes_cons h.ok.raised, h.graphic hgraphic, graphic, hdecode]
    rfl
  have hpending : (s.bytes [b]).pending = s.pending := by
    rw [hbytes]
    exact put_pending _ s
  refine ⟨shownExactly_put (p := s.pending) h ?_ ?_, hpending⟩
  · show s.bytes [b] = _
    rw [hbytes]
    exact (carry_eq (put_pending _ s)).symm
  · show (s.written b).toList ++ [] = _
    rw [h.written hgraphic, hdecode]
    rfl

/-- With nothing collected the bytes of a character beyond ASCII write it. -/
theorem bytes_beyond (h : s.Reads) (hp : s.pending = []) (hc : utf8Char bs = some ch) :
    s.bytes bs = (s.put ch).carry [] ∧ s.writtenBy bs = [ch] := by
  obtain ⟨a, cs, rfl, henc⟩ := encoded_of_utf8Char hc
  have hlen := henc.length_le
  have hne : cs ≠ [] := List.ne_nil_of_length_pos hlen.1
  have hsplit : a :: cs = (a :: cs.dropLast) ++ cs.getLast hne :: [] := by
    rw [List.cons_append, List.dropLast_append_getLast hne]
  have hX : Undecoded (s.pending ++ a :: cs.dropLast) := by
    rw [hp, List.nil_append]
    refine undecoded_lead henc.lead (fun b hb => (henc.cont b (List.dropLast_subset cs hb)).1) ?_ ?_
    · have := henc.length
      rw [List.length_dropLast]
      omega
    · rw [List.length_dropLast]
      omega
  have hlast : Finishes (s.pending ++ a :: cs.dropLast) (cs.getLast hne) ch := by
    refine ⟨(henc.cont _ (List.getLast_mem hne)).1, .inl ?_⟩
    rw [hp, List.nil_append, ← hsplit]
    exact hc
  rw [hsplit]
  exact bytes_finish h hX hlast undecoded_nil

theorem beyond_clean (h : s.Reads) (hp : s.pending = []) (hc : utf8Char bs = some ch) :
    ShownExactly s (.beyond bs ch hc) ∧ (s.bytes bs).pending = [] := by
  obtain ⟨hbytes, hwritten⟩ := bytes_beyond h hp hc
  refine ⟨shownExactly_put h hbytes hwritten, ?_⟩
  rw [hbytes]
  rfl

/-- Four bytes with stray ones in front are given up, and the other continuations collected. -/
theorem stray_finish (h : s.Reads) (hne : s.pending ≠ []) {cs : List Byte} (henc : Encoded a cs)
    (hlen : 4 ≤ s.pending.length + (a :: cs).length) : ∃ Y,
      Y.length + 4 = s.pending.length + (a :: cs).length ∧
        s.bytes (a :: cs) = (s.put '\uFFFD').carry Y ∧ s.writtenBy (a :: cs) = ['\uFFFD'] := by
  have hshort := h.collected.short
  have hall : (a :: cs).length ≤ 4 := by
    have := henc.length_le
    rw [List.length_cons]
    omega
  obtain ⟨X, hX⟩ : ∃ X, X = (a :: cs).take (3 - s.pending.length) := ⟨_, rfl⟩
  obtain ⟨b, Y, hdrop⟩ : ∃ b Y, (a :: cs).drop (3 - s.pending.length) = b :: Y :=
    List.exists_cons_of_ne_nil (by rw [Ne, List.drop_eq_nil_iff]; omega)
  have hsplit : a :: cs = X ++ b :: Y := by
    rw [hX, ← hdrop, List.take_append_drop]
  have hXlen : s.pending.length + X.length = 3 := by
    rw [hX, List.length_take]
    omega
  have hlast : ∃ r, X ++ [b] = a :: r ∧ cs = r ++ Y := by
    have hcat : (X ++ [b]) ++ Y = a :: cs := by rw [hsplit, List.append_assoc]; rfl
    have hne' : X ++ [b] ≠ [] := List.append_ne_nil_of_right_ne_nil X (List.cons_ne_nil b [])
    obtain ⟨x, r, hr⟩ := List.exists_cons_of_ne_nil hne'
    rw [hr, List.cons_append] at hcat
    obtain ⟨rfl, rfl⟩ := List.cons.inj hcat
    exact ⟨r, hr, rfl⟩
  obtain ⟨r, hr, hcs⟩ := hlast
  have hcollected : Undecoded (s.pending ++ X) := by
    refine undecoded_stray h.collected hne henc (hX ▸ List.take_prefix _ _) ?_
    rw [List.length_append]
    omega
  have hfinish : Finishes (s.pending ++ X) b '\uFFFD' := by
    refine ⟨henc.high b (by rw [hsplit]; simp), .inr ⟨?_, ?_, rfl⟩⟩
    · rw [List.append_assoc, hr]
      exact utf8Char_behind henc.lead hne
    · rw [List.length_append, List.length_append, hXlen]
      rfl
  have hleft : Undecoded Y := by
    refine undecoded_cont
      (fun b hb => henc.cont b (by rw [hcs]; exact List.mem_append_right r hb)) ?_
    have := henc.length_le
    rw [hcs, List.length_append] at this
    omega
  obtain ⟨hbytes, hwritten⟩ := bytes_finish h hcollected hfinish hleft
  rw [← hsplit] at hbytes hwritten
  refine ⟨Y, ?_, hbytes, hwritten⟩
  rw [hsplit, List.length_append, List.length_cons]
  omega

/-- Behind stray bytes only the replacement character is shown, and there is one of them less. -/
theorem beyond_stray (h : s.Reads) (hne : s.pending ≠ []) (hc : utf8Char bs = some ch) :
    (ShownExactly s (.beyond bs ch hc) ↔ ch = '\uFFFD') ∧
      (ch = '\uFFFD' → (s.bytes bs).pending.length + 1 = s.pending.length) := by
  obtain ⟨a, cs, rfl, henc⟩ := encoded_of_utf8Char hc
  have hpos := List.length_pos_of_ne_nil hne
  by_cases hlen : 4 ≤ s.pending.length + (a :: cs).length
  · obtain ⟨Y, hY, hbytes, hwritten⟩ := stray_finish h hne henc hlen
    refine ⟨⟨fun hshown => ?_, ?_⟩, ?_⟩
    · have hone := hwritten.symm.trans hshown.written
      exact (List.singleton_inj.mp hone).symm
    · rintro rfl
      exact shownExactly_put h hbytes hwritten
    · rintro rfl
      rw [utf8Char_replacement hc] at hY
      rw [hbytes]
      show Y.length + 1 = _
      omega
  · have hcollected : Undecoded (s.pending ++ a :: cs) := by
      refine undecoded_stray h.collected hne henc (List.prefix_refl _) ?_
      rw [List.length_append]
      omega
    have hother : ch ≠ '\uFFFD' := by
      rintro rfl
      rw [utf8Char_replacement hc] at hlen
      omega
    refine ⟨⟨fun hshown => ?_, fun he => absurd he hother⟩, fun he => absurd he hother⟩
    have hnone := (writtenBy_collect h hcollected).symm.trans hshown.written
    cases hnone

end Piece

/-! ## A whole text -/

theorem allExactly_iff {s : Screen} (h : s.Reads) (text : List Utf8Piece) :
    AllExactly s text ↔ OnlyReplacements s text := by
  induction text generalizing s with
  | nil => exact ⟨fun _ _ hc => absurd hc (by simp), fun _ => trivial⟩
  | cons w text ih =>
      have hnext : (s.bytes w.bytes).Reads := h.bytes (graphic_utf8Piece w)
      show (ShownExactly s w ∧ AllExactly (s.bytes w.bytes) text) ↔ _
      rw [ih hnext]
      cases w with
      | ascii b hb =>
          obtain ⟨hshown, hp⟩ := ascii_shown h hb
          show (ShownExactly s (.ascii b hb) ∧ OnlyReplacements (s.bytes [b]) text) ↔ _
          rw [and_iff_right hshown, OnlyReplacements, hp]
          rfl
      | beyond bs c hc =>
          show (ShownExactly s (.beyond bs c hc) ∧ OnlyReplacements (s.bytes bs) text) ↔ _
          by_cases hp : s.pending = []
          · obtain ⟨hshown, hp'⟩ := beyond_clean h hp hc
            rw [and_iff_right hshown, OnlyReplacements, OnlyReplacements, hp', hp]
            simp
          · obtain ⟨hshown, hless⟩ := beyond_stray h hp hc
            have hpos := List.length_pos_of_ne_nil hp
            have htake : ∀ l : List Char, (c :: l).take s.pending.length =
                c :: l.take (s.pending.length - 1) := by
              intro l
              rw [← Nat.sub_add_cancel hpos, List.take_succ_cons, Nat.add_sub_cancel]
            have hall : OnlyReplacements s (.beyond bs c hc :: text) ↔ c = '\uFFFD' ∧
                ∀ d ∈ (text.filterMap Utf8Piece.beyond?).take (s.pending.length - 1),
                  d = '\uFFFD' := by
              show (∀ d ∈ (c :: text.filterMap Utf8Piece.beyond?).take s.pending.length,
                d = '\uFFFD') ↔ _
              rw [htake]
              exact List.forall_mem_cons
            rw [hshown, hall]
            refine and_congr_right fun he => ?_
            rw [OnlyReplacements, ← hless he, Nat.add_sub_cancel]

theorem heldLen_utf8Bytes (text : List Utf8Piece) : heldLen (utf8Bytes text) = 0 := by
  induction text with
  | nil => rfl
  | cons w text ih =>
      have hw : heldLen w.bytes = 0 := by
        cases w with
        | ascii b hb => exact heldLen_ascii hb.ascii []
        | beyond bs c hc =>
            obtain ⟨a, cs, rfl, henc⟩ := encoded_of_utf8Char hc
            exact henc.heldLen
      show heldLen (w.bytes ++ utf8Bytes text) = 0
      rw [heldLen_append hw, ih]

/-- A read of which nothing is held back. -/
theorem feed_complete {s : Screen} {d : List Byte} (hd : d ≠ []) (hr : s.raised = none)
    (h : heldLen (s.pending ++ d) = 0) : s.feed d = (s.carry []).bytes (s.pending ++ d) := by
  rw [feed_eq hd hr, bodyOf_all h, heldOf_eq_nil.mpr h]

theorem writtenBy_raised {s : Screen} (h : s.raised.isSome = true) (bs : List Byte) :
    s.writtenBy bs = [] := by
  induction bs with
  | nil => rfl
  | cons b bs ih =>
      have hnone : s.written b = none := by
        refine if_neg fun hw => ?_
        rw [hw.1] at h
        cases h
      show (s.written b).toList ++ writtenBy (s.consume b) bs = []
      rw [hnone, consume, if_pos h]
      exact ih

section Read

variable {s : Screen} {q : List Byte} {a : Byte}

theorem heldLen_read (ha : a.toNat < 0x80) (s : Screen) (q : List Byte) (text : List Utf8Piece) :
    heldLen (s.pending ++ (q ++ [a] ++ utf8Bytes text)) = 0 := by
  have hheld : heldLen (s.pending ++ q ++ [a]) = 0 := heldLen_ascii ha _
  rw [← List.append_assoc, ← List.append_assoc, heldLen_append hheld, heldLen_utf8Bytes]

theorem feed_snoc_ascii (hok : s.Ok none) (ha : a.toNat < 0x80) :
    s.feed (q ++ [a]) = (s.carry []).bytes (s.pending ++ (q ++ [a])) := by
  have hheld := heldLen_read ha s q []
  rw [show utf8Bytes [] = [] from rfl, List.append_nil] at hheld
  exact feed_complete (List.append_ne_nil_of_right_ne_nil q (List.cons_ne_nil a []))
    hok.raised hheld

/-- The text is read from where `p` has led, in one call as in two. -/
theorem feed_text (hok : s.Ok none) (ha : a.toNat < 0x80) (text : List Utf8Piece) :
    s.feed (q ++ [a] ++ utf8Bytes text) = (s.feed (q ++ [a])).bytes (utf8Bytes text) := by
  have hne : q ++ [a] ++ utf8Bytes text ≠ [] := by simp
  rw [feed_complete hne hok.raised (heldLen_read ha s q text),
    feed_snoc_ascii hok ha, ← List.append_assoc, bytes_append]

theorem reads_feed (hok : s.Ok none) (ha : a.toNat < 0x80) (hs : (s.feed (q ++ [a])).state = .text)
    (hr : (s.feed (q ++ [a])).raised = none) : (s.feed (q ++ [a])).Reads := by
  have hfeed := feed_snoc_ascii (q := q) hok ha
  have hempty : (s.carry []).Ok none := { hok with }
  refine ⟨?_, hs, ?_⟩
  · rw [hfeed] at hr ⊢
    exact hempty.bytes _ hr
  · rw [hfeed]
    exact undecoded_bytes (s := s.carry []) undecoded_nil _

/-- The text is shown exactly if and only if `p` has raised nothing and the stray bytes that it has
left meet replacement characters only. -/
theorem text_shown_iff (hok : s.Ok none) (ha : a.toNat < 0x80)
    (hs : (s.feed (q ++ [a])).state = .text) (text : List Utf8Piece) :
    ShownAfter s (q ++ [a]) text ↔ text = [] ∨
      (s.feed (q ++ [a])).raised = none ∧ OnlyReplacements (s.feed (q ++ [a])) text := by
  constructor
  · rintro ⟨-, hshown⟩
    cases text with
    | nil => exact .inl rfl
    | cons w text =>
        cases hr : (s.feed (q ++ [a])).raised with
        | none => exact .inr ⟨rfl, (allExactly_iff (reads_feed hok ha hs hr) _).mp hshown⟩
        | some e =>
            have hnone := writtenBy_raised (s := s.feed (q ++ [a])) (by rw [hr]; rfl) w.bytes
            exact absurd (hnone.symm.trans hshown.1.written) (by simp)
  · rintro (rfl | ⟨hr, honly⟩)
    · exact ⟨feed_text hok ha [], trivial⟩
    · exact ⟨feed_text hok ha text, (allExactly_iff (reads_feed hok ha hs hr) text).mpr honly⟩

end Read

/-- Behind a stray byte a replacement character is shown, and what follows it too. -/
theorem text_shown_iff_replacement :
    ShownAfter (init 2 5 10) [0xc3, 0x61] [.beyond [0xef, 0xbf, 0xbd] '\uFFFD' (by decide),
      .beyond [0xc3, 0xa9] 'é' (by decide)] := by
  have hp : ((init 2 5 10).feed ([0xc3] ++ [0x61])).pending = [0xc3] := by decide +kernel
  refine (text_shown_iff (q := [0xc3]) (ok_init 2 5 10) (by decide) (by decide +kernel) _).mpr
    (.inr ⟨by decide +kernel, fun c hc => ?_⟩)
  rw [hp] at hc
  exact List.mem_singleton.mp hc

/-- Behind a stray lead byte `é` is not shown. -/
theorem stray_swallows : ((init 2 5 10).feed [0xc3, 0x61]).state = .text ∧
    ¬ ShownAfter (init 2 5 10) [0xc3, 0x61] [.beyond [0xc3, 0xa9] 'é' (by decide)] ∧
    ((init 2 5 10).feed [0xc3, 0x61, 0xc3, 0xa9]).allLines = [['a']] := by
  refine ⟨by decide +kernel, fun h => ?_, by decide +kernel⟩
  have hwritten := h.shown.1.written
  revert hwritten
  decide +kernel

end Screen
end P4Hyp
