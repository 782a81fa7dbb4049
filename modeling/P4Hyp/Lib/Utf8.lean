import P4Hyp.Lib.Text

/-!
# UTF-8

A string in bytes, and a character back from its bytes.
-/

namespace P4Hyp

/-- A continuation byte. -/
def isCont (b : Byte) : Bool := 0x80 ≤ b.toNat && b.toNat < 0xc0

/-- The character of a code point, if the encoding may stand for it: it is not
overlong, and no surrogate. -/
def codePoint (least n : Nat) : Option Char :=
  if least ≤ n ∧ n.isValidChar then some (Char.ofNat n) else none

theorem codePoint_some {least n : Nat} {c : Char} (h : codePoint least n = some c) :
    least ≤ n ∧ c.toNat = n := by
  unfold codePoint at h
  split at h
  · rename_i hvalid
    obtain rfl := Option.some.inj h
    exact ⟨hvalid.1, toNat_ofNat hvalid.2⟩
  · cases h

/-- `bytes.decode` of the bytes of one character beyond ASCII. -/
def utf8Char : List Byte → Option Char
  | [a, b] =>
      if 0xc0 ≤ a.toNat ∧ a.toNat < 0xe0 ∧ isCont b then
        codePoint 0x80 (a.toNat % 0x20 * 0x40 + b.toNat % 0x40)
      else none
  | [a, b, c] =>
      if 0xe0 ≤ a.toNat ∧ a.toNat < 0xf0 ∧ isCont b ∧ isCont c then
        codePoint 0x800 (a.toNat % 0x10 * 0x1000 + b.toNat % 0x40 * 0x40 + c.toNat % 0x40)
      else none
  | [a, b, c, d] =>
      if 0xf0 ≤ a.toNat ∧ a.toNat < 0xf8 ∧ isCont b ∧ isCont c ∧ isCont d then
        codePoint 0x10000 (a.toNat % 0x08 * 0x40000 + b.toNat % 0x40 * 0x1000 +
          c.toNat % 0x40 * 0x40 + d.toNat % 0x40)
      else none
  | _ => none

/-! ## Encoding -/

/-- `str.encode` -/
def encode (s : Str) : List Byte := s.flatMap fun c => (String.utf8EncodeChar c).map UInt8.toBitVec

def encodeChar (c : Char) : List Byte := (String.utf8EncodeChar c).map UInt8.toBitVec

theorem encode_cons (c : Char) (s : Str) : encode (c :: s) = encodeChar c ++ encode s := by
  unfold encode encodeChar
  rw [List.flatMap_cons]

theorem encode_append (s t : Str) : encode (s ++ t) = encode s ++ encode t := List.flatMap_append

theorem encode_singleton (c : Char) : encode [c] = encodeChar c := by
  rw [encode_cons, show encode [] = [] from rfl, List.append_nil]

/-! ## The bytes of a character -/

section Sizes

variable {c : Char}

theorem encodeChar_one (h : c.toNat ≤ 0x7f) : encodeChar c = [BitVec.ofNat 8 c.toNat] := by
  rw [encodeChar, String.utf8EncodeChar, if_pos (show c.val.toNat ≤ 0x7f from h)]
  rfl

theorem encodeChar_two (h₁ : 0x7f < c.toNat) (h₂ : c.toNat ≤ 0x7ff) : encodeChar c =
    [BitVec.ofNat 8 (c.toNat / 64 % 0x20 + 0xc0), BitVec.ofNat 8 (c.toNat % 0x40 + 0x80)] := by
  have h₁ : ¬ c.val.toNat ≤ 0x7f := Nat.not_le.2 h₁
  rw [encodeChar, String.utf8EncodeChar, if_neg h₁, if_pos (show c.val.toNat ≤ 0x7ff from h₂)]
  rfl

theorem encodeChar_three (h₂ : 0x7ff < c.toNat) (h₃ : c.toNat ≤ 0xffff) : encodeChar c =
    [BitVec.ofNat 8 (c.toNat / 4096 % 0x10 + 0xe0), BitVec.ofNat 8 (c.toNat / 64 % 0x40 + 0x80),
      BitVec.ofNat 8 (c.toNat % 0x40 + 0x80)] := by
  have h₂ : ¬ c.val.toNat ≤ 0x7ff := Nat.not_le.2 h₂
  rw [encodeChar, String.utf8EncodeChar, if_neg (by omega), if_neg h₂,
    if_pos (show c.val.toNat ≤ 0xffff from h₃)]
  rfl

theorem encodeChar_four (h₃ : 0xffff < c.toNat) : encodeChar c =
    [BitVec.ofNat 8 (c.toNat / 262144 % 0x08 + 0xf0), BitVec.ofNat 8 (c.toNat / 4096 % 0x40 + 0x80),
      BitVec.ofNat 8 (c.toNat / 64 % 0x40 + 0x80), BitVec.ofNat 8 (c.toNat % 0x40 + 0x80)] := by
  have h₃ : ¬ c.val.toNat ≤ 0xffff := Nat.not_le.2 h₃
  rw [encodeChar, String.utf8EncodeChar, if_neg (by omega), if_neg (by omega), if_neg h₃]
  rfl

theorem codePoint_toNat {least : Nat} (h : least ≤ c.toNat) : codePoint least c.toNat = some c := by
  have hvalid : c.toNat.isValidChar := c.valid
  rw [codePoint, if_pos ⟨h, hvalid⟩, Char.ofNat_toNat]

theorem char_toNat_lt (c : Char) : c.toNat < 0x110000 := by
  have hvalid : c.toNat.isValidChar := c.valid
  rcases hvalid with h | h
  · omega
  · exact h.2

end Sizes

theorem encodeChar_ne_nul {c : Char} (hc : c.toNat ≠ 0) : 0 ∉ encodeChar c := by
  have hlt := char_toNat_lt c
  have hne (n : Nat) (hn : n < 256) (h0 : n ≠ 0) : (0 : Byte) ≠ BitVec.ofNat 8 n := by
    intro he
    have := congrArg BitVec.toNat he
    rw [BitVec.toNat_ofNat, Nat.mod_eq_of_lt (by omega)] at this
    exact h0 this.symm
  by_cases h₁ : c.toNat ≤ 0x7f
  · rw [encodeChar_one h₁, List.mem_singleton]
    exact hne _ (by omega) hc
  · by_cases h₂ : c.toNat ≤ 0x7ff
    · rw [encodeChar_two (by omega) h₂]
      simp only [List.mem_cons, List.not_mem_nil, or_false, not_or]
      exact ⟨hne _ (by omega) (by omega), hne _ (by omega) (by omega)⟩
    · by_cases h₃ : c.toNat ≤ 0xffff
      · rw [encodeChar_three (by omega) h₃]
        simp only [List.mem_cons, List.not_mem_nil, or_false, not_or]
        exact ⟨hne _ (by omega) (by omega), hne _ (by omega) (by omega),
          hne _ (by omega) (by omega)⟩
      · rw [encodeChar_four (by omega)]
        simp only [List.mem_cons, List.not_mem_nil, or_false, not_or]
        exact ⟨hne _ (by omega) (by omega), hne _ (by omega) (by omega),
          hne _ (by omega) (by omega), hne _ (by omega) (by omega)⟩

theorem length_le_encode (s : Str) : s.length ≤ (encode s).length := by
  induction s with
  | nil => exact Nat.le_refl 0
  | cons c s ih =>
      have hpos : 0 < (encodeChar c).length := by
        rw [encodeChar, List.length_map]
        exact List.length_pos_iff.2 String.utf8EncodeChar_ne_nil
      rw [encode_cons, List.length_append, List.length_cons]
      omega

/-! ## ASCII -/

theorem toNat_ofNat_byte {n : Nat} (h : n < 256) : (BitVec.ofNat 8 n).toNat = n := by
  rw [BitVec.toNat_ofNat]
  exact Nat.mod_eq_of_lt h

/-- The byte of a character of ASCII. -/
def asciiByte (c : Char) : Byte := BitVec.ofNat 8 c.toNat

theorem chr_asciiByte {c : Char} (h : c.toNat ≤ 0x7f) : chr (asciiByte c) = c := by
  rw [chr, asciiByte, toNat_ofNat_byte (by omega), Char.ofNat_toNat]

theorem encode_ascii {s : Str} (h : ∀ c ∈ s, c.toNat ≤ 0x7f) : encode s = s.map asciiByte := by
  induction s with
  | nil => rfl
  | cons c s ih =>
      rw [encode_cons, encodeChar_one (h c List.mem_cons_self),
        ih fun d hd => h d (List.mem_cons_of_mem c hd)]
      rfl

/-! ## Back from the bytes -/

section Bytes

variable {a b x : Byte}

/-- The first byte tells how many there are. -/
theorem utf8Char_two_none (ha : 0xe0 ≤ a.toNat) : utf8Char [a, b] = none :=
  if_neg fun h => by omega

theorem utf8Char_three_none (ha : 0xf0 ≤ a.toNat) : utf8Char [a, b, x] = none :=
  if_neg fun h => by omega

end Bytes

theorem isCont_ofNat (n : Nat) : isCont (BitVec.ofNat 8 (n % 0x40 + 0x80)) = true := by
  have hn := toNat_ofNat_byte (show n % 0x40 + 0x80 < 256 by omega)
  simp only [isCont, hn, Bool.and_eq_true, decide_eq_true_eq]
  omega

/-- A character beyond ASCII is decoded from its bytes. -/
theorem utf8Char_encodeChar {c : Char} (h : 0x7f < c.toNat) : utf8Char (encodeChar c) = some c := by
  have hlt := char_toNat_lt c
  have hx := toNat_ofNat_byte (show c.toNat % 0x40 + 0x80 < 256 by omega)
  have hx' := isCont_ofNat c.toNat
  have hy := toNat_ofNat_byte (show c.toNat / 64 % 0x40 + 0x80 < 256 by omega)
  have hy' := isCont_ofNat (c.toNat / 64)
  have hz := toNat_ofNat_byte (show c.toNat / 4096 % 0x40 + 0x80 < 256 by omega)
  have hz' := isCont_ofNat (c.toNat / 4096)
  by_cases h₂ : c.toNat ≤ 0x7ff
  · have ha := toNat_ofNat_byte (show c.toNat / 64 % 0x20 + 0xc0 < 256 by omega)
    rw [encodeChar_two h h₂, utf8Char, if_pos ⟨by omega, by omega, hx'⟩, ha, hx]
    rw [show (c.toNat / 64 % 0x20 + 0xc0) % 0x20 * 0x40 +
      (c.toNat % 0x40 + 0x80) % 0x40 = c.toNat by
      omega]
    exact codePoint_toNat (by omega)
  · by_cases h₃ : c.toNat ≤ 0xffff
    · have ha := toNat_ofNat_byte (show c.toNat / 4096 % 0x10 + 0xe0 < 256 by omega)
      rw [encodeChar_three (by omega) h₃, utf8Char,
        if_pos ⟨by omega, by omega, hy', hx'⟩, ha, hy, hx]
      rw [show (c.toNat / 4096 % 0x10 + 0xe0) % 0x10 * 0x1000 +
        (c.toNat / 64 % 0x40 + 0x80) % 0x40 * 0x40 + (c.toNat % 0x40 + 0x80) % 0x40 =
          c.toNat by omega]
      exact codePoint_toNat (by omega)
    · have ha := toNat_ofNat_byte (show c.toNat / 262144 % 0x08 + 0xf0 < 256 by omega)
      rw [encodeChar_four (by omega), utf8Char, if_pos ⟨by omega, by omega, hz', hy', hx'⟩,
        ha, hz, hy, hx]
      rw [show (c.toNat / 262144 % 0x08 + 0xf0) % 0x08 * 0x40000 +
        (c.toNat / 4096 % 0x40 + 0x80) % 0x40 * 0x1000 +
          (c.toNat / 64 % 0x40 + 0x80) % 0x40 * 0x40 +
        (c.toNat % 0x40 + 0x80) % 0x40 = c.toNat by omega]
      exact codePoint_toNat (by omega)

end P4Hyp
