import P4Hyp.Romfs.Check

/-!
# Names in UTF-8

What is encoded can be decoded, and a NUL among the bytes stands for itself.
-/

namespace P4Hyp.Romfs

/-- What the format takes for a name. -/
def NulFree (s : Str) : Prop := ∀ c ∈ s, c.toNat ≠ 0

instance (s : Str) : Decidable (NulFree s) := List.decidableBAll _ s

theorem encode_nulFree {s : Str} (h : NulFree s) : 0 ∉ encode s := by
  induction s with
  | nil => exact List.not_mem_nil
  | cons c s ih =>
      rw [encode_cons, List.mem_append, not_or]
      exact ⟨encodeChar_ne_nul (h c List.mem_cons_self),
        ih fun d hd => h d (List.mem_cons_of_mem c hd)⟩

/-! ## Decoding -/

section Decode

variable {a b x y : Byte} {c : Char}

theorem decode_two (ha : 0x80 ≤ a.toNat) (h : utf8Char [a, b] = some c) (l : List Byte) :
    decode (a :: b :: l) = (decode l).map (c :: ·) := by
  rw [decode.eq_def]
  simp only [if_neg (Nat.not_lt.2 ha), h]
  cases decode l <;> rfl

theorem decode_three (ha : 0x80 ≤ a.toNat) (h₂ : utf8Char [a, b] = none)
    (h : utf8Char [a, b, x] = some c) (l : List Byte) :
    decode (a :: b :: x :: l) = (decode l).map (c :: ·) := by
  rw [decode.eq_def]
  simp only [if_neg (Nat.not_lt.2 ha), h₂, h]
  cases decode l <;> rfl

theorem decode_four (ha : 0x80 ≤ a.toNat) (h₂ : utf8Char [a, b] = none)
    (h₃ : utf8Char [a, b, x] = none) (h : utf8Char [a, b, x, y] = some c) (l : List Byte) :
    decode (a :: b :: x :: y :: l) = (decode l).map (c :: ·) := by
  rw [decode.eq_def]
  simp only [if_neg (Nat.not_lt.2 ha), h₂, h₃, h]
  cases decode l <;> rfl

end Decode

theorem decode_encodeChar (c : Char) (l : List Byte) :
    decode (encodeChar c ++ l) = (decode l).map (c :: ·) := by
  have hlt := char_toNat_lt c
  by_cases h₁ : c.toNat ≤ 0x7f
  · have ha := toNat_ofNat_byte (show c.toNat < 256 by omega)
    have hchr : chr (BitVec.ofNat 8 c.toNat) = c := by rw [chr, ha, Char.ofNat_toNat]
    rw [encodeChar_one h₁, List.singleton_append, decode.eq_def]
    simp only [ha, if_pos (show c.toNat < 0x80 by omega), hchr]
    cases decode l <;> rfl
  · have hchar := utf8Char_encodeChar (show 0x7f < c.toNat by omega)
    by_cases h₂ : c.toNat ≤ 0x7ff
    · have ha := toNat_ofNat_byte (show c.toNat / 64 % 0x20 + 0xc0 < 256 by omega)
      rw [encodeChar_two (by omega) h₂] at hchar ⊢
      exact decode_two (by omega) hchar l
    · by_cases h₃ : c.toNat ≤ 0xffff
      · have ha := toNat_ofNat_byte (show c.toNat / 4096 % 0x10 + 0xe0 < 256 by omega)
        rw [encodeChar_three (by omega) h₃] at hchar ⊢
        exact decode_three (by omega) (utf8Char_two_none (by omega)) hchar l
      · have ha := toNat_ofNat_byte (show c.toNat / 262144 % 0x08 + 0xf0 < 256 by omega)
        rw [encodeChar_four (by omega)] at hchar ⊢
        exact decode_four (by omega) (utf8Char_two_none (by omega))
          (utf8Char_three_none (by omega)) hchar l

theorem decode_encode (s : Str) : decode (encode s) = .ok s := by
  induction s with
  | nil => rfl
  | cons c s ih =>
      rw [encode_cons, decode_encodeChar, ih]
      rfl

end P4Hyp.Romfs
