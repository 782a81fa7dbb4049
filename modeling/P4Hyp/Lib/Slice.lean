import P4Hyp.Lib.Memory
import Mathlib.Algebra.BigOperators.Group.List.Basic

/-!
# Byte strings

Slices of a string of bytes, the assignment to a slice, and the big-endian words
it is made of.
-/

namespace P4Hyp

def be32 (n : Word) : List Byte :=
  [n.extractLsb' 24 8, n.extractLsb' 16 8, n.extractLsb' 8 8, n.extractLsb' 0 8]

def ofBe32 (a b c d : Byte) : Nat :=
  a.toNat * 2 ^ 24 + b.toNat * 2 ^ 16 + c.toNat * 2 ^ 8 + d.toNat

def beWords : List Byte → List Nat
  | a :: b :: c :: d :: l => ofBe32 a b c d :: beWords l
  | _ => []

theorem ofBe32_be32 (n : Word) : ofBe32 (n.extractLsb' 24 8) (n.extractLsb' 16 8)
    (n.extractLsb' 8 8) (n.extractLsb' 0 8) = n.toNat := by
  unfold ofBe32
  rw [BitVec.extractLsb'_toNat, BitVec.extractLsb'_toNat, BitVec.extractLsb'_toNat,
    BitVec.extractLsb'_toNat, Nat.shiftRight_eq_div_pow, Nat.shiftRight_eq_div_pow,
    Nat.shiftRight_eq_div_pow, Nat.shiftRight_zero]
  have := n.isLt
  omega

@[simp] theorem be32_length (n : Word) : (be32 n).length = 4 := rfl

theorem beWords_be32 (n : Word) (l : List Byte) : beWords (be32 n ++ l) = n.toNat :: beWords l :=
  congrArg (· :: beWords l) (ofBe32_be32 n)

theorem beWords_append {l : List Byte} (m : List Byte) (h : l.length % 4 = 0) :
    beWords (l ++ m) = beWords l ++ beWords m := by
  induction l using beWords.induct with
  | case1 a b c d l ih =>
      have hl : l.length % 4 = 0 := by
        simp only [List.length_cons] at h
        omega
      exact congrArg (ofBe32 a b c d :: ·) (ih hl)
  | case2 l hl =>
      match l, hl, h with
      | [], _, _ => rfl
      | a :: b :: c :: d :: l, hl, _ => exact absurd rfl (hl a b c d l)

/-- What a zero word is replaced by to make the words of `l` add up to zero. -/
def checksum (l : List Byte) : Word := -BitVec.ofNat 32 (beWords l).sum

/-- With its checksum a string adds up to zero. -/
theorem sum_checksum {pre post : List Byte} (hpre : pre.length % 4 = 0) :
    (beWords (pre ++ be32 (checksum (pre ++ be32 0 ++ post)) ++ post)).sum % 2 ^ 32 = 0 := by
  have hsum : ∀ n : Word, (beWords (pre ++ be32 n ++ post)).sum =
      (beWords pre).sum + (n.toNat + (beWords post).sum) := by
    intro n
    rw [List.append_assoc, beWords_append _ hpre, beWords_be32, List.sum_append, List.sum_cons]
  rw [hsum, checksum, hsum, BitVec.toNat_neg, BitVec.toNat_ofNat,
    show (0 : Word).toNat = 0 from rfl]
  omega

/-! ## Slices -/

/-- `buf[off:off + len(l)] = l` -/
def setSlice (buf : List Byte) (off : Nat) (l : List Byte) : List Byte :=
  buf.take off ++ l ++ buf.drop (off + l.length)

/-- `l` stands in `buf` from `off` on. -/
def SliceAt (buf : List Byte) (off : Nat) (l : List Byte) : Prop := (buf.drop off).take l.length = l

section Slices

variable {buf l m : List Byte} {off k : Nat}

theorem setSlice_length (h : off + l.length ≤ buf.length) :
    (setSlice buf off l).length = buf.length := by
  rw [setSlice, List.length_append, List.length_append, List.length_take, List.length_drop]
  omega

theorem setSlice_length_max (h : off ≤ buf.length) :
    (setSlice buf off l).length = max buf.length (off + l.length) := by
  rw [setSlice, List.length_append, List.length_append, List.length_take, List.length_drop]
  omega

theorem sliceAt_setSlice (h : off + l.length ≤ buf.length) :
    SliceAt (setSlice buf off l) off l := by
  have htake : (buf.take off).length = off := by
    rw [List.length_take]
    omega
  rw [SliceAt, setSlice, List.append_assoc, List.drop_left' htake, List.take_left' rfl]

theorem sliceAt_iff : SliceAt buf off l ↔ ∀ i < l.length, buf[off + i]? = l[i]? := by
  unfold SliceAt
  constructor
  · intro h i hi
    rw [← h, List.getElem?_take_of_lt hi, List.getElem?_drop]
  · intro h
    apply List.ext_getElem?
    intro i
    rw [List.getElem?_take, List.getElem?_drop]
    by_cases hi : i < l.length
    · rw [if_pos hi, h i hi]
    · rw [if_neg hi, List.getElem?_eq_none (Nat.le_of_not_lt hi)]

theorem getElem?_setSlice_outside (h : off + l.length ≤ buf.length) {i : Nat}
    (hi : i < off ∨ off + l.length ≤ i) : (setSlice buf off l)[i]? = buf[i]? := by
  have htake : (buf.take off).length = off := by
    rw [List.length_take]
    omega
  rw [setSlice]
  rcases hi with hi | hi
  · rw [List.append_assoc, List.getElem?_append_left (by omega), List.getElem?_take_of_lt hi]
  · rw [List.getElem?_append_right (by rw [List.length_append]; omega), List.getElem?_drop,
      List.length_append, htake, Nat.add_sub_cancel' hi]

/-- A slice before or after the one assigned to stays. -/
theorem SliceAt.setSlice (h : SliceAt buf k m) (hl : off + l.length ≤ buf.length)
    (hapart : k + m.length ≤ off ∨ off + l.length ≤ k) : SliceAt (setSlice buf off l) k m := by
  rw [sliceAt_iff] at h ⊢
  intro i hi
  rw [getElem?_setSlice_outside hl (by omega), h i hi]

theorem sliceAt_append :
    SliceAt buf off (l ++ m) ↔ SliceAt buf off l ∧ SliceAt buf (off + l.length) m := by
  rw [sliceAt_iff, sliceAt_iff, sliceAt_iff]
  constructor
  · intro h
    constructor
    · intro i hi
      rw [h i (by rw [List.length_append]; omega), List.getElem?_append_left hi]
    · intro i hi
      rw [Nat.add_assoc, h (l.length + i) (by rw [List.length_append]; omega),
        List.getElem?_append_right (Nat.le_add_right _ _), Nat.add_sub_cancel_left]
  · rintro ⟨hl, hm⟩ i hi
    rw [List.length_append] at hi
    by_cases hlt : i < l.length
    · rw [hl i hlt, List.getElem?_append_left hlt]
    · rw [List.getElem?_append_right (by omega), ← hm (i - l.length) (by omega)]
      congr 1
      omega

theorem SliceAt.exists_eq (h : SliceAt buf off l) : ∃ rest, buf.drop off = l ++ rest :=
  ⟨(buf.drop off).drop l.length, by
    conv_lhs => rw [← List.take_append_drop l.length (buf.drop off)]
    rw [h]⟩

theorem setSlice_mid {pre mid post : List Byte} (h : l.length = mid.length) :
    setSlice (pre ++ mid ++ post) pre.length l = pre ++ l ++ post := by
  rw [setSlice, h, List.drop_left' (by rw [List.length_append]), List.append_assoc pre mid,
    List.take_left' rfl]

/-- Two assignments side by side. -/
theorem setSlice_setSlice (h : off ≤ buf.length) :
    setSlice (setSlice buf off l) (off + l.length) m = setSlice buf off (l ++ m) := by
  have htake : (buf.take off).length = off := List.length_take_of_le h
  rw [setSlice, setSlice, setSlice, List.take_left' (by rw [List.length_append, htake]),
    List.length_append,
    ← List.drop_drop, List.drop_left' (by rw [List.length_append, htake]), List.drop_drop,
    List.append_assoc (buf.take off), Nat.add_assoc]

theorem take_setSlice (h : off + l.length ≤ k) (hk : k ≤ buf.length) :
    (setSlice buf off l).take k = setSlice (buf.take k) off l := by
  apply List.ext_getElem?
  intro i
  have hlen : (buf.take k).length = k := List.length_take_of_le hk
  by_cases hi : i < off ∨ off + l.length ≤ i
  · rw [getElem?_setSlice_outside (by omega) hi, List.getElem?_take, List.getElem?_take,
      getElem?_setSlice_outside (by omega) hi]
  · have hin : i - off < l.length := by omega
    have hbuf := sliceAt_iff.1 (sliceAt_setSlice (h.trans hk)) _ hin
    have hroom : off + l.length ≤ (buf.take k).length := by omega
    have htake := sliceAt_iff.1 (sliceAt_setSlice hroom) _ hin
    rw [Nat.add_sub_cancel' (by omega)] at hbuf htake
    rw [List.getElem?_take_of_lt (by omega), hbuf, htake]

/-- A buffer whose checksum takes the place of a zero word. -/
theorem sum_setSlice_checksum (h : SliceAt buf off (be32 0)) (hoff : off % 4 = 0)
    (hle : off ≤ buf.length) :
    (beWords (setSlice buf off (be32 (checksum buf)))).sum % 2 ^ 32 = 0 := by
  obtain ⟨post, hpost⟩ := h.exists_eq
  have hlen : (buf.take off).length = off := List.length_take_of_le hle
  have hbuf : buf = buf.take off ++ be32 0 ++ post := by
    rw [List.append_assoc, ← hpost, List.take_append_drop]
  generalize buf.take off = pre at hlen hbuf
  subst hbuf hlen
  have hmid (n : Word) :
      setSlice (pre ++ be32 0 ++ post) pre.length (be32 n) = pre ++ be32 n ++ post :=
    setSlice_mid rfl
  rw [hmid]
  exact sum_checksum hoff

end Slices

end P4Hyp
