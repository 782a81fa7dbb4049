import Mathlib.Algebra.Order.Ring.Nat

/-!
# Byte memory with 32-bit addresses

A memory is a total function from addresses to bytes.  Address arithmetic wraps
at `2 ^ 32`, as a 32-bit machine's does, so a range is given by its first
address and its length, and `Covers a n x` measures `x` from `a` rather than
comparing the two.  Multi-byte values are little-endian.

Every bulk store is one `fill`, which makes adjacent and overlapping copies
comparable without lists of bytes.
-/

namespace P4Hyp

abbrev Byte := BitVec 8
abbrev Half := BitVec 16
abbrev Word := BitVec 32

abbrev Mem := Word → Byte

/-- `x` is one of the `n` bytes starting at `a`. -/
def Covers (a : Word) (n : Nat) (x : Word) : Prop := (x - a).toNat < n

instance (a : Word) (n : Nat) (x : Word) : Decidable (Covers a n x) :=
  inferInstanceAs (Decidable (_ < _))

/-- The ranges `[a, a + n)` and `[b, b + k)` share no byte. -/
def Apart (a : Word) (n : Nat) (b : Word) (k : Nat) : Prop :=
  ∀ x, Covers a n x → ¬ Covers b k x

theorem covers_at {a : Word} {i n : Nat} (hi : i < n) (hn : n ≤ 2 ^ 32) :
    Covers a n (a + BitVec.ofNat 32 i) := by
  unfold Covers
  rw [BitVec.toNat_sub, BitVec.toNat_add, BitVec.toNat_ofNat]
  have := a.isLt
  omega

theorem covers_self {a : Word} {n : Nat} (hn : 0 < n) : Covers a n a := by
  simpa [Covers] using hn

theorem covers_mono {a x : Word} {n k : Nat} (hnk : n ≤ k) (hx : Covers a n x) : Covers a k x :=
  Nat.lt_of_lt_of_le hx hnk

/-- A range inside another one, placed by its offset. -/
theorem covers_of_offset {a x : Word} {o n k : Nat} (hok : o + n ≤ k) (hk : k ≤ 2 ^ 32)
    (hx : Covers (a + BitVec.ofNat 32 o) n x) : Covers a k x := by
  unfold Covers at hx ⊢
  rw [BitVec.toNat_sub, BitVec.toNat_add, BitVec.toNat_ofNat] at hx
  rw [BitVec.toNat_sub]
  have ha := a.isLt
  have hxlt := x.isLt
  omega

theorem Apart.symm {a b : Word} {n k : Nat} (h : Apart a n b k) : Apart b k a n :=
  fun x hb ha => h x ha hb

theorem Apart.mono {a b : Word} {n n' k k' : Nat} (h : Apart a n b k) (hn : n' ≤ n) (hk : k' ≤ k) :
    Apart a n' b k' :=
  fun x hx hy => h x (covers_mono hn hx) (covers_mono hk hy)

/-- Ranges in order, neither of which wraps, are apart. -/
theorem apart_of_le {a b : Word} {n k : Nat} (hab : a.toNat + n ≤ b.toNat)
    (hb : b.toNat + k ≤ 2 ^ 32) : Apart a n b k := by
  intro x hx hy
  unfold Covers at hx hy
  rw [BitVec.toNat_sub] at hx hy
  have hxlt := x.isLt
  omega

/-- Two ranges at different offsets from one base are apart, wherever the base
lies and even if the ranges wrap. -/
theorem apart_of_offsets {a : Word} {o n p k : Nat} (hop : o + n ≤ p) (hp : p + k ≤ 2 ^ 32) :
    Apart (a + BitVec.ofNat 32 o) n (a + BitVec.ofNat 32 p) k := by
  intro x hx hy
  unfold Covers at hx hy
  rw [BitVec.toNat_sub, BitVec.toNat_add, BitVec.toNat_ofNat] at hx hy
  have ha := a.isLt
  have hxlt := x.isLt
  omega

/-- Two ranges meet exactly when one of them starts inside the other. -/
theorem apart_iff (a : Word) (n : Nat) (b : Word) (k : Nat) :
    Apart a n b k ↔ n = 0 ∨ k = 0 ∨ n ≤ (b - a).toNat ∧ k ≤ (a - b).toNat := by
  constructor
  · intro h
    by_cases hn : n = 0
    · exact .inl hn
    · by_cases hk : k = 0
      · exact .inr (.inl hk)
      · have hb : ¬ Covers a n b := fun hc => h b hc (covers_self (by omega))
        have ha : ¬ Covers b k a := h a (covers_self (by omega))
        exact .inr (.inr ⟨Nat.le_of_not_lt hb, Nat.le_of_not_lt ha⟩)
  · intro h x hx hy
    unfold Covers at hx hy
    rw [BitVec.toNat_sub] at hx hy
    rw [BitVec.toNat_sub, BitVec.toNat_sub] at h
    have ha := a.isLt
    have hb := b.isLt
    have hxlt := x.isLt
    omega

instance (a : Word) (n : Nat) (b : Word) (k : Nat) : Decidable (Apart a n b k) :=
  decidable_of_iff _ (apart_iff a n b k).symm

namespace Mem

def load16 (m : Mem) (a : Word) : Half := m (a + 1#32) ++ m a

def load32 (m : Mem) (a : Word) : Word := m (a + 3#32) ++ m (a + 2#32) ++ m (a + 1#32) ++ m a

def load64 (m : Mem) (a : Word) : BitVec 64 := m.load32 (a + 4#32) ++ m.load32 a

/-- Store `f 0`, `f 1`, … into the `n` bytes starting at `a`. -/
def fill (m : Mem) (a : Word) (n : Nat) (f : Nat → Byte) : Mem :=
  fun x => if Covers a n x then f (x - a).toNat else m x

def store8 (m : Mem) (a : Word) (v : Byte) : Mem := m.fill a 1 fun _ => v

def store16 (m : Mem) (a : Word) (v : Half) : Mem := m.fill a 2 fun i => v.extractLsb' (8 * i) 8

def store32 (m : Mem) (a : Word) (v : Word) : Mem := m.fill a 4 fun i => v.extractLsb' (8 * i) 8

/-- Two memories hold the same bytes in a range. -/
def AgreeOn (m m' : Mem) (a : Word) (n : Nat) : Prop := ∀ x, Covers a n x → m' x = m x

theorem AgreeOn.refl (m : Mem) (a : Word) (n : Nat) : AgreeOn m m a n := fun _ _ => rfl

theorem AgreeOn.trans {m m' m'' : Mem} {a : Word} {n : Nat} (h : AgreeOn m m' a n)
    (h' : AgreeOn m' m'' a n) : AgreeOn m m'' a n :=
  fun x hx => (h' x hx).trans (h x hx)

theorem AgreeOn.mono {m m' : Mem} {a : Word} {n k : Nat} (h : AgreeOn m m' a n) (hk : k ≤ n) :
    AgreeOn m m' a k :=
  fun x hx => h x (covers_mono hk hx)

theorem AgreeOn.offset {m m' : Mem} {a : Word} {n o k : Nat} (h : AgreeOn m m' a n)
    (hok : o + k ≤ n) (hn : n ≤ 2 ^ 32) : AgreeOn m m' (a + BitVec.ofNat 32 o) k :=
  fun x hx => h x (covers_of_offset hok hn hx)

theorem fill_inside {m : Mem} {a x : Word} {n : Nat} {f : Nat → Byte} (h : Covers a n x) :
    m.fill a n f x = f (x - a).toNat := if_pos h

theorem fill_outside {m : Mem} {a x : Word} {n : Nat} {f : Nat → Byte} (h : ¬ Covers a n x) :
    m.fill a n f x = m x := if_neg h

@[simp] theorem fill_zero (m : Mem) (a : Word) (f : Nat → Byte) : m.fill a 0 f = m := by
  funext x
  exact fill_outside (by simp [Covers])

theorem fill_congr {m : Mem} {a : Word} {n : Nat} {f g : Nat → Byte} (h : ∀ i < n, f i = g i) :
    m.fill a n f = m.fill a n g := by
  funext x
  by_cases hx : Covers a n x
  · rw [fill_inside hx, fill_inside hx, h _ hx]
  · rw [fill_outside hx, fill_outside hx]

/-- A fill leaves every range apart from its own alone. -/
theorem agreeOn_fill {m : Mem} {a b : Word} {n k : Nat} {f : Nat → Byte} (h : Apart b k a n) :
    AgreeOn m (m.fill a n f) b k :=
  fun x hx => fill_outside (h x hx)

/-- Filling a range and then the one that follows it is filling both at once. -/
theorem fill_fill_next {m : Mem} {a : Word} {n k : Nat} {f g : Nat → Byte} (hnk : n + k < 2 ^ 32) :
    (m.fill a n f).fill (a + BitVec.ofNat 32 n) k g =
      m.fill a (n + k) fun i => if i < n then f i else g (i - n) := by
  funext x
  have hn : (x - (a + BitVec.ofNat 32 n)).toNat = ((x - a).toNat + 2 ^ 32 - n) % 2 ^ 32 := by
    rw [BitVec.toNat_sub, BitVec.toNat_add, BitVec.toNat_ofNat, BitVec.toNat_sub]
    have ha := a.isLt
    have hx := x.isLt
    omega
  have hlt := (x - a).isLt
  by_cases h1 : Covers a n x
  · have h2 : ¬ Covers (a + BitVec.ofNat 32 n) k x := by unfold Covers at h1 ⊢; omega
    rw [fill_outside h2, fill_inside h1, fill_inside (covers_mono (Nat.le_add_right n k) h1)]
    exact (if_pos h1).symm
  · by_cases h2 : Covers (a + BitVec.ofNat 32 n) k x
    · have h3 : Covers a (n + k) x := by unfold Covers at h1 h2 ⊢; omega
      have he : (x - (a + BitVec.ofNat 32 n)).toNat = (x - a).toNat - n := by
        unfold Covers at h1; omega
      rw [fill_inside h2, fill_inside h3, he]
      exact (if_neg h1).symm
    · have h3 : ¬ Covers a (n + k) x := by unfold Covers at h1 h2 ⊢; omega
      rw [fill_outside h2, fill_outside h1, fill_outside h3]

/-! ## Loads -/

theorem load16_congr {m m' : Mem} {a : Word} (h : AgreeOn m m' a 2) :
    m'.load16 a = m.load16 a := by
  unfold load16
  rw [h _ (covers_at (i := 1) (by omega) (by omega)), h _ (covers_self (by omega))]

theorem load32_congr {m m' : Mem} {a : Word} (h : AgreeOn m m' a 4) :
    m'.load32 a = m.load32 a := by
  unfold load32
  rw [h _ (covers_at (i := 1) (by omega) (by omega)),
    h _ (covers_at (i := 2) (by omega) (by omega)),
    h _ (covers_at (i := 3) (by omega) (by omega)), h _ (covers_self (by omega))]

theorem load64_congr {m m' : Mem} {a : Word} (h : AgreeOn m m' a 8) :
    m'.load64 a = m.load64 a := by
  unfold load64
  rw [load32_congr (h.mono (by omega)), load32_congr (h.offset (o := 4) (by omega) (by omega))]

/-- The first byte of a fill, and the others by their offsets. -/
theorem fill_self {m : Mem} {a : Word} {n : Nat} {f : Nat → Byte} (hn : 0 < n) :
    m.fill a n f a = f 0 := by
  rw [fill_inside (covers_self hn)]
  simp

theorem fill_at {m : Mem} {a : Word} {n i : Nat} {f : Nat → Byte} (hi : i < n) (hn : n ≤ 2 ^ 32) :
    m.fill a n f (a + BitVec.ofNat 32 i) = f i := by
  have he : (a + BitVec.ofNat 32 i - a).toNat = i := by
    rw [BitVec.toNat_sub, BitVec.toNat_add, BitVec.toNat_ofNat]
    have := a.isLt
    omega
  rw [fill_inside (covers_at hi hn), he]

theorem load16_store16 (m : Mem) (a : Word) (v : Half) : (m.store16 a v).load16 a = v := by
  unfold load16 store16
  rw [fill_self (by omega), fill_at (i := 1) (by omega) (by omega)]
  ext i hi
  simp only [BitVec.getElem_append, BitVec.getElem_extractLsb']
  split
  · simp [BitVec.getLsbD_eq_getElem hi]
  · rw [show 8 * 1 + (i - 8) = i by omega, BitVec.getLsbD_eq_getElem hi]

theorem load32_store32 (m : Mem) (a : Word) (v : Word) : (m.store32 a v).load32 a = v := by
  unfold load32 store32
  rw [fill_self (by omega), fill_at (i := 1) (by omega) (by omega),
    fill_at (i := 2) (by omega) (by omega), fill_at (i := 3) (by omega) (by omega)]
  ext i hi
  simp only [BitVec.getElem_append, BitVec.getElem_extractLsb']
  split
  · simp [BitVec.getLsbD_eq_getElem hi]
  · split
    · rw [show 8 * 1 + (i - 8) = i by omega, BitVec.getLsbD_eq_getElem hi]
    · split
      · rw [show 8 * 2 + (i - 8 - 8) = i by omega, BitVec.getLsbD_eq_getElem hi]
      · rw [show 8 * 3 + (i - 8 - 8 - 8) = i by omega, BitVec.getLsbD_eq_getElem hi]

theorem load32_store32_apart {m : Mem} {a b v : Word} (h : Apart b 4 a 4) :
    (m.store32 a v).load32 b = m.load32 b :=
  load32_congr (agreeOn_fill h)

end Mem

end P4Hyp
