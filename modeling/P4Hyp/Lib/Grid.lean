import Mathlib.Algebra.Order.Ring.Nat
import Mathlib.Data.List.Basic

/-!
# Grids of cells

A grid is a list of rows.  An operation that names a row or a cell outside the
grid has no result, so that a program that indexes out of bounds is told apart
from one that does not; every operation here that has a result keeps the shape
of what it is given.
-/

namespace P4Hyp

variable {α : Type*}

/-- Take out the element at `i` and put `x` in front of the one then at `j`, or
at the end. -/
def popInsert (i j : Nat) (x : α) (l : List α) : Option (List α) :=
  if i < l.length then some ((l.eraseIdx i).take j ++ x :: (l.eraseIdx i).drop j) else none

/-- Change the elements from `lo` up to `hi`. -/
def mapRange (lo hi : Nat) (f : α → α) (l : List α) : Option (List α) :=
  if hi ≤ lo ∨ hi ≤ l.length then
    some (l.mapIdx fun i a => if lo ≤ i ∧ i < hi then f a else a)
  else none

def setAt (i : Nat) (x : α) (l : List α) : Option (List α) :=
  if i < l.length then some (l.set i x) else none

/-- `n` rounds of an operation. -/
def times {σ : Type*} : Nat → (σ → Option σ) → σ → Option σ
  | 0, _, s => some s
  | n + 1, f, s => (f s).bind (times n f)

abbrev Grid (α : Type*) := List (List α)

namespace Grid

def blank (rows cols : Nat) (x : α) : Grid α := List.replicate rows (List.replicate cols x)

/-- Change the row `y`. -/
def onRow (y : Nat) (f : List α → Option (List α)) (g : Grid α) : Option (Grid α) :=
  (g[y]?).bind fun row => (f row).map (g.set y)

/-- `rows` rows of `cols` cells each. -/
structure Sized (rows cols : Nat) (g : Grid α) : Prop where
  rows : g.length = rows
  cols : ∀ row ∈ g, row.length = cols

end Grid

/-! ## The shape is kept -/

section Length

variable {l l' : List α} {i j lo hi n : Nat} {x : α} {f : α → α}

/-- The operation gives a result, of the same length. -/
def KeepsLength (f : List α → Option (List α)) (l : List α) : Prop :=
  ∃ l', f l = some l' ∧ l'.length = l.length

theorem keepsLength_popInsert (hi : i < l.length) : KeepsLength (popInsert i j x) l := by
  refine ⟨_, if_pos hi, ?_⟩
  rw [List.length_append, List.length_cons, List.length_take, List.length_drop,
    List.length_eraseIdx_of_lt hi]
  omega

theorem keepsLength_mapRange (h : hi ≤ lo ∨ hi ≤ l.length) : KeepsLength (mapRange lo hi f) l :=
  ⟨_, if_pos h, List.length_mapIdx⟩

theorem keepsLength_setAt (hi : i < l.length) : KeepsLength (setAt i x) l :=
  ⟨_, if_pos hi, List.length_set⟩

theorem keepsLength_times {f : List α → Option (List α)}
    (h : ∀ l', l'.length = l.length → KeepsLength f l') (n : Nat) : KeepsLength (times n f) l := by
  induction n generalizing l with
  | zero => exact ⟨l, rfl, rfl⟩
  | succ n ih =>
      obtain ⟨l₁, hf, hl₁⟩ := h l rfl
      obtain ⟨l₂, hr, hl₂⟩ := ih fun l' hl' => h l' (hl'.trans hl₁)
      exact ⟨l₂, by rw [times, hf, Option.bind_some, hr], hl₂.trans hl₁⟩

end Length

namespace Grid

variable {rows cols : Nat} {g : Grid α} {x : α}

theorem sized_blank : Sized rows cols (blank rows cols x) where
  rows := List.length_replicate
  cols row h := by
    rw [List.eq_of_mem_replicate h]
    exact List.length_replicate

/-- The operation gives a result, of the same size. -/
def KeepsSize (rows cols : Nat) (f : Grid α → Option (Grid α)) : Prop :=
  ∀ g, Sized rows cols g → ∃ g', f g = some g' ∧ Sized rows cols g'

theorem keepsSize_popInsert {i j : Nat} {row : List α} (hi : i < rows)
    (hrow : row.length = cols) : KeepsSize rows cols (popInsert i j row) := by
  intro g hg
  have hlt : i < g.length := by rw [hg.rows]; exact hi
  obtain ⟨g', hf, hlen⟩ := keepsLength_popInsert (j := j) (x := row) hlt
  refine ⟨g', hf, hlen.trans hg.rows, fun r hr => ?_⟩
  obtain rfl := Option.some.inj ((if_pos hlt).symm.trans hf)
  rcases List.mem_append.mp hr with hr | hr
  · exact hg.cols r (List.mem_of_mem_eraseIdx (List.mem_of_mem_take hr))
  · rcases List.mem_cons.mp hr with rfl | hr
    · exact hrow
    · exact hg.cols r (List.mem_of_mem_eraseIdx (List.mem_of_mem_drop hr))

theorem keepsSize_onRow {y : Nat} {f : List α → Option (List α)} (hy : y < rows)
    (hf : ∀ row, row.length = cols → KeepsLength f row) : KeepsSize rows cols (onRow y f) := by
  intro g hg
  have hlt : y < g.length := by rw [hg.rows]; exact hy
  have hrow : (g[y]).length = cols := hg.cols _ (List.getElem_mem hlt)
  obtain ⟨row, hr, hlen⟩ := hf _ hrow
  refine ⟨g.set y row, ?_, ?_⟩
  · rw [onRow, List.getElem?_eq_getElem hlt, Option.bind_some, hr]
    rfl
  · refine ⟨List.length_set.trans hg.rows, fun r hmem => ?_⟩
    rcases List.mem_or_eq_of_mem_set hmem with hmem | rfl
    · exact hg.cols r hmem
    · exact hlen.trans hrow

theorem keepsSize_mapRange {lo hi : Nat} {f : List α → List α} (h : hi ≤ lo ∨ hi ≤ rows)
    (hf : ∀ row, (f row).length = row.length) : KeepsSize rows cols (mapRange lo hi f) := by
  intro g hg
  have hle : hi ≤ lo ∨ hi ≤ g.length := by rw [hg.rows]; exact h
  refine ⟨_, if_pos hle, List.length_mapIdx.trans hg.rows, fun r hr => ?_⟩
  obtain ⟨i, hi, rfl⟩ := List.mem_mapIdx.mp hr
  split
  · rw [hf]
    exact hg.cols _ (List.getElem_mem hi)
  · exact hg.cols _ (List.getElem_mem hi)

theorem keepsSize_times {f : Grid α → Option (Grid α)} (h : KeepsSize rows cols f) (n : Nat) :
    KeepsSize rows cols (times n f) := by
  intro g hg
  induction n generalizing g with
  | zero => exact ⟨g, rfl, hg⟩
  | succ n ih =>
      obtain ⟨g₁, hf, hg₁⟩ := h g hg
      obtain ⟨g₂, hr, hg₂⟩ := ih g₁ hg₁
      exact ⟨g₂, by rw [times, hf, Option.bind_some, hr], hg₂⟩

end Grid

/-! ## What the elements are -/

section Elements

variable {Q : α → Prop} {i j lo hi : Nat} {x : α} {l l' : List α}

/-- The operation brings in only elements that satisfy `Q`. -/
def KeepsAll (Q : α → Prop) (f : List α → Option (List α)) : Prop :=
  ∀ l l', (∀ a ∈ l, Q a) → f l = some l' → ∀ a ∈ l', Q a

theorem keepsAll_popInsert (hx : Q x) : KeepsAll Q (popInsert i j x) := by
  intro l l' hl hf a ha
  unfold popInsert at hf
  split at hf
  · obtain rfl := Option.some.inj hf
    rcases List.mem_append.mp ha with ha | ha
    · exact hl a (List.mem_of_mem_eraseIdx (List.mem_of_mem_take ha))
    · rcases List.mem_cons.mp ha with rfl | ha
      · exact hx
      · exact hl a (List.mem_of_mem_eraseIdx (List.mem_of_mem_drop ha))
  · cases hf

theorem keepsAll_mapRange {f : α → α} (hf : ∀ a, Q a → Q (f a)) :
    KeepsAll Q (mapRange lo hi f) := by
  intro l l' hl he a ha
  unfold mapRange at he
  split at he
  · obtain rfl := Option.some.inj he
    obtain ⟨k, hk, rfl⟩ := List.mem_mapIdx.mp ha
    split
    · exact hf _ (hl _ (List.getElem_mem hk))
    · exact hl _ (List.getElem_mem hk)
  · cases he

theorem keepsAll_setAt (hx : Q x) : KeepsAll Q (setAt i x) := by
  intro l l' hl hf a ha
  unfold setAt at hf
  split at hf
  · obtain rfl := Option.some.inj hf
    rcases List.mem_or_eq_of_mem_set ha with ha | rfl
    · exact hl a ha
    · exact hx
  · cases hf

theorem keepsAll_times {f : List α → Option (List α)} (h : KeepsAll Q f) (n : Nat) :
    KeepsAll Q (times n f) := by
  intro l l' hl hf
  induction n generalizing l with
  | zero =>
      obtain rfl := Option.some.inj hf
      exact hl
  | succ n ih =>
      obtain ⟨l₁, h₁, hr⟩ := Option.bind_eq_some_iff.mp hf
      exact ih l₁ (h l l₁ hl h₁) hr

/-- A row whose cells satisfy `Q`. -/
def RowAll (Q : α → Prop) (row : List α) : Prop := ∀ a ∈ row, Q a

theorem keepsAll_onRow {y : Nat} {f : List α → Option (List α)} (h : KeepsAll Q f) :
    KeepsAll (RowAll Q) (Grid.onRow y f) := by
  intro g g' hg hf row hrow
  obtain ⟨r, hr, hmap⟩ := Option.bind_eq_some_iff.mp hf
  obtain ⟨r', hr', rfl⟩ := Option.map_eq_some_iff.mp hmap
  rcases List.mem_or_eq_of_mem_set hrow with hrow | rfl
  · exact hg row hrow
  · exact h r _ (hg r (List.mem_of_getElem? hr)) hr'

theorem rowAll_replicate (hx : Q x) (n : Nat) : RowAll Q (List.replicate n x) := by
  intro a ha
  rw [List.eq_of_mem_replicate ha]
  exact hx

end Elements

/-! ## Elements moved along the list -/

section Shift

variable {l l' l₁ : List α} {lo hi i j k n m : Nat} {x : α}

/-- Between `lo` and `hi` the elements have moved `n` places towards `lo`, and the places they
leave hold `x`. -/
structure ShiftedUp (lo hi n : Nat) (x : α) (l l' : List α) : Prop where
  outside : ∀ k, k < lo ∨ hi < k → l'[k]? = l[k]?
  kept : ∀ k, lo ≤ k → k + n ≤ hi → l'[k]? = l[k + n]?
  filled : ∀ k, lo ≤ k → k ≤ hi → hi < k + n → l'[k]? = some x

/-- The same towards `hi`. -/
structure ShiftedDown (lo hi n : Nat) (x : α) (l l' : List α) : Prop where
  outside : ∀ k, k < lo ∨ hi < k → l'[k]? = l[k]?
  kept : ∀ k, lo ≤ k → k + n ≤ hi → l'[k + n]? = l[k]?
  filled : ∀ k, lo ≤ k → k ≤ hi → k < lo + n → l'[k]? = some x

theorem ShiftedUp.refl : ShiftedUp lo hi 0 x l l where
  outside _ _ := rfl
  kept _ _ _ := rfl
  filled _ _ hk hn := absurd hn (Nat.not_lt_of_le hk)

theorem ShiftedUp.trans (h₁ : ShiftedUp lo hi m x l l₁) (h₂ : ShiftedUp lo hi n x l₁ l') :
    ShiftedUp lo hi (n + m) x l l' where
  outside k hk := (h₂.outside k hk).trans (h₁.outside k hk)
  kept k hlo hhi := by
    rw [h₂.kept k hlo (by omega), h₁.kept (k + n) (by omega) (by omega), Nat.add_assoc]
  filled k hlo hhi hn := by
    by_cases hk : k + n ≤ hi
    · rw [h₂.kept k hlo hk, h₁.filled (k + n) (by omega) hk (by omega)]
    · exact h₂.filled k hlo hhi (Nat.lt_of_not_le hk)

theorem ShiftedDown.refl : ShiftedDown lo hi 0 x l l where
  outside _ _ := rfl
  kept _ _ _ := rfl
  filled _ hlo _ hn := absurd hn (Nat.not_lt_of_le hlo)

theorem ShiftedDown.trans (h₁ : ShiftedDown lo hi m x l l₁) (h₂ : ShiftedDown lo hi n x l₁ l') :
    ShiftedDown lo hi (n + m) x l l' where
  outside k hk := (h₂.outside k hk).trans (h₁.outside k hk)
  kept k hlo hhi := by
    rw [show k + (n + m) = k + m + n by omega, h₂.kept (k + m) (by omega) (by omega),
      h₁.kept k hlo (by omega)]
  filled k hlo hhi hn := by
    by_cases hk : k < lo + n
    · exact h₂.filled k hlo hhi hk
    · obtain ⟨j, rfl⟩ : ∃ j, k = j + n := ⟨k - n, by omega⟩
      rw [h₂.kept j (by omega) hhi, h₁.filled j (by omega) (by omega) (by omega)]

/-- Where an element is found after one has been moved. -/
theorem popInsert_getElem? (hi : i < l.length) (hj : j < l.length) :
    ∃ l', popInsert i j x l = some l' ∧
    ∀ k, l'[k]? = if k < j then (l.eraseIdx i)[k]? else if k = j then some x
      else (l.eraseIdx i)[k - 1]? := by
  have hlen := List.length_eraseIdx_of_lt hi
  have htake : ((l.eraseIdx i).take j).length = j := by
    rw [List.length_take]
    omega
  refine ⟨_, if_pos hi, fun k => ?_⟩
  by_cases hk : k < j
  · rw [if_pos hk, List.getElem?_append_left (by omega), List.getElem?_take_of_lt hk]
  · rw [if_neg hk, List.getElem?_append_right (by omega), htake]
    by_cases he : k = j
    · rw [if_pos he, he, Nat.sub_self]
      rfl
    · obtain ⟨d, rfl⟩ : ∃ d, k = j + d + 1 := ⟨k - j - 1, by omega⟩
      rw [if_neg he, show j + d + 1 - j = d + 1 by omega, List.getElem?_cons_succ,
        List.getElem?_drop]
      rfl

theorem popInsert_up (hle : lo ≤ hi) (hlt : hi < l.length) :
    ∃ l', popInsert lo hi x l = some l' ∧ ShiftedUp lo hi 1 x l l' := by
  obtain ⟨l', hl', hget⟩ := popInsert_getElem? (x := x) (Nat.lt_of_le_of_lt hle hlt) hlt
  refine ⟨l', hl', fun k hk => ?_, fun k hlo hhi => ?_, fun k hlo hhi hn => ?_⟩
  · rw [hget]
    rcases hk with hk | hk
    · rw [if_pos (by omega), List.getElem?_eraseIdx_of_lt hk]
    · rw [if_neg (by omega), if_neg (by omega), List.getElem?_eraseIdx_of_ge (by omega)]
      congr 1
      omega
  · rw [hget, if_pos (by omega), List.getElem?_eraseIdx_of_ge hlo]
  · rw [hget, if_neg (by omega), if_pos (by omega)]

theorem popInsert_down (hle : lo ≤ hi) (hlt : hi < l.length) :
    ∃ l', popInsert hi lo x l = some l' ∧ ShiftedDown lo hi 1 x l l' := by
  obtain ⟨l', hl', hget⟩ := popInsert_getElem? (x := x) hlt (Nat.lt_of_le_of_lt hle hlt)
  refine ⟨l', hl', fun k hk => ?_, fun k hlo hhi => ?_, fun k hlo hhi hn => ?_⟩
  · rw [hget]
    rcases hk with hk | hk
    · rw [if_pos hk, List.getElem?_eraseIdx_of_lt (by omega)]
    · rw [if_neg (by omega), if_neg (by omega), List.getElem?_eraseIdx_of_ge (by omega)]
      congr 1
      omega
  · rw [hget, if_neg (by omega), if_neg (by omega), Nat.add_sub_cancel,
      List.getElem?_eraseIdx_of_lt (by omega)]
  · rw [hget, if_neg (by omega), if_pos (by omega)]

/-- `n` rounds move by `n`, which beyond the size of the region leaves nothing of it. -/
theorem times_down (hle : lo ≤ hi) (hlt : hi < l.length) (n : Nat) :
    ∃ l', times n (popInsert hi lo x) l = some l' ∧ ShiftedDown lo hi n x l l' := by
  induction n generalizing l with
  | zero => exact ⟨l, rfl, .refl⟩
  | succ n ih =>
      obtain ⟨l₁, h₁, hs₁⟩ := popInsert_down (x := x) hle hlt
      obtain ⟨_, h₁', hlen⟩ := keepsLength_popInsert (j := lo) (x := x) hlt
      obtain rfl := Option.some.inj (h₁.symm.trans h₁')
      obtain ⟨l', h', hs'⟩ := ih (l := l₁) (hlen ▸ hlt)
      exact ⟨l', by rw [times, h₁, Option.bind_some, h'], hs₁.trans hs'⟩

theorem times_up (hle : lo ≤ hi) (hlt : hi < l.length) (n : Nat) :
    ∃ l', times n (popInsert lo hi x) l = some l' ∧ ShiftedUp lo hi n x l l' := by
  induction n generalizing l with
  | zero => exact ⟨l, rfl, .refl⟩
  | succ n ih =>
      obtain ⟨l₁, h₁, hs₁⟩ := popInsert_up (x := x) hle hlt
      obtain ⟨_, h₁', hlen⟩ := keepsLength_popInsert (j := hi) (x := x) (Nat.lt_of_le_of_lt hle hlt)
      obtain rfl := Option.some.inj (h₁.symm.trans h₁')
      obtain ⟨l', h', hs'⟩ := ih (l := l₁) (hlen ▸ hlt)
      exact ⟨l', by rw [times, h₁, Option.bind_some, h'], hs₁.trans hs'⟩

/-- A count beyond the size of the region is as good as the size. -/
theorem ShiftedUp.of_min (h : ShiftedUp lo hi (min n (hi - lo + 1)) x l l') :
    ShiftedUp lo hi n x l l' := by
  by_cases hn : n ≤ hi - lo + 1
  · rwa [Nat.min_eq_left hn] at h
  · exact ⟨h.outside, fun k hlo hhi => by omega, fun k hlo hhi _ => h.filled k hlo hhi (by omega)⟩

theorem ShiftedDown.of_min (h : ShiftedDown lo hi (min n (hi - lo + 1)) x l l') :
    ShiftedDown lo hi n x l l' := by
  by_cases hn : n ≤ hi - lo + 1
  · rwa [Nat.min_eq_left hn] at h
  · exact ⟨h.outside, fun k hlo hhi => by omega, fun k hlo hhi _ => h.filled k hlo hhi (by omega)⟩

end Shift

end P4Hyp
