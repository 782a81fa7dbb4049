import Mathlib.Algebra.Order.Ring.Nat
import Mathlib.Data.List.DropRight

/-!
# Capped histories

A list that grows at its end and keeps its newest elements, up to a limit.  The
elements are numbered in the order in which they came, and the numbers are not
stored: they follow from how many have come and how many are kept.
-/

namespace P4Hyp

variable {α : Type*}

structure History (α : Type*) where
  /-- How many elements there have been. -/
  total : Nat
  kept : List α

/-- The last elements of a list, `limit` of them at most. -/
def newest (limit : Nat) (l : List α) : List α := l.drop (l.length - limit)

theorem newest_length (limit : Nat) (l : List α) :
    (newest limit l).length = min limit l.length := by
  rw [newest, List.length_drop]
  omega

/-- What is not kept of a part is not kept of the whole. -/
theorem newest_newest_append (limit : Nat) (l₁ l₂ : List α) :
    newest limit (newest limit l₁ ++ l₂) = newest limit (l₁ ++ l₂) := by
  have hlen := newest_length limit l₁
  have hcut : newest limit l₁ ++ l₂ = (l₁ ++ l₂).drop (l₁.length - limit) := by
    rw [newest, List.drop_append_of_le_length (Nat.sub_le _ _)]
  unfold newest at hlen ⊢
  rw [show l₁.drop (l₁.length - limit) ++ l₂ = _ from hcut, List.drop_drop]
  congr 1
  simp only [List.length_append, List.length_drop]
  omega

/-! ## Numbers of a part -/

theorem drop_zipIdx (l : List α) (k n : Nat) : (l.zipIdx k).drop n = (l.drop n).zipIdx (k + n) := by
  induction n generalizing l k with
  | zero => rfl
  | succ n ih =>
      cases l with
      | nil => rfl
      | cons x l =>
          rw [List.zipIdx_cons, List.drop_succ_cons, List.drop_succ_cons, ih, Nat.add_assoc,
            Nat.add_comm 1]

theorem take_zipIdx (l : List α) (k n : Nat) : (l.zipIdx k).take n = (l.take n).zipIdx k := by
  induction n generalizing l k with
  | zero => rfl
  | succ n ih =>
      cases l with
      | nil => rfl
      | cons x l =>
          rw [List.zipIdx_cons, List.take_succ_cons, List.take_succ_cons, ih, List.zipIdx_cons]

theorem newest_zipIdx (limit : Nat) (l : List α) (k : Nat) :
    newest limit (l.zipIdx k) = (newest limit l).zipIdx (k + (l.length - limit)) := by
  rw [newest, drop_zipIdx, List.length_zipIdx]
  rfl

/-- Dropping from the end leaves the numbers of the others. -/
theorem rdropWhile_zipIdx (p : α → Bool) (l : List α) (k : Nat) :
    (l.zipIdx k).rdropWhile (fun x => p x.1) = (l.rdropWhile p).zipIdx k := by
  induction l using List.reverseRecOn with
  | nil => rfl
  | append_singleton l x ih =>
      rw [List.zipIdx_append, List.zipIdx_singleton, List.rdropWhile_concat,
        List.rdropWhile_concat, ih]
      split
      · rfl
      · rw [List.zipIdx_append, List.zipIdx_singleton]

namespace History

/-- The oldest elements are gone. -/
def evicted (h : History α) : Nat := h.total - h.kept.length

def numbered (h : History α) : List (α × Nat) := h.kept.zipIdx h.evicted

def append (limit : Nat) (xs : List α) (h : History α) : History α where
  total := h.total + xs.length
  kept := newest limit (h.kept ++ xs)

/-- No more is kept than there has been. -/
def Fits (h : History α) : Prop := h.kept.length ≤ h.total

/-- Elements have been added at the end, and some dropped at the beginning. -/
def Extends (h h' : History α) : Prop :=
  ∃ added, h'.total = h.total + added.length ∧ h'.kept <:+ h.kept ++ added

section

variable {h h' h'' : History α} {limit i j : Nat} {x : α} {xs ys : List α}

theorem mem_numbered : (x, i) ∈ h.numbered ↔ h.evicted ≤ i ∧ h.kept[i - h.evicted]? = some x := by
  unfold numbered
  rw [List.mk_mem_zipIdx_iff_le_and_getElem?_sub]

theorem append_nil (hk : h.kept.length ≤ limit) : h.append limit [] = h := by
  unfold append newest
  rw [List.append_nil, Nat.sub_eq_zero_of_le hk]
  rfl

theorem Fits.append (hfit : h.Fits) : (h.append limit xs).Fits := by
  show (newest limit (h.kept ++ xs)).length ≤ h.total + xs.length
  rw [newest_length, List.length_append]
  exact (Nat.min_le_right _ _).trans (Nat.add_le_add_right hfit _)

theorem Fits.lt_total (hfit : h.Fits) (hx : (x, i) ∈ h.numbered) : i < h.total := by
  obtain ⟨hle, hget⟩ := mem_numbered.mp hx
  have hlt := (List.getElem?_eq_some_iff.mp hget).1
  unfold Fits at hfit
  unfold evicted at hle hlt
  omega

theorem append_append :
    (h.append limit xs).append limit ys = h.append limit (xs ++ ys) := by
  unfold append
  rw [newest_newest_append, List.append_assoc, List.length_append, Nat.add_assoc]

theorem Extends.refl (h : History α) : Extends h h :=
  ⟨[], rfl, [], by rw [List.append_nil, List.nil_append]⟩

theorem Extends.trans (h₁ : Extends h h') (h₂ : Extends h' h'') : Extends h h'' := by
  obtain ⟨a₁, ht₁, hk₁⟩ := h₁
  obtain ⟨a₂, ht₂, hk₂⟩ := h₂
  refine ⟨a₁ ++ a₂, ?_, ?_⟩
  · rw [ht₂, ht₁, List.length_append, Nat.add_assoc]
  · rw [← List.append_assoc]
    obtain ⟨pre, hpre⟩ := hk₁
    exact hk₂.trans ⟨pre, by rw [← List.append_assoc, hpre]⟩

theorem extends_append (h : History α) (limit : Nat) (xs : List α) :
    Extends h (h.append limit xs) := ⟨xs, rfl, List.drop_suffix _ _⟩

/-- An element keeps its number until it is dropped. -/
theorem Extends.numbered (he : Extends h h') (hfit : h.Fits) (hx : (x, i) ∈ h.numbered) :
    (x, i) ∈ h'.numbered ∨ i < h'.evicted := by
  obtain ⟨added, htotal, pre, hpre⟩ := he
  obtain ⟨hle, hget⟩ := mem_numbered.mp hx
  have hlen := congrArg List.length hpre
  rw [List.length_append, List.length_append] at hlen
  have hevicted : h'.evicted = h.evicted + pre.length := by
    unfold Fits at hfit
    unfold evicted
    omega
  have hall : (h.kept ++ added)[i - h.evicted]? = some x := by
    rw [List.getElem?_append_left (List.getElem?_eq_some_iff.mp hget).1]
    exact hget
  by_cases hgone : i < h'.evicted
  · exact .inr hgone
  · left
    refine mem_numbered.mpr ⟨Nat.le_of_not_lt hgone, ?_⟩
    rw [← hpre, List.getElem?_append_right (by omega)] at hall
    rw [hevicted, Nat.sub_add_eq]
    exact hall

/-- The elements of an append are numbered from the total on. -/
theorem mem_numbered_append (hfit : h.Fits) (hx : xs[j]? = some x) (hj : xs.length - j ≤ limit) :
    (x, h.total + j) ∈ (h.append limit xs).numbered := by
  have hlt : j < xs.length := (List.getElem?_eq_some_iff.mp hx).1
  have hlen := newest_length limit (h.kept ++ xs)
  rw [List.length_append] at hlen
  have hevicted : (h.append limit xs).evicted =
      h.total + xs.length - min limit (h.kept.length + xs.length) := by
    rw [← hlen]
    rfl
  unfold Fits at hfit
  refine mem_numbered.mpr ⟨by omega, ?_⟩
  show (newest limit (h.kept ++ xs))[_]? = some x
  rw [newest, List.getElem?_drop, List.length_append, List.getElem?_append_right (by omega), ← hx]
  congr 1
  omega

end

end History

end P4Hyp
