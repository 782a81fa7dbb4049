import Mathlib.Data.List.Basic
import Mathlib.Algebra.Order.Ring.Nat

/-!
# Bounded queues and ring buffers

A ring buffer of `n` slots keeps one slot free, so that equal indices mean empty:
it holds `n - 1` elements at most.  A log says what has gone through a bounded
queue, and a ring holds what the log has accepted and not yet seen taken.
-/

namespace P4Hyp

structure Ring (α : Type*) where
  slots : Nat → α
  head : Nat
  tail : Nat

namespace Ring

variable {α : Type*} {n : Nat} {r : Ring α}

structure Wf (n : Nat) (r : Ring α) : Prop where
  head : r.head < n
  tail : r.tail < n

/-- The slot after slot `i`. -/
def next (n i : Nat) : Nat := (i + 1) % n

def count (n : Nat) (r : Ring α) : Nat := (r.head + n - r.tail) % n

/-- The elements from the tail on. -/
def contents (n : Nat) (r : Ring α) : List α :=
  (List.range (r.count n)).map fun i => r.slots ((r.tail + i) % n)

/-- A full ring stays as it is. -/
def push (n : Nat) (c : α) (r : Ring α) : Ring α :=
  if next n r.head = r.tail then r
  else { r with slots := fun i => if i = r.head then c else r.slots i, head := next n r.head }

def pop (n : Nat) (r : Ring α) : Ring α := { r with tail := next n r.tail }

theorem next_eq {i : Nat} (hi : i < n) : next n i = if i + 1 = n then 0 else i + 1 := by
  unfold next
  split
  · rename_i h
    rw [h, Nat.mod_self]
  · exact Nat.mod_eq_of_lt (by omega)

theorem wrap_eq {i k : Nat} (hi : i < n) (hk : k < n) :
    (i + k) % n = if i + k < n then i + k else i + k - n := by
  split
  · exact Nat.mod_eq_of_lt ‹_›
  · rw [Nat.mod_eq_sub_mod (by omega)]
    exact Nat.mod_eq_of_lt (by omega)

theorem count_eq_sub (h : r.Wf n) :
    r.count n = if r.tail ≤ r.head then r.head - r.tail else r.head + n - r.tail := by
  have hh := h.head
  have ht := h.tail
  unfold count
  split
  · rw [Nat.mod_eq_sub_mod (by omega), Nat.mod_eq_of_lt (by omega)]
    omega
  · exact Nat.mod_eq_of_lt (by omega)

theorem contents_length (n : Nat) (r : Ring α) : (r.contents n).length = r.count n := by
  rw [contents, List.length_map, List.length_range]

theorem full_iff (h : r.Wf n) : next n r.head = r.tail ↔ r.count n = n - 1 := by
  have hh := h.head
  have ht := h.tail
  rw [count_eq_sub h, next_eq hh]
  split
  · split
    · omega
    · omega
  · split
    · omega
    · omega

theorem wf_push (h : r.Wf n) (c : α) : (r.push n c).Wf n := by
  unfold push
  split
  · exact h
  · exact ⟨Nat.mod_lt _ (Nat.zero_lt_of_lt h.head), h.tail⟩

theorem wf_pop (h : r.Wf n) : (r.pop n).Wf n :=
  ⟨h.head, Nat.mod_lt _ (Nat.zero_lt_of_lt h.head)⟩

theorem contents_push (h : r.Wf n) (hroom : next n r.head ≠ r.tail) (c : α) :
    (r.push n c).contents n = r.contents n ++ [c] := by
  have hh := h.head
  have ht := h.tail
  have hcount : (r.push n c).count n = r.count n + 1 := by
    rw [count_eq_sub (wf_push h c), count_eq_sub h]
    rw [next_eq hh] at hroom
    simp only [push, next_eq hh, if_neg hroom]
    split at hroom
    · rename_i hw
      rw [if_pos hw]
      split
      · omega
      · split
        · omega
        · omega
    · rename_i hw
      rw [if_neg hw]
      split
      · split
        · omega
        · omega
      · split
        · omega
        · omega
  have hlt : r.count n < n := by
    rw [count_eq_sub h]
    split
    · omega
    · omega
  -- the slot written is the one after the last, and no other
  have hslot {i : Nat} (hi : i < n) : (r.tail + i) % n = r.head ↔ i = r.count n := by
    rw [wrap_eq ht hi, count_eq_sub h]
    split
    · split
      · omega
      · omega
    · split
      · omega
      · omega
  have hslots (i : Nat) : (r.push n c).slots i = if i = r.head then c else r.slots i := by
    rw [push, if_neg hroom]
  have htail : (r.push n c).tail = r.tail := by
    rw [push, if_neg hroom]
  rw [contents, hcount, List.range_succ, List.map_append, htail]
  refine congrArg₂ (· ++ ·) (List.map_congr_left fun i hi => ?_) ?_
  · have hi' : i < r.count n := List.mem_range.mp hi
    rw [hslots, if_neg]
    rw [hslot (by omega)]
    omega
  · rw [List.map_cons, List.map_nil, hslots, if_pos ((hslot hlt).mpr rfl)]

theorem contents_pop (h : r.Wf n) (hne : r.head ≠ r.tail) :
    r.contents n = r.slots r.tail :: (r.pop n).contents n := by
  have hh := h.head
  have ht := h.tail
  have hcount : r.count n = (r.pop n).count n + 1 := by
    rw [count_eq_sub (wf_pop h), count_eq_sub h]
    simp only [pop, next_eq ht]
    split
    · split
      · split
        · omega
        · omega
      · split
        · omega
        · omega
    · split
      · split
        · omega
        · omega
      · split
        · omega
        · omega
  rw [contents, hcount, List.range_succ_eq_map, List.map_cons, List.map_map, Nat.add_zero,
    Nat.mod_eq_of_lt ht]
  refine congrArg _ (List.map_congr_left fun i _ => ?_)
  show r.slots ((r.tail + (i + 1)) % n) = r.slots ((next n r.tail + i) % n)
  rw [next, Nat.mod_add_mod, Nat.add_right_comm, Nat.add_assoc]

end Ring

/-! ## What goes through -/

structure FifoLog (α : Type*) where
  accepted : List α
  taken : List α
  dropped : Nat

namespace FifoLog

variable {α : Type*} {n : Nat} {l : FifoLog α} {r : Ring α}

def start : FifoLog α := ⟨[], [], 0⟩

/-- `c` arrives at a queue of capacity `n`. -/
def arrive (n : Nat) (l : FifoLog α) (c : α) : FifoLog α :=
  if l.accepted.length - l.taken.length < n then { l with accepted := l.accepted ++ [c] }
  else { l with dropped := l.dropped + 1 }

def take (c : α) (l : FifoLog α) : FifoLog α := { l with taken := l.taken ++ [c] }

/-- The ring holds what was accepted and not yet taken. -/
structure Holds (n : Nat) (l : FifoLog α) (r : Ring α) : Prop where
  wf : r.Wf n
  order : l.taken ++ r.contents n = l.accepted

theorem Holds.held (h : Holds n l r) : l.accepted.length - l.taken.length = r.count n := by
  rw [← h.order, List.length_append, Ring.contents_length]
  omega

theorem arrive_full (h : Holds n l r) (hfull : Ring.next n r.head = r.tail) (c : α) :
    l.arrive (n - 1) c = { l with dropped := l.dropped + 1 } := by
  have hc := (Ring.full_iff h.wf).mp hfull
  rw [arrive, h.held, if_neg]
  omega

theorem arrive_room (h : Holds n l r) (hroom : Ring.next n r.head ≠ r.tail) (c : α) :
    l.arrive (n - 1) c = { l with accepted := l.accepted ++ [c] } := by
  have hc : r.count n ≠ n - 1 := fun hc => hroom ((Ring.full_iff h.wf).mpr hc)
  have hlt : r.count n < n := Nat.mod_lt _ (Nat.zero_lt_of_lt h.wf.head)
  rw [arrive, h.held, if_pos]
  omega

theorem Holds.arrive (h : Holds n l r) (c : α) : Holds n (l.arrive (n - 1) c) (r.push n c) := by
  by_cases hfull : Ring.next n r.head = r.tail
  · rw [arrive_full h hfull, Ring.push, if_pos hfull]
    exact ⟨h.wf, h.order⟩
  · refine ⟨Ring.wf_push h.wf c, ?_⟩
    rw [arrive_room h hfull]
    show l.taken ++ (r.push n c).contents n = l.accepted ++ [c]
    rw [Ring.contents_push h.wf hfull, ← List.append_assoc, h.order]

theorem Holds.take (h : Holds n l r) (hne : r.head ≠ r.tail) :
    Holds n (l.take (r.slots r.tail)) (r.pop n) := by
  refine ⟨Ring.wf_pop h.wf, ?_⟩
  show (l.taken ++ [r.slots r.tail]) ++ (r.pop n).contents n = l.accepted
  rw [← h.order, Ring.contents_pop h.wf hne, List.append_assoc]
  rfl

/-- What a burst of arrivals drops. -/
theorem foldl_arrive_dropped (n : Nat) (cs : List α) {l : FifoLog α}
    (hle : l.taken.length ≤ l.accepted.length) : (cs.foldl (arrive n) l).dropped =
      l.dropped + (cs.length - (n - (l.accepted.length - l.taken.length))) := by
  induction cs generalizing l with
  | nil =>
      rw [List.foldl_nil, List.length_nil]
      omega
  | cons c cs ih =>
      rw [List.foldl_cons, List.length_cons]
      by_cases hroom : l.accepted.length - l.taken.length < n
      · have ha : l.arrive n c = { l with accepted := l.accepted ++ [c] } := if_pos hroom
        have hacc : (l.arrive n c).accepted.length = l.accepted.length + 1 := by
          rw [ha]
          exact List.length_append
        have htaken : (l.arrive n c).taken = l.taken := by rw [ha]
        have hdropped : (l.arrive n c).dropped = l.dropped := by rw [ha]
        rw [ih (by rw [hacc, htaken]; omega), hacc, htaken, hdropped]
        omega
      · have ha : l.arrive n c = { l with dropped := l.dropped + 1 } := if_neg hroom
        have hacc : (l.arrive n c).accepted = l.accepted := by rw [ha]
        have htaken : (l.arrive n c).taken = l.taken := by rw [ha]
        have hdropped : (l.arrive n c).dropped = l.dropped + 1 := by rw [ha]
        rw [ih (by rw [hacc, htaken]; exact hle), hacc, htaken, hdropped]
        omega

end FifoLog

end P4Hyp
