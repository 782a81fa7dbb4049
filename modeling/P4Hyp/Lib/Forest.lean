import Mathlib.Data.List.Lex
import Mathlib.Data.Nat.Find

/-!
# Walks over linked lists

Entries are linked to lists, and an entry may have a list of its own below it.  Nothing
keeps the links from going in circles.  A walk goes through a list entry by entry, through
what is below an entry before the next one, and no deeper than a given level.
-/

namespace P4Hyp

variable {α : Type*}

/-- The `i`th of those that follow one another from `x` on. -/
def chain (next : α → Option α) : Option α → Nat → Option α
  | x, 0 => x
  | x, i + 1 => chain next (x.bind next) i

/-- They never end. -/
def Endless (next : α → Option α) (x : Option α) : Prop := ∀ i, chain next x i ≠ none

theorem chain_none (next : α → Option α) (i : Nat) : chain next none i = none := by
  induction i with
  | zero => rfl
  | succ i ih => exact ih

theorem chain_succ (next : α → Option α) (x : Option α) (i : Nat) :
    chain next x (i + 1) = (chain next x i).bind next := by
  induction i generalizing x with
  | zero => rfl
  | succ i ih => exact ih (x.bind next)

theorem Endless.ne_none {next : α → Option α} {x : Option α} (h : Endless next x) : x ≠ none := h 0

theorem Endless.bind {next : α → Option α} {x : Option α} (h : Endless next x) :
    Endless next (x.bind next) :=
  fun i => h (i + 1)

/-- A circle has no end. -/
theorem endless_of_eq {next : α → Option α} {a : α} (h : next a = some a) :
    Endless next (some a) := by
  intro i
  have hsame : chain next (some a) i = some a := by
    induction i with
    | zero => rfl
    | succ i ih => rw [chain_succ, ih, Option.bind_some, h]
  rw [hsame]
  exact Option.some_ne_none a

/-- What a walk makes of an entry: it never gets past it, ends there, passes by, or goes
into the list below. -/
inductive Spot (α : Type*)
  | lost
  | stop
  | leaf
  | node (below : Option α)

structure Forest (α : Type*) where
  spot : α → Spot α
  next : α → Option α

namespace Forest

inductive Outcome
  | done
  | stopped

variable (F : Forest α)

/-- The walk through the list from `x` on ends, with `n` more levels allowed below. -/
inductive Visits : Nat → Option α → Outcome → Prop
  | nil {n : Nat} : Visits n none .done
  | stop {n : Nat} {a : α} : F.spot a = .stop → Visits n (some a) .stopped
  | deep {a : α} {y : Option α} : F.spot a = .node y → Visits 0 (some a) .stopped
  | leaf {n : Nat} {a : α} {o : Outcome} : F.spot a = .leaf → Visits n (F.next a) o →
      Visits n (some a) o
  | under {n : Nat} {a : α} {y : Option α} : F.spot a = .node y → Visits n y .stopped →
      Visits (n + 1) (some a) .stopped
  | past {n : Nat} {a : α} {y : Option α} {o : Outcome} : F.spot a = .node y → Visits n y .done →
      Visits (n + 1) (F.next a) o → Visits (n + 1) (some a) o

/-! ## Paths -/

/-- The list at a path: in the list from `x` on and in every list below, the place of the
entry that is gone into. -/
inductive ListAt : Option α → List Nat → Option α → Prop
  | nil {x : Option α} : ListAt x [] x
  | cons {x y z : Option α} {i : Nat} {a : α} {r : List Nat} : chain F.next x i = some a →
      F.spot a = .node y → ListAt y r z → ListAt x (i :: r) z

/-- A walk that comes to the path ends there: the entry says so, or has a list below that
is a level too deep. -/
def Stops (n : Nat) (x : Option α) (k : List Nat) : Prop :=
  ∃ r z i a, k = r ++ [i] ∧ F.ListAt x r z ∧ chain F.next z i = some a ∧
    (F.spot a = .stop ∨ r.length = n ∧ ∃ y, F.spot a = .node y)

/-- In the order of paths, something that stops the walk comes before every lost entry and
before the end that an endless list does not have. -/
structure Guarded (n : Nat) (x : Option α) : Prop where
  lost : ∀ {r z i a}, F.ListAt x r z → chain F.next z i = some a → F.spot a = .lost →
    ∃ k, F.Stops n x k ∧ k < r ++ [i]
  endless : ∀ {r z}, F.ListAt x r z → Endless F.next z → ∃ k, F.Stops n x k ∧ ∃ i, k < r ++ [i]

/-! ## What a walk passes by -/

/-- The walk gets past the entry. -/
inductive Clear : Nat → α → Prop
  | leaf {n : Nat} {a : α} : F.spot a = .leaf → Clear n a
  | node {n : Nat} {a : α} {y : Option α} :
    F.spot a = .node y → F.Visits n y .done → Clear (n + 1) a

/-- The walk ends at the entry, or below it. -/
inductive Halts : Nat → α → Prop
  | stop {n : Nat} {a : α} : F.spot a = .stop → Halts n a
  | deep {a : α} {y : Option α} : F.spot a = .node y → Halts 0 a
  | under {n : Nat} {a : α} {y : Option α} :
    F.spot a = .node y → F.Visits n y .stopped → Halts (n + 1) a

variable {F} {n i : Nat} {x y z : Option α} {a : α} {r k : List Nat} {o : Outcome}

theorem Clear.visits (h : F.Clear n a) (hrest : F.Visits n (F.next a) o) :
    F.Visits n (some a) o := by
  cases h with
  | leaf ha => exact .leaf ha hrest
  | node ha hy => exact .past ha hy hrest

theorem Halts.visits (h : F.Halts n a) : F.Visits n (some a) .stopped := by
  cases h with
  | stop ha => exact .stop ha
  | deep ha => exact .deep ha
  | under ha hy => exact .under ha hy

theorem Visits.spot_ne_lost (h : F.Visits n (some a) o) : F.spot a ≠ .lost := by
  intro ha
  cases h with
  | stop hb => simp [ha] at hb
  | deep hb => simp [ha] at hb
  | leaf hb _ => simp [ha] at hb
  | under hb _ => simp [ha] at hb
  | past hb _ _ => simp [ha] at hb

theorem Visits.of_stop (h : F.Visits n (some a) o) (ha : F.spot a = .stop) : o = .stopped := by
  cases h with
  | stop _ => rfl
  | deep _ => rfl
  | leaf hb _ => simp [ha] at hb
  | under _ _ => rfl
  | past hb _ _ => simp [ha] at hb

theorem Visits.of_node (h : F.Visits (n + 1) (some a) o) (ha : F.spot a = .node y) :
    F.Visits n y .stopped ∧ o = .stopped ∨ F.Visits n y .done ∧ F.Visits (n + 1) (F.next a) o := by
  cases h with
  | stop hb => simp [ha] at hb
  | leaf hb _ => simp [ha] at hb
  | under hb hy =>
      obtain rfl := Spot.node.inj (ha.symm.trans hb)
      exact .inl ⟨hy, rfl⟩
  | past hb hy hrest =>
      obtain rfl := Spot.node.inj (ha.symm.trans hb)
      exact .inr ⟨hy, hrest⟩

/-- A walk gets past all that come before some place in the list. -/
theorem visits_chain (hclear : ∀ j < i, ∀ a, chain F.next x j = some a → F.Clear n a)
    (h : F.Visits n (chain F.next x i) o) : F.Visits n x o := by
  induction i generalizing x with
  | zero => exact h
  | succ i ih =>
      cases x with
      | none =>
          rw [chain_none] at h
          exact h
      | some a =>
          refine (hclear 0 (Nat.succ_pos i) a rfl).visits (ih (fun j hj b hb => ?_) h)
          exact hclear (j + 1) (Nat.succ_lt_succ hj) b hb

theorem Visits.done_clear (h : F.Visits n x .done) (i : Nat) (hi : chain F.next x i = some a) :
    F.Clear n a := by
  generalize ho : Outcome.done = o at h
  induction h generalizing i with
  | nil =>
      rw [chain_none] at hi
      cases hi
  | stop _ => cases ho
  | deep _ => cases ho
  | under _ _ _ => cases ho
  | leaf ha _ ih =>
      cases i with
      | zero =>
          obtain rfl := Option.some.inj hi
          exact .leaf ha
      | succ i => exact ih i hi ho
  | past ha hy _ _ ih =>
      cases i with
      | zero =>
          obtain rfl := Option.some.inj hi
          exact .node ha hy
      | succ i => exact ih i hi ho

theorem Visits.done_ends (h : F.Visits n x .done) : ¬ Endless F.next x := by
  generalize ho : Outcome.done = o at h
  induction h with
  | nil => exact fun hx => hx.ne_none rfl
  | stop _ => cases ho
  | deep _ => cases ho
  | under _ _ _ => cases ho
  | leaf _ _ ih => exact fun hx => ih ho hx.bind
  | past _ _ _ _ ih => exact fun hx => ih ho hx.bind

variable (F) in
/-- The first entry of the list that a walk does not get past. -/
structure FirstHalt (n : Nat) (x : Option α) (i : Nat) (a : α) : Prop where
  place : chain F.next x i = some a
  halts : F.Halts n a
  clear : ∀ j < i, ∀ b, chain F.next x j = some b → F.Clear n b

theorem FirstHalt.head (h : F.Halts n a) : F.FirstHalt n (some a) 0 a where
  place := rfl
  halts := h
  clear j hj := absurd hj (Nat.not_lt_zero j)

theorem FirstHalt.succ {b : α} (ha : F.Clear n a) (h : F.FirstHalt n (F.next a) i b) :
    F.FirstHalt n (some a) (i + 1) b where
  place := h.place
  halts := h.halts
  clear j hj c hc := by
    cases j with
    | zero =>
        obtain rfl := Option.some.inj hc
        exact ha
    | succ j => exact h.clear j (Nat.lt_of_succ_lt_succ hj) c hc

theorem Visits.stopped_first (h : F.Visits n x .stopped) : ∃ i a, F.FirstHalt n x i a := by
  generalize ho : Outcome.stopped = o at h
  induction h with
  | nil => cases ho
  | stop ha => exact ⟨0, _, .head (.stop ha)⟩
  | deep ha => exact ⟨0, _, .head (.deep ha)⟩
  | under ha hy _ => exact ⟨0, _, .head (.under ha hy)⟩
  | leaf ha _ ih =>
      obtain ⟨i, b, hb⟩ := ih ho
      exact ⟨i + 1, b, hb.succ (.leaf ha)⟩
  | past ha hy _ _ ih =>
      obtain ⟨i, b, hb⟩ := ih ho
      exact ⟨i + 1, b, hb.succ (.node ha hy)⟩

/-! ## Obstacles -/

/-- A walk that comes to the end has come to the end of every list. -/
theorem Visits.done_lists (h : F.Visits n x .done) (hz : F.ListAt x r z) :
    ∃ m, n = m + r.length ∧ F.Visits m z .done := by
  induction hz generalizing n with
  | nil => exact ⟨n, rfl, h⟩
  | cons hi ha _ ih =>
      cases h.done_clear _ hi with
      | leaf hleaf => simp [ha] at hleaf
      | node hnode hy =>
          obtain rfl := Spot.node.inj (ha.symm.trans hnode)
          obtain ⟨m, hm, hz⟩ := ih hy
          exact ⟨m, by rw [hm, List.length_cons, Nat.add_assoc], hz⟩

variable (F) in
/-- A walk of the list comes to none of `I`: there is a lost entry, or no end. -/
inductive Obstructs : Option α → Set Nat → Prop
  | lost {z : Option α} {i : Nat} {a : α} :
    chain F.next z i = some a → F.spot a = .lost → Obstructs z {i}
  | endless {z : Option α} : Endless F.next z → Obstructs z Set.univ

theorem Obstructs.not_done {I : Set Nat} (h : F.Obstructs z I) : ¬ F.Visits n z .done := by
  intro hz
  cases h with
  | lost hi ha =>
      cases hz.done_clear _ hi with
      | leaf hleaf => simp [ha] at hleaf
      | node hnode _ => simp [ha] at hnode
  | endless hend => exact hz.done_ends hend

theorem guarded_iff : F.Guarded n x ↔ ∀ r z I, F.ListAt x r z → F.Obstructs z I →
    ∃ k, F.Stops n x k ∧ ∃ i ∈ I, k < r ++ [i] := by
  constructor
  · intro h r z I hz hI
    cases hI with
    | lost hi ha =>
        obtain ⟨k, hk, hlt⟩ := h.lost hz hi ha
        exact ⟨k, hk, _, rfl, hlt⟩
    | endless hend =>
        obtain ⟨k, hk, i, hlt⟩ := h.endless hz hend
        exact ⟨k, hk, i, trivial, hlt⟩
  · intro h
    constructor
    · intro r z i a hz hi ha
      obtain ⟨k, hk, _, rfl, hlt⟩ := h r z _ hz (.lost hi ha)
      exact ⟨k, hk, hlt⟩
    · intro r z hz hend
      obtain ⟨k, hk, i, -, hlt⟩ := h r z _ hz (.endless hend)
      exact ⟨k, hk, i, hlt⟩

theorem Stops.cons {y : Option α} (h : F.Stops n y k) (hi : chain F.next x i = some a)
    (ha : F.spot a = .node y) : F.Stops (n + 1) x (i :: k) := by
  obtain ⟨r, z, j, b, rfl, hz, hj, hstop⟩ := h
  refine ⟨i :: r, z, j, b, rfl, .cons hi ha hz, hj, hstop.imp_right fun hdeep => ?_⟩
  exact ⟨congrArg (· + 1) hdeep.1, hdeep.2⟩

/-- What stops a walk is at an entry of the list that the walk does not get past, or below it. -/
theorem Stops.not_clear (h : F.Stops n x k) :
    ∃ i t a, k = i :: t ∧ chain F.next x i = some a ∧ ¬ F.Clear n a := by
  obtain ⟨r, z, j, b, rfl, hz, hj, hstop⟩ := h
  cases hz with
  | nil =>
      refine ⟨j, [], b, rfl, hj, fun hb => ?_⟩
      cases hb with
      | leaf hleaf => simp [hleaf] at hstop
      | node hnode _ => simp [hnode] at hstop
  | @cons _ y _ i a r hi ha hz =>
      refine ⟨i, r ++ [j], a, rfl, hi, fun hclear => ?_⟩
      cases hclear with
      | leaf hleaf => simp [ha] at hleaf
      | node hnode hy =>
          obtain rfl := Spot.node.inj (ha.symm.trans hnode)
          obtain ⟨m, hm, hdone⟩ := hy.done_lists hz
          cases hdone.done_clear _ hj with
          | leaf hleaf => simp [hleaf] at hstop
          | node hnode' _ =>
              simp only [hnode', reduceCtorEq, false_or, List.length_cons] at hstop
              omega

theorem Stops.tail (h : F.Stops (n + 1) x (i :: k)) (hi : chain F.next x i = some a)
    (ha : F.spot a = .node y) : F.Stops n y k := by
  obtain ⟨r, z, j, b, hk, hz, hj, hstop⟩ := h
  cases hz with
  | nil =>
      obtain ⟨rfl, rfl⟩ := List.cons.inj hk
      obtain rfl := Option.some.inj (hi.symm.trans hj)
      simp [ha] at hstop
  | @cons _ y' _ i' a' r hi' ha' hz =>
      obtain ⟨rfl, rfl⟩ := List.cons.inj hk
      obtain rfl := Option.some.inj (hi.symm.trans hi')
      obtain rfl := Spot.node.inj (ha.symm.trans ha')
      refine ⟨r, z, j, b, rfl, hz, hj, hstop.imp_right fun hdeep => ?_⟩
      exact ⟨Nat.succ.inj hdeep.1, hdeep.2⟩

theorem FirstHalt.stops (h : F.FirstHalt n x i a) : ∃ t, F.Stops n x (i :: t) := by
  induction n generalizing x i a with
  | zero =>
      cases h.halts with
      | stop ha => exact ⟨[], [], x, i, a, rfl, .nil, h.place, .inl ha⟩
      | deep ha => exact ⟨[], [], x, i, a, rfl, .nil, h.place, .inr ⟨rfl, _, ha⟩⟩
  | succ n ih =>
      cases h.halts with
      | stop ha => exact ⟨[], [], x, i, a, rfl, .nil, h.place, .inl ha⟩
      | under ha hy =>
          obtain ⟨j, b, hb⟩ := hy.stopped_first
          obtain ⟨t, ht⟩ := ih hb
          exact ⟨j :: t, ht.cons h.place ha⟩

theorem Obstructs.nonempty {I : Set Nat} (h : F.Obstructs z I) : I.Nonempty := by
  cases h with
  | lost _ _ => exact ⟨_, rfl⟩
  | endless _ => exact ⟨0, trivial⟩

/-- Nothing is in the way before the first entry that a walk does not get past. -/
theorem FirstHalt.obstacle {I : Set Nat} (h : F.FirstHalt n x i a) (hz : F.ListAt x r z)
    (hI : F.Obstructs z I) :
    (∃ l ∈ I, ∃ j t, r ++ [l] = j :: t ∧ i < j) ∨
      ∃ r' y, r = i :: r' ∧ F.spot a = .node y ∧ F.ListAt y r' z := by
  cases hz with
  | nil =>
      left
      cases hI with
      | @lost j b hj hb =>
          refine ⟨j, rfl, j, [], rfl, ?_⟩
          by_contra hle
          rcases Nat.lt_or_eq_of_le (Nat.not_lt.mp hle) with hlt | rfl
          · cases h.clear j hlt b hj with
            | leaf hleaf => simp [hb] at hleaf
            | node hnode _ => simp [hb] at hnode
          · obtain rfl := Option.some.inj (hj.symm.trans h.place)
            cases h.halts with
            | stop ha => simp [hb] at ha
            | deep ha => simp [hb] at ha
            | under ha _ => simp [hb] at ha
      | endless _ => exact ⟨i + 1, trivial, i + 1, [], rfl, Nat.lt_succ_self i⟩
  | @cons _ y _ j b r hj hb hz =>
      obtain ⟨l, hl⟩ := hI.nonempty
      rcases Nat.lt_trichotomy j i with hlt | rfl | hlt
      · cases h.clear j hlt b hj with
        | leaf hleaf => simp [hb] at hleaf
        | node hnode hy =>
            obtain rfl := Spot.node.inj (hb.symm.trans hnode)
            obtain ⟨m, -, hdone⟩ := hy.done_lists hz
            exact absurd hdone hI.not_done
      · obtain rfl := Option.some.inj (hj.symm.trans h.place)
        exact .inr ⟨r, y, rfl, hb, hz⟩
      · exact .inl ⟨l, hl, j, r ++ [l], rfl, hlt⟩

/-! ## The walk as a whole -/

theorem Visits.guarded_of_done (h : F.Visits n x .done) : F.Guarded n x := by
  refine guarded_iff.mpr fun r z I hz hI => ?_
  obtain ⟨m, -, hdone⟩ := h.done_lists hz
  exact absurd hdone hI.not_done

/-- Where the walk ends at an entry, it is enough to look below that one. -/
theorem FirstHalt.guarded (h : F.FirstHalt n x i a)
    (hbelow : ∀ y, F.spot a = .node y → ∀ r z I, F.ListAt y r z → F.Obstructs z I →
      ∃ t, F.Stops n x (i :: t) ∧ ∃ l ∈ I, t < r ++ [l]) : F.Guarded n x := by
  refine guarded_iff.mpr fun r z I hz hI => ?_
  rcases h.obstacle hz hI with ⟨l, hl, j, t, heq, hlt⟩ | ⟨r', y, rfl, ha, hz'⟩
  · obtain ⟨s, hs⟩ := h.stops
    refine ⟨i :: s, hs, l, hl, ?_⟩
    rw [heq, List.cons_lt_cons_iff]
    exact .inl hlt
  · obtain ⟨t, ht, l, hl, hlt⟩ := hbelow y ha r' z I hz' hI
    exact ⟨i :: t, ht, l, hl, List.cons_lt_cons_iff.mpr (.inr ⟨rfl, hlt⟩)⟩

theorem Visits.guarded (h : F.Visits n x o) : F.Guarded n x := by
  induction n generalizing x o with
  | zero =>
      cases o with
      | done => exact h.guarded_of_done
      | stopped =>
          obtain ⟨i, a, hfirst⟩ := h.stopped_first
          refine hfirst.guarded fun y ha r z I _ hI => ?_
          obtain ⟨l, hl⟩ := hI.nonempty
          have hstops : F.Stops 0 x [i] := ⟨[], x, i, a, rfl, .nil, hfirst.place, .inr ⟨rfl, y, ha⟩⟩
          refine ⟨[], hstops, l, hl, ?_⟩
          cases r with
          | nil => exact List.nil_lt_cons l []
          | cons j r => exact List.nil_lt_cons j (r ++ [l])
  | succ n ih =>
      cases o with
      | done => exact h.guarded_of_done
      | stopped =>
          obtain ⟨i, a, hfirst⟩ := h.stopped_first
          refine hfirst.guarded fun y ha r z I hz hI => ?_
          cases hfirst.halts with
          | stop hstop => simp [ha] at hstop
          | under hnode hy =>
              obtain rfl := Spot.node.inj (ha.symm.trans hnode)
              obtain ⟨k, hk, hlt⟩ := guarded_iff.mp (ih hy) r z I hz hI
              exact ⟨k, hk.cons hfirst.place ha, hlt⟩

theorem Guarded.node (h : F.Guarded (n + 1) x) (hi : chain F.next x i = some a)
    (ha : F.spot a = .node y)
    (hclear : ∀ j < i, ∀ b, chain F.next x j = some b → F.Clear (n + 1) b) : F.Guarded n y := by
  refine guarded_iff.mpr fun r z I hz hI => ?_
  obtain ⟨k, hk, l, hl, hlt⟩ := guarded_iff.mp h (i :: r) z I (.cons hi ha hz) hI
  obtain ⟨j, t, b, rfl, hj, hb⟩ := hk.not_clear
  rcases List.cons_lt_cons_iff.mp hlt with hji | ⟨rfl, htail⟩
  · exact absurd (hclear j hji b hj) hb
  · exact ⟨t, hk.tail hi ha, l, hl, htail⟩

/-- In a list that is guarded the first entry that a walk does not get past is not a lost one. -/
theorem Guarded.spot_ne_lost (h : F.Guarded n x) (hi : chain F.next x i = some a)
    (hclear : ∀ j < i, ∀ b, chain F.next x j = some b → F.Clear n b) : F.spot a ≠ .lost := by
  intro ha
  obtain ⟨k, hk, hlt⟩ := h.lost .nil hi ha
  obtain ⟨j, t, b, rfl, hj, hb⟩ := hk.not_clear
  rcases List.cons_lt_cons_iff.mp hlt with hji | ⟨-, hnil⟩
  · exact hb (hclear j hji b hj)
  · exact List.not_lt_nil t hnil

theorem Guarded.ends (h : F.Guarded n x) (hclear : ∀ i a, chain F.next x i = some a → F.Clear n a) :
    ∃ i, chain F.next x i = none := by
  by_contra hno
  obtain ⟨k, hk, -⟩ := h.endless .nil fun i hi => hno ⟨i, hi⟩
  obtain ⟨j, t, b, -, hj, hb⟩ := hk.not_clear
  exact hb (hclear j b hj)

/-- It is enough that a list below is walked, if the walk comes to it. -/
theorem Guarded.visits_of (h : F.Guarded n x)
    (hnode : ∀ i a y, chain F.next x i = some a → F.spot a = .node y →
      (∀ j < i, ∀ b, chain F.next x j = some b → F.Clear n b) → F.Clear n a ∨ F.Halts n a) :
    ∃ o, F.Visits n x o := by
  classical
  by_cases hall : ∀ i a, chain F.next x i = some a → F.Clear n a
  · obtain ⟨i, hi⟩ := h.ends hall
    have hend : F.Visits n (chain F.next x i) .done := by
      rw [hi]
      exact .nil
    exact ⟨.done, visits_chain (fun j _ b hb => hall j b hb) hend⟩
  · have hex : ∃ i, ∃ a, chain F.next x i = some a ∧ ¬ F.Clear n a := by
      by_contra hno
      exact hall fun i a hi => not_not.mp fun ha => hno ⟨i, a, hi, ha⟩
    obtain ⟨a, hi, ha⟩ := Nat.find_spec hex
    have hclear : ∀ j < Nat.find hex, ∀ b, chain F.next x j = some b → F.Clear n b :=
      fun j hj b hb => not_not.mp fun hn => Nat.find_min hex hj ⟨b, hb, hn⟩
    have hhalts : F.Halts n a := by
      cases hspot : F.spot a with
      | lost => exact absurd hspot (h.spot_ne_lost hi hclear)
      | stop => exact .stop hspot
      | leaf => exact absurd (.leaf hspot) ha
      | node y => exact (hnode _ a y hi hspot hclear).resolve_left ha
    have hend : F.Visits n (chain F.next x (Nat.find hex)) .stopped := by
      rw [hi]
      exact hhalts.visits
    exact ⟨.stopped, visits_chain hclear hend⟩

theorem Guarded.visits (h : F.Guarded n x) : ∃ o, F.Visits n x o := by
  induction n generalizing x with
  | zero => exact h.visits_of fun _ _ _ _ ha _ => .inr (.deep ha)
  | succ n ih =>
      refine h.visits_of fun i a y hi ha hclear => ?_
      obtain ⟨o, ho⟩ := ih (h.node hi ha hclear)
      cases o with
      | done => exact .inl (.node ha ho)
      | stopped => exact .inr (.under ha ho)

/-- A walk ends exactly if what it cannot get past is behind what stops it. -/
theorem visits_iff : (∃ o, F.Visits n x o) ↔ F.Guarded n x :=
  ⟨fun ⟨_, h⟩ => h.guarded, Guarded.visits⟩

end Forest

end P4Hyp
