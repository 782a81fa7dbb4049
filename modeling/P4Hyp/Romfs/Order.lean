import P4Hyp.Romfs.Node

/-!
# Where the nodes lie

The cursor only goes forward: every node lies after the ones placed before it.
-/

namespace P4Hyp.Romfs

def Node.extent (n : Node) : Nat × Nat := (n.off, n.totalLen)

/-- Extents one after another between `lo` and `hi`, each at a multiple of 16. -/
structure Ordered (lo : Nat) (xs : List (Nat × Nat)) (hi : Nat) : Prop where
  le : lo ≤ hi
  pairwise : xs.Pairwise fun a b => a.1 + a.2 ≤ b.1
  bounds : ∀ x ∈ xs, lo ≤ x.1 ∧ x.1 + x.2 ≤ hi ∧ x.1 % 16 = 0

theorem Ordered.append {lo mid hi : Nat} {xs ys : List (Nat × Nat)} (hx : Ordered lo xs mid)
    (hy : Ordered mid ys hi) : Ordered lo (xs ++ ys) hi where
  le := hx.le.trans hy.le
  pairwise := by
    refine List.pairwise_append.2 ⟨hx.pairwise, hy.pairwise, fun a ha b hb => ?_⟩
    exact (hx.bounds a ha).2.1.trans (hy.bounds b hb).1
  bounds := by
    intro x h
    rcases List.mem_append.1 h with h | h
    · obtain ⟨h1, h2, h3⟩ := hx.bounds x h
      exact ⟨h1, h2.trans hy.le, h3⟩
    · obtain ⟨h1, h2, h3⟩ := hy.bounds x h
      exact ⟨hx.le.trans h1, h2, h3⟩

theorem Ordered.tail {lo hi : Nat} {x : Nat × Nat} {xs : List (Nat × Nat)}
    (h : Ordered lo (x :: xs) hi) :
    Ordered (x.1 + x.2) xs hi where
  le := (h.bounds x List.mem_cons_self).2.1
  pairwise := (List.pairwise_cons.1 h.pairwise).2
  bounds := by
    intro y hy
    obtain ⟨-, h2, h3⟩ := h.bounds y (List.mem_cons_of_mem x hy)
    exact ⟨(List.pairwise_cons.1 h.pairwise).1 y hy, h2, h3⟩

theorem pad16_mod (n : Nat) : pad16 n % 16 = 0 := Nat.mul_mod_left _ _

theorem le_pad16 (n : Nat) : n ≤ pad16 n := le_alignUp (by decide) n

theorem Node.hdrLen_mod (n : Node) : n.hdrLen % 16 = 0 := pad16_mod _

theorem Node.totalLen_mod (n : Node) : n.totalLen % 16 = 0 := by
  have hhdr := n.hdrLen_mod
  have hdata := pad16_mod n.data.length
  unfold totalLen
  omega

theorem le_aligned (cursor : Nat) (entry : Node) : cursor ≤ aligned cursor entry := by
  unfold aligned
  split
  · dsimp only
    split <;> omega
  · exact le_rfl

theorem aligned_mod {cursor : Nat} (h : cursor % 16 = 0) (entry : Node) :
    aligned cursor entry % 16 = 0 := by
  have hhdr := entry.hdrLen_mod
  unfold aligned pageSize
  split
  · dsimp only
    split <;> omega
  · exact h

theorem placeAll_mod {cursor : Nat} (h : cursor % 16 = 0) (es : List Node) :
    (placeAll cursor es).2 % 16 = 0 := by
  induction es generalizing cursor with
  | nil => exact h
  | cons e es ih =>
      refine ih ?_
      have hoff := aligned_mod h e
      have htotal := e.totalLen_mod
      omega

theorem placeAll_ordered {cursor : Nat} (h : cursor % 16 = 0) (es : List Node) :
    Ordered cursor ((placeAll cursor es).1.map Node.extent) (placeAll cursor es).2 := by
  induction es generalizing cursor with
  | nil => exact ⟨le_rfl, List.Pairwise.nil, fun x hx => nomatch hx⟩
  | cons e es ih =>
      have hoff := aligned_mod h e
      have hle := le_aligned cursor e
      have htotal := e.totalLen_mod
      have hfirst : Ordered cursor [(aligned cursor e, e.totalLen)]
          (aligned cursor e + e.totalLen) := by
        refine ⟨by omega, List.pairwise_singleton _ _, fun x hx => ?_⟩
        obtain rfl := List.mem_singleton.1 hx
        exact ⟨hle, le_rfl, hoff⟩
      exact hfirst.append (ih (by omega))

theorem link_map {β : Type} {f : Node → β} (hf : ∀ n off, f { n with nxt := off } = f n)
    (es : List Node) :
    (link es).map f = es.map f := by
  induction es using link.induct with
  | case1 => rfl
  | case2 e => exact congrArg (· :: []) (hf e 0)
  | case3 e e' es ih =>
      rw [link, List.map_cons, List.map_cons, hf, ih]

theorem modify_map {β : Type} {f : Node → β} (hf : ∀ n spec, f { n with spec := spec } = f n)
    (l : List Node) (i spec : Nat) :
    (l.modify i fun n => { n with spec := spec }).map f = l.map f := by
  apply List.ext_getElem?
  intro k
  rw [List.getElem?_map, List.getElem?_map, List.getElem?_modify]
  cases l[k]? with
  | none => rfl
  | some n =>
      simp only [Option.map_some]
      split
      · exact congrArg some (hf n spec)
      · rfl

/-! ## The run -/

/-- The nodes placed so far, after a superblock of `lo` bytes. -/
structure InOrder (lo : Nat) (flat : List Node) (cursor : Nat) : Prop where
  ordered : Ordered lo (flat.map Node.extent) cursor
  cursor_mod : cursor % 16 = 0

theorem InOrder.step {lo : Nat} {st : Layout} (h : InOrder lo st.flat st.cursor) {q : Queued}
    {queue : List Queued} (hq : st.queue = q :: queue) :
    ∃ st', layoutStep st = .inl st' ∧ InOrder lo st'.flat st'.cursor := by
  rw [layoutStep, hq]
  refine ⟨_, rfl, ?_, placeAll_mod h.cursor_mod _⟩
  dsimp only
  rw [List.map_append, modify_map (fun _ _ => rfl), link_map (fun _ _ => rfl)]
  exact h.ordered.append (placeAll_ordered h.cursor_mod _)

/-- The rule of the layout's loop: the queue is empty when it ends. -/
theorem layoutLoop_induct {I : Layout → Prop} {Q : Layout → List Node × Nat → Prop}
    (done : ∀ st, I st → st.queue = [] → Q st (st.flat, st.cursor))
    (turn : ∀ st st' q queue, I st → st.queue = q :: queue → layoutStep st = .inl st' →
      I st' ∧ ∀ r, Q st' r → Q st r)
    {fuel : Nat} {st : Layout} {r : List Node × Nat} (h : loop layoutStep fuel st = some r)
    (hst : I st) : Q st r := by
  refine loop_induct (I := I) ?_ ?_ h hst
  · intro st r hi hstep
    cases hq : st.queue with
    | nil =>
        rw [layoutStep, hq] at hstep
        obtain rfl := Sum.inr.inj hstep
        exact done st hi hq
    | cons q queue =>
        rw [layoutStep, hq] at hstep
        cases hstep
  · intro st st' hi hstep
    cases hq : st.queue with
    | nil =>
        rw [layoutStep, hq] at hstep
        cases hstep
    | cons q queue => exact turn st st' q queue hi hq hstep

theorem inOrder_of_loop {lo fuel : Nat} {st : Layout} {r : List Node × Nat}
    (h : loop layoutStep fuel st = some r) (hst : InOrder lo st.flat st.cursor) :
    InOrder lo r.1 r.2 := by
  refine layoutLoop_induct (I := fun st => InOrder lo st.flat st.cursor)
    (Q := fun _ r => InOrder lo r.1 r.2) (fun st hi _ => hi) ?_ h hst
  intro st st' q queue hi hq hstep
  obtain ⟨st'', hstep', hi'⟩ := hi.step hq
  obtain rfl := Sum.inl.inj (hstep.symm.trans hstep')
  exact ⟨hi', fun r hr => hr⟩

theorem inOrder_start {name : Str} {children : List Tree} {volume : Str} :
    InOrder (pad16 (16 + volume.length + 1)) (layoutStart (.dir name children) volume).flat
      (layoutStart (.dir name children) volume).cursor := by
  have hvolume := pad16_mod (16 + volume.length + 1)
  have hroot := (Tree.dir name children).node.hdrLen_mod
  refine ⟨⟨Nat.le_add_right _ _, List.pairwise_singleton _ _, fun x hx => ?_⟩, ?_⟩
  · obtain rfl := List.mem_singleton.1 hx
    have hlen : (Tree.dir name children).node.totalLen = (Tree.dir name children).node.hdrLen := by
      simp [Node.totalLen, Tree.node, pad16, alignUp]
    exact ⟨le_rfl, Nat.add_le_add_left (Nat.le_of_eq hlen) _, hvolume⟩
  · show (_ + _) % 16 = 0
    omega

end P4Hyp.Romfs
