import P4Hyp.Romfs.Order

/-!
# What the layout links together

When the queue is empty every directory has its entries: the two hard links, then
its children, each linked to the next.
-/

namespace P4Hyp.Romfs

/-- All of a node but the directory's link to its entries, which comes last. -/
def Node.core (n : Node) : Node := { n with spec := 0 }

/-- A node as it was laid out for `t`. -/
structure Matches (t : Tree) (n : Node) : Prop where
  name : n.name = t.node.name
  kind : n.kind = t.node.kind
  data : n.data = t.node.data
  specDev : n.specDev = t.node.specDev

def Chained : List Node → Prop
  | [] => True
  | [n] => n.nxt = 0
  | n :: m :: ns => n.nxt = m.off ∧ Chained (m :: ns)

def IsDir (flat : List Node) (off : Nat) : Prop :=
  ∃ d ∈ flat, d.off = off ∧ d.kind = Kind.dir ||| Kind.exec

/-- The hard link `name` to the directory at `off`. -/
structure IsLink (name : Str) (off : Nat) (n : Node) : Prop where
  name : n.name = name
  kind : n.kind = Kind.hrd
  data : n.data = []
  spec : n.spec = off

/-- The node `n` stands for `t` in `flat`, with everything below it; its parent is at `parent`. -/
inductive Built (flat : List Node) : Tree → Node → Nat → Prop
  | leaf {name : Str} {leaf : Leaf} {n : Node} {parent : Nat} : n ∈ flat →
      Matches (.leaf name leaf) n → Built flat (.leaf name leaf) n parent
  | dir {name : Str} {children : List Tree} {n dot dotdot : Node} {parent : Nat} {es : List Node} :
      n ∈ flat → Matches (.dir name children) n → IsDir flat parent →
      dot ∈ flat → IsLink ['.'] n.off dot → dotdot ∈ flat → IsLink ['.', '.'] parent dotdot →
      n.spec = dot.off → Chained (dot :: dotdot :: es) → es.length = children.length →
      (∀ (k : Nat) t e, children[k]? = some t → es[k]? = some e → Built flat t e n.off) →
      Built flat (.dir name children) n parent

/-! ## Linking a run of entries -/

theorem chained_link (es : List Node) : Chained (link es) := by
  induction es using link.induct with
  | case1 => trivial
  | case2 e => rfl
  | case3 e e' es ih =>
      cases es with
      | nil => exact ⟨rfl, ih⟩
      | cons e'' es => exact ⟨rfl, ih⟩

theorem chained_core {ns : List Node} : Chained (ns.map Node.core) ↔ Chained ns := by
  induction ns using Chained.induct with
  | case1 => rfl
  | case2 n => rfl
  | case3 n m ns ih => exact and_congr Iff.rfl ih

theorem placeAll_map {β : Type} {f : Node → β} (hf : ∀ n off, f { n with off := off } = f n)
    (cursor : Nat) (es : List Node) : (placeAll cursor es).1.map f = es.map f := by
  induction es generalizing cursor with
  | nil => rfl
  | cons e es ih =>
      rw [placeAll, List.map_cons, List.map_cons, hf, ih]

/-- The entries that a step appends to `flat`. -/
def linked (cursor : Nat) (q : Queued) : List Node := link (placeAll cursor q.entries).1

theorem linked_map {β : Type} {f : Node → β} (hnxt : ∀ n nxt, f { n with nxt := nxt } = f n)
    (hoff : ∀ n off, f { n with off := off } = f n) (cursor : Nat) (q : Queued) :
    (linked cursor q).map f = q.entries.map f := by
  rw [linked, link_map hnxt, placeAll_map hoff]

theorem linked_length (cursor : Nat) (q : Queued) :
    (linked cursor q).length = q.children.length + 2 := by
  have h := congrArg List.length (linked_map (f := fun _ => ()) (fun _ _ => rfl) (fun _ _ => rfl) cursor q)
  rw [List.length_map, List.length_map] at h
  rw [h, Queued.entries, List.length_cons, List.length_cons, List.length_map]

/-- The entry of a child, but for where it lies and what follows it. -/
theorem linked_getElem {cursor k : Nat} {q : Queued} {n : Node}
    (h : (linked cursor q)[k]? = some n) :
    ∃ e, q.entries[k]? = some e ∧ n.name = e.name ∧ n.kind = e.kind ∧ n.data = e.data ∧
      n.specDev = e.specDev ∧ n.spec = e.spec := by
  have hmap := congrArg (fun l => l[k]?)
    (linked_map (f := fun n : Node => (n.name, n.kind, n.data, n.specDev, n.spec)) (fun _ _ => rfl)
      (fun _ _ => rfl) cursor q)
  rw [List.getElem?_map, List.getElem?_map, h] at hmap
  cases he : q.entries[k]? with
  | none =>
      rw [he] at hmap
      cases hmap
  | some e =>
      rw [he] at hmap
      simp only [Option.map_some, Option.some.injEq, Prod.mk.injEq] at hmap
      exact ⟨e, rfl, hmap⟩

/-! ## The directories among the children -/

theorem mem_subdirs {parent i : Nat} {ts : List Tree} {ns : List Node} {s : Queued} :
    s ∈ subdirs parent i ts ns ↔
      ∃ k name n, ts[k]? = some (.dir name s.children) ∧ ns[k]? = some n ∧
      s.index = i + k ∧ s.off = n.off ∧ s.parent = parent := by
  induction i, ts, ns using subdirs.induct with
  | case1 i name children ts n ns ih =>
      rw [subdirs, List.mem_cons, ih]
      constructor
      · rintro (rfl | ⟨k, name', m, ht, hn, hi, hrest⟩)
        · exact ⟨0, name, n, rfl, rfl, rfl, rfl, rfl⟩
        · exact ⟨k + 1, name', m, ht, hn, by omega, hrest⟩
      · rintro ⟨k, name', m, ht, hn, hi, hoff, hparent⟩
        cases k with
        | zero =>
            obtain ⟨rfl, hchildren⟩ := Tree.dir.inj (Option.some.inj ht)
            obtain rfl := Option.some.inj hn
            refine .inl ?_
            obtain ⟨index, off, parent', children'⟩ := s
            dsimp only at hi hoff hparent hchildren
            rw [hi, hoff, hparent, hchildren]
            rfl
        | succ k => exact .inr ⟨k, name', m, ht, hn, by omega, hoff, hparent⟩
  | case2 i name leaf ts n ns ih =>
      rw [subdirs, ih]
      constructor
      · rintro ⟨k, name', m, ht, hn, hi, hrest⟩
        exact ⟨k + 1, name', m, ht, hn, by omega, hrest⟩
      · rintro ⟨k, name', m, ht, hn, hi, hrest⟩
        cases k with
        | zero => cases ht
        | succ k => exact ⟨k, name', m, ht, hn, by omega, hrest⟩
  | case3 ts i ns h1 h2 =>
      rw [subdirs]
      · constructor
        · exact fun h => nomatch h
        · rintro ⟨k, name', m, ht, hn, -⟩
          match ts, ns, h1, h2 with
          | [], _, _, _ => simp at ht
          | _ :: _, [], _, _ => simp at hn
          | .dir name children :: ts, n :: ns, h1, _ =>
              exact (h1 name children ts n ns rfl rfl).elim
          | .leaf name leaf :: ts, n :: ns, _, h2 => exact (h2 name leaf ts n ns rfl rfl).elim
      · exact h1
      · exact h2

theorem subdirs_nodup (parent i : Nat) (ts : List Tree) (ns : List Node) :
    ((subdirs parent i ts ns).map Queued.index).Nodup := by
  induction i, ts, ns using subdirs.induct with
  | case1 i name children ts n ns ih =>
      rw [subdirs, List.map_cons, List.nodup_cons]
      refine ⟨fun h => ?_, ih⟩
      obtain ⟨s, hs, hi⟩ := List.mem_map.1 h
      obtain ⟨k, -, -, -, -, hk, -⟩ := mem_subdirs.1 hs
      dsimp only at hi
      omega
  | case2 i name leaf ts n ns ih =>
      rw [subdirs]
      exact ih
  | case3 ts i ns h1 h2 =>
      rw [subdirs]
      · exact List.nodup_nil
      · exact h1
      · exact h2

/-! ## The run -/

/-- Each directory in the queue has its node, and its parent has one. -/
structure QueueOk (st : Layout) : Prop where
  nodup : (st.queue.map Queued.index).Nodup
  node : ∀ q ∈ st.queue, ∃ n, st.flat[q.index]? = some n ∧ n.off = q.off ∧
    n.kind = Kind.dir ||| Kind.exec
  parent : ∀ q ∈ st.queue, IsDir st.flat q.parent

/-- The entries of the directory `n` that was queued as `q`. -/
def HasEntries (flat : List Node) (q : Queued) (n : Node) : Prop :=
  ∃ dot dotdot es, dot ∈ flat ∧ IsLink ['.'] q.off dot ∧ dotdot ∈ flat ∧
    IsLink ['.', '.'] q.parent dotdot ∧ n.spec = dot.off ∧ Chained (dot :: dotdot :: es) ∧
    es.length = q.children.length ∧
    ∀ (k : Nat) t e, q.children[k]? = some t → es[k]? = some e → Built flat t e q.off

/-- `flat` grows, and only the directories in the queue are still changed. -/
structure Grows (st : Layout) (flat : List Node) : Prop where
  core : ∀ (k : Nat) n, st.flat[k]? = some n → ∃ n', flat[k]? = some n' ∧ n'.core = n.core
  same : ∀ (k : Nat) n, st.flat[k]? = some n → k ∉ st.queue.map Queued.index → flat[k]? = some n
  entries : ∀ q ∈ st.queue, ∀ n, flat[q.index]? = some n → HasEntries flat q n

section Step

variable {st : Layout} {q : Queued} {queue : List Queued}

/-- The state after the directory `q` has had its turn. -/
def Layout.next (st : Layout) (q : Queued) (queue : List Queued) : Layout where
  cursor := (placeAll st.cursor q.entries).2
  flat := st.flat.modify q.index (fun n => { n with spec := st.cursor }) ++ linked st.cursor q
  queue := queue ++ subdirs q.off (st.flat.length + 2) q.children ((linked st.cursor q).drop 2)

theorem layoutStep_eq (hq : st.queue = q :: queue) : layoutStep st = .inl (st.next q queue) := by
  rw [layoutStep, hq]
  rfl

theorem next_getElem_old {k : Nat} (hk : k < st.flat.length) (hne : k ≠ q.index) :
    (st.next q queue).flat[k]? = st.flat[k]? := by
  rw [Layout.next, List.getElem?_append_left (by rw [List.length_modify]; exact hk),
    List.getElem?_modify_ne _ _ (Ne.symm hne)]

theorem next_getElem_self {n : Node} (hn : st.flat[q.index]? = some n) :
    (st.next q queue).flat[q.index]? = some { n with spec := st.cursor } := by
  have hlt : q.index < st.flat.length := (List.getElem?_eq_some_iff.1 hn).1
  rw [Layout.next, List.getElem?_append_left (by rw [List.length_modify]; exact hlt),
    List.getElem?_modify_eq, hn]
  rfl

theorem next_getElem_new (j : Nat) :
    (st.next q queue).flat[st.flat.length + j]? = (linked st.cursor q)[j]? := by
  rw [Layout.next, List.getElem?_append_right (by rw [List.length_modify]; exact Nat.le_add_right _ _),
    List.length_modify, Nat.add_sub_cancel_left]

theorem next_core (q : Queued) (queue : List Queued) {k : Nat} {n : Node}
    (h : st.flat[k]? = some n) :
    ∃ n', (st.next q queue).flat[k]? = some n' ∧ n'.core = n.core := by
  by_cases hk : k = q.index
  · subst hk
    exact ⟨_, next_getElem_self h, rfl⟩
  · exact ⟨n, (next_getElem_old (List.getElem?_eq_some_iff.1 h).1 hk).trans h, rfl⟩

theorem core_off {n n' : Node} (h : n'.core = n.core) : n'.off = n.off := by
  show n'.core.off = n.core.off
  rw [h]

theorem core_kind {n n' : Node} (h : n'.core = n.core) : n'.kind = n.kind := by
  show n'.core.kind = n.core.kind
  rw [h]

theorem isDir_of_core {flat : List Node} {k : Nat} {n n' : Node} (h : flat[k]? = some n')
    (hcore : n'.core = n.core) (hkind : n.kind = Kind.dir ||| Kind.exec) : IsDir flat n.off := by
  exact ⟨n', List.mem_of_getElem? h, core_off hcore, (core_kind hcore).trans hkind⟩

theorem isDir_next {off : Nat} (h : IsDir st.flat off) : IsDir (st.next q queue).flat off := by
  obtain ⟨d, hd, rfl, hkind⟩ := h
  obtain ⟨k, hk⟩ := List.getElem?_of_mem hd
  obtain ⟨n', hn', hcore⟩ := next_core q queue hk
  exact isDir_of_core hn' hcore hkind

theorem entries_child {k : Nat} : q.entries[k + 2]? = q.children[k]?.map Tree.node := by
  rw [Queued.entries, List.getElem?_cons_succ, List.getElem?_cons_succ, List.getElem?_map]

/-- A subdirectory that is queued, with its entry. -/
theorem mem_subdirs_linked {s : Queued} :
    s ∈ subdirs q.off (st.flat.length + 2) q.children ((linked st.cursor q).drop 2) ↔
      ∃ k name n, q.children[k]? = some (.dir name s.children) ∧
        (linked st.cursor q)[k + 2]? = some n ∧ s.index = st.flat.length + (k + 2) ∧ s.off = n.off ∧
        s.parent = q.off := by
  rw [mem_subdirs]
  refine exists_congr fun k => exists_congr fun name => exists_congr fun n => ?_
  rw [List.getElem?_drop, Nat.add_comm 2 k, Nat.add_assoc, Nat.add_comm 2 k]

theorem QueueOk.next (h : QueueOk st) (hq : st.queue = q :: queue) : QueueOk (st.next q queue) := by
  have hnodup := h.nodup
  rw [hq, List.map_cons, List.nodup_cons] at hnodup
  have hold : ∀ s ∈ queue, s ∈ st.queue := fun s hs => by
    rw [hq]
    exact List.mem_cons_of_mem q hs
  obtain ⟨n, hn, hoff, hkind⟩ := h.node q (by rw [hq]; exact List.mem_cons_self)
  refine ⟨?_, ?_, ?_⟩
  · rw [Layout.next, List.map_append]
    refine List.nodup_append.2 ⟨hnodup.2, subdirs_nodup _ _ _ _, ?_⟩
    rintro i hi i' hi' rfl
    obtain ⟨s, hs, rfl⟩ := List.mem_map.1 hi
    obtain ⟨s', hs', hindex⟩ := List.mem_map.1 hi'
    obtain ⟨k, -, -, -, -, hk, -⟩ := mem_subdirs_linked.1 hs'
    obtain ⟨m, hm, -⟩ := h.node s (hold s hs)
    have := (List.getElem?_eq_some_iff.1 hm).1
    omega
  · intro s hs
    rcases List.mem_append.1 hs with hs | hs
    · obtain ⟨m, hm, hrest⟩ := h.node s (hold s hs)
      have hne : s.index ≠ q.index := by
        intro heq
        exact hnodup.1 (List.mem_map.2 ⟨s, hs, heq⟩)
      exact ⟨m, (next_getElem_old (List.getElem?_eq_some_iff.1 hm).1 hne).trans hm, hrest⟩
    · obtain ⟨k, name, m, hchild, hm, hindex, hoff', -⟩ := mem_subdirs_linked.1 hs
      refine ⟨m, ?_, hoff'.symm, ?_⟩
      · rw [hindex, next_getElem_new, hm]
      · obtain ⟨e, he, -, hkind', -⟩ := linked_getElem hm
        rw [entries_child, hchild] at he
        rw [hkind', ← Option.some.inj he]
        rfl
  · intro s hs
    rcases List.mem_append.1 hs with hs | hs
    · exact isDir_next (h.parent s (hold s hs))
    · obtain ⟨k, name, m, -, -, -, -, hparent⟩ := mem_subdirs_linked.1 hs
      rw [hparent]
      exact isDir_next ⟨n, List.mem_of_getElem? hn, hoff, hkind⟩

theorem Grows.isDir {flat : List Node} (h : Grows st flat) {off : Nat} (hdir : IsDir st.flat off) :
    IsDir flat off := by
  obtain ⟨d, hd, rfl, hkind⟩ := hdir
  obtain ⟨k, hk⟩ := List.getElem?_of_mem hd
  obtain ⟨n', hn', hcore⟩ := h.core k d hk
  exact isDir_of_core hn' hcore hkind

/-- The first entry goes where the cursor stands. -/
theorem linked_first {cursor : Nat} {d : Node} (h : (linked cursor q)[0]? = some d) :
    d.off = cursor := by
  have hmap := congrArg (fun l => l[0]?)
    (link_map (f := Node.off) (fun _ _ => rfl) (placeAll cursor q.entries).1)
  rw [List.getElem?_map, List.getElem?_map] at hmap
  unfold linked at h
  rw [h] at hmap
  exact Option.some.inj hmap

/-- A new entry that is not queued is in the result as it was linked. -/
theorem new_same (h : QueueOk st) (hq : st.queue = q :: queue) {flat : List Node}
    (hgrows : Grows (st.next q queue) flat) {j : Nat} {n : Node}
      (hn : (linked st.cursor q)[j]? = some n)
    (hdir : ∀ k name children, j = k + 2 → q.children[k]? ≠ some (.dir name children)) :
    flat[st.flat.length + j]? = some n := by
  refine hgrows.same _ n (by rw [next_getElem_new, hn]) fun hmem => ?_
  rw [Layout.next, List.map_append, List.mem_append] at hmem
  rcases hmem with hmem | hmem
  · obtain ⟨s, hs, hi⟩ := List.mem_map.1 hmem
    obtain ⟨m, hm, -⟩ := h.node s (by rw [hq]; exact List.mem_cons_of_mem q hs)
    have := (List.getElem?_eq_some_iff.1 hm).1
    omega
  · obtain ⟨s, hs, hi⟩ := List.mem_map.1 hmem
    obtain ⟨k, name, m, hchild, -, hk, -⟩ := mem_subdirs_linked.1 hs
    exact hdir k name s.children (by omega) hchild

theorem matches_of_linked {k : Nat} {t : Tree} {n n' : Node} (ht : q.children[k]? = some t)
    (hn : (linked st.cursor q)[k + 2]? = some n) (hcore : n'.core = n.core) : Matches t n' := by
  obtain ⟨e, he, hname, hkind, hdata, hdev, -⟩ := linked_getElem hn
  rw [entries_child, ht] at he
  obtain rfl := Option.some.inj he
  refine ⟨?_, (core_kind hcore).trans hkind, ?_, ?_⟩
  · exact Eq.trans (show n'.core.name = n.core.name by rw [hcore]) hname
  · exact Eq.trans (show n'.core.data = n.core.data by rw [hcore]) hdata
  · exact Eq.trans (show n'.core.specDev = n.core.specDev by rw [hcore]) hdev

/-- A child of the directory is built, if it is a directory because it was queued. -/
theorem built_child (h : QueueOk st) (hq : st.queue = q :: queue) {flat : List Node}
    (hgrows : Grows (st.next q queue) flat) {k : Nat} {t : Tree} {e : Node}
    (ht : q.children[k]? = some t) (he : flat[st.flat.length + (k + 2)]? = some e) :
    Built flat t e q.off := by
  have hlt : k + 2 < (linked st.cursor q).length := by
    rw [linked_length]
    have := (List.getElem?_eq_some_iff.1 ht).1
    omega
  obtain ⟨m, hm⟩ : ∃ m, (linked st.cursor q)[k + 2]? = some m := ⟨_, List.getElem?_eq_getElem hlt⟩
  cases t with
  | leaf name leaf =>
      have hsame := new_same h hq hgrows hm fun k' name' children hk' hchild => by
        obtain rfl : k = k' := by omega
        rw [ht] at hchild
        cases hchild
      obtain rfl : m = e := Option.some.inj (hsame.symm.trans he)
      exact .leaf (List.mem_of_getElem? he) (matches_of_linked ht hm rfl)
  | dir name children =>
      obtain ⟨e', he', hcore⟩ :=
        hgrows.core (st.flat.length + (k + 2)) m (by rw [next_getElem_new, hm])
      obtain rfl : e' = e := Option.some.inj (he'.symm.trans he)
      have hqueued :
          { index := st.flat.length + (k + 2), off := m.off, parent := q.off, children } ∈
          subdirs q.off (st.flat.length + 2) q.children ((linked st.cursor q).drop 2) :=
        mem_subdirs_linked.2 ⟨k, name, m, ht, hm, rfl, rfl, rfl⟩
      obtain ⟨dot, dotdot, es, hdot, hlink, hdotdot, hlink', hspec, hchain, hlen, hes⟩ :=
        hgrows.entries _ (List.mem_append_right _ hqueued) e' he'
      have hoff := core_off hcore
      have hparent : IsDir flat q.off := by
        obtain ⟨n, hn, hnoff, hnkind⟩ := h.node q (by rw [hq]; exact List.mem_cons_self)
        refine hgrows.isDir (isDir_next ⟨n, List.mem_of_getElem? hn, hnoff, hnkind⟩)
      dsimp only at hlink hlink' hlen hes
      rw [← hoff] at hlink hes
      exact .dir (List.mem_of_getElem? he) (matches_of_linked ht hm hcore) hparent hdot
        hlink hdotdot hlink' hspec hchain hlen hes

/-- The entries of the directory whose turn it is, as they are in the result. -/
theorem run_core {flat : List Node} (hgrows : Grows (st.next q queue) flat) :
    ((flat.drop st.flat.length).take (q.children.length + 2)).map Node.core =
      (linked st.cursor q).map Node.core := by
  have hlen := linked_length st.cursor q
  apply List.ext_getElem?
  intro j
  rw [List.getElem?_map, List.getElem?_map]
  by_cases hj : j < q.children.length + 2
  · obtain ⟨m, hm, hcore⟩ := hgrows.core (st.flat.length + j) _
      ((next_getElem_new j).trans (List.getElem?_eq_getElem (hlen ▸ hj)))
    rw [List.getElem?_take_of_lt hj, List.getElem?_drop, hm, List.getElem?_eq_getElem (hlen ▸ hj),
      Option.map_some, Option.map_some, hcore]
  · have htake := List.length_take_le (q.children.length + 2) (flat.drop st.flat.length)
    rw [List.getElem?_eq_none (by omega), List.getElem?_eq_none (by omega)]

/-- Its link to them does not change any more. -/
theorem turn_same (h : QueueOk st) (hq : st.queue = q :: queue) {flat : List Node}
    (hgrows : Grows (st.next q queue) flat) {m : Node} (hm : st.flat[q.index]? = some m) :
    flat[q.index]? = some { m with spec := st.cursor } := by
  have hlt := (List.getElem?_eq_some_iff.1 hm).1
  have hnodup := h.nodup
  rw [hq, List.map_cons, List.nodup_cons] at hnodup
  refine hgrows.same q.index _ (next_getElem_self hm) fun hmem => ?_
  rw [Layout.next, List.map_append, List.mem_append] at hmem
  rcases hmem with hmem | hmem
  · exact hnodup.1 hmem
  · obtain ⟨s, hs, hi⟩ := List.mem_map.1 hmem
    obtain ⟨k, -, -, -, -, hk, -⟩ := mem_subdirs_linked.1 hs
    omega

theorem run_of_next (h : QueueOk st) (hq : st.queue = q :: queue) {flat : List Node}
    (hgrows : Grows (st.next q queue) flat) : ∃ dot dotdot es,
      (flat.drop st.flat.length).take (q.children.length + 2) = dot :: dotdot :: es ∧
      IsLink ['.'] q.off dot ∧ IsLink ['.', '.'] q.parent dotdot ∧ dot.off = st.cursor ∧
      Chained (dot :: dotdot :: es) ∧ es.length = q.children.length ∧
      ∀ k < q.children.length, es[k]? = flat[st.flat.length + (k + 2)]? := by
  have hlinked := linked_length st.cursor q
  have hcore := run_core hgrows
  have hat : ∀ j < q.children.length + 2,
      ((flat.drop st.flat.length).take (q.children.length + 2))[j]? = flat[st.flat.length + j]? :=
    fun j hj => by rw [List.getElem?_take_of_lt hj, List.getElem?_drop]
  generalize (flat.drop st.flat.length).take (q.children.length + 2) = run at hcore hat ⊢
  have hlen : run.length = q.children.length + 2 := by
    have hmap := congrArg List.length hcore
    rw [List.length_map, List.length_map] at hmap
    omega
  match run, hlen with
  | dot :: dotdot :: es, hlen =>
      obtain ⟨m, hm⟩ : ∃ m, (linked st.cursor q)[0]? = some m :=
        ⟨_, List.getElem?_eq_getElem (by omega)⟩
      obtain ⟨m', hm'⟩ : ∃ m, (linked st.cursor q)[1]? = some m :=
        ⟨_, List.getElem?_eq_getElem (by omega)⟩
      have hdot : some dot = some m :=
        (hat 0 (by omega)).trans (new_same h hq hgrows hm fun k _ _ hk => by omega)
      have hdotdot : some dotdot = some m' :=
        (hat 1 (by omega)).trans (new_same h hq hgrows hm' fun k _ _ hk => by omega)
      obtain rfl := Option.some.inj hdot
      obtain rfl := Option.some.inj hdotdot
      obtain ⟨e, he, hname, hkind, hdata, -, hspec⟩ := linked_getElem hm
      obtain rfl := Option.some.inj he
      obtain ⟨e', he', hname', hkind', hdata', -, hspec'⟩ := linked_getElem hm'
      obtain rfl := Option.some.inj he'
      refine ⟨dot, dotdot, es, rfl, ⟨hname, hkind, hdata, hspec⟩, ⟨hname', hkind', hdata', hspec'⟩,
        linked_first hm, ?_, Nat.succ.inj (Nat.succ.inj hlen), fun k hk => hat (k + 2) (by omega)⟩
      rw [← chained_core, hcore, chained_core]
      exact chained_link _

/-- The run from the next state on links the directory that has had its turn. -/
theorem hasEntries_of_next (h : QueueOk st) (hq : st.queue = q :: queue) {flat : List Node}
    (hgrows : Grows (st.next q queue) flat) {n : Node} (hn : flat[q.index]? = some n) :
    HasEntries flat q n := by
  obtain ⟨dot, dotdot, es, hrun, hlink, hlink', hoff, hchain, hlen, hget⟩ := run_of_next h hq hgrows
  have hmem : ∀ e ∈ dot :: dotdot :: es, e ∈ flat := by
    rw [← hrun]
    exact fun e he => List.mem_of_mem_drop (List.mem_of_mem_take he)
  have hspec : n.spec = dot.off := by
    obtain ⟨m, hm, -⟩ := h.node q (by rw [hq]; exact List.mem_cons_self)
    rw [← Option.some.inj ((turn_same h hq hgrows hm).symm.trans hn), hoff]
  refine ⟨dot, dotdot, es, hmem dot List.mem_cons_self, hlink,
    hmem dotdot (List.mem_cons_of_mem dot List.mem_cons_self), hlink', hspec, hchain, hlen, ?_⟩
  intro k t e ht he
  rw [hget k (List.getElem?_eq_some_iff.1 ht).1] at he
  exact built_child h hq hgrows ht he

theorem Grows.of_next (h : QueueOk st) (hq : st.queue = q :: queue) {flat : List Node}
    (hgrows : Grows (st.next q queue) flat) : Grows st flat where
  core := by
    intro k n hn
    obtain ⟨n', hn', hcore⟩ := next_core q queue hn
    obtain ⟨n'', hn'', hcore'⟩ := hgrows.core k n' hn'
    exact ⟨n'', hn'', hcore'.trans hcore⟩
  same := by
    intro k n hn hk
    rw [hq, List.map_cons, List.mem_cons, not_or] at hk
    have hlt : k < st.flat.length := (List.getElem?_eq_some_iff.1 hn).1
    refine hgrows.same k n ((next_getElem_old hlt hk.1).trans hn) fun hmem => ?_
    rw [Layout.next, List.map_append, List.mem_append] at hmem
    rcases hmem with hmem | hmem
    · exact hk.2 hmem
    · obtain ⟨s, hs, rfl⟩ := List.mem_map.1 hmem
      obtain ⟨j, -, -, -, -, hj, -⟩ := mem_subdirs_linked.1 hs
      omega
  entries := by
    intro s hs n hn
    rw [hq] at hs
    rcases List.mem_cons.1 hs with rfl | hs
    · exact hasEntries_of_next h hq hgrows hn
    · exact hgrows.entries s (List.mem_append_left _ hs) n hn

theorem grows_refl (hq : st.queue = []) : Grows st st.flat where
  core k n hn := ⟨n, hn, rfl⟩
  same k n hn _ := hn
  entries q hmem := by
    rw [hq] at hmem
    cases hmem

theorem grows_of_loop {fuel : Nat} {r : List Node × Nat} (h : loop layoutStep fuel st = some r)
    (hst : QueueOk st) : Grows st r.1 := by
  refine layoutLoop_induct (Q := fun st r => Grows st r.1) (fun _ _ hq => grows_refl hq) ?_ h hst
  intro st st' q queue hi hq hstep
  obtain rfl := Sum.inl.inj (hstep.symm.trans (layoutStep_eq hq))
  exact ⟨hi.next hq, fun r hr => hr.of_next hi hq⟩

end Step

/-! ## The whole layout -/

/-- The directories that are still to have their turn, the queued ones among them. -/
def Queued.weight (q : Queued) : Nat := 1 + Tree.dirsAll q.children

theorem subdirs_weight (parent i : Nat) (ts : List Tree) (ns : List Node) :
    ((subdirs parent i ts ns).map Queued.weight).sum ≤ Tree.dirsAll ts := by
  induction i, ts, ns using subdirs.induct with
  | case1 i name children ts n ns ih =>
      rw [subdirs, List.map_cons, List.sum_cons, Tree.dirsAll, Tree.dirs]
      exact Nat.add_le_add_left ih _
  | case2 i name leaf ts n ns ih =>
      rw [subdirs, Tree.dirsAll, Tree.dirs, Nat.zero_add]
      exact ih
  | case3 ts i ns h1 h2 =>
      rw [subdirs]
      · exact Nat.zero_le _
      · exact h1
      · exact h2

theorem loop_layoutStep {fuel : Nat} {st : Layout} (h : (st.queue.map Queued.weight).sum < fuel) :
    ∃ r, loop layoutStep fuel st = some r := by
  induction fuel generalizing st with
  | zero => exact absurd h (Nat.not_lt_zero _)
  | succ fuel ih =>
      cases hq : st.queue with
      | nil => exact ⟨_, loop_leave (r := (st.flat, st.cursor)) (by rw [layoutStep, hq]) fuel⟩
      | cons q queue =>
          rw [loop_again (layoutStep_eq hq)]
          refine ih ?_
          rw [hq, List.map_cons, List.sum_cons, Queued.weight] at h
          rw [Layout.next, List.map_append, List.sum_append]
          have hsub := subdirs_weight q.off (st.flat.length +
            2) q.children ((linked st.cursor q).drop 2)
          omega

variable {name : Str} {children : List Tree} {volume : Str}

theorem queueOk_start : QueueOk (layoutStart (.dir name children) volume) where
  nodup := List.pairwise_singleton _ _
  node := by
    intro q hq
    obtain rfl := List.mem_singleton.1 hq
    exact ⟨_, rfl, rfl, rfl⟩
  parent := by
    intro q hq
    obtain rfl := List.mem_singleton.1 hq
    exact ⟨_, List.mem_singleton_self _, rfl, rfl⟩

/-- The queue is emptied. -/
theorem layout_ends (name : Str) (children : List Tree) (volume : Str) :
    ∃ flat size, layout (.dir name children) volume = some (flat, size) := by
  have hfuel : ((layoutStart (.dir name children) volume).queue.map Queued.weight).sum <
      (Tree.dir name children).dirs + 2 := by
    rw [layoutStart, List.map_singleton, List.sum_singleton, Queued.weight, Tree.dirs]
    exact Nat.lt_add_of_pos_right (by decide)
  obtain ⟨⟨flat, size⟩, h⟩ := loop_layoutStep hfuel
  exact ⟨flat, size, h⟩

/-- The root lies after the superblock, with the whole tree below it. -/
theorem layout_built {flat : List Node} {size : Nat}
    (h : layout (.dir name children) volume = some (flat, size)) :
    ∃ n, n.off = pad16 (16 + volume.length + 1) ∧
      Built flat (.dir name children) n (pad16 (16 + volume.length + 1)) := by
  have hgrows := grows_of_loop h queueOk_start
  obtain ⟨n, hn, hcore⟩ := hgrows.core 0 _ rfl
  obtain ⟨dot, dotdot, es, hdot, hlink, hdotdot, hlink', hspec, hchain, hlen, hes⟩ :=
    hgrows.entries _ (List.mem_singleton_self _) n hn
  have hoff : n.off = pad16 (16 + volume.length + 1) := core_off hcore
  have hkind : n.kind = Kind.dir ||| Kind.exec := core_kind hcore
  have hmatch : Matches (.dir name children) n := by
    refine ⟨?_, hkind, ?_, ?_⟩
    · exact show n.core.name = _ by rw [hcore]; rfl
    · exact show n.core.data = _ by rw [hcore]; rfl
    · exact show n.core.specDev = _ by rw [hcore]; rfl
  dsimp only at hlink hlink' hlen hes
  rw [← hoff] at hlink hlink' hes ⊢
  exact ⟨n, rfl, .dir (List.mem_of_getElem? hn) hmatch ⟨n, List.mem_of_getElem? hn, rfl, hkind⟩ hdot
    hlink hdotdot hlink' hspec hchain hlen hes⟩

end P4Hyp.Romfs
