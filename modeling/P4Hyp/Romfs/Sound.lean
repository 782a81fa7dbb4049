import P4Hyp.Romfs.Build
import P4Hyp.Romfs.Image

/-!
# What the fields of the nodes hold

Every link goes to a multiple of 16 inside the image, which leaves the low four
bits of a header's first word to the kind.
-/

namespace P4Hyp.Romfs

/-- What a directory may name an entry; a file's name has no slash in it. -/
structure EntryName (name : Str) : Prop where
  ascii : Ascii name
  ne_nil : name ≠ []
  ne_dot : name ≠ ['.']
  ne_dotdot : name ≠ ['.', '.']
  slash : '/' ∉ name

/-- The names in every directory of the tree are what they may be, and unique. -/
inductive Named : Tree → Prop
  | leaf {name : Str} {leaf : Leaf} : Named (.leaf name leaf)
  | dir {name : Str} {children : List Tree} : (∀ t ∈ children, EntryName t.node.name) →
      (children.map fun t => t.node.name).Nodup → (∀ t ∈ children, Named t) →
      Named (.dir name children)

structure Offset (hi off : Nat) : Prop where
  le : off ≤ hi
  mod : off % 16 = 0

theorem Offset.mono {lo hi off : Nat} (h : Offset lo off) (hle : lo ≤ hi) : Offset hi off :=
  ⟨h.le.trans hle, h.mod⟩

theorem Offset.zero (hi : Nat) : Offset hi 0 := ⟨Nat.zero_le hi, rfl⟩

structure NodeOk (hi : Nat) (n : Node) : Prop where
  name : Ascii n.name
  kind : n.kind < 16
  dev : n.specDev < 2 ^ 32
  nxt : Offset hi n.nxt
  spec : Offset hi n.spec

theorem NodeOk.mono {lo hi : Nat} {n : Node} (h : NodeOk lo n) (hle : lo ≤ hi) : NodeOk hi n :=
  ⟨h.name, h.kind, h.dev, h.nxt.mono hle, h.spec.mono hle⟩

theorem Tree.node_kind_lt (t : Tree) : t.node.kind < 16 := by
  cases t with
  | dir name children => exact of_decide_eq_true rfl
  | leaf name leaf =>
      cases leaf with
      | reg exec data => cases exec <;> exact of_decide_eq_true rfl
      | sym target => exact of_decide_eq_true rfl
      | device char major minor => cases char <;> exact of_decide_eq_true rfl
      | fifo => exact of_decide_eq_true rfl
      | sock => exact of_decide_eq_true rfl

theorem Tree.node_specDev_lt (t : Tree) : t.node.specDev < 2 ^ 32 := by
  cases t with
  | dir name children => exact Nat.two_pow_pos 32
  | leaf name leaf =>
      cases leaf with
      | device char major minor =>
          refine Nat.or_lt_two_pow ?_ ?_
          · have hmajor := major.isLt
            rw [Nat.shiftLeft_eq]
            omega
          · exact (Nat.and_le_right.trans_lt (by decide : 0xffff < 2 ^ 32))
      | reg exec data => exact Nat.two_pow_pos 32
      | sym target => exact Nat.two_pow_pos 32
      | fifo => exact Nat.two_pow_pos 32
      | sock => exact Nat.two_pow_pos 32

theorem Tree.node_spec (t : Tree) : t.node.spec = 0 := by
  cases t with
  | dir name children => rfl
  | leaf name leaf => cases leaf <;> rfl

/-! ## The links between the entries -/

theorem link_nxt {n : Node} {es : List Node} (h : n ∈ link es) :
    n.nxt = 0 ∨ ∃ m ∈ es, n.nxt = m.off := by
  induction es using link.induct with
  | case1 => cases h
  | case2 e =>
      obtain rfl := List.mem_singleton.1 h
      exact .inl rfl
  | case3 e e' es ih =>
      rw [link, List.mem_cons] at h
      rcases h with rfl | h
      · exact .inr ⟨e', List.mem_cons_of_mem e List.mem_cons_self, rfl⟩
      · refine (ih h).imp_right ?_
        rintro ⟨m, hm, hnxt⟩
        exact ⟨m, List.mem_cons_of_mem e hm, hnxt⟩

section Linked

variable {cursor : Nat} {q : Queued} {n : Node}

theorem placed_off (h : cursor % 16 = 0) {es : List Node} (hn : n ∈ (placeAll cursor es).1) :
    Offset (placeAll cursor es).2 n.off := by
  obtain ⟨-, hle, hmod⟩ := (placeAll_ordered h es).bounds n.extent (List.mem_map_of_mem hn)
  exact ⟨(Nat.le_add_right _ _).trans hle, hmod⟩

theorem linked_off (h : cursor % 16 = 0) (hn : n ∈ linked cursor q) :
    Offset (placeAll cursor q.entries).2 n.off := by
  have hmem : n.off ∈ (linked cursor q).map Node.off := List.mem_map_of_mem hn
  rw [linked, link_map (fun _ _ => rfl)] at hmem
  obtain ⟨m, hm, hoff⟩ := List.mem_map.1 hmem
  rw [← hoff]
  exact placed_off h hm

theorem linked_nxt (h : cursor % 16 = 0) (hn : n ∈ linked cursor q) :
    Offset (placeAll cursor q.entries).2 n.nxt := by
  rcases link_nxt hn with hnxt | ⟨m, hm, hnxt⟩
  · rw [hnxt]
    exact Offset.zero _
  · rw [hnxt]
    exact placed_off h hm

end Linked

/-! ## The run -/

/-- The nodes so far, and what is still in the queue. -/
structure Sound (st : Layout) : Prop where
  mod : st.cursor % 16 = 0
  nodes : ∀ n ∈ st.flat, NodeOk st.cursor n
  queue : ∀ q ∈ st.queue, Offset st.cursor q.off ∧ Offset st.cursor q.parent ∧
    ∀ t ∈ q.children, EntryName t.node.name ∧ Named t

theorem entries_ok {cursor : Nat} {q : Queued} (hoff : Offset cursor q.off)
    (hparent : Offset cursor q.parent) (hnames : ∀ t ∈ q.children, EntryName t.node.name) {e : Node}
    (he : e ∈ q.entries) :
      Ascii e.name ∧ e.kind < 16 ∧ e.specDev < 2 ^ 32 ∧ Offset cursor e.spec := by
  have hdot : Ascii ['.'] := by
    intro c hc
    obtain rfl := List.mem_singleton.1 hc
    decide
  rw [Queued.entries, List.mem_cons, List.mem_cons, List.mem_map] at he
  rcases he with rfl | rfl | ⟨t, ht, rfl⟩
  · exact ⟨hdot, of_decide_eq_true rfl, Nat.two_pow_pos 32, hoff⟩
  · refine ⟨fun c hc => ?_, of_decide_eq_true rfl, Nat.two_pow_pos 32, hparent⟩
    rcases List.mem_cons.1 hc with rfl | hc
    · decide
    · exact hdot c hc
  · refine ⟨(hnames t ht).ascii, t.node_kind_lt, t.node_specDev_lt, ?_⟩
    rw [t.node_spec]
    exact Offset.zero _

theorem Sound.next {st : Layout} {q : Queued} {queue : List Queued} (h : Sound st)
    (hq : st.queue = q :: queue) : Sound (st.next q queue) := by
  have hle : st.cursor ≤ (st.next q queue).cursor := (placeAll_ordered h.mod q.entries).le
  obtain ⟨hoff, hparent, hchildren⟩ := h.queue q (by rw [hq]; exact List.mem_cons_self)
  refine ⟨placeAll_mod h.mod _, ?_, ?_⟩
  · intro n hn
    rcases List.mem_append.1 hn with hn | hn
    · obtain ⟨k, hk⟩ := List.getElem?_of_mem hn
      rw [List.getElem?_modify] at hk
      obtain ⟨m, hm, rfl⟩ := Option.map_eq_some_iff.1 hk
      have hok := (h.nodes m (List.mem_of_getElem? hm)).mono hle
      split
      · exact ⟨hok.name, hok.kind, hok.dev, hok.nxt, ⟨hle, h.mod⟩⟩
      · exact hok
    · obtain ⟨k, hk⟩ := List.getElem?_of_mem hn
      obtain ⟨e, he, hname, hkind, -, hdev, hspec⟩ := linked_getElem hk
      obtain ⟨hname', hkind', hdev', hspec'⟩ := entries_ok hoff hparent
        (fun t ht => (hchildren t ht).1) (List.mem_of_getElem? he)
      rw [← hname] at hname'
      rw [← hkind] at hkind'
      rw [← hdev] at hdev'
      rw [← hspec] at hspec'
      exact ⟨hname', hkind', hdev', linked_nxt h.mod hn, hspec'.mono hle⟩
  · intro s hs
    rcases List.mem_append.1 hs with hs | hs
    · obtain ⟨hsoff, hsparent, hrest⟩ := h.queue s (by rw [hq]; exact List.mem_cons_of_mem q hs)
      exact ⟨hsoff.mono hle, hsparent.mono hle, hrest⟩
    · obtain ⟨k, name, n, hchild, hn, -, hsoff, hsparent⟩ := mem_subdirs_linked.1 hs
      refine ⟨?_, ?_, ?_⟩
      · rw [hsoff]
        exact linked_off h.mod (List.mem_of_getElem? hn)
      · rw [hsparent]
        exact hoff.mono hle
      · cases (hchildren _ (List.mem_of_getElem? hchild)).2 with
        | dir hnames _ hnamed => exact fun t ht => ⟨hnames t ht, hnamed t ht⟩

theorem sound_of_loop {fuel : Nat} {st : Layout} {r : List Node × Nat}
    (h : loop layoutStep fuel st = some r) (hst : Sound st) : ∀ n ∈ r.1, NodeOk r.2 n := by
  refine layoutLoop_induct (Q := fun _ r => ∀ n ∈ r.1, NodeOk r.2 n)
    (fun st hi _ => hi.nodes) ?_ h hst
  intro st st' q queue hi hq hstep
  obtain rfl := Sum.inl.inj (hstep.symm.trans (layoutStep_eq hq))
  exact ⟨hi.next hq, fun r hr => hr⟩

/-- Every node of the layout. -/
theorem layout_sound {name : Str} {children : List Tree} {volume : Str} {flat : List Node}
    {size : Nat} (hname : Ascii name) (h : layout (.dir name children) volume = some (flat, size))
    (hnamed : Named (.dir name children)) : ∀ n ∈ flat, NodeOk size n := by
  refine sound_of_loop h ⟨?_, ?_, ?_⟩
  · exact inOrder_start.cursor_mod
  · intro n hn
    obtain rfl := List.mem_singleton.1 hn
    exact ⟨hname, of_decide_eq_true rfl, Nat.two_pow_pos 32, Offset.zero _, Offset.zero _⟩
  · intro q hq
    obtain rfl := List.mem_singleton.1 hq
    have hoff : Offset (layoutStart (.dir name children) volume).cursor
        (pad16 (16 + volume.length + 1)) := ⟨Nat.le_add_right _ _, pad16_mod _⟩
    refine ⟨hoff, hoff, ?_⟩
    cases hnamed with
    | dir hnames _ hnamed => exact fun t ht => ⟨hnames t ht, hnamed t ht⟩

/-- What `struct.pack` needs of them in an image below 4 GB. -/
theorem NodeOk.fit {n : Node} {size : Nat} (h : NodeOk size n) (hsize : size < 2 ^ 32)
    (hdata : n.data.length ≤ size) : Fit n where
  name := h.name
  nxt := Nat.or_lt_two_pow (h.nxt.le.trans_lt hsize) (h.kind.trans (by decide))
  spec := by
    unfold Node.diskSpec
    split
    · exact h.dev
    · exact h.spec.le.trans_lt hsize
  data := hdata.trans_lt hsize

end P4Hyp.Romfs
