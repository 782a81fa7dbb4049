import P4Hyp.Romfs.Build
import Mathlib.Data.List.Forall2

/-!
# What the layout gives every node

A place of its own, a link to the next entry of its directory and, for the data of a large
executable, the beginning of a page.
-/

namespace P4Hyp.Romfs

/-! ## Pages -/

/-- Whether the data wants to be on a page, and where it is. -/
def Node.dataAt (n : Node) : Bool × Nat := (n.wantsPageAlign, n.off + n.hdrLen)

def OnPage (x : Bool × Nat) : Prop := x.1 = true → pageSize ∣ x.2

theorem aligned_onPage (cursor : Nat) (entry : Node) :
    OnPage (entry.wantsPageAlign, aligned cursor entry + entry.hdrLen) := by
  intro hwants
  have hwants : entry.wantsPageAlign = true := hwants
  show pageSize ∣ aligned cursor entry + entry.hdrLen
  unfold aligned pageSize
  rw [if_pos hwants]
  dsimp only
  split
  · omega
  · omega

theorem placeAll_onPage (cursor : Nat) (es : List Node) :
    ∀ x ∈ (placeAll cursor es).1.map Node.dataAt, OnPage x := by
  induction es generalizing cursor with
  | nil => exact fun x hx => absurd hx List.not_mem_nil
  | cons e es ih =>
      intro x hx
      rcases List.mem_cons.1 hx with rfl | hx
      · exact aligned_onPage cursor e
      · exact ih _ x hx

theorem onPage_of_loop {fuel : Nat} {st : Layout} {r : List Node × Nat}
    (h : loop layoutStep fuel st = some r) (hst : ∀ x ∈ st.flat.map Node.dataAt, OnPage x) :
    ∀ x ∈ r.1.map Node.dataAt, OnPage x := by
  refine layoutLoop_induct (I := fun st => ∀ x ∈ st.flat.map Node.dataAt, OnPage x)
    (Q := fun _ r => ∀ x ∈ r.1.map Node.dataAt, OnPage x) (fun st hi _ => hi) ?_ h hst
  intro st st' q queue hi hq hstep
  obtain rfl := Sum.inl.inj (hstep.symm.trans (layoutStep_eq hq))
  refine ⟨fun x hx => ?_, fun r hr => hr⟩
  rw [Layout.next, List.map_append, modify_map (fun _ _ => rfl), List.mem_append, linked,
    link_map (fun _ _ => rfl)] at hx
  rcases hx with hx | hx
  · exact hi x hx
  · exact placeAll_onPage _ _ x hx

/-! ## Runs of entries -/

/-- All entries of one directory, the two hard links and the children in their order, each with
the offset of the next and the last with none. -/
def DirRun (flat run : List Node) : Prop :=
  ∃ d dot dotdot es children, d ∈ flat ∧ d.kind = Kind.dir ||| Kind.exec ∧
    run = dot :: dotdot :: es ∧
    d.spec = dot.off ∧ IsLink ['.'] d.off dot ∧ dotdot.name = ['.', '.'] ∧
    List.Forall₂ Matches children es ∧ Chained run

section Runs

variable {st : Layout} {q : Queued} {queue : List Queued} {flat : List Node}

theorem Built.matches {t : Tree} {n : Node} {parent : Nat} (h : Built flat t n parent) :
    Matches t n := by
  cases h with
  | leaf _ hmatch => exact hmatch
  | dir _ hmatch => exact hmatch

theorem dirRun_of_next (h : QueueOk st) (hq : st.queue = q :: queue)
    (hgrows : Grows (st.next q queue) flat) :
    DirRun flat ((flat.drop st.flat.length).take (q.children.length + 2)) := by
  obtain ⟨dot, dotdot, es, hrun, hlink, hlink', hoff, hchain, hlen, hget⟩ := run_of_next h hq hgrows
  obtain ⟨m, hm, hmoff, hmkind⟩ := h.node q (by rw [hq]; exact List.mem_cons_self)
  have hsame := turn_same h hq hgrows hm
  have hmatch : List.Forall₂ Matches q.children es := by
    refine List.forall₂_iff_get.2 ⟨hlen.symm, fun k hk hk' => ?_⟩
    have he : flat[st.flat.length + (k + 2)]? = some (es.get ⟨k, hk'⟩) :=
      (hget k hk).symm.trans (List.getElem?_eq_getElem hk')
    exact (built_child h hq hgrows (List.getElem?_eq_getElem hk) he).matches
  rw [← hmoff] at hlink
  rw [hrun]
  exact ⟨{ m with spec := st.cursor }, dot, dotdot, es, q.children,
    List.mem_of_getElem? hsame, hmkind, rfl, hoff.symm, hlink, hlink'.name, hmatch, hchain⟩

/-- From a state on the directories in the queue and below get their runs, one after another. -/
theorem runs_of_loop {fuel : Nat} {r : List Node × Nat} (h : loop layoutStep fuel st = some r)
    (hst : QueueOk st) : ∃ runs : List (List Node), r.1.drop st.flat.length = runs.flatten ∧
      ∀ run ∈ runs, DirRun r.1 run := by
  have hall := layoutLoop_induct (I := QueueOk) (Q := fun st r => Grows st r.1 ∧
    ∃ runs : List (List Node), r.1.drop st.flat.length = runs.flatten ∧
      ∀ run ∈ runs, DirRun r.1 run)
    ?_ ?_ h hst
  · exact hall.2
  · intro st _ hq
    refine ⟨grows_refl hq, [], ?_, fun run hrun => absurd hrun List.not_mem_nil⟩
    exact List.drop_eq_nil_of_le (Nat.le_refl _)
  · intro st st' q queue hi hq hstep
    obtain rfl := Sum.inl.inj (hstep.symm.trans (layoutStep_eq hq))
    refine ⟨hi.next hq, fun r hr => ?_⟩
    obtain ⟨hgrows, runs, hruns, hdirs⟩ := hr
    refine ⟨hgrows.of_next hi hq,
      (r.1.drop st.flat.length).take (q.children.length + 2) :: runs, ?_, ?_⟩
    · have hlen : (st.next q queue).flat.length = st.flat.length + (q.children.length + 2) := by
        rw [Layout.next, List.length_append, List.length_modify, linked_length]
      rw [List.flatten_cons, ← hruns, hlen, ← List.drop_drop, List.take_append_drop]
    · intro run hrun
      rcases List.mem_cons.1 hrun with rfl | hrun
      · exact dirRun_of_next hi hq hgrows
      · exact hdirs run hrun

end Runs

/-! ## The whole layout -/

/-- Where the superblock with the name of the volume ends. -/
def superblockLen (volume : Str) : Nat := pad16 (16 + volume.length + 1)

/-- No byte is in both. -/
def Separate (a b : Nat × Nat) : Prop := ∀ i, a.1 ≤ i → i < a.1 + a.2 → ¬(b.1 ≤ i ∧ i < b.1 + b.2)

/-- What is to hold of a layout. -/
structure LaidOut (root : Tree) (volume : Str) (flat : List Node) (size : Nat) : Prop where
  built : ∃ n, n.off = superblockLen volume ∧ Built flat root n n.off
  offsets : ∀ n ∈ flat, n.off ≠ 0 ∧ 16 ∣ n.off
  separate : ((0, superblockLen volume) :: flat.map Node.extent).Pairwise Separate
  inside : ∀ x ∈ (0, superblockLen volume) :: flat.map Node.extent, x.1 + x.2 ≤ size
  next : ∃ n runs, flat = n :: List.flatten runs ∧ n.nxt = 0 ∧ ∀ run ∈ runs, DirRun flat run
  pages : ∀ n ∈ flat, n.kind % 8 = Kind.reg → n.kind &&& Kind.exec ≠ 0 → pageSize ≤ n.data.length →
    pageSize ∣ n.off + n.hdrLen

theorem Ordered.separate {lo hi : Nat} {xs : List (Nat × Nat)} (h : Ordered lo xs hi) :
    ((0, lo) :: xs).Pairwise Separate := by
  have hsep {a b : Nat × Nat} (hab : a.1 + a.2 ≤ b.1) : Separate a b := by
    intro i _ hi hb
    omega
  refine List.pairwise_cons.2 ⟨fun x hx => hsep ?_, h.pairwise.imp hsep⟩
  rw [Nat.zero_add]
  exact (h.bounds x hx).1

/-- Every directory tree is laid out so. -/
theorem layout_laidOut (name : Str) (children : List Tree) (volume : Str) :
    ∃ flat size, layout (.dir name children) volume = some (flat, size) ∧
      LaidOut (.dir name children) volume flat size := by
  obtain ⟨flat, size, h⟩ := layout_ends name children volume
  have horder : InOrder (superblockLen volume) flat size := inOrder_of_loop h inOrder_start
  refine ⟨flat, size, h, ?_, fun n hn => ?_, horder.ordered.separate, fun x hx => ?_, ?_,
    fun n hn hreg hexec hlen => ?_⟩
  · obtain ⟨n, hoff, hbuilt⟩ := layout_built h
    rw [← hoff] at hbuilt
    exact ⟨n, hoff, hbuilt⟩
  · obtain ⟨hlo, -, hmod⟩ := horder.ordered.bounds n.extent (List.mem_map_of_mem hn)
    have hpos := le_pad16 (16 + volume.length + 1)
    unfold superblockLen at hlo
    dsimp only [Node.extent] at hlo hmod
    omega
  · rcases List.mem_cons.1 hx with rfl | hx
    · rw [Nat.zero_add]
      exact horder.ordered.le
    · exact (horder.ordered.bounds x hx).2.1
  · obtain ⟨runs, hruns, hdirs⟩ := runs_of_loop h queueOk_start
    obtain ⟨n, hn, hcore⟩ := (grows_of_loop h queueOk_start).core 0 _ rfl
    have hnxt : n.core.nxt = 0 := by
      rw [hcore]
      rfl
    refine ⟨n, runs, ?_, hnxt, hdirs⟩
    cases flat with
    | nil => cases hn
    | cons m rest =>
        obtain rfl := Option.some.inj hn
        rw [← hruns]
        rfl
  · have hstart : ∀ x ∈ (layoutStart (.dir name children) volume).flat.map Node.dataAt,
      OnPage x := by
      intro x hx
      obtain rfl := List.mem_singleton.1 hx
      have hroot : (Tree.dir name children).node.wantsPageAlign = false := by
        simp [Node.wantsPageAlign, Tree.node, pageSize]
      exact fun hwants => absurd (hroot.symm.trans hwants) Bool.false_ne_true
    have hwants : n.wantsPageAlign = true := by
      simp [Node.wantsPageAlign, hreg, hexec, hlen]
    exact onPage_of_loop h hstart n.dataAt (List.mem_map_of_mem hn) hwants

end P4Hyp.Romfs
