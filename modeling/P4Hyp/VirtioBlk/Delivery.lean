import P4Hyp.VirtioBlk.Queue
import P4Hyp.VirtioBlk.Reset
import P4Hyp.VirtioBlk.Walk

/-!
# Delivery

The guest makes heads available and notifies; core 0 tests and clears `s_kick`,
and then consumes the avail ring one entry at a time.  `avail->idx`, `used->idx`
and `last_avail` count modulo `2 ^ 16`; the traffic that a run has seen counts
without bound, and the three are its counts cut to 16 bits.
-/

namespace P4Hyp

/-- The slot of the entry that the guest adds next. -/
def nextAvailAddr (s : Sys) : Word :=
  availSlotAddr s.rings.avail
    (ringSlot (s.mem.load16 (availIdxAddr s.rings.avail)) s.blk.queueNum)

/-- The `id` of the used element that core 0 fills or has filled. -/
def usedId (used qn : Word) (m : Mem) : Word :=
  m.load32 (usedSlotAddr used (ringSlot (m.load16 (usedIdxAddr used)) qn))

/-- What has passed through the rings: the heads made available, the ids
published, the entries consumed, and how many heads were available at the last
notification. -/
structure Traffic where
  heads : List Half
  published : List Word
  consumed : Nat
  notified : Nat

def Traffic.core0 (g : Traffic) (s : Sys) : Core0 → Traffic
  | .publish r => { g with published := g.published ++ [usedId r.used s.blk.queueNum s.mem] }
  | .advance _ => { g with consumed := g.consumed + 1 }
  | _ => g

def Traffic.step (g : Traffic) (p : Sys × Event) : Traffic :=
  match p.2 with
  | .core0 => g.core0 p.1 p.1.core0
  | .write offset _ =>
      if VirtioMmio.ofOffset offset = some .queueNotify then { g with notified := g.heads.length }
      else g
  | .store16 a _ =>
      if a = availIdxAddr p.1.rings.avail then
        { g with heads := g.heads ++ [p.1.mem.load16 (nextAvailAddr p.1)] }
      else g
  | _ => g

def traffic (h : List (Sys × Event)) : Traffic := h.foldl Traffic.step ⟨[], [], 0, 0⟩

theorem traffic_snoc (h : List (Sys × Event)) (p : Sys × Event) :
    traffic (h ++ [p]) = (traffic h).step p := by
  unfold traffic
  rw [List.foldl_append]
  rfl

/-- Core 0 is inside `blk_service` and will read `avail->idx` again. -/
def Core0.beforeLastRead : Core0 → Bool
  | .idle | .clear | .raise => false
  | _ => true

/-- What a run from `s₀` delivers: the published heads are a prefix of those made
available, in order and each once; the two counters in memory count them; and a
notified head that is not consumed has core 0 on its way to it. -/
structure Delivered (s₀ : Sys) (h : List (Sys × Event)) (s : Sys) : Prop where
  order : (traffic h).published <+: (traffic h).heads.map (BitVec.setWidth 32)
  usedIdx : s.mem.load16 (usedIdxAddr s.rings.used) =
    s₀.mem.load16 (usedIdxAddr s₀.rings.used) + BitVec.ofNat 16 (traffic h).published.length
  lastAvail : s.blk.lastAvail = s₀.blk.lastAvail + BitVec.ofNat 16 (traffic h).consumed
  told : (traffic h).consumed < (traffic h).notified →
    s.dev.sKick = true ∨ s.core0.beforeLastRead = true

/-! ## The steps considered -/

/-- A queue that has been set up and is empty, at any value of the indices. -/
structure QueueUp (s : Sys) : Prop where
  live : s.blk.live = true
  ok : QueueOk s.rings.avail s.rings.used s.blk.queueNum
  outside : s.core0.rings? = none
  availIdx : s.mem.load16 (availIdxAddr s.rings.avail) = s.blk.lastAvail
  usedIdx : s.mem.load16 (usedIdxAddr s.rings.used) = s.blk.lastAvail

/-- The `n` bytes at `a` lie outside the parts of the rings in use. -/
def OffRings (s : Sys) (a : Word) (n : Nat) : Prop :=
  Apart (availIdxAddr s.rings.avail) (2 + 2 * s.blk.queueNum.toNat) a n ∧
    Apart (usedIdxAddr s.rings.used) (2 + 8 * s.blk.queueNum.toNat) a n

/-- Fewer heads are outstanding than the queue has entries. -/
def Room (s : Sys) : Prop :=
  (s.mem.load16 (availIdxAddr s.rings.avail) - s.mem.load16 (usedIdxAddr s.rings.used)).toNat <
    s.blk.queueNum.toNat

/-- What core 0 is about to store for a request lies outside the rings. -/
def StoresOffRings (s : Sys) : Core0 → Prop
  | .walk _ _ _ k =>
      let stores := descStores s.blk.queueNum k s.mem
      OffRings s stores.1 stores.2
  | _ => True

/-- The guest's part: it neither resets nor reconfigures the queue; it writes the
rings only to add a head, while there is room, by filling the next slot and then
bumping the index; and its requests name no buffers inside the rings. -/
def DriverStep (s : Sys) : Event → Prop
  | .core0 => StoresOffRings s s.core0
  | .write offset value =>
      resets (.write offset value) = false ∧ movesRings (.write offset value) = false
  | .store8 a _ => OffRings s a 1
  | .store16 a v =>
      OffRings s a 2 ∨ Room s ∧ (a = nextAvailAddr s ∨
        a = availIdxAddr s.rings.avail ∧ v = s.mem.load16 (availIdxAddr s.rings.avail) + 1)
  | .store32 a _ => OffRings s a 4
  | _ => True

instance (s : Sys) (a : Word) (n : Nat) : Decidable (OffRings s a n) :=
  inferInstanceAs (Decidable (_ ∧ _))

instance (s : Sys) : Decidable (Room s) := inferInstanceAs (Decidable (_ < _))

instance (s : Sys) : (pc : Core0) → Decidable (StoresOffRings s pc)
  | .walk _ _ _ _ => inferInstanceAs (Decidable (OffRings _ _ _))
  | .idle | .clear | .enter | .test _ _ | .fetch _ _ | .header _ _ _ | .elemId _ _ _ _
  | .elemLen _ _ _ _ | .publish _ | .advance _ | .raise => .isTrue trivial

instance (s : Sys) : (e : Event) → Decidable (DriverStep s e)
  | .core0 => inferInstanceAs (Decidable (StoresOffRings _ _))
  | .write _ _ => inferInstanceAs (Decidable (_ ∧ _))
  | .store8 _ _ => inferInstanceAs (Decidable (OffRings _ _ _))
  | .store16 _ _ => inferInstanceAs (Decidable (_ ∨ _ ∧ _))
  | .store32 _ _ => inferInstanceAs (Decidable (OffRings _ _ _))
  | .poll | .plicRead _ | .plicWrite _ _ | .readUsed => .isTrue trivial

/-! ## The invariant -/

/-- What core 0 knows of the entry it is at, the `c`-th of `A`.  `id` is the used
element it fills. -/
def Serving (A : List Half) (c : Nat) (id : Word) : Core0 → Prop
  | .fetch _ _ => c < A.length
  | .header _ _ head | .walk _ _ head _ | .elemId _ _ head _ => A[c]? = some head
  | .elemLen _ _ head _ => A[c]? = some head ∧ id = head.setWidth 32
  | .publish _ => ∃ head, A[c]? = some head ∧ id = head.setWidth 32
  | _ => True

theorem serving_append {A : List Half} {c : Nat} {id : Word} {pc : Core0} (v : Half)
    (h : Serving A c id pc) : Serving (A ++ [v]) c id pc := by
  have hget {head : Half} (hh : A[c]? = some head) : (A ++ [v])[c]? = some head := by
    rw [List.getElem?_append_left (List.getElem?_eq_some_iff.mp hh).1]
    exact hh
  cases pc with
  | fetch r published =>
      show c < (A ++ [v]).length
      rw [List.length_append]
      exact Nat.lt_of_lt_of_le h (Nat.le_add_right _ _)
  | header r published head => exact hget h
  | walk r published head k => exact hget h
  | elemId r published head written => exact hget h
  | elemLen r published head written => exact ⟨hget h.1, h.2⟩
  | publish r =>
      obtain ⟨head, hh, hid⟩ := h
      exact ⟨head, hget hh, hid⟩
  | _ => trivial

/-- The invariant, over the queue of `qn` entries with its rings at `r` and its
counts from `i₀`. -/
structure DeliveryInv (i₀ : Half) (r : Rings) (qn : Word) (h : List (Sys × Event)) (s : Sys) :
    Prop where
  live : s.blk.live = true
  num : s.blk.queueNum = qn
  here : s.rings = r
  inside : ∀ r', s.core0.rings? = some r' → r' = r
  hold : RingsHold i₀ r.avail r.used qn (traffic h).heads (traffic h).published.length s.mem
  last : s.blk.lastAvail = i₀ + BitVec.ofNat 16 (traffic h).consumed
  count : (traffic h).published.length =
    (traffic h).consumed + if s.core0.advancing then 1 else 0
  le : (traffic h).published.length ≤ (traffic h).heads.length
  room : (traffic h).heads.length ≤ (traffic h).published.length + qn.toNat
  order : (traffic h).published <+: (traffic h).heads.map (BitVec.setWidth 32)
  serving : Serving (traffic h).heads (traffic h).consumed (usedId r.used qn s.mem) s.core0
  notified : (traffic h).notified ≤ (traffic h).heads.length
  told : (traffic h).consumed < (traffic h).notified →
    s.dev.sKick = true ∨ s.core0.beforeLastRead = true

/-- A prefix grows by the element that comes next. -/
theorem prefix_snoc {α : Type*} {u l : List α} {x : α} (h : u <+: l) (hx : l[u.length]? = some x) :
    u ++ [x] <+: l := by
  obtain ⟨t, rfl⟩ := h
  cases t with
  | nil => simp at hx
  | cons y t =>
      rw [List.getElem?_append_right (Nat.le_refl _), Nat.sub_self] at hx
      obtain rfl : y = x := Option.some.inj hx
      exact ⟨t, List.append_assoc _ _ _⟩

namespace DeliveryInv

variable {i₀ : Half} {r : Rings} {qn : Word} {h h' : List (Sys × Event)} {s s' : Sys}

theorem start {s₀ : Sys} (hup : QueueUp s₀) :
    DeliveryInv s₀.blk.lastAvail s₀.rings s₀.blk.queueNum [] s₀ := by
  have hnone (r' : Rings) (hr : s₀.core0.rings? = some r') : r' = s₀.rings := by
    rw [hup.outside] at hr
    cases hr
  have hadv : s₀.core0.advancing = false := by
    have ho := hup.outside
    cases hpc : s₀.core0 with
    | advance r => simp [hpc, Core0.rings?] at ho
    | _ => rfl
  have hserv (A : List Half) (c : Nat) (id : Word) : Serving A c id s₀.core0 := by
    have ho := hup.outside
    cases hpc : s₀.core0 with
    | idle | clear | enter | raise => trivial
    | _ => simp [hpc, Core0.rings?] at ho
  refine ⟨hup.live, rfl, rfl, hnone, ⟨?_, ?_, ?_⟩, ?_, ?_, Nat.le_refl _, Nat.zero_le _,
    List.prefix_rfl, hserv _ _ _, Nat.le_refl _, fun hlt => absurd hlt (Nat.lt_irrefl _)⟩
  · rw [hup.availIdx]
    exact (BitVec.add_zero _).symm
  · rw [hup.usedIdx]
    exact (BitVec.add_zero _).symm
  · intro j head _ hh
    cases hh
  · exact (BitVec.add_zero _).symm
  · rw [hadv]
    rfl

theorem delivered {s₀ : Sys} (hup : QueueUp s₀)
    (hi : DeliveryInv s₀.blk.lastAvail s₀.rings s₀.blk.queueNum h s) : Delivered s₀ h s := by
  refine ⟨hi.order, ?_, hi.last, hi.told⟩
  rw [hi.here, hup.usedIdx]
  exact hi.hold.usedIdx

/-- Outside the bump of the index all that is consumed is published. -/
theorem settled (hi : DeliveryInv i₀ r qn h s) (hadv : s.core0.advancing = false) :
    (traffic h).published.length = (traffic h).consumed := by
  rw [hi.count, hadv]
  rfl

/-- A step that passes nothing through the rings. -/
theorem move (hi : DeliveryInv i₀ r qn h s) (ht : traffic h' = traffic h)
    (hb : SameQueue s.blk s'.blk) (hin : ∀ r', s'.core0.rings? = some r' → r' = r)
    (hm : RingsHold i₀ r.avail r.used qn (traffic h).heads (traffic h).published.length s'.mem)
    (hadv : s'.core0.advancing = s.core0.advancing)
    (hs : Serving (traffic h).heads (traffic h).consumed (usedId r.used qn s'.mem) s'.core0)
    (htold : (traffic h).consumed < (traffic h).notified →
      s'.dev.sKick = true ∨ s'.core0.beforeLastRead = true) :
    DeliveryInv i₀ r qn h' s' := by
  have hrings : s'.rings = r := (congrArg₂ Rings.mk hb.avail hb.used).trans hi.here
  refine ⟨hb.live.trans hi.live, hb.num.trans hi.num, hrings, hin, ?_, ?_, ?_, ?_, ?_, ?_, ?_, ?_,
    ?_⟩
  · rw [ht]
    exact hm
  · rw [ht]
    exact hb.last.trans hi.last
  · rw [ht, hadv]
    exact hi.count
  · rw [ht]
    exact hi.le
  · rw [ht]
    exact hi.room
  · rw [ht]
    exact hi.order
  · rw [ht]
    exact hs
  · rw [ht]
    exact hi.notified
  · rw [ht]
    exact htold

/-! ## Core 0 -/

theorem inside_core0 (hi : DeliveryInv i₀ r qn h s) (r' : Rings)
    (hr : (core0Step s).core0.rings? = some r') : r' = r := by
  by_cases hen : s.core0 = .enter
  · simp only [core0Step, hen] at hr
    split at hr
    · rw [← hi.here]
      exact (Option.some.inj hr).symm
    · cases hr
  · rcases rings?_core0Step hen with hn | hs
    · rw [hn] at hr
      cases hr
    · rw [hs] at hr
      exact hi.inside r' hr

theorem sameQueue_core0 (h : s.core0.advancing = false) : SameQueue s.blk (core0Step s).blk := by
  rw [core0Step_blk, h]
  exact .rfl

theorem traffic_core0 (h : List (Sys × Event)) (s : Sys) :
    traffic (h ++ [(s, .core0)]) = (traffic h).core0 s s.core0 := by
  rw [traffic_snoc]
  rfl

/-- Outside `blk_service`: a flag is tested, cleared or set, or a call begins. -/
theorem outside (hi : DeliveryInv i₀ r qn h s) (hout : s.core0.rings? = none) :
    DeliveryInv i₀ r qn (h ++ [(s, .core0)]) (core0Step s) := by
  have ht := traffic_core0 h s
  have hmem : (core0Step s).mem = s.mem := congrArg World.mem (core0Step_world hout)
  have hm := hi.hold
  rw [← hmem] at hm
  have hold := hi.told
  cases hpc : s.core0 with
  | idle =>
      rw [hpc] at ht hold
      have hadv : s.core0.advancing = false := by rw [hpc]; rfl
      refine hi.move ht (sameQueue_core0 hadv) hi.inside_core0 hm ?_ ?_ ?_
      · simp only [core0Step, hpc]
        split
        · rfl
        · rw [hpc]
      · simp only [core0Step, hpc]
        split
        · trivial
        · rw [hpc]
          trivial
      · intro hlt
        have hk : s.dev.sKick = true := (hold hlt).resolve_right Bool.false_ne_true
        left
        simp only [core0Step, hpc, hk, if_true]
  | clear =>
      rw [hpc] at ht
      have hadv : s.core0.advancing = false := by rw [hpc]; rfl
      refine hi.move ht (sameQueue_core0 hadv) hi.inside_core0 hm ?_ ?_ ?_
      · simp only [core0Step, hpc]
        rfl
      · simp only [core0Step, hpc]
        trivial
      · intro _
        right
        simp only [core0Step, hpc]
        rfl
  | enter =>
      rw [hpc] at ht
      have hadv : s.core0.advancing = false := by rw [hpc]; rfl
      have hl : s.dev.blk.live = true := hi.live
      refine hi.move ht (sameQueue_core0 hadv) hi.inside_core0 hm ?_ ?_ ?_
      · simp only [core0Step, hpc, hl, if_true]
        rfl
      · simp only [core0Step, hpc, hl, if_true]
        trivial
      · intro _
        right
        simp only [core0Step, hpc, hl, if_true]
        rfl
  | raise =>
      rw [hpc] at ht hold
      have hadv : s.core0.advancing = false := by rw [hpc]; rfl
      refine hi.move ht (sameQueue_core0 hadv) hi.inside_core0 hm ?_ ?_ ?_
      · simp only [core0Step, hpc]
        rfl
      · simp only [core0Step, hpc]
        trivial
      · intro hlt
        have hk : s.dev.sKick = true := (hold hlt).resolve_right Bool.false_ne_true
        left
        simp only [core0Step, hpc]
        exact hk
  | _ => simp [hpc, Core0.rings?] at hout

/-- The loop's test: it leaves only when every head made available has been
consumed. -/
theorem test (hq : QueueOk r.avail r.used qn) (hi : DeliveryInv i₀ r qn h s) {r' : Rings}
    {published : Bool} (hpc : s.core0 = .test r' published) :
    DeliveryInv i₀ r qn (h ++ [(s, .core0)]) (core0Step s) := by
  obtain rfl : r' = r := hi.inside r' (by rw [hpc]; rfl)
  have hadv : s.core0.advancing = false := by rw [hpc]; rfl
  have ht := traffic_core0 h s
  rw [hpc] at ht
  have hcount := hi.settled hadv
  have hle := hi.le
  have hroom := hi.room
  have hb := hq.bounds
  by_cases hidx : s.blk.lastAvail = s.mem.load16 (availIdxAddr r'.avail)
  · have hall : (traffic h).consumed = (traffic h).heads.length := by
      rw [hi.last, hi.hold.availIdx] at hidx
      exact count_eq (by omega) (by omega) hidx
    have hstep : core0Step s = { s with
        world := s.world.touch [.load (availIdxAddr r'.avail) 2]
        core0 := if published then .raise else .idle } := by
      simp only [core0Step, hpc, hidx, ne_eq, not_true_eq_false, if_false]
    refine hi.move ht (sameQueue_core0 hadv) hi.inside_core0 ?_ ?_ ?_ ?_
    · rw [hstep]
      exact hi.hold
    · rw [hstep, hadv]
      cases published <;> rfl
    · rw [hstep]
      cases published <;> trivial
    · intro hlt
      have hn := hi.notified
      omega
  · have hstep : core0Step s = { s with
        world := s.world.touch [.load (availIdxAddr r'.avail) 2]
        core0 := .fetch r' published } := by
      simp only [core0Step, hpc, ne_eq, hidx, not_false_eq_true, if_true]
    have hlt : (traffic h).consumed < (traffic h).heads.length := by
      have hne : (traffic h).consumed ≠ (traffic h).heads.length := by
        intro he
        rw [hi.last, hi.hold.availIdx, he] at hidx
        exact hidx rfl
      omega
    refine hi.move ht (sameQueue_core0 hadv) hi.inside_core0 ?_ ?_ ?_ ?_
    · rw [hstep]
      exact hi.hold
    · rw [hstep, hadv]
      rfl
    · rw [hstep]
      exact hlt
    · intro _
      rw [hstep]
      exact .inr rfl

/-- The entry that core 0 reads is the next head in order. -/
theorem fetch (hi : DeliveryInv i₀ r qn h s) {r' : Rings} {published : Bool}
    (hpc : s.core0 = .fetch r' published) :
    DeliveryInv i₀ r qn (h ++ [(s, .core0)]) (core0Step s) := by
  obtain rfl : r' = r := hi.inside r' (by rw [hpc]; rfl)
  have hadv : s.core0.advancing = false := by rw [hpc]; rfl
  have ht := traffic_core0 h s
  rw [hpc] at ht
  have hcount := hi.settled hadv
  have hlt : (traffic h).consumed < (traffic h).heads.length := by
    have hs := hi.serving
    rw [hpc] at hs
    exact hs
  have hentry : s.mem.load16 (availEntryAddr r' s.blk) =
      (traffic h).heads[(traffic h).consumed] := by
    unfold availEntryAddr
    rw [hi.last, hi.num]
    exact hi.hold.slot _ _ (by omega) (List.getElem?_eq_getElem hlt)
  refine hi.move ht (sameQueue_core0 hadv) hi.inside_core0 ?_ ?_ ?_ ?_
  · simp only [core0Step, hpc]
    exact hi.hold
  · simp only [core0Step, hpc]
    rfl
  · simp only [core0Step, hpc, hentry]
    exact List.getElem?_eq_getElem hlt
  · intro _
    simp only [core0Step, hpc]
    exact .inr rfl

theorem usedId_congr {used avail qn : Word} {m m' : Mem} (hq : QueueOk avail used qn)
    (hu : SameUsed used qn m m') : usedId used qn m' = usedId used qn m := by
  unfold usedId
  rw [hu.idx]
  exact hu.id hq _

/-- A step of a request, which stores outside the rings. -/
theorem request (hq : QueueOk r.avail r.used qn) (hi : DeliveryInv i₀ r qn h s) {head : Half}
    (hpc : (∃ r' published, s.core0 = .header r' published head) ∨
      ∃ r' published k, s.core0 = .walk r' published head k)
    (hto : (∃ r' published k, (core0Step s).core0 = .walk r' published head k) ∨
      ∃ r' published written, (core0Step s).core0 = .elemId r' published head written)
    (ha : SameAvail r.avail qn s.mem (core0Step s).mem)
    (hu : SameUsed r.used qn s.mem (core0Step s).mem) :
    DeliveryInv i₀ r qn (h ++ [(s, .core0)]) (core0Step s) := by
  have hadv : s.core0.advancing = false := by
    rcases hpc with ⟨r', p, hpc⟩ | ⟨r', p, k, hpc⟩
    · rw [hpc]
      rfl
    · rw [hpc]
      rfl
  have hhead : (traffic h).heads[(traffic h).consumed]? = some head := by
    have hs := hi.serving
    rcases hpc with ⟨r', p, hpc⟩ | ⟨r', p, k, hpc⟩
    · rw [hpc] at hs
      exact hs
    · rw [hpc] at hs
      exact hs
  have ht : traffic (h ++ [(s, .core0)]) = traffic h := by
    rw [traffic_core0]
    rcases hpc with ⟨r', p, hpc⟩ | ⟨r', p, k, hpc⟩
    · rw [hpc]
      rfl
    · rw [hpc]
      rfl
  refine hi.move ht (sameQueue_core0 hadv) hi.inside_core0 (hi.hold.congr hq ha hu.idx) ?_ ?_ ?_
  · rw [hadv]
    rcases hto with ⟨r', p, k, hto⟩ | ⟨r', p, v, hto⟩
    · rw [hto]
      rfl
    · rw [hto]
      rfl
  · rcases hto with ⟨r', p, k, hto⟩ | ⟨r', p, v, hto⟩
    · rw [hto]
      exact hhead
    · rw [hto]
      exact hhead
  · intro _
    rcases hto with ⟨r', p, k, hto⟩ | ⟨r', p, v, hto⟩
    · rw [hto]
      exact .inr rfl
    · rw [hto]
      exact .inr rfl

theorem header (hq : QueueOk r.avail r.used qn) (hi : DeliveryInv i₀ r qn h s) {r' : Rings}
    {published : Bool} {head : Half} (hpc : s.core0 = .header r' published head) :
    DeliveryInv i₀ r qn (h ++ [(s, .core0)]) (core0Step s) := by
  have hmem : (core0Step s).mem = (stepWorld (blkHeader s.blk head s.world)).mem := by
    simp only [core0Step, hpc]
    cases blkHeader s.blk head s.world <;> rfl
  rw [blkHeader_mem] at hmem
  have hagree (a : Word) (n : Nat) : s.mem.AgreeOn (core0Step s).mem a n := by
    rw [hmem]
    exact Mem.AgreeOn.refl _ _ _
  refine request hq hi (.inl ⟨r', published, hpc⟩) ?_ (hagree _ _) (hagree _ _)
  simp only [core0Step, hpc]
  cases blkHeader s.blk head s.world with
  | inl kw => exact .inl ⟨r', published, kw.1, rfl⟩
  | inr res => exact .inr ⟨r', published, res.1, rfl⟩

theorem walk (hq : QueueOk r.avail r.used qn) (hi : DeliveryInv i₀ r qn h s)
    (hd : DriverStep s .core0) {r' : Rings} {published : Bool} {head : Half} {k : Walk}
    (hpc : s.core0 = .walk r' published head k) :
    DeliveryInv i₀ r qn (h ++ [(s, .core0)]) (core0Step s) := by
  simp only [DriverStep, StoresOffRings, hpc, OffRings, hi.here, hi.num] at hd
  have hmem : (core0Step s).mem = (stepWorld (blkWalkStep qn k s.world)).mem := by
    simp only [core0Step, hpc, hi.num]
    cases blkWalkStep qn k s.world <;> rfl
  have hagree {a : Word} {n : Nat} (hoff : Apart a n (descStores qn k s.mem).1
      (descStores qn k s.mem).2) : s.mem.AgreeOn (core0Step s).mem a n := by
    intro x hx
    rw [hmem]
    exact blkWalkStep_mem (hoff x hx)
  refine request hq hi (.inr ⟨r', published, k, hpc⟩) ?_ (hagree hd.1) (hagree hd.2)
  simp only [core0Step, hpc]
  cases blkWalkStep s.blk.queueNum k s.world with
  | inl kw => exact .inl ⟨r', published, kw.1, rfl⟩
  | inr res => exact .inr ⟨r', published, res.1, rfl⟩

theorem elemId (hq : QueueOk r.avail r.used qn) (hi : DeliveryInv i₀ r qn h s) {r' : Rings}
    {published : Bool} {head : Half} {written : Word}
    (hpc : s.core0 = .elemId r' published head written) :
    DeliveryInv i₀ r qn (h ++ [(s, .core0)]) (core0Step s) := by
  obtain rfl : r' = r := hi.inside r' (by rw [hpc]; rfl)
  have hadv : s.core0.advancing = false := by rw [hpc]; rfl
  have ht := traffic_core0 h s
  rw [hpc] at ht
  have hs := hi.serving
  rw [hpc] at hs
  obtain ⟨hidx, hid, havail⟩ :=
    store_id (m := s.mem) hq (s.mem.load16 (usedIdxAddr r'.used)) (head.setWidth 32)
  have hmem : (core0Step s).mem =
      s.mem.store32 (usedElemAddr r' s.blk s.mem) (head.setWidth 32) := by
    simp only [core0Step, hpc]
    rfl
  rw [usedElemAddr, hi.num] at hmem
  refine hi.move ht (sameQueue_core0 hadv) hi.inside_core0 ?_ ?_ ?_ ?_
  · rw [hmem]
    exact hi.hold.congr hq havail hidx
  · simp only [core0Step, hpc]
    rfl
  · have hstored : usedId r'.used qn (core0Step s).mem = head.setWidth 32 := by
      rw [hmem, usedId, hidx]
      exact hid
    rw [hstored]
    simp only [core0Step, hpc]
    exact ⟨hs, rfl⟩
  · intro _
    simp only [core0Step, hpc]
    exact .inr rfl

theorem elemLen (hq : QueueOk r.avail r.used qn) (hi : DeliveryInv i₀ r qn h s) {r' : Rings}
    {published : Bool} {head : Half} {written : Word}
    (hpc : s.core0 = .elemLen r' published head written) :
    DeliveryInv i₀ r qn (h ++ [(s, .core0)]) (core0Step s) := by
  obtain rfl : r' = r := hi.inside r' (by rw [hpc]; rfl)
  have hadv : s.core0.advancing = false := by rw [hpc]; rfl
  have ht := traffic_core0 h s
  rw [hpc] at ht
  have hs := hi.serving
  rw [hpc] at hs
  obtain ⟨hidx, hid, havail⟩ :=
    store_len (m := s.mem) hq (s.mem.load16 (usedIdxAddr r'.used)) written
  have hmem : (core0Step s).mem =
      s.mem.store32 (usedElemAddr r' s.blk s.mem + 4) written := by
    simp only [core0Step, hpc]
    rfl
  rw [usedElemAddr, hi.num] at hmem
  refine hi.move ht (sameQueue_core0 hadv) hi.inside_core0 ?_ ?_ ?_ ?_
  · rw [hmem]
    exact hi.hold.congr hq havail hidx
  · simp only [core0Step, hpc]
    rfl
  · have hstored : usedId r'.used qn (core0Step s).mem = usedId r'.used qn s.mem := by
      rw [hmem, usedId, hidx]
      exact hid
    rw [hstored]
    simp only [core0Step, hpc]
    exact ⟨head, hs⟩
  · intro _
    simp only [core0Step, hpc]
    exact .inr rfl

/-- The bump of `used->idx` publishes the head that core 0 has served. -/
theorem publish (hq : QueueOk r.avail r.used qn) (hi : DeliveryInv i₀ r qn h s) {r' : Rings}
    (hpc : s.core0 = .publish r') :
    DeliveryInv i₀ r qn (h ++ [(s, .core0)]) (core0Step s) := by
  obtain rfl : r' = r := hi.inside r' (by rw [hpc]; rfl)
  obtain ⟨head, hhead, hid⟩ : ∃ head, (traffic h).heads[(traffic h).consumed]? = some head ∧
      usedId r'.used qn s.mem = head.setWidth 32 := by
    have hs := hi.serving
    rw [hpc] at hs
    exact hs
  have hcount : (traffic h).published.length = (traffic h).consumed := by
    rw [hi.count, hpc]
    rfl
  have hlt : (traffic h).consumed < (traffic h).heads.length :=
    (List.getElem?_eq_some_iff.mp hhead).1
  have ht : traffic (h ++ [(s, .core0)]) =
      { traffic h with published := (traffic h).published ++ [head.setWidth 32] } := by
    rw [traffic_core0, hpc, ← hid, ← hi.num]
    rfl
  have hstep : core0Step s = { s with
      world := { s.world.touch [.load (usedIdxAddr r'.used) 2, .store (usedIdxAddr r'.used) 2] with
        mem := s.mem.store16 (usedIdxAddr r'.used) (s.mem.load16 (usedIdxAddr r'.used) + 1) }
      core0 := .advance r' } := by
    simp only [core0Step, hpc]
  have hlen : ((traffic h).published ++ [head.setWidth 32]).length =
      (traffic h).published.length + 1 := by simp
  rw [hstep]
  refine ⟨hi.live, hi.num, hi.here, fun _ hr => (Option.some.inj hr).symm, ?_, ?_, ?_, ?_, ?_, ?_,
    trivial, ?_, fun _ => .inr rfl⟩
  · rw [ht, hlen]
    exact hi.hold.publish hq
  · rw [ht]
    exact hi.last
  · rw [ht, hlen, hcount]
    rfl
  · rw [ht, hlen]
    show _ ≤ (traffic h).heads.length
    omega
  · have hroom := hi.room
    rw [ht, hlen]
    show (traffic h).heads.length ≤ _
    omega
  · rw [ht]
    refine prefix_snoc hi.order ?_
    rw [hcount, List.getElem?_map, hhead]
    rfl
  · rw [ht]
    exact hi.notified

theorem advance (hi : DeliveryInv i₀ r qn h s) {r' : Rings} (hpc : s.core0 = .advance r') :
    DeliveryInv i₀ r qn (h ++ [(s, .core0)]) (core0Step s) := by
  obtain rfl : r' = r := hi.inside r' (by rw [hpc]; rfl)
  have ht : traffic (h ++ [(s, .core0)]) =
      { traffic h with consumed := (traffic h).consumed + 1 } := by
    rw [traffic_core0, hpc]
    rfl
  have hstep : core0Step s = { s with
      dev := { s.dev with blk := { s.dev.blk with lastAvail := s.dev.blk.lastAvail + 1 } }
      core0 := .test r' true } := by
    simp only [core0Step, hpc]
  have hcount := hi.count
  rw [hpc] at hcount
  have hlast : s.dev.blk.lastAvail = _ := hi.last
  rw [hstep]
  refine ⟨hi.live, hi.num, hi.here, fun _ hr => (Option.some.inj hr).symm, ?_, ?_, ?_, ?_, ?_, ?_,
    trivial, ?_, fun _ => .inr rfl⟩
  · rw [ht]
    exact hi.hold
  · rw [ht]
    show s.dev.blk.lastAvail + 1 = _
    rw [hlast, BitVec.ofNat_add, BitVec.add_assoc]
    rfl
  · rw [ht]
    exact hcount
  · rw [ht]
    exact hi.le
  · rw [ht]
    exact hi.room
  · rw [ht]
    exact hi.order
  · rw [ht]
    exact hi.notified

theorem core0 (hq : QueueOk r.avail r.used qn) (hi : DeliveryInv i₀ r qn h s)
    (hd : DriverStep s .core0) : DeliveryInv i₀ r qn (h ++ [(s, .core0)]) (core0Step s) := by
  cases hpc : s.core0 with
  | idle | clear | enter | raise => exact hi.outside (by rw [hpc]; rfl)
  | test r' published => exact hi.test hq hpc
  | fetch r' published => exact hi.fetch hpc
  | header r' published head => exact hi.header hq hpc
  | walk r' published head k => exact hi.walk hq hd hpc
  | elemId r' published head written => exact hi.elemId hq hpc
  | elemLen r' published head written => exact hi.elemLen hq hpc
  | publish r' => exact hi.publish hq hpc
  | advance r' => exact hi.advance hpc

/-! ## Core 1 and the guest -/

/-- A step that only core 1's side of the device takes part in. -/
theorem other (hi : DeliveryInv i₀ r qn h s) (ht : traffic h' = traffic h)
    (hb : SameQueue s.blk s'.blk) (hpc : s'.core0 = s.core0) (hm : s'.mem = s.mem)
    (hk : s.dev.sKick = true → s'.dev.sKick = true) : DeliveryInv i₀ r qn h' s' := by
  refine hi.move ht hb ?_ ?_ ?_ ?_ ?_
  · rw [hpc]
    exact hi.inside
  · rw [hm]
    exact hi.hold
  · rw [hpc]
  · rw [hpc, hm]
    exact hi.serving
  · intro hlt
    rw [hpc]
    exact (hi.told hlt).imp_left hk

theorem poll (hi : DeliveryInv i₀ r qn h s) :
    DeliveryInv i₀ r qn (h ++ [(s, .poll)]) (pollStep s) := by
  have ht : traffic (h ++ [(s, .poll)]) = traffic h := traffic_snoc h _
  have hs : SameQueue s.blk (pollStep s).blk ∧ (pollStep s).core0 = s.core0 ∧
      (pollStep s).mem = s.mem ∧ (pollStep s).dev.sKick = s.dev.sKick := by
    unfold pollStep
    split
    · split
      · exact ⟨.rfl, rfl, rfl, rfl⟩
      · exact ⟨.rfl, rfl, rfl, rfl⟩
    · exact ⟨.rfl, rfl, rfl, rfl⟩
    · exact ⟨⟨rfl, rfl, rfl, rfl, rfl⟩, rfl, rfl, rfl⟩
  obtain ⟨hb, hpc, hm, hk⟩ := hs
  exact hi.other ht hb hpc hm (fun h => hk.trans h)

theorem write_sKick {ready : Bool} {offset value : Word} {d : Devices} :
    (hypVirtioBlkWrite ready offset value d).sKick =
      if VirtioMmio.ofOffset offset = some .queueNotify then true else d.sKick := by
  unfold hypVirtioBlkWrite
  cases VirtioMmio.ofOffset offset with
  | none => rfl
  | some reg =>
      cases reg with
      | status =>
          simp only [VirtioMmio.write]
          split
          · rfl
          · rfl
      | _ => rfl

theorem write {offset value : Word} (hi : DeliveryInv i₀ r qn h s)
    (hd : DriverStep s (.write offset value)) :
    DeliveryInv i₀ r qn (h ++ [(s, .write offset value)]) (guestStep s (.write offset value)) := by
  have hb : SameQueue s.blk (guestStep s (.write offset value)).blk := write_queue _ s.dev hd.2 hd.1
  have hk : (guestStep s (.write offset value)).dev.sKick =
      if VirtioMmio.ofOffset offset = some .queueNotify then true else s.dev.sKick := write_sKick
  have ht : traffic (h ++ [(s, .write offset value)]) =
      if VirtioMmio.ofOffset offset = some .queueNotify then
        { traffic h with notified := (traffic h).heads.length }
      else traffic h := traffic_snoc h _
  by_cases ho : VirtioMmio.ofOffset offset = some .queueNotify
  · rw [if_pos ho] at ht hk
    have hrings : (guestStep s (.write offset value)).rings = r :=
      (congrArg₂ Rings.mk hb.avail hb.used).trans hi.here
    refine ⟨hb.live.trans hi.live, hb.num.trans hi.num, hrings, hi.inside, ?_, ?_, ?_, ?_, ?_, ?_,
      ?_, ?_, fun _ => .inl hk⟩
    · rw [ht]
      exact hi.hold
    · rw [ht]
      exact hb.last.trans hi.last
    · rw [ht]
      exact hi.count
    · rw [ht]
      exact hi.le
    · rw [ht]
      exact hi.room
    · rw [ht]
      exact hi.order
    · rw [ht]
      exact hi.serving
    · exact Nat.le_of_eq (by rw [ht])
  · rw [if_neg ho] at ht hk
    exact hi.other ht hb rfl rfl (fun h => hk.trans h)

/-- A guest store outside the rings. -/
theorem storeOff (hq : QueueOk r.avail r.used qn) (hi : DeliveryInv i₀ r qn h s) {a : Word}
    {n : Nat} {f : Nat → Byte} (hoff : OffRings s a n) (ht : traffic h' = traffic h) :
    DeliveryInv i₀ r qn h' (s.store (s.mem.fill a n f)) := by
  simp only [OffRings, hi.here, hi.num] at hoff
  have ha : SameAvail r.avail qn s.mem (s.mem.fill a n f) := Mem.agreeOn_fill hoff.1
  have hu : SameUsed r.used qn s.mem (s.mem.fill a n f) := Mem.agreeOn_fill hoff.2
  refine hi.move ht .rfl hi.inside (hi.hold.congr hq ha hu.idx) rfl ?_ hi.told
  show Serving _ _ (usedId r.used qn (s.mem.fill a n f)) s.core0
  rw [usedId_congr hq hu]
  exact hi.serving

/-- The guest adds a head, in two stores. -/
theorem storeHead (hq : QueueOk r.avail r.used qn) (hi : DeliveryInv i₀ r qn h s) {a : Word}
    {v : Half} (hroom : Room s)
    (hadd : a = nextAvailAddr s ∨
      a = availIdxAddr s.rings.avail ∧ v = s.mem.load16 (availIdxAddr s.rings.avail) + 1) :
    DeliveryInv i₀ r qn (h ++ [(s, .store16 a v)]) (s.store (s.mem.store16 a v)) := by
  have hb := hq.bounds
  have hle := hi.le
  have hlt := hi.room
  have hfree : (traffic h).heads.length < (traffic h).published.length + qn.toNat := by
    unfold Room at hroom
    rw [hi.here, hi.num, hi.hold.outstanding hle (by omega)] at hroom
    omega
  have ht : traffic (h ++ [(s, .store16 a v)]) =
      if a = availIdxAddr s.rings.avail then
        { traffic h with heads := (traffic h).heads ++ [s.mem.load16 (nextAvailAddr s)] }
      else traffic h := traffic_snoc h _
  simp only [nextAvailAddr, hi.here, hi.num] at hadd ht
  rcases hadd with rfl | ⟨rfl, rfl⟩
  · obtain ⟨_, _, _, hu⟩ := store_slot (m := s.mem) hq (s.mem.load16 (availIdxAddr r.avail)) v
    have hne : availSlotAddr r.avail (ringSlot (s.mem.load16 (availIdxAddr r.avail)) qn) ≠
        availIdxAddr r.avail := by
      intro he
      have hs := ringSlot_lt hq (s.mem.load16 (availIdxAddr r.avail))
      have hlt := (availIdxAddr r.avail).isLt
      rw [availSlotAddr_eq] at he
      have hz := congrArg BitVec.toNat he
      rw [BitVec.toNat_add, BitVec.toNat_ofNat] at hz
      omega
    rw [if_neg hne] at ht
    refine hi.move ht .rfl hi.inside (hi.hold.offer hq v hfree) rfl ?_ hi.told
    show Serving _ _ (usedId r.used qn (s.mem.store16 _ v)) s.core0
    rw [usedId_congr hq hu]
    exact hi.serving
  · obtain ⟨_, _, hu⟩ := store_availIdx (m := s.mem) hq (s.mem.load16 (availIdxAddr r.avail) + 1)
    rw [if_pos rfl] at ht
    refine ⟨hi.live, hi.num, hi.here, hi.inside, ?_, ?_, ?_, ?_, ?_, ?_, ?_, ?_, ?_⟩
    · rw [ht]
      exact hi.hold.bump hq
    · rw [ht]
      exact hi.last
    · rw [ht]
      exact hi.count
    · rw [ht]
      simp only [List.length_append, List.length_singleton]
      omega
    · rw [ht]
      simp only [List.length_append, List.length_singleton]
      omega
    · rw [ht]
      simp only [List.map_append]
      exact hi.order.trans (List.prefix_append _ _)
    · rw [ht]
      show Serving _ _ (usedId r.used qn (s.mem.store16 _ _)) s.core0
      rw [usedId_congr hq hu]
      exact serving_append _ hi.serving
    · have hn := hi.notified
      rw [ht]
      simp only [List.length_append, List.length_singleton]
      omega
    · rw [ht]
      exact hi.told

theorem traffic_offRings {a : Word} {v : Half} (hoff : OffRings s a 2) :
    traffic (h ++ [(s, .store16 a v)]) = traffic h := by
  have hne : a ≠ availIdxAddr s.rings.avail := by
    rintro rfl
    exact hoff.1 _ (covers_self (by omega)) (covers_self (by omega))
  rw [traffic_snoc]
  exact if_neg hne

theorem guest (hq : QueueOk r.avail r.used qn) (hi : DeliveryInv i₀ r qn h s) {e : Event}
    (hd : DriverStep s e) (h0 : e ≠ .core0) (hp : e ≠ .poll) :
    DeliveryInv i₀ r qn (h ++ [(s, e)]) (guestStep s e) := by
  cases e with
  | core0 => exact absurd rfl h0
  | poll => exact absurd rfl hp
  | write offset value => exact hi.write hd
  | store8 a v => exact hi.storeOff hq hd (traffic_snoc h _)
  | store32 a v => exact hi.storeOff hq hd (traffic_snoc h _)
  | store16 a v =>
      rcases hd with hoff | ⟨hroom, hadd⟩
      · exact hi.storeOff hq hoff (traffic_offRings hoff)
      · exact hi.storeHead hq hroom hadd
  | plicRead offset => exact hi.other (traffic_snoc h _) .rfl rfl rfl id
  | plicWrite offset value => exact hi.other (traffic_snoc h _) .rfl rfl rfl id
  | readUsed => exact hi.other (traffic_snoc h _) .rfl rfl rfl id

end DeliveryInv

/-- In every run from an empty queue in which the guest plays its part, across
any number of wraps of the indices, the heads are delivered in order and each
once, and no notified head is forgotten. -/
theorem delivered_run {s₀ s : Sys} {h : List (Sys × Event)} (hup : QueueUp s₀)
    (hrun : Run fire s₀ h s) (hC : Run.Meets DriverStep h) : Delivered s₀ h s := by
  refine DeliveryInv.delivered hup ?_
  refine Run.invariant DriverStep (DeliveryInv s₀.blk.lastAvail s₀.rings s₀.blk.queueNum)
    (DeliveryInv.start hup) ?_ hrun hC
  intro h s e s' hi hd hf
  cases e with
  | core0 =>
      obtain rfl : core0Step s = s' := Option.some.inj hf
      exact hi.core0 hup.ok hd
  | poll =>
      obtain rfl : pollStep s = s' := Option.some.inj hf
      exact hi.poll
  | _ =>
      obtain ⟨_, rfl⟩ := fire_guest hf (by simp) (by simp)
      exact hi.guest hup.ok hd (by simp) (by simp)

/-- An empty queue of four whose indices are about to wrap, and the chain of
`oneSector` at head 0. -/
def aboutToWrap : Sys :=
  { world := worldOf (((oneSector virtioBlkTIn 0 0x48200000).store16 0x48001042 0xffff).store16
      0x48002002 0xffff) (smallSd true)
    dev := { Devices.reset with blk := { smallBlk with lastAvail := 0xffff } }
    core0 := .idle
    core1 := .guest }

theorem aboutToWrap_up : QueueUp aboutToWrap :=
  ⟨rfl, ⟨⟨2, by decide, by decide⟩, by decide +kernel⟩, rfl, by decide +kernel, by decide +kernel⟩

/-- The guest adds head 0 at index `0xffff`, which wraps, and notifies. -/
def wrap : List Event :=
  [.store16 0x4800104a 0, .store16 0x48001042 0, .write VirtioMmio.queueNotify.offset 0] ++
    List.replicate 14 .core0

theorem delivered_run_wrap : ∃ h s, Run fire aboutToWrap h s ∧ (traffic h).heads = [0] ∧
    (traffic h).published = [0] ∧ s.blk.lastAvail = 0 ∧ Delivered aboutToWrap h s := by
  obtain ⟨h, s, hrun, hd⟩ := Run.exists_of_play fire aboutToWrap wrap
    (fun r => decide ((traffic r.1).heads = [0] ∧ (traffic r.1).published = [0] ∧
      r.2.blk.lastAvail = 0 ∧ Run.Meets DriverStep r.1)) true (by decide +kernel)
  obtain ⟨ha, hp, hl, hmeets⟩ := of_decide_eq_true hd
  exact ⟨h, s, hrun, ha, hp, hl, delivered_run aboutToWrap_up hrun hmeets⟩

end P4Hyp
