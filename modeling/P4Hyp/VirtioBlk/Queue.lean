import P4Hyp.VirtioBlk.Ring

/-!
# The rings in memory

The two indices count without bound and are stored modulo `2 ^ 16`; a slot is an
index modulo the size of the queue.  Since that size is a power of two, the slots
of fewer consecutive indices than the queue has entries are distinct, also where
the indices wrap.
-/

namespace P4Hyp

/-- A queue of `qn` entries with its rings at `avail` and `used`: the size is a
power of two within the device's maximum, and the parts of the rings that the two
sides exchange share no byte. -/
structure QueueOk (avail used qn : Word) : Prop where
  pow : ∃ k ≤ 7, qn.toNat = 2 ^ k
  apart : Apart (availIdxAddr avail) (2 + 2 * qn.toNat) (usedIdxAddr used) (2 + 8 * qn.toNat)

namespace QueueOk

variable {avail used qn : Word}

theorem bounds (h : QueueOk avail used qn) : 1 ≤ qn.toNat ∧ qn.toNat ≤ 128 := by
  obtain ⟨k, hk, hqn⟩ := h.pow
  rw [hqn]
  exact ⟨Nat.one_le_two_pow, Nat.pow_le_pow_right (n := 2) (by omega) hk⟩

theorem dvd (h : QueueOk avail used qn) : qn.toNat ∣ 2 ^ 16 := by
  obtain ⟨k, hk, hqn⟩ := h.pow
  rw [hqn]
  exact Nat.pow_dvd_pow 2 (by omega)

end QueueOk

/-! ## Slots -/

theorem ringSlot_toNat (i : Half) (qn : Word) : (ringSlot i qn).toNat = i.toNat % qn.toNat := by
  have hi := i.isLt
  unfold ringSlot
  rw [BitVec.toNat_umod, BitVec.toNat_setWidth,
    Nat.mod_eq_of_lt (a := i.toNat) (b := 2 ^ 32) (by omega)]

theorem ringSlot_lt {avail used qn : Word} (h : QueueOk avail used qn) (i : Half) :
    (ringSlot i qn).toNat < qn.toNat := by
  rw [ringSlot_toNat]
  exact Nat.mod_lt _ h.bounds.1

theorem ringSlot_count {avail used qn : Word} (h : QueueOk avail used qn) (i : Half) (n : Nat) :
    (ringSlot (i + BitVec.ofNat 16 n) qn).toNat = (i.toNat + n) % qn.toNat := by
  rw [ringSlot_toNat, BitVec.toNat_add, BitVec.toNat_ofNat, Nat.add_mod_mod,
    Nat.mod_mod_of_dvd _ h.dvd]

/-- Indices less than a queue apart have different slots. -/
theorem ringSlot_ne {avail used qn : Word} (h : QueueOk avail used qn) (i : Half) {a b : Nat}
    (hab : a < b) (hlt : b < a + qn.toNat) :
    ringSlot (i + BitVec.ofNat 16 a) qn ≠ ringSlot (i + BitVec.ofNat 16 b) qn := by
  intro heq
  have hmod := congrArg BitVec.toNat heq
  rw [ringSlot_count h, ringSlot_count h] at hmod
  have hz := Nat.sub_mod_eq_zero_of_mod_eq hmod.symm
  rw [show i.toNat + b - (i.toNat + a) = b - a by omega, Nat.mod_eq_of_lt (by omega)] at hz
  omega

/-- Two counts less than `2 ^ 16` apart with the same 16-bit index are equal. -/
theorem count_eq {i : Half} {a b : Nat} (hab : a ≤ b) (hlt : b < a + 2 ^ 16)
    (h : i + BitVec.ofNat 16 a = i + BitVec.ofNat 16 b) : a = b := by
  have hm := congrArg BitVec.toNat h
  rw [BitVec.toNat_add, BitVec.toNat_add, BitVec.toNat_ofNat, BitVec.toNat_ofNat] at hm
  omega

/-! ## Addresses -/

theorem availSlotAddr_eq (avail slot : Word) :
    availSlotAddr avail slot = availIdxAddr avail + BitVec.ofNat 32 (2 + 2 * slot.toNat) := by
  have hs : slot * 2 = BitVec.ofNat 32 (2 * slot.toNat) := by
    rw [Nat.mul_comm, BitVec.ofNat_mul, BitVec.ofNat_toNat, BitVec.setWidth_eq]
    rfl
  unfold availSlotAddr availIdxAddr
  rw [hs, BitVec.ofNat_add, BitVec.add_assoc avail 2, ← BitVec.add_assoc 2, ← BitVec.add_assoc]
  rfl

theorem usedSlotAddr_eq (used slot : Word) :
    usedSlotAddr used slot = usedIdxAddr used + BitVec.ofNat 32 (2 + 8 * slot.toNat) := by
  have hs : slot * 8 = BitVec.ofNat 32 (8 * slot.toNat) := by
    rw [Nat.mul_comm, BitVec.ofNat_mul, BitVec.ofNat_toNat, BitVec.setWidth_eq]
    rfl
  unfold usedSlotAddr usedIdxAddr
  rw [hs, BitVec.ofNat_add, BitVec.add_assoc used 2, ← BitVec.add_assoc 2, ← BitVec.add_assoc]
  rfl

section Views

variable {avail used qn : Word} {m m' : Mem}

/-- Memory in which the guest's side of the queue is unchanged. -/
def SameAvail (avail qn : Word) (m m' : Mem) : Prop :=
  m.AgreeOn m' (availIdxAddr avail) (2 + 2 * qn.toNat)

/-- Memory in which the device's side of the queue is unchanged. -/
def SameUsed (used qn : Word) (m m' : Mem) : Prop :=
  m.AgreeOn m' (usedIdxAddr used) (2 + 8 * qn.toNat)

theorem SameAvail.idx (h : SameAvail avail qn m m') :
    m'.load16 (availIdxAddr avail) = m.load16 (availIdxAddr avail) :=
  Mem.load16_congr (Mem.AgreeOn.mono h (by omega))

theorem SameAvail.slot (hq : QueueOk avail used qn) (h : SameAvail avail qn m m') (i : Half) :
    m'.load16 (availSlotAddr avail (ringSlot i qn)) =
      m.load16 (availSlotAddr avail (ringSlot i qn)) := by
  have hlt := ringSlot_lt hq i
  have hb := hq.bounds
  rw [availSlotAddr_eq]
  exact Mem.load16_congr (Mem.AgreeOn.offset h (by omega) (by omega))

theorem SameUsed.idx (h : SameUsed used qn m m') :
    m'.load16 (usedIdxAddr used) = m.load16 (usedIdxAddr used) :=
  Mem.load16_congr (Mem.AgreeOn.mono h (by omega))

theorem SameUsed.id (hq : QueueOk avail used qn) (h : SameUsed used qn m m') (i : Half) :
    m'.load32 (usedSlotAddr used (ringSlot i qn)) =
      m.load32 (usedSlotAddr used (ringSlot i qn)) := by
  have hlt := ringSlot_lt hq i
  have hb := hq.bounds
  rw [usedSlotAddr_eq]
  exact Mem.load32_congr (Mem.AgreeOn.offset h (by omega) (by omega))

/-- A store into an avail slot: the slot holds it, the other slots and both
indices are as they were. -/
theorem store_slot (hq : QueueOk avail used qn) (i : Half) (v : Half) :
    let m' := m.store16 (availSlotAddr avail (ringSlot i qn)) v
    m'.load16 (availIdxAddr avail) = m.load16 (availIdxAddr avail) ∧
      m'.load16 (availSlotAddr avail (ringSlot i qn)) = v ∧
      (∀ j, ringSlot j qn ≠ ringSlot i qn → m'.load16 (availSlotAddr avail (ringSlot j qn)) =
        m.load16 (availSlotAddr avail (ringSlot j qn))) ∧ SameUsed used qn m m' := by
  have hlt := ringSlot_lt hq i
  have hb := hq.bounds
  refine ⟨?_, Mem.load16_store16 _ _ _, fun j hj => ?_, ?_⟩
  · refine Mem.load16_congr (Mem.agreeOn_fill ?_)
    rw [availSlotAddr_eq]
    simpa using apart_of_offsets (a := availIdxAddr avail) (o := 0) (n := 2)
      (p := 2 + 2 * (ringSlot i qn).toNat) (k := 2) (by omega) (by omega)
  · have hltj := ringSlot_lt hq j
    have hne : (ringSlot j qn).toNat ≠ (ringSlot i qn).toNat :=
      fun he => hj (BitVec.eq_of_toNat_eq he)
    refine Mem.load16_congr (Mem.agreeOn_fill ?_)
    rw [availSlotAddr_eq, availSlotAddr_eq]
    rcases Nat.lt_or_gt_of_ne hne with hl | hg
    · exact apart_of_offsets (by omega) (by omega)
    · exact (apart_of_offsets (by omega) (by omega)).symm
  · refine Mem.agreeOn_fill fun x hx hs => ?_
    rw [availSlotAddr_eq] at hs
    exact hq.apart x (covers_of_offset (by omega) (by omega) hs) hx

/-- A store of the avail index. -/
theorem store_availIdx (hq : QueueOk avail used qn) (v : Half) :
    let m' := m.store16 (availIdxAddr avail) v
    m'.load16 (availIdxAddr avail) = v ∧
      (∀ j, m'.load16 (availSlotAddr avail (ringSlot j qn)) =
        m.load16 (availSlotAddr avail (ringSlot j qn))) ∧ SameUsed used qn m m' := by
  have hb := hq.bounds
  refine ⟨Mem.load16_store16 _ _ _, fun j => ?_, ?_⟩
  · have hlt := ringSlot_lt hq j
    refine Mem.load16_congr (Mem.agreeOn_fill ?_)
    rw [availSlotAddr_eq]
    refine Apart.symm ?_
    simpa using apart_of_offsets (a := availIdxAddr avail) (o := 0) (n := 2)
      (p := 2 + 2 * (ringSlot j qn).toNat) (k := 2) (by omega) (by omega)
  · exact Mem.agreeOn_fill fun x hx hs => hq.apart x (covers_mono (by omega) hs) hx

/-- A store of the `id` of a used element. -/
theorem store_id (hq : QueueOk avail used qn) (i : Half) (v : Word) :
    let m' := m.store32 (usedSlotAddr used (ringSlot i qn)) v
    m'.load16 (usedIdxAddr used) = m.load16 (usedIdxAddr used) ∧
      m'.load32 (usedSlotAddr used (ringSlot i qn)) = v ∧ SameAvail avail qn m m' := by
  have hlt := ringSlot_lt hq i
  have hb := hq.bounds
  refine ⟨?_, Mem.load32_store32 _ _ _, ?_⟩
  · refine Mem.load16_congr (Mem.agreeOn_fill ?_)
    rw [usedSlotAddr_eq]
    simpa using apart_of_offsets (a := usedIdxAddr used) (o := 0) (n := 2)
      (p := 2 + 8 * (ringSlot i qn).toNat) (k := 4) (by omega) (by omega)
  · refine Mem.agreeOn_fill fun x hx hs => ?_
    rw [usedSlotAddr_eq] at hs
    exact hq.apart x hx (covers_of_offset (by omega) (by omega) hs)

/-- A store of its `len`. -/
theorem store_len (hq : QueueOk avail used qn) (i : Half) (v : Word) :
    let m' := m.store32 (usedSlotAddr used (ringSlot i qn) + 4) v
    m'.load16 (usedIdxAddr used) = m.load16 (usedIdxAddr used) ∧
      m'.load32 (usedSlotAddr used (ringSlot i qn)) =
        m.load32 (usedSlotAddr used (ringSlot i qn)) ∧ SameAvail avail qn m m' := by
  have hlt := ringSlot_lt hq i
  have hb := hq.bounds
  have ha : usedSlotAddr used (ringSlot i qn) + 4 =
      usedIdxAddr used + BitVec.ofNat 32 (2 + 8 * (ringSlot i qn).toNat + 4) := by
    rw [usedSlotAddr_eq, BitVec.ofNat_add _ 4, ← BitVec.add_assoc]
    rfl
  rw [ha]
  refine ⟨?_, ?_, ?_⟩
  · refine Mem.load16_congr (Mem.agreeOn_fill ?_)
    simpa using apart_of_offsets (a := usedIdxAddr used) (o := 0) (n := 2)
      (p := 2 + 8 * (ringSlot i qn).toNat + 4) (k := 4) (by omega) (by omega)
  · refine Mem.load32_congr (Mem.agreeOn_fill ?_)
    rw [usedSlotAddr_eq]
    exact apart_of_offsets (by omega) (by omega)
  · refine Mem.agreeOn_fill fun x hx hs => ?_
    exact hq.apart x hx (covers_of_offset (by omega) (by omega) hs)

/-- A store of the used index. -/
theorem store_usedIdx (hq : QueueOk avail used qn) (v : Half) :
    let m' := m.store16 (usedIdxAddr used) v
    m'.load16 (usedIdxAddr used) = v ∧ SameAvail avail qn m m' := by
  have hb := hq.bounds
  refine ⟨Mem.load16_store16 _ _ _, ?_⟩
  exact Mem.agreeOn_fill fun x hx hs => hq.apart x hx (covers_mono (by omega) hs)

end Views

/-! ## The heads in the rings -/

/-- The rings after the guest has made the heads `A` available and `u` elements
have been published, both counted from the index `i₀`: the indices, and the slots
of the heads not published yet. -/
structure RingsHold (i₀ : Half) (avail used qn : Word) (A : List Half) (u : Nat) (m : Mem) :
    Prop where
  availIdx : m.load16 (availIdxAddr avail) = i₀ + BitVec.ofNat 16 A.length
  usedIdx : m.load16 (usedIdxAddr used) = i₀ + BitVec.ofNat 16 u
  slot : ∀ j head, u ≤ j → A[j]? = some head →
    m.load16 (availSlotAddr avail (ringSlot (i₀ + BitVec.ofNat 16 j) qn)) = head

namespace RingsHold

variable {i₀ : Half} {avail used qn : Word} {A : List Half} {u : Nat} {m m' : Mem}

/-- With the used index in place, what the guest sees of the avail ring is all
that counts. -/
theorem congr (hq : QueueOk avail used qn) (h : RingsHold i₀ avail used qn A u m)
    (ha : SameAvail avail qn m m')
    (hu : m'.load16 (usedIdxAddr used) = m.load16 (usedIdxAddr used)) :
    RingsHold i₀ avail used qn A u m' :=
  ⟨ha.idx.trans h.availIdx, hu.trans h.usedIdx,
    fun j head hj hh => (ha.slot hq _).trans (h.slot j head hj hh)⟩

/-- The guest fills the slot of the next entry, which no outstanding head uses. -/
theorem offer (hq : QueueOk avail used qn) (h : RingsHold i₀ avail used qn A u m) (v : Half)
    (hroom : A.length < u + qn.toNat) :
    RingsHold i₀ avail used qn A u
      (m.store16 (availSlotAddr avail (ringSlot (m.load16 (availIdxAddr avail)) qn)) v) := by
  obtain ⟨hidx, _, hother, hused⟩ := store_slot (m := m) hq (m.load16 (availIdxAddr avail)) v
  refine ⟨hidx.trans h.availIdx, hused.idx.trans h.usedIdx, fun j head hj hh => ?_⟩
  have hlt : j < A.length := (List.getElem?_eq_some_iff.mp hh).1
  rw [← h.slot j head hj hh]
  apply hother
  rw [h.availIdx]
  exact ringSlot_ne hq i₀ hlt (by omega)

/-- The guest bumps the index over the slot it has filled. -/
theorem bump (hq : QueueOk avail used qn) (h : RingsHold i₀ avail used qn A u m) :
    RingsHold i₀ avail used qn
      (A ++ [m.load16 (availSlotAddr avail (ringSlot (m.load16 (availIdxAddr avail)) qn))]) u
      (m.store16 (availIdxAddr avail) (m.load16 (availIdxAddr avail) + 1)) := by
  obtain ⟨hidx, hslot, hused⟩ :=
    store_availIdx (m := m) hq (m.load16 (availIdxAddr avail) + 1)
  refine ⟨?_, hused.idx.trans h.usedIdx, fun j head hj hh => ?_⟩
  · rw [hidx, h.availIdx, List.length_append, List.length_singleton, BitVec.ofNat_add,
      BitVec.add_assoc]
    rfl
  · rw [hslot]
    rcases Nat.lt_trichotomy j A.length with hlt | heq | hgt
    · rw [List.getElem?_append_left hlt] at hh
      exact h.slot j head hj hh
    · rw [heq, List.getElem?_concat_length] at hh
      rw [heq, ← h.availIdx]
      exact Option.some.inj hh
    · rw [List.getElem?_eq_none (by simp; omega)] at hh
      cases hh

/-- The device bumps the used index. -/
theorem publish (hq : QueueOk avail used qn) (h : RingsHold i₀ avail used qn A u m) :
    RingsHold i₀ avail used qn A (u + 1)
      (m.store16 (usedIdxAddr used) (m.load16 (usedIdxAddr used) + 1)) := by
  obtain ⟨hidx, havail⟩ := store_usedIdx (m := m) hq (m.load16 (usedIdxAddr used) + 1)
  refine ⟨havail.idx.trans h.availIdx, ?_, fun j head hj hh => ?_⟩
  · rw [hidx, h.usedIdx, BitVec.ofNat_add, BitVec.add_assoc]
    rfl
  · exact (havail.slot hq _).trans (h.slot j head (by omega) hh)

/-- What the guest can tell from the two indices: how many heads are
outstanding. -/
theorem outstanding (h : RingsHold i₀ avail used qn A u m) (hle : u ≤ A.length)
    (hlt : A.length < u + 2 ^ 16) :
    (m.load16 (availIdxAddr avail) - m.load16 (usedIdxAddr used)).toNat = A.length - u := by
  rw [h.availIdx, h.usedIdx, BitVec.toNat_sub, BitVec.toNat_add, BitVec.toNat_add,
    BitVec.toNat_ofNat, BitVec.toNat_ofNat]
  have hi := i₀.isLt
  omega

end RingsHold

end P4Hyp
