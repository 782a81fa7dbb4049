import P4Hyp.VirtioBlk.System
import P4Hyp.VirtioBlk.Walk

/-!
# The guest window

Every address core 0 works with comes from the guest: the ring pointers from the
queue registers, the others from descriptors.  `gpa` and the ring arithmetic
check none of them, so the accesses stay inside the guest window exactly when
the guest names addresses inside it.
-/

namespace P4Hyp

def linuxBaseAddress : Word := 0x48000000
def linuxSize : Word := 0x02000000

/-- The `n` bytes at `a` lie inside the guest window. -/
def InWindow (a : Word) (n : Nat) : Prop :=
  ∀ x, Covers a n x → Covers linuxBaseAddress linuxSize.toNat x

theorem inWindow_iff (a : Word) (n : Nat) : InWindow a n ↔
    n = 0 ∨ linuxBaseAddress.toNat ≤ a.toNat ∧
      a.toNat + n ≤ linuxBaseAddress.toNat + linuxSize.toNat := by
  have hb : linuxBaseAddress.toNat = 0x48000000 := rfl
  have hs : linuxSize.toNat = 0x02000000 := rfl
  have halt := a.isLt
  constructor
  · intro h
    by_cases hn : n = 0
    · exact .inl hn
    · have hfirst := h a (covers_self (Nat.pos_of_ne_zero hn))
      unfold Covers at hfirst
      rw [BitVec.toNat_sub, hb, hs] at hfirst
      refine .inr ⟨by omega, ?_⟩
      by_contra hend
      -- the first byte past the window is covered
      have hpast := h 0x4a000000 (by
        unfold Covers
        rw [BitVec.toNat_sub, show (0x4a000000 : Word).toNat = 0x4a000000 from rfl]
        omega)
      exact absurd hpast (by decide)
  · rintro (rfl | ⟨hlo, hhi⟩) x hx
    · exact absurd hx (Nat.not_lt_zero _)
    · have hxlt := x.isLt
      unfold Covers at hx ⊢
      rw [BitVec.toNat_sub] at hx ⊢
      rw [hb, hs] at *
      omega

instance (a : Word) (n : Nat) : Decidable (InWindow a n) :=
  decidable_of_iff _ (inWindow_iff a n).symm

@[simp] theorem inWindow_zero (a : Word) : InWindow a 0 := (inWindow_iff a 0).mpr (.inl rfl)

theorem InWindow.mono {a : Word} {n k : Nat} (h : InWindow a k) (hn : n ≤ k) : InWindow a n :=
  fun x hx => h x (covers_mono hn hx)

def Touch.Inside : Touch → Prop
  | .load a n => InWindow a n
  | .store a n => InWindow a n
  | .status a _ => InWindow a 1

instance (t : Touch) : Decidable t.Inside :=
  match t with
  | .load a n => inferInstanceAs (Decidable (InWindow a n))
  | .store a n => inferInstanceAs (Decidable (InWindow a n))
  | .status a _ => inferInstanceAs (Decidable (InWindow a 1))

def AllInside (ts : List Touch) : Prop := ∀ t ∈ ts, t.Inside

@[simp] theorem allInside_append (ts ts' : List Touch) :
    AllInside (ts ++ ts') ↔ AllInside ts ∧ AllInside ts' := by
  simp only [AllInside, List.mem_append]
  constructor
  · intro h
    exact ⟨fun t ht => h t (.inl ht), fun t ht => h t (.inr ht)⟩
  · rintro ⟨h, h'⟩ t (ht | ht)
    · exact h t ht
    · exact h' t ht

@[simp] theorem allInside_cons (t : Touch) (ts : List Touch) :
    AllInside (t :: ts) ↔ t.Inside ∧ AllInside ts := by
  simp only [AllInside, List.forall_mem_cons]

@[simp] theorem allInside_nil : AllInside [] :=
  fun _ ht => absurd ht List.not_mem_nil

/-! ## A transfer -/

/-- The chunks of a transfer that core 0 reaches lie inside the window: chunk `j`
is reached when the calls before it are granted and, for a read, its own is. -/
def TransferInside (sd : Sd) (k : Nat) (write : Bool) (sector buf : Word) (count : Nat) : Prop :=
  ∀ j < (count + 63) / 64,
    (∀ i < j, sd.grants (k + i) write (sector + BitVec.ofNat 32 (64 * i))
      (BitVec.ofNat 32 (min 64 (count - 64 * i))) = true) →
    (write = true ∨ sd.grants (k + j) write (sector + BitVec.ofNat 32 (64 * j))
      (BitVec.ofNat 32 (min 64 (count - 64 * j))) = true) →
    InWindow (buf + BitVec.ofNat 32 (hypBlkSectorSize * (64 * j)))
      (hypBlkSectorSize * min 64 (count - 64 * j))

instance (sd : Sd) (k : Nat) (write : Bool) (sector buf : Word) (count : Nat) :
    Decidable (TransferInside sd k write sector buf count) :=
  inferInstanceAs (Decidable (∀ j < _, _))

theorem transferInside_zero (sd : Sd) (k : Nat) (write : Bool) (sector buf : Word) :
    TransferInside sd k write sector buf 0 := by
  intro j hj
  omega

theorem transferInside_congr {sd sd' : Sd} (hr : sd'.sReady = sd.sReady)
    (ha : sd'.accepts = sd.accepts) (k : Nat) (write : Bool) (sector buf : Word) (count : Nat) :
    TransferInside sd' k write sector buf count ↔ TransferInside sd k write sector buf count := by
  simp only [TransferInside, Sd.grants_congr hr ha]

/-- The chunks of a transfer: the first, then those of the rest. -/
theorem transferInside_next (sd : Sd) (k : Nat) (write : Bool) (sector buf : Word) {count : Nat}
    (hc : 0 < count) : TransferInside sd k write sector buf count ↔
      (write = true ∨ sd.grants k write sector (BitVec.ofNat 32 (min 64 count)) = true →
        InWindow buf (hypBlkSectorSize * min 64 count)) ∧
      (sd.grants k write sector (BitVec.ofNat 32 (min 64 count)) = true →
        TransferInside sd (k + 1) write (sector + BitVec.ofNat 32 (min 64 count))
          (buf + BitVec.ofNat 32 (hypBlkSectorSize * min 64 count)) (count - min 64 count)) := by
  have hshift (j : Nat) (hj : j + 1 < (count + 63) / 64) :
      sector + BitVec.ofNat 32 (min 64 count) + BitVec.ofNat 32 (64 * j) =
          sector + BitVec.ofNat 32 (64 * (j + 1)) ∧
        buf + BitVec.ofNat 32 (hypBlkSectorSize * min 64 count) +
            BitVec.ofNat 32 (hypBlkSectorSize * (64 * j)) =
          buf + BitVec.ofNat 32 (hypBlkSectorSize * (64 * (j + 1))) ∧
        count - min 64 count - 64 * j = count - 64 * (j + 1) ∧ k + 1 + j = k + (j + 1) := by
    have hm : min 64 count = 64 := by omega
    refine ⟨?_, ?_, by omega, by omega⟩
    · rw [BitVec.add_assoc, ← BitVec.ofNat_add, hm]
      congr 2
      omega
    · rw [BitVec.add_assoc, ← BitVec.ofNat_add, hm]
      congr 2
      unfold hypBlkSectorSize
      omega
  constructor
  · intro h
    constructor
    · intro hg
      have h0 := h 0 (by omega) (fun _ hi => absurd hi (Nat.not_lt_zero _)) (by simpa using hg)
      simpa using h0
    · intro hg j hj hprev hown
      have hj' : j + 1 < (count + 63) / 64 := by omega
      obtain ⟨hsec, hbuf, hcnt, hk⟩ := hshift j hj'
      rw [hsec, hcnt, hk] at hown
      rw [hbuf, hcnt]
      refine h (j + 1) hj' (fun i hi => ?_) hown
      cases i with
      | zero => simpa using hg
      | succ i =>
          have hp := hprev i (by omega)
          obtain ⟨hsec, _, hcnt, hk⟩ := hshift i (by omega)
          rw [hsec, hcnt, hk] at hp
          exact hp
  · rintro ⟨hfirst, hrest⟩ j hj hprev hown
    cases j with
    | zero =>
        have h0 := hfirst (by simpa using hown)
        simpa using h0
    | succ j =>
        obtain ⟨hsec, hbuf, hcnt, hk⟩ := hshift j hj
        have hg : sd.grants k write sector (BitVec.ofNat 32 (min 64 count)) = true := by
          simpa using hprev 0 (by omega)
        have hr := hrest hg j (by omega) (fun i hi => ?_) (by rw [hsec, hcnt, hk]; exact hown)
        · rw [hbuf, hcnt] at hr
          exact hr
        · obtain ⟨hsec, _, hcnt, hk⟩ := hshift i (by omega)
          rw [hsec, hcnt, hk]
          exact hprev (i + 1) (by omega)

theorem blkTransfer_inside (write : Bool) {sector buf len : Word} {w : World} {N : Nat}
    (hN : len.toNat = hypBlkSectorSize * N) :
    AllInside (blkTransfer write sector buf len w).2.trace ↔
      AllInside w.trace ∧ TransferInside w.sd w.sd.calls write sector buf N := by
  revert N
  apply blkTransfer_induct (P := fun sector buf len w r =>
    ∀ {N : Nat}, len.toNat = hypBlkSectorSize * N →
      (AllInside r.2.trace ↔
        AllInside w.trace ∧ TransferInside w.sd w.sd.calls write sector buf N))
  · intro sector buf w N hN
    rw [sectors_zero hN]
    exact (and_iff_left (transferInside_zero _ _ _ _ _)).symm
  · intro sector buf len w w' hl hg hm N hN
    rw [blkChunk_sectors hN] at hg
    rw [transferInside_next _ _ _ _ _ (sectors_pos hl hN), hg, hm.trace, allInside_append,
      blkChunk_eq hN]
    cases write with
    | false => simp
    | true => simp [Touch.Inside]
  · intro sector buf len w w' r hl hg hm ih N hN
    have hb : buf + blkChunk len = buf + BitVec.ofNat 32 (hypBlkSectorSize * min 64 N) := by
      rw [← blkChunk_eq hN]
      simp
    have hi := ih (sub_blkChunk hN)
    rw [hm.calls, transferInside_congr hm.quiet.ready hm.quiet.accepts, blkChunk_sectors hN, hb,
      hm.trace, allInside_append, blkChunk_eq hN] at hi
    rw [blkChunk_sectors hN] at hg
    rw [hi, transferInside_next _ _ _ _ _ (sectors_pos hl hN), hg]
    cases write with
    | false => simp [Touch.Inside, and_assoc]
    | true => simp [Touch.Inside, and_assoc]

/-! ## A request -/

/-- The part of a data buffer that one data descriptor makes core 0 touch lies
inside the window. -/
def DataInside (k : Walk) (buf len : Word) (sd : Sd) : Prop :=
  if k.type = virtioBlkTIn ∨ k.type = virtioBlkTOut then
    len.toNat % hypBlkSectorSize = 0 →
      TransferInside sd sd.calls (k.type = virtioBlkTOut) k.sector buf
        (len.toNat / hypBlkSectorSize)
  else k.type = virtioBlkTGetId → InWindow buf len.toNat

instance (k : Walk) (buf len : Word) (sd : Sd) : Decidable (DataInside k buf len sd) := by
  unfold DataInside
  infer_instance

theorem blkData_inside (k : Walk) (buf len : Word) (w : World) :
    AllInside (blkData k buf len w).2.2.2.trace ↔
      AllInside w.trace ∧ DataInside k buf len w.sd := by
  have hmod := mod_sector_iff len
  by_cases hin : k.type = virtioBlkTIn
  · have hd : decide (k.type = virtioBlkTOut) = false := by rw [hin]; decide
    rw [DataInside, if_pos (.inl hin), hd]
    by_cases hal : len % BitVec.ofNat 32 hypBlkSectorSize = 0
    · simp only [blkData, if_pos hin, if_pos hal]
      rw [forall_prop_of_true (hmod.mp hal)]
      exact blkTransfer_inside false (sectors_mul (hmod.mp hal))
    · simp only [blkData, if_pos hin, if_neg hal]
      exact (and_iff_left fun h => absurd (hmod.mpr h) hal).symm
  · by_cases hout : k.type = virtioBlkTOut
    · have hd : decide (k.type = virtioBlkTOut) = true := decide_eq_true hout
      rw [DataInside, if_pos (.inr hout), hd]
      by_cases hal : len % BitVec.ofNat 32 hypBlkSectorSize = 0
      · simp only [blkData, if_neg hin, if_pos hout, if_pos hal]
        rw [forall_prop_of_true (hmod.mp hal)]
        exact blkTransfer_inside true (sectors_mul (hmod.mp hal))
      · simp only [blkData, if_neg hin, if_pos hout, if_neg hal]
        exact (and_iff_left fun h => absurd (hmod.mpr h) hal).symm
    · rw [DataInside, if_neg (not_or.mpr ⟨hin, hout⟩)]
      by_cases hid : k.type = virtioBlkTGetId
      · simp only [blkData, if_neg hin, if_neg hout, if_pos hid, World.toGuest_trace,
          allInside_append, allInside_cons, allInside_nil, and_true, Touch.Inside, and_assoc]
        rw [forall_prop_of_true hid]
        refine and_congr_right fun _ => and_iff_left_of_imp fun h => ?_
        exact h.mono (Nat.min_le_left _ _)
      · have hno : AllInside w.trace ↔ AllInside w.trace ∧
            (k.type = virtioBlkTGetId → InWindow buf len.toNat) :=
          (and_iff_left fun h => absurd h hid).symm
        by_cases hfl : k.type = virtioBlkTFlush
        · simp only [blkData, if_neg hin, if_neg hout, if_neg hid, if_pos hfl]
          exact hno
        · simp only [blkData, if_neg hin, if_neg hout, if_neg hid, if_neg hfl]
          exact hno

/-- What one round of the walk touches lies inside the window: the descriptor, and
the status byte or the data buffer that it names. -/
def DescInside (queueNum : Word) (k : Walk) (w : World) : Prop :=
  let d := descAddr k.desc queueNum k.idx
  let desc := w.mem.desc d
  InWindow (d + 12) 2 ∧ InWindow d 8 ∧
    if desc.flags &&& vringDescFNext = 0 then gpa desc.addr ≠ 0 → InWindow (gpa desc.addr) 1
    else
      InWindow (d + 8) 4 ∧ DataInside k (gpa desc.addr) desc.len w.sd ∧
        (DescGranted w.sd k.type w.sd.calls k.sector desc.len → InWindow (d + 14) 2)

instance (queueNum : Word) (k : Walk) (w : World) : Decidable (DescInside queueNum k w) := by
  unfold DescInside
  infer_instance

/-- What the header of a request makes core 0 touch lies inside the window. -/
def HeaderInside (blk : Blk) (m : Mem) (head : Half) : Prop :=
  let d := descAddr blk.descTable blk.queueNum head
  let hdr := gpa (m.desc d).addr
  InWindow (d + 8) 4 ∧ (¬ (m.desc d).len < 16 →
    InWindow d 8 ∧ InWindow hdr 4 ∧ InWindow (hdr + 8) 8 ∧ InWindow (d + 14) 2 ∧
      InWindow (d + 12) 2)

instance (blk : Blk) (m : Mem) (head : Half) : Decidable (HeaderInside blk m head) := by
  unfold HeaderInside
  infer_instance

theorem blkFinish_inside (type a : Word) (ok : Bool) (written : Word) (w : World) :
    AllInside (blkFinish type a ok written w).2.trace ↔
      AllInside w.trace ∧ (a ≠ 0 → InWindow a 1) := by
  simp only [blkFinish]
  by_cases ha : a ≠ 0
  · simp only [if_pos ha, forall_prop_of_true ha]
    cases ok with
    | false => simp [Touch.Inside]
    | true => simp [Touch.Inside]
  · simp only [if_neg ha]
    cases ok with
    | false => simpa using fun _ h => absurd h ha
    | true => simpa using fun _ h => absurd h ha

theorem blkWalkStep_inside (queueNum : Word) (k : Walk) (w : World) :
    AllInside (stepWorld (blkWalkStep queueNum k w)).trace ↔
      AllInside w.trace ∧ DescInside queueNum k w := by
  by_cases hf : (w.mem.desc (descAddr k.desc queueNum k.idx)).flags &&& vringDescFNext = 0
  · rw [blkWalkStep_status hf]
    simp only [stepWorld, blkFinish_inside, DescInside, if_pos hf, World.touch_trace,
      allInside_append, allInside_cons, allInside_nil, and_true, Touch.Inside, and_assoc]
  · let d := descAddr k.desc queueNum k.idx
    let w₀ := (w.touch [.load (d + 12) 2, .load d 8]).touch [.load (d + 8) 4]
    have hw₀ : AllInside w₀.trace ↔
        AllInside w.trace ∧ InWindow (d + 12) 2 ∧ InWindow d 8 ∧ InWindow (d + 8) 4 := by
      simp [w₀, Touch.Inside]
    have hi := blkData_inside k (gpa (w.mem.desc d).addr) (w.mem.desc d).len w₀
    have hs := (blkData_spec k (gpa (w.mem.desc d).addr) (w.mem.desc d).len w₀).ok
    rcases hd : blkData k (gpa (w.mem.desc d).addr) (w.mem.desc d).len w₀ with
      ⟨ok, sector, written, w'⟩
    rw [hd] at hi hs
    rw [hw₀] at hi
    cases ok with
    | false =>
        have hstep : blkWalkStep queueNum k w = .inr (blkFinish k.type 0 false written w') := by
          simp only [blkWalkStep, if_neg hf, World.touch_mem, hd, d, w₀]
        have hno : ¬ DescGranted w.sd k.type w.sd.calls k.sector (w.mem.desc d).len :=
          fun hg => absurd (hs.mpr hg) (by simp)
        rw [hstep, stepWorld, blkFinish_inside, and_iff_left (fun h => absurd rfl h), hi]
        simp only [DescInside, if_neg hf, World.touch_sd, w₀]
        rw [forall_prop_of_false hno]
        simp only [and_true, and_assoc, d]
    | true =>
        have hstep : stepWorld (blkWalkStep queueNum k w) = w'.touch [.load (d + 14) 2] := by
          simp only [blkWalkStep, if_neg hf, World.touch_mem, hd, d, w₀, stepWorld]
        have hyes : DescGranted w.sd k.type w.sd.calls k.sector (w.mem.desc d).len := hs.mp rfl
        rw [hstep, World.touch_trace, allInside_append, hi]
        simp only [DescInside, if_neg hf, World.touch_sd, w₀, allInside_cons, allInside_nil,
          Touch.Inside]
        rw [forall_prop_of_true hyes]
        simp only [and_true, and_assoc, d]

theorem blkHeader_inside (blk : Blk) (head : Half) (w : World) :
    AllInside (stepWorld (blkHeader blk head w)).trace ↔
      AllInside w.trace ∧ HeaderInside blk w.mem head := by
  let d := descAddr blk.descTable blk.queueNum head
  by_cases hl : (w.mem.desc d).len < 16
  · simp only [blkHeader, HeaderInside, if_pos hl, stepWorld, World.touch_trace, allInside_append,
      allInside_cons, allInside_nil, Touch.Inside, d]
    rw [forall_prop_of_false (not_not.mpr hl)]
  · by_cases hf : (w.mem.desc d).flags &&& vringDescFNext = 0
    · simp only [blkHeader, HeaderInside, if_neg hl, if_pos hf, World.touch_mem, stepWorld,
        blkFinish_inside, World.touch_trace, allInside_append, allInside_cons, allInside_nil,
        Touch.Inside, d]
      rw [forall_prop_of_true hl, and_iff_left (fun h => absurd rfl h)]
      simp only [and_true, and_assoc]
    · simp only [blkHeader, HeaderInside, if_neg hl, if_neg hf, World.touch_mem, stepWorld,
        World.touch_trace, allInside_append, allInside_cons, allInside_nil, Touch.Inside, d]
      rw [forall_prop_of_true hl]
      simp only [and_true, and_assoc]

/-! ## The machine -/

/-- Nothing that core 0 has touched on the guest's behalf lies outside the
window. -/
def Confined (s : Sys) : Prop := AllInside s.world.trace

/-- What core 0 touches in its next step lies inside the window. -/
def KeepsInside (s : Sys) : Event → Prop
  | .core0 =>
      match s.core0 with
      | .test r _ => InWindow (availIdxAddr r.avail) 2
      | .fetch r _ => InWindow (availEntryAddr r s.blk) 2
      | .header _ _ head => HeaderInside s.blk s.mem head
      | .walk _ _ _ k => DescInside s.blk.queueNum k s.world
      | .elemId r _ _ _ =>
          InWindow (usedIdxAddr r.used) 2 ∧ InWindow (usedElemAddr r s.blk s.mem) 4
      | .elemLen r _ _ _ =>
          InWindow (usedIdxAddr r.used) 2 ∧ InWindow (usedElemAddr r s.blk s.mem + 4) 4
      | .publish r => InWindow (usedIdxAddr r.used) 2
      | .idle | .clear | .enter | .advance _ | .raise => True
  | _ => True

instance (s : Sys) : Decidable (Confined s) := inferInstanceAs (Decidable (∀ t ∈ _, _))

instance (s : Sys) (e : Event) : Decidable (KeepsInside s e) := by
  unfold KeepsInside
  split
  · split <;> infer_instance
  · infer_instance

theorem confined_core0 {s : Sys} (h : Confined s) :
    Confined (core0Step s) ↔ KeepsInside s .core0 := by
  unfold Confined at h ⊢
  cases hpc : s.core0 with
  | header r published head =>
      have hi := blkHeader_inside s.blk head s.world
      have hw : (core0Step s).world = stepWorld (blkHeader s.blk head s.world) := by
        simp only [core0Step, hpc]
        rcases blkHeader s.blk head s.world with ⟨k, w⟩ | ⟨written, w⟩
        · rfl
        · rfl
      rw [hw, hi, KeepsInside, hpc]
      exact and_iff_right h
  | walk r published head k =>
      have hi := blkWalkStep_inside s.blk.queueNum k s.world
      have hw : (core0Step s).world = stepWorld (blkWalkStep s.blk.queueNum k s.world) := by
        simp only [core0Step, hpc]
        rcases blkWalkStep s.blk.queueNum k s.world with ⟨k', w⟩ | ⟨written, w⟩
        · rfl
        · rfl
      rw [hw, hi, KeepsInside, hpc]
      exact and_iff_right h
  | idle | enter =>
      simp only [core0Step, KeepsInside, hpc]
      split
      · exact iff_of_true h trivial
      · exact iff_of_true h trivial
  | _ => simp [core0Step, KeepsInside, hpc, h, Touch.Inside]

theorem confined_step {s s' : Sys} {e : Event} (h : Confined s) (hf : fire s e = some s') :
    Confined s' ↔ KeepsInside s e := by
  cases e with
  | core0 =>
      obtain rfl : core0Step s = s' := Option.some.inj hf
      exact confined_core0 h
  | poll =>
      obtain rfl : pollStep s = s' := Option.some.inj hf
      have hw : (pollStep s).world = s.world := by
        unfold pollStep
        split
        · split
          · rfl
          · rfl
        · rfl
        · rfl
      refine iff_of_true ?_ trivial
      unfold Confined
      rw [hw]
      exact h
  | _ =>
      obtain ⟨_, rfl⟩ := fire_guest hf (by simp) (by simp)
      exact iff_of_true h trivial

/-- Over every run, core 0 stays inside the guest window exactly when, at each of
its steps, the registers and descriptors it goes by name addresses inside. -/
theorem confined_run {s₀ s : Sys} {h : List (Sys × Event)} (h₀ : Confined s₀)
    (hrun : Run fire s₀ h s) : Run.Throughout Confined h s ↔ Run.Meets KeepsInside h :=
  Run.throughout_iff h₀ (fun _ _ _ hc hf => confined_step hc hf) hrun

theorem confined_run_served : ∃ h s, Run fire (.boot (oneOffered 0x48200000)) h s ∧
    s.world.trace ≠ [] ∧ Run.Throughout Confined h s := by
  obtain ⟨h, s, hrun, hd⟩ := Run.exists_of_play fire (.boot (oneOffered 0x48200000))
    (serve 14) (fun r => decide (r.2.world.trace ≠ [] ∧ Run.Meets KeepsInside r.1))
    true (by decide +kernel)
  obtain ⟨hne, hmeets⟩ := of_decide_eq_true hd
  have h₀ : Confined (.boot (oneOffered 0x48200000)) := allInside_nil
  exact ⟨h, s, hrun, hne, (confined_run h₀ hrun).mpr hmeets⟩

/-- A request whose data buffer is in the monitor's memory has core 0 store the
card's data there. -/
theorem store_outside : ∃ h s, Run fire (.boot (oneOffered 0x4ff40000)) h s ∧
    .store 0x4ff40000 512 ∈ s.world.trace ∧ ¬ Confined s := by
  obtain ⟨h, s, hrun, hd⟩ := Run.exists_of_play fire (.boot (oneOffered 0x4ff40000))
    (serve 14) (fun r => decide (.store 0x4ff40000 512 ∈ r.2.world.trace ∧
      ¬ Confined r.2)) true (by decide +kernel)
  obtain ⟨hmem, hout⟩ := of_decide_eq_true hd
  exact ⟨h, s, hrun, hmem, hout⟩

end P4Hyp
