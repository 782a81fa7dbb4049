import P4Hyp.VirtioBlk.Transfer

/-!
# Well-formed request chains

A chain is a header, data descriptors and a status descriptor, linked through
`next`.  The walk of `blk_do_request` follows it to the end or to the first data
descriptor that fails, and only the end of the chain stores the status byte.
-/

namespace P4Hyp

/-- The type is one that the device implements. -/
def Implemented (type : Word) : Prop :=
  type = virtioBlkTIn ∨ type = virtioBlkTOut ∨ type = virtioBlkTFlush ∨ type = virtioBlkTGetId

instance (type : Word) : Decidable (Implemented type) := by
  unfold Implemented
  infer_instance

/-- From index `i`, the `data` descriptors lead to the `status` descriptor.  No
descriptor can occur twice: the next index depends on the descriptor alone, so a
walk that came back to one would never end. -/
def Chained (m : Mem) (desc queueNum : Word) : Half → List Half → Half → Prop
  | i, [], status =>
      i = status ∧ (m.desc (descAddr desc queueNum status)).flags &&& vringDescFNext = 0
  | i, j :: data, status =>
      i = j ∧ (m.desc (descAddr desc queueNum j)).flags &&& vringDescFNext ≠ 0 ∧
        Chained m desc queueNum (m.desc (descAddr desc queueNum j)).next data status

instance decChained (m : Mem) (desc queueNum : Word) :
    ∀ (i : Half) (data : List Half) (status : Half),
      Decidable (Chained m desc queueNum i data status)
  | _, [], _ => inferInstanceAs (Decidable (_ ∧ _))
  | _, j :: data, status =>
      haveI := decChained m desc queueNum (m.desc (descAddr desc queueNum j)).next data status
      inferInstanceAs (Decidable (_ ∧ _ ∧ _))

/-- The number of bytes of a data buffer that a request of this type may store
into. -/
def blkStores (type len : Word) : Nat :=
  if type = virtioBlkTIn ∨ type = virtioBlkTGetId then len.toNat else 0

/-- The descriptors `is` keep clear of the buffers that the data descriptors
make the device write. -/
def ClearOf (m : Mem) (desc queueNum type : Word) (data is : List Half) : Prop :=
  ∀ j ∈ data, ∀ i ∈ is,
    Apart (descAddr desc queueNum i) 16 (gpa (m.desc (descAddr desc queueNum j)).addr)
      (blkStores type (m.desc (descAddr desc queueNum j)).len)

/-- A well-formed chain at `head`: a header of at least 16 bytes, `data`, and
`status`.  As a driver lays it out, the buffers lie outside the descriptors. -/
structure ChainAt (blk : Blk) (m : Mem) (head : Half) (data : List Half) (status : Half) :
    Prop where
  header : 16 ≤ (m.desc (descAddr blk.descTable blk.queueNum head)).len
  next : (m.desc (descAddr blk.descTable blk.queueNum head)).flags &&& vringDescFNext ≠ 0
  chained : Chained m blk.descTable blk.queueNum
    (m.desc (descAddr blk.descTable blk.queueNum head)).next data status
  clear : ClearOf m blk.descTable blk.queueNum
    (m.load32 (gpa (m.desc (descAddr blk.descTable blk.queueNum head)).addr)) data
    (data ++ [status])

/-- `hdr->type` of the request at `head`. -/
def requestType (blk : Blk) (m : Mem) (head : Half) : Word :=
  m.load32 (gpa (m.desc (descAddr blk.descTable blk.queueNum head)).addr)

/-- `hdr->sector` of the request at `head`, all 64 bits of it. -/
def requestSector (blk : Blk) (m : Mem) (head : Half) : BitVec 64 :=
  m.load64 (gpa (m.desc (descAddr blk.descTable blk.queueNum head)).addr + 8)

def descLen (blk : Blk) (m : Mem) (i : Half) : Word :=
  (m.desc (descAddr blk.descTable blk.queueNum i)).len

def descBuf (blk : Blk) (m : Mem) (i : Half) : Word :=
  gpa (m.desc (descAddr blk.descTable blk.queueNum i)).addr

/-! ## A small chain -/

/-- A queue of four at page `0x48001`. -/
def smallBlk : Blk :=
  { Blk.reset with guestPageSize := 4096, queueNum := 4, queuePfn := 0x48001, live := true }

/-- A chain at head 0 whose one data descriptor names a sector at `buf`. -/
def oneSector (type : Word) (sector : BitVec 64) (buf : BitVec 64) : Mem :=
  let m : Mem := fun _ => 0
  let m := ((m.store32 0x48100000 type).store32 0x48100008 (sector.setWidth 32)).store32 0x4810000c
    ((sector >>> 32).setWidth 32)
  ((m.storeDesc 0x48001000 ⟨0x48100000, 16, 1, 1⟩).storeDesc 0x48001010 ⟨buf, 512, 3, 2⟩).storeDesc
    0x48001020 ⟨0x48300000, 1, 2, 0⟩

/-- A card of 1024 sectors whose driver calls all fail unless `ok`. -/
def smallSd (ok : Bool) : Sd :=
  { sReady := true, capacity := 1024, sectors := fun _ _ => 0, calls := 0,
    accepts := fun _ _ sector count => ok && sector.toNat + count.toNat ≤ 1024 }

def worldOf (mem : Mem) (sd : Sd) : World :=
  { mem, sd, sBounce := fun _ => 0, sReads := 0, sWrites := 0, sErrors := 0, sRequests := 0,
    trace := [] }

theorem oneSector_clear {type : Word} {m : Mem}
    (h : (m.desc (descAddr smallBlk.descTable smallBlk.queueNum 1)).addr = 0x48200000 ∧
      (m.desc (descAddr smallBlk.descTable smallBlk.queueNum 1)).len = 512) :
    ClearOf m smallBlk.descTable smallBlk.queueNum type [1] ([1] ++ [2]) := by
  intro j hj i hi
  have hj : j = 1 := by simpa using hj
  subst hj
  rw [h.1, h.2]
  have hle : blkStores type 512 ≤ 512 := by
    unfold blkStores
    split
    · decide
    · omega
  have hi : i = 1 ∨ i = 2 := by simpa using hi
  rcases hi with rfl | rfl
  · exact (apart_of_le (by decide +kernel) (by decide +kernel) : Apart _ 16 _ 512).mono
      (Nat.le_refl _) hle
  · exact (apart_of_le (by decide +kernel) (by decide +kernel) : Apart _ 16 _ 512).mono
      (Nat.le_refl _) hle

theorem oneSector_in : ChainAt smallBlk (oneSector virtioBlkTIn 0 0x48200000) 0 [1] 2 :=
  ⟨by decide +kernel, by decide +kernel, by decide +kernel, oneSector_clear (by decide +kernel)⟩

theorem oneSector_out : ChainAt smallBlk (oneSector virtioBlkTOut 0x100000000 0x48200000) 0 [1] 2 :=
  ⟨by decide +kernel, by decide +kernel, by decide +kernel, oneSector_clear (by decide +kernel)⟩

/-! ## Which data descriptors succeed -/

/-- The sector after a data descriptor, and the driver calls it makes. -/
def nextSector (type sector len : Word) : Word :=
  if type = virtioBlkTIn ∨ type = virtioBlkTOut then
    sector + len / BitVec.ofNat 32 hypBlkSectorSize
  else sector

def dataCalls (type len : Word) : Nat :=
  if type = virtioBlkTIn ∨ type = virtioBlkTOut then
    (len.toNat / hypBlkSectorSize + 63) / 64
  else 0

/-- One data descriptor succeeds: a transfer is of whole sectors and the driver
grants all its calls. -/
def DescGranted (sd : Sd) (type : Word) (k : Nat) (sector len : Word) : Prop :=
  if type = virtioBlkTIn then
    len.toNat % hypBlkSectorSize = 0 ∧
      sd.GrantsFrom k false sector (len.toNat / hypBlkSectorSize)
  else if type = virtioBlkTOut then
    len.toNat % hypBlkSectorSize = 0 ∧
      sd.GrantsFrom k true sector (len.toNat / hypBlkSectorSize)
  else Implemented type

/-- Every data descriptor of a request succeeds. -/
def AllGranted (sd : Sd) (type : Word) : Nat → Word → List Word → Prop
  | _, _, [] => True
  | k, sector, len :: lens =>
      DescGranted sd type k sector len ∧
        AllGranted sd type (k + dataCalls type len) (nextSector type sector len) lens

instance (sd : Sd) (type : Word) (k : Nat) (sector len : Word) :
    Decidable (DescGranted sd type k sector len) := by
  unfold DescGranted
  infer_instance

instance decAllGranted (sd : Sd) (type : Word) :
    ∀ (k : Nat) (sector : Word) (lens : List Word), Decidable (AllGranted sd type k sector lens)
  | _, _, [] => inferInstanceAs (Decidable True)
  | k, sector, len :: lens =>
      haveI := decAllGranted sd type (k + dataCalls type len) (nextSector type sector len) lens
      inferInstanceAs (Decidable (_ ∧ _))

theorem descGranted_congr {sd sd' : Sd} (hr : sd'.sReady = sd.sReady)
    (ha : sd'.accepts = sd.accepts) (type : Word) (k : Nat) (sector len : Word) :
    DescGranted sd' type k sector len ↔ DescGranted sd type k sector len := by
  unfold DescGranted
  rw [Sd.grantsFrom_congr hr ha, Sd.grantsFrom_congr hr ha]

theorem allGranted_congr {sd sd' : Sd} (hr : sd'.sReady = sd.sReady)
    (ha : sd'.accepts = sd.accepts) (type : Word) (k : Nat) (sector : Word) (lens : List Word) :
    AllGranted sd' type k sector lens ↔ AllGranted sd type k sector lens := by
  induction lens generalizing k sector with
  | nil => exact Iff.rfl
  | cons len lens ih =>
      unfold AllGranted
      rw [descGranted_congr hr ha, ih]

/-! ## One data descriptor -/

theorem mod_sector_iff (len : Word) :
    len % BitVec.ofNat 32 hypBlkSectorSize = 0 ↔ len.toNat % hypBlkSectorSize = 0 := by
  have hd : (BitVec.ofNat 32 hypBlkSectorSize).toNat = hypBlkSectorSize := rfl
  constructor
  · intro h
    have := congrArg BitVec.toNat h
    rw [BitVec.toNat_umod, hd] at this
    exact this
  · intro h
    apply BitVec.eq_of_toNat_eq
    rw [BitVec.toNat_umod, hd]
    exact h

theorem sectors_mul {len : Word} (h : len.toNat % hypBlkSectorSize = 0) :
    len.toNat = hypBlkSectorSize * (len.toNat / hypBlkSectorSize) := by
  unfold hypBlkSectorSize at h ⊢
  omega

theorem Quiet.of_eq {a : Word} {n : Nat} {w w' w'' : World} (h : Quiet a n w w')
    (hm : w''.mem = w'.mem) (hsd : w''.sd = w'.sd) (he : w''.sErrors = w'.sErrors)
    (ht : w''.trace = w'.trace) : Quiet a n w w'' :=
  ⟨by rw [hsd, h.ready], by rw [hsd, h.capacity], by rw [hsd, h.accepts], he.trans h.errors,
    fun x hx => by rw [hm, h.mem x hx], by rw [ht]; exact h.trace⟩

/-- What the `switch` does for one data descriptor. -/
structure DataSpec (k : Walk) (buf len : Word) (w : World) (r : Bool × Word × Word × World) :
    Prop where
  quiet : Quiet buf (blkStores k.type len) w r.2.2.2
  ok : r.1 = true ↔ DescGranted w.sd k.type w.sd.calls k.sector len
  sector : r.1 = true → r.2.1 = nextSector k.type k.sector len
  calls : r.1 = true → r.2.2.2.sd.calls = w.sd.calls + dataCalls k.type len

theorem blkData_spec (k : Walk) (buf len : Word) (w : World) :
    DataSpec k buf len w (blkData k buf len w) := by
  have hmod := mod_sector_iff len
  by_cases hin : k.type = virtioBlkTIn
  · have hst : blkStores k.type len = len.toNat := if_pos (.inl hin)
    by_cases hal : len % BitVec.ofNat 32 hypBlkSectorSize = 0
    · have hok := blkTransfer_ok_iff false k.sector buf w
        (sectors_mul (hmod.mp hal))
      have hd : DescGranted w.sd k.type w.sd.calls k.sector len ↔
          w.sd.GrantsFrom w.sd.calls false k.sector (len.toNat / hypBlkSectorSize) := by
        rw [DescGranted, if_pos hin]
        exact and_iff_right (hmod.mp hal)
      simp only [blkData, if_pos hin, if_pos hal]
      refine ⟨?_, hok.1.trans hd.symm, fun _ => (if_pos (.inl hin)).symm, fun h => ?_⟩
      · rw [hst]
        exact (blkTransfer_quiet false k.sector buf len w).of_eq rfl rfl rfl rfl
      · rw [dataCalls, if_pos (.inl hin)]
        exact hok.2 h
    · simp only [blkData, if_pos hin, if_neg hal]
      refine ⟨Quiet.refl _ _ _, ?_, fun h => absurd h Bool.false_ne_true,
        fun h => absurd h Bool.false_ne_true⟩
      rw [DescGranted, if_pos hin]
      exact iff_of_false (by simp) fun h => hal (hmod.mpr h.1)
  · by_cases hout : k.type = virtioBlkTOut
    · have hst : blkStores k.type len = 0 := if_neg (by rw [hout]; decide)
      by_cases hal : len % BitVec.ofNat 32 hypBlkSectorSize = 0
      · have hok := blkTransfer_ok_iff true k.sector buf w
          (sectors_mul (hmod.mp hal))
        have hqt := blkTransfer_quiet true k.sector buf len w
        have hmem := blkTransfer_write_mem k.sector buf len w
        have hd : DescGranted w.sd k.type w.sd.calls k.sector len ↔
            w.sd.GrantsFrom w.sd.calls true k.sector (len.toNat / hypBlkSectorSize) := by
          rw [DescGranted, if_neg hin, if_pos hout]
          exact and_iff_right (hmod.mp hal)
        simp only [blkData, if_neg hin, if_pos hout, if_pos hal]
        refine ⟨?_, hok.1.trans hd.symm, fun _ => (if_pos (.inr hout)).symm, fun h => ?_⟩
        · exact ⟨hqt.ready, hqt.capacity, hqt.accepts,
            hqt.errors, fun _ _ => by rw [hmem], hqt.trace⟩
        · rw [dataCalls, if_pos (.inr hout)]
          exact hok.2 h
      · simp only [blkData, if_neg hin, if_pos hout, if_neg hal]
        refine ⟨Quiet.refl _ _ _, ?_, fun h => absurd h Bool.false_ne_true,
          fun h => absurd h Bool.false_ne_true⟩
        rw [DescGranted, if_neg hin, if_pos hout]
        exact iff_of_false (by simp) fun h => hal (hmod.mpr h.1)
    · have hnt : ¬ (k.type = virtioBlkTIn ∨ k.type = virtioBlkTOut) := by simp [hin, hout]
      have hns : ∀ v, v = nextSector k.type v len := fun v => (if_neg hnt).symm
      have hnc : dataCalls k.type len = 0 := if_neg hnt
      have hd : DescGranted w.sd k.type w.sd.calls k.sector len ↔ Implemented k.type := by
        rw [DescGranted, if_neg hin, if_neg hout]
      by_cases hid : k.type = virtioBlkTGetId
      · have hst : blkStores k.type len = len.toNat := if_pos (.inr hid)
        simp only [blkData, if_neg hin, if_neg hout, if_pos hid]
        refine ⟨?_, (iff_of_true rfl (.inr (.inr (.inr hid)))).trans hd.symm, fun _ => hns _,
          fun _ => by rw [hnc]; rfl⟩
        rw [hst]
        exact (Quiet.toGuest buf len.toNat _ w).trans (Quiet.toGuest buf _ _ _) (fun _ hx => hx)
          fun _ hx => covers_mono (Nat.min_le_left _ _) hx
      · by_cases hfl : k.type = virtioBlkTFlush
        · simp only [blkData, if_neg hin, if_neg hout, if_neg hid, if_pos hfl]
          exact ⟨Quiet.refl _ _ _, (iff_of_true rfl (.inr (.inr (.inl hfl)))).trans hd.symm,
            fun _ => hns _, fun _ => by rw [hnc]; rfl⟩
        · simp only [blkData, if_neg hin, if_neg hout, if_neg hid, if_neg hfl]
          refine ⟨Quiet.refl _ _ _, (iff_of_false (by simp) ?_).trans hd.symm,
            fun h => absurd h Bool.false_ne_true, fun h => absurd h Bool.false_ne_true⟩
          simp [Implemented, hin, hout, hid, hfl]

end P4Hyp
