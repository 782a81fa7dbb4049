import P4Hyp.VirtioBlk.Walk

/-!
# The status byte of a request

`blk_do_request` reaches the status descriptor only after every data descriptor
has succeeded: the first one that fails leaves the walk with `status_byte` still
null, so an error is never stored.
-/

namespace P4Hyp

/-- The value the status byte is due, given whether every transfer succeeds. -/
def StatusDue (type : Word) (granted : Prop) (v : Byte) : Prop :=
  (v = virtioBlkSOk ↔ Implemented type ∧ granted) ∧
    (v = virtioBlkSUnsupp ↔ ¬ Implemented type) ∧
    (v = virtioBlkSIoerr ↔ Implemented type ∧ ¬ granted)

/-- The request that took `w` to `w'` stored one status value, into the byte at
`a`, and it is the one due. -/
def StatusStored (type : Word) (granted : Prop) (a : Word) (w w' : World) : Prop :=
  ∃ v, statuses w'.trace = statuses w.trace ++ [(a, v)] ∧ w'.mem a = v ∧ StatusDue type granted v

theorem statusDue_ok_iff (type : Word) (granted : Prop) :
    StatusDue type granted virtioBlkSOk ↔ Implemented type ∧ granted := by
  have hu : ¬ virtioBlkSOk = virtioBlkSUnsupp := by decide
  have he : ¬ virtioBlkSOk = virtioBlkSIoerr := by decide
  simp only [StatusDue, hu, he, true_iff, false_iff, not_not]
  tauto

/-! ## Which walks reach the status descriptor -/

/-- The walk reaches the status descriptor exactly when every data descriptor
succeeds, and has stored no status by then. -/
theorem blkDoRequest_reaches {blk : Blk} {head : Half} {w : World} {data : List Half}
    {status : Half} {fuel : Nat} (hch : ChainAt blk w.mem head data status)
    (hfuel : data.length < fuel) :
    ∃ ok written w', blkDoRequest fuel blk head w = some (blkFinish (requestType blk w.mem head)
        (if ok then descBuf blk w.mem status else 0) ok written w') ∧
      statuses w'.trace = statuses w.trace ∧
      (ok = true ↔ AllGranted w.sd (requestType blk w.mem head) w.sd.calls
        ((requestSector blk w.mem head).setWidth 32) (data.map (descLen blk w.mem))) := by
  obtain ⟨ok, written, w₀, w', heq, hw₀, hend, _⟩ := blkDoRequest_chain
    (P := fun _ _ _ _ _ => True) (fun _ _ _ _ => trivial) (fun _ _ _ _ _ _ _ _ _ _ _ => trivial)
    (fun _ _ _ _ _ _ _ _ _ _ _ _ _ _ _ _ _ => trivial) hch hfuel
  refine ⟨ok, written, w', heq, hend.statuses.trans hw₀.trace, hend.ok.trans ?_⟩
  rw [hw₀.sd]
  have hl : (chainBufs w.mem blk.descTable blk.queueNum data).map Prod.snd =
      data.map (descLen blk w.mem) := by
    unfold chainBufs
    rw [List.map_map]
    rfl
  rw [hl]
  rfl

/-- A request for a well-formed chain comes to an end, and stores the one status
value due exactly when its type is implemented, every data descriptor succeeds
and the status byte is not at an address that reads as null. -/
theorem blkDoRequest_status {blk : Blk} {head : Half} {w : World} {data : List Half}
    {status : Half} {fuel : Nat} (hch : ChainAt blk w.mem head data status)
    (hfuel : data.length < fuel) :
    ∃ written w', blkDoRequest fuel blk head w = some (written, w') ∧
      (StatusStored (requestType blk w.mem head)
          (AllGranted w.sd (requestType blk w.mem head) w.sd.calls
            ((requestSector blk w.mem head).setWidth 32) (data.map (descLen blk w.mem)))
          (descBuf blk w.mem status) w w' ↔
        Implemented (requestType blk w.mem head) ∧ descBuf blk w.mem status ≠ 0 ∧
          AllGranted w.sd (requestType blk w.mem head) w.sd.calls
            ((requestSector blk w.mem head).setWidth 32) (data.map (descLen blk w.mem))) := by
  obtain ⟨ok, written, w', heq, htr, hok⟩ := blkDoRequest_reaches hch hfuel
  -- a request that stores nothing has no status to show
  have hnone {w'' : World} {t : Word} {g : Prop} {a : Word}
      (h : statuses w''.trace = statuses w'.trace) : ¬ StatusStored t g a w w'' := by
    rintro ⟨v, hv, _⟩
    rw [h, htr] at hv
    simp at hv
  cases ok with
  | false =>
      refine ⟨(blkFinish (requestType blk w.mem head) 0 false written w').1,
        (blkFinish (requestType blk w.mem head) 0 false written w').2, heq, ?_⟩
      refine iff_of_false (hnone (blkFinish_null _ _ _ _).1) ?_
      rintro ⟨_, _, hg⟩
      exact absurd (hok.mpr hg) (by simp)
  | true =>
      have hg := hok.mp rfl
      refine ⟨(blkFinish (requestType blk w.mem head) (descBuf blk w.mem status) true written w').1,
        (blkFinish (requestType blk w.mem head) (descBuf blk w.mem status) true written w').2,
        heq, ?_⟩
      by_cases ha : descBuf blk w.mem status = 0
      · rw [ha]
        exact iff_of_false (hnone (blkFinish_null _ _ _ _).1) fun h => h.2.1 rfl
      · obtain ⟨hst, hmem⟩ := blkFinish_ok (requestType blk w.mem head) ha written w'
        constructor
        · rintro ⟨v, hv, _, hdue⟩
          rw [hst, htr] at hv
          have hv' : virtioBlkSOk = v := by simpa using hv
          rw [← hv', statusDue_ok_iff] at hdue
          exact ⟨hdue.1, ha, hdue.2⟩
        · rintro ⟨himp, _, _⟩
          refine ⟨virtioBlkSOk, by rw [hst, htr], ?_, (statusDue_ok_iff _ _).mpr ⟨himp, hg⟩⟩
          rw [hmem]
          exact Mem.fill_self (by omega)

theorem blkDoRequest_status_oneSector :
    ∃ written w', blkDoRequest 2 smallBlk 0
        (worldOf (oneSector virtioBlkTIn 0 0x48200000) (smallSd true)) = some (written, w') ∧
      statuses w'.trace = [(0x48300000, virtioBlkSOk)] := by
  obtain ⟨written, w', heq, hiff⟩ := blkDoRequest_status
    (w := worldOf (oneSector virtioBlkTIn 0 0x48200000) (smallSd true)) oneSector_in
    (show [(1 : Half)].length < 2 by decide)
  have hi : Implemented (requestType smallBlk (oneSector virtioBlkTIn 0 0x48200000) 0) := by
    decide +kernel
  have hg : AllGranted (smallSd true) (requestType smallBlk (oneSector virtioBlkTIn 0 0x48200000) 0)
      0 ((requestSector smallBlk (oneSector virtioBlkTIn 0 0x48200000) 0).setWidth 32)
      ([1].map (descLen smallBlk (oneSector virtioBlkTIn 0 0x48200000))) := by
    decide +kernel
  obtain ⟨v, hv, _, hdue⟩ := hiff.mpr ⟨hi, by decide +kernel, hg⟩
  refine ⟨written, w', heq, ?_⟩
  rw [hv, hdue.1.mpr ⟨hi, hg⟩]
  decide +kernel

/-- A read of one sector that the card refuses ends without a status. -/
theorem blkDoRequest_status_lost :
    ChainAt smallBlk (oneSector virtioBlkTIn 0 0x48200000) 0 [1] 2 ∧
      ∃ written w', blkDoRequest 2 smallBlk 0
          (worldOf (oneSector virtioBlkTIn 0 0x48200000) (smallSd false)) = some (written, w') ∧
        ∀ granted, ¬ StatusStored (requestType smallBlk (oneSector virtioBlkTIn 0 0x48200000) 0)
          granted (descBuf smallBlk (oneSector virtioBlkTIn 0 0x48200000) 2)
          (worldOf (oneSector virtioBlkTIn 0 0x48200000) (smallSd false)) w' := by
  have hrun : (blkDoRequest 2 smallBlk 0 (worldOf (oneSector virtioBlkTIn 0 0x48200000)
      (smallSd false))).map (fun r => statuses r.2.trace) = some [] := by decide +kernel
  obtain ⟨r, hr, hst⟩ := Option.map_eq_some_iff.mp hrun
  refine ⟨oneSector_in, r.1, r.2, hr, ?_⟩
  rintro granted ⟨v, hv, _⟩
  rw [hst] at hv
  simp [worldOf, statuses] at hv

end P4Hyp
