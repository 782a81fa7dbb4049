import P4Hyp.VirtioBlk.Notify

/-!
# Reset and set-up

A driver reset clears `live` and `last_avail`, and QueuePFN sets them anew, while
core 0 may be anywhere in `blk_service`.  Nothing makes core 0 look at `live`
again before its next call, so a reset is only respected when it lands outside.
-/

namespace P4Hyp

/-- The write sets up, or tears down, the queue. -/
def setsUp : Event → Bool
  | .write offset _ => VirtioMmio.ofOffset offset = some .queuePfn
  | _ => false

/-- The write changes a register that the ring pointers are computed from. -/
def movesRings : Event → Bool
  | .write offset _ =>
      VirtioMmio.ofOffset offset = some .queuePfn ∨ VirtioMmio.ofOffset offset = some .queueNum ∨
        VirtioMmio.ofOffset offset = some .queueAlign ∨
        VirtioMmio.ofOffset offset = some .guestPageSize
  | _ => false

/-- What has happened since the queue was last set up: whether a reset was
accepted after core 0's last look at `blk.live`, whether an entry of this ring is
being served, and how many have been consumed. -/
structure Epoch where
  stale : Bool
  fetched : Bool
  consumed : Nat
  deriving DecidableEq

def Epoch.core0 (g : Epoch) : Core0 → Epoch
  | .enter => { g with stale := false }
  | .fetch _ _ => { g with fetched := true }
  | .advance _ =>
      { g with fetched := false, consumed := if g.fetched then g.consumed + 1 else g.consumed }
  | _ => g

def Epoch.step (g : Epoch) (p : Sys × Event) : Epoch :=
  if p.2 = .core0 then g.core0 p.1.core0
  else if resets p.2 then ⟨true, false, 0⟩
  else if setsUp p.2 then ⟨g.stale, false, 0⟩
  else g

def epoch (h : List (Sys × Event)) : Epoch := h.foldl Epoch.step ⟨false, false, 0⟩

theorem epoch_snoc (h : List (Sys × Event)) (p : Sys × Event) :
    epoch (h ++ [p]) = (epoch h).step p := by
  unfold epoch
  rw [List.foldl_append]
  rfl

def Touch.writes : Touch → Bool
  | .load _ _ => false
  | .store _ _ => true
  | .status _ _ => true

/-- The next step of core 0 stores nothing. -/
def NoWrite (s : Sys) : Prop :=
  (core0Step s).world.trace.filter Touch.writes = s.world.trace.filter Touch.writes

instance (s : Sys) : Decidable (NoWrite s) := inferInstanceAs (Decidable (_ = _))

/-- After a reset core 0 stores nothing more for the old queue, and `last_avail`
counts entries of the ring that the registers describe. -/
structure EpochKept (h : List (Sys × Event)) (s : Sys) : Prop where
  quiet : (epoch h).stale = true → NoWrite s
  counts : s.blk.lastAvail = BitVec.ofNat 16 (epoch h).consumed
  rings : s.core0.rings? = none ∨ s.core0.rings? = some s.rings

/-- The queue is reset and set up only while core 0 is outside `blk_service`. -/
def KeepsEpoch (s : Sys) (e : Event) : Prop :=
  resets e = true ∨ movesRings e = true → s.core0.rings? = none

instance (s : Sys) (e : Event) : Decidable (KeepsEpoch s e) :=
  inferInstanceAs (Decidable (_ → _))

/-! ## The invariant -/

/-- Core 0 is serving an entry that it has fetched. -/
def Core0.serving : Core0 → Bool
  | .header _ _ _ | .walk _ _ _ _ | .elemId _ _ _ _ | .elemLen _ _ _ _ | .publish _
  | .advance _ => true
  | _ => false

structure EpochInv (h : List (Sys × Event)) (s : Sys) : Prop where
  outside : (epoch h).stale = true → s.core0.rings? = none
  fetched : s.core0.serving = true → (epoch h).fetched = true
  counts : s.blk.lastAvail = BitVec.ofNat 16 (epoch h).consumed
  rings : s.core0.rings? = none ∨ s.core0.rings? = some s.rings

/-- Outside `blk_service` core 0 leaves memory and the card alone. -/
theorem core0Step_world {s : Sys} (h : s.core0.rings? = none) : (core0Step s).world = s.world := by
  cases hpc : s.core0 with
  | idle | enter =>
      simp only [core0Step, hpc]
      split
      · rfl
      · rfl
  | clear | raise => simp only [core0Step, hpc]
  | _ => simp [hpc, Core0.rings?] at h

theorem EpochInv.kept {h : List (Sys × Event)} {s : Sys} (hi : EpochInv h s) : EpochKept h s := by
  refine ⟨fun hst => ?_, hi.counts, hi.rings⟩
  unfold NoWrite
  rw [core0Step_world (hi.outside hst)]

theorem rings_core0Step (s : Sys) : (core0Step s).rings = s.rings := by
  unfold Sys.rings
  rw [core0Step_blk]
  rfl

/-- A step of core 0 that does not enter `blk_service` keeps its pointers or
leaves. -/
theorem rings?_core0Step {s : Sys} (h : s.core0 ≠ .enter) :
    (core0Step s).core0.rings? = none ∨ (core0Step s).core0.rings? = s.core0.rings? := by
  cases hpc : s.core0 with
  | enter => exact absurd hpc h
  | idle =>
      left
      simp only [core0Step, hpc]
      split
      · rfl
      · rw [hpc]
        rfl
  | clear | raise =>
      left
      simp only [core0Step, hpc]
      rfl
  | test r published =>
      simp only [core0Step, hpc]
      split
      · exact .inr rfl
      · split
        · exact .inl rfl
        · exact .inl rfl
  | header r published head =>
      simp only [core0Step, hpc]
      split
      · exact .inr rfl
      · exact .inr rfl
  | walk r published head k =>
      simp only [core0Step, hpc]
      split
      · exact .inr rfl
      · exact .inr rfl
  | _ =>
      simp only [core0Step, hpc]
      exact .inr rfl

/-- Core 0 serves an entry only after the fetch of one. -/
theorem serving_core0Step {s : Sys} (h : (core0Step s).core0.serving = true) :
    (∃ r published, s.core0 = .fetch r published) ∨
      s.core0.serving = true ∧ s.core0.advancing = false := by
  cases hpc : s.core0 with
  | idle | enter =>
      simp only [core0Step, hpc] at h
      split at h
      · cases h
      · simp [Core0.serving, hpc] at h
  | test r published =>
      simp only [core0Step, hpc] at h
      split at h
      · cases h
      · split at h
        · cases h
        · cases h
  | clear | raise | advance r =>
      simp only [core0Step, hpc] at h
      cases h
  | fetch r published => exact .inl ⟨r, published, rfl⟩
  | _ => exact .inr ⟨rfl, rfl⟩

theorem epochInv_core0 {h : List (Sys × Event)} {s : Sys} (hi : EpochInv h s) :
    EpochInv (h ++ [(s, .core0)]) (core0Step s) := by
  have hep : epoch (h ++ [(s, .core0)]) = (epoch h).core0 s.core0 := by
    rw [epoch_snoc]
    rfl
  by_cases hen : s.core0 = .enter
  · -- a new call, with the pointers of the queue as it is now
    have he : epoch (h ++ [(s, .core0)]) = { epoch h with stale := false } := by
      rw [hep, hen]
      rfl
    constructor
    · rw [he]
      intro hst
      cases hst
    · intro hs
      rcases serving_core0Step hs with ⟨r, p, hf⟩ | ⟨hf, _⟩
      · rw [hen] at hf
        cases hf
      · rw [hen] at hf
        cases hf
    · rw [he, core0Step_blk, hen]
      exact hi.counts
    · rw [rings_core0Step]
      simp only [core0Step, hen]
      split
      · exact .inr rfl
      · exact .inl rfl
  · have hstale : ((epoch h).core0 s.core0).stale = (epoch h).stale := by
      cases hpc : s.core0 with
      | enter => exact absurd hpc hen
      | _ => rfl
    constructor
    · rw [hep, hstale]
      intro hst
      rcases rings?_core0Step hen with hr | hr
      · exact hr
      · rw [hr]
        exact hi.outside hst
    · intro hs
      rw [hep]
      rcases serving_core0Step hs with ⟨r, p, hf⟩ | ⟨hserv, hadv⟩
      · rw [hf]
        rfl
      · have hold := hi.fetched hserv
        cases hpc : s.core0 with
        | advance r =>
            rw [hpc] at hadv
            cases hadv
        | fetch r p => rfl
        | _ => exact hold
    · rw [hep, core0Step_blk]
      cases hpc : s.core0 with
      | advance r =>
          have hf : (epoch h).fetched = true := hi.fetched (by rw [hpc]; rfl)
          show s.blk.lastAvail + 1 = BitVec.ofNat 16 (if (epoch h).fetched = true then _ else _)
          rw [if_pos hf, hi.counts, BitVec.ofNat_add]
          rfl
      | _ => exact hi.counts
    · rw [rings_core0Step]
      rcases rings?_core0Step hen with hr | hr
      · exact .inl hr
      · rw [hr]
        exact hi.rings

/-- Two devices with the same queue and the same place in it. -/
structure SameQueue (b b' : Blk) : Prop where
  live : b'.live = b.live
  num : b'.queueNum = b.queueNum
  avail : b'.availRing = b.availRing
  used : b'.usedRing = b.usedRing
  last : b'.lastAvail = b.lastAvail

theorem SameQueue.rfl {b : Blk} : SameQueue b b := ⟨by rfl, by rfl, by rfl, by rfl, by rfl⟩

/-- A register write that is no reset and leaves the four queue registers alone
keeps the queue. -/
theorem write_queue {offset value : Word} (ready : Bool) (d : Devices)
    (hm : movesRings (.write offset value) = false) (hr : resets (.write offset value) = false) :
    SameQueue d.blk (hypVirtioBlkWrite ready offset value d).blk := by
  unfold hypVirtioBlkWrite
  cases ho : VirtioMmio.ofOffset offset with
  | none => exact .rfl
  | some r =>
      cases r with
      | queuePfn | queueNum | queueAlign | guestPageSize => simp [movesRings, ho] at hm
      | status =>
          have hv : ¬ value = 0 := by simpa [resets, ho] using hr
          simp only [VirtioMmio.write, if_neg hv]
          exact ⟨rfl, rfl, rfl, rfl, rfl⟩
      | _ => exact ⟨rfl, rfl, rfl, rfl, rfl⟩

theorem write_resets {ready : Bool} {offset value : Word} {d : Devices}
    (h : resets (.write offset value) = true ∨ setsUp (.write offset value) = true) :
    (hypVirtioBlkWrite ready offset value d).blk.lastAvail = 0 := by
  unfold hypVirtioBlkWrite
  rcases h with h | h
  · obtain ⟨ho, hv⟩ : VirtioMmio.ofOffset offset = some .status ∧ value = 0 := by
      simpa [resets] using h
    rw [ho]
    simp only [VirtioMmio.write, if_pos hv]
  · have ho : VirtioMmio.ofOffset offset = some .queuePfn := by simpa [setsUp] using h
    rw [ho]
    rfl

theorem write_lastAvail {ready : Bool} {offset value : Word} {d : Devices}
    (hr : resets (.write offset value) = false) (hs : setsUp (.write offset value) = false) :
    (hypVirtioBlkWrite ready offset value d).blk.lastAvail = d.blk.lastAvail := by
  unfold hypVirtioBlkWrite
  cases ho : VirtioMmio.ofOffset offset with
  | none => rfl
  | some r =>
      cases r with
      | queuePfn => simp [setsUp, ho] at hs
      | status =>
          have hv : ¬ value = 0 := by simpa [resets, ho] using hr
          simp only [VirtioMmio.write, if_neg hv]
      | _ => rfl

theorem serving_rings? {c : Core0} (h : c.rings? = none) : c.serving = false := by
  cases c <;> first | rfl | cases h

theorem epochInv_write {h : List (Sys × Event)} {s : Sys} {offset value : Word}
    (hi : EpochInv h s) (hk : KeepsEpoch s (.write offset value)) :
    EpochInv (h ++ [(s, .write offset value)]) (guestStep s (.write offset value)) := by
  have hep : epoch (h ++ [(s, .write offset value)]) =
      if resets (.write offset value) then ⟨true, false, 0⟩
      else if setsUp (.write offset value) then ⟨(epoch h).stale, false, 0⟩ else epoch h := by
    rw [epoch_snoc]
    rfl
  cases hr : resets (.write offset value) with
  | true =>
      have hout : s.core0.rings? = none := hk (.inl hr)
      rw [hr, if_pos rfl] at hep
      constructor
      · exact fun _ => hout
      · intro hs
        rw [show (guestStep s (.write offset value)).core0 = s.core0 from rfl,
          serving_rings? hout] at hs
        cases hs
      · rw [hep]
        exact write_resets (.inl hr)
      · exact .inl hout
  | false =>
      rw [hr, if_neg Bool.false_ne_true] at hep
      cases hu : setsUp (.write offset value) with
      | true =>
          have hm : movesRings (.write offset value) = true := by
            have ho : VirtioMmio.ofOffset offset = some .queuePfn := by simpa [setsUp] using hu
            simp [movesRings, ho]
          have hout : s.core0.rings? = none := hk (.inr hm)
          rw [hu, if_pos rfl] at hep
          constructor
          · exact fun _ => hout
          · intro hs
            rw [show (guestStep s (.write offset value)).core0 = s.core0 from rfl,
              serving_rings? hout] at hs
            cases hs
          · rw [hep]
            exact write_resets (.inr hu)
          · exact .inl hout
      | false =>
          rw [hu, if_neg Bool.false_ne_true] at hep
          refine ⟨?_, ?_, ?_, ?_⟩
          · rw [hep]
            exact hi.outside
          · rw [hep]
            exact hi.fetched
          · rw [hep, ← hi.counts]
            exact write_lastAvail hr hu
          · cases hm : movesRings (.write offset value) with
            | true => exact .inl (hk (.inr hm))
            | false =>
                have hb := write_queue s.world.sd.hypSdReady s.dev hm hr
                have hrings : (guestStep s (.write offset value)).rings = s.rings :=
                  congrArg₂ Rings.mk hb.avail hb.used
                rw [hrings]
                exact hi.rings

/-- In every run in which the queue is reset and set up only while core 0 is
outside `blk_service`, core 0 respects every reset, and `last_avail` counts the
entries consumed of the ring set up last. -/
theorem epochKept_run {w : World} {h : List (Sys × Event)} {s : Sys}
    (hrun : Run fire (.boot w) h s) (hC : Run.Meets KeepsEpoch h) : EpochKept h s := by
  refine EpochInv.kept ?_
  have hstart : EpochInv [] (.boot w) := by
    refine ⟨?_, ?_, rfl, .inl rfl⟩
    · intro hst
      cases hst
    · intro hs
      cases hs
  refine Run.invariant KeepsEpoch EpochInv hstart ?_ hrun hC
  intro h s e s' hi hk hf
  have hep (hne : e ≠ .core0) (hr : resets e = false) (hu : setsUp e = false) :
      epoch (h ++ [(s, e)]) = epoch h := by
    rw [epoch_snoc, Epoch.step, if_neg hne, hr, hu]
    rfl
  cases e with
  | core0 =>
      obtain rfl : core0Step s = s' := Option.some.inj hf
      exact epochInv_core0 hi
  | poll =>
      obtain rfl : pollStep s = s' := Option.some.inj hf
      have he := hep (by simp) rfl rfl
      have hs : (pollStep s).core0 = s.core0 ∧ (pollStep s).blk.lastAvail = s.blk.lastAvail ∧
          (pollStep s).rings = s.rings := by
        unfold pollStep
        split
        · split
          · exact ⟨rfl, rfl, rfl⟩
          · exact ⟨rfl, rfl, rfl⟩
        · exact ⟨rfl, rfl, rfl⟩
        · exact ⟨rfl, rfl, rfl⟩
      obtain ⟨h0, hl, hr⟩ := hs
      exact ⟨by rw [he, h0]; exact hi.outside, by rw [he, h0]; exact hi.fetched,
        by rw [he, hl]; exact hi.counts, by rw [h0, hr]; exact hi.rings⟩
  | write offset value =>
      obtain ⟨_, rfl⟩ := fire_guest hf (by simp) (by simp)
      exact epochInv_write hi hk
  | _ =>
      obtain ⟨_, rfl⟩ := fire_guest hf (by simp) (by simp)
      have he := hep (by simp) rfl rfl
      exact ⟨by rw [he]; exact hi.outside, by rw [he]; exact hi.fetched,
        by rw [he]; exact hi.counts, hi.rings⟩

/-- A driver's reset, and the set-up of a new queue of four at page `0x48003`. -/
def resetUp : List Event :=
  [.write VirtioMmio.status.offset 0, .write VirtioMmio.queueNum.offset 4,
    .write VirtioMmio.guestPageSize.offset 4096, .write VirtioMmio.queuePfn.offset 0x48003]

theorem epochKept_run_outside : ∃ h s, Run fire (.boot (oneOffered 0x48200000)) h s ∧
    s.blk.live = true ∧ EpochKept h s := by
  obtain ⟨h, s, hrun, hd⟩ := Run.exists_of_play fire (.boot (oneOffered 0x48200000))
    (serve 14 ++ resetUp)
    (fun r => decide (r.2.blk.live = true ∧ Run.Meets KeepsEpoch r.1)) true
    (by decide +kernel)
  obtain ⟨hlive, hmeets⟩ := of_decide_eq_true hd
  exact ⟨h, s, hrun, hlive, epochKept_run hrun hmeets⟩

/-- A reset that lands before core 0 stores the used element: core 0 goes on to
store it, and bumps `last_avail` of the new queue for the old entry, so the first
entry of the new ring is never consumed. -/
theorem reset_ignored :
    (∃ h s, Run fire (.boot (oneOffered 0x48200000)) h s ∧ (epoch h).stale = true ∧ ¬ NoWrite s) ∧
      ∃ h s, Run fire (.boot (oneOffered 0x48200000)) h s ∧ s.core0.rings? ≠ some s.rings ∧
        s.blk.live = true ∧ s.blk.lastAvail = 1 ∧ (epoch h).consumed = 0 ∧ ¬ EpochKept h s := by
  constructor
  · obtain ⟨h, s, hrun, hd⟩ := Run.exists_of_play fire
      (.boot (oneOffered 0x48200000)) (serve 8 ++ resetUp.take 1)
      (fun r => decide ((epoch r.1).stale = true ∧ ¬ NoWrite r.2)) true
      (by decide +kernel)
    obtain ⟨hst, hw⟩ := of_decide_eq_true hd
    exact ⟨h, s, hrun, hst, hw⟩
  · obtain ⟨h, s, hrun, hd⟩ := Run.exists_of_play fire
      (.boot (oneOffered 0x48200000)) (serve 8 ++ resetUp ++ List.replicate 4 .core0)
      (fun r => decide (r.2.core0.rings? ≠ some r.2.rings ∧ r.2.blk.live = true ∧
        r.2.blk.lastAvail = 1 ∧ (epoch r.1).consumed = 0)) true (by decide +kernel)
    obtain ⟨hr, hlive, hl, hc⟩ := of_decide_eq_true hd
    refine ⟨h, s, hrun, hr, hlive, hl, hc, fun hk => ?_⟩
    have hcount := hk.counts
    rw [hl, hc] at hcount
    exact absurd hcount (by decide)

end P4Hyp
