import P4Hyp.VirtioBlk.System

/-!
# The device's interrupt line

The line is up while `interrupt_status` is non-zero.  The PLIC stores no level:
while the line is up and its source is not in service, the pending bit must be
set, or the interrupt is lost.
-/

namespace P4Hyp

/-- An unacknowledged block interrupt whose source is not in service is
pending. -/
def LevelHeld (s : Sys) : Prop :=
  s.blk.interruptStatus ≠ 0 → s.dev.plic.inService plicVirtioBlkSource = false →
    s.dev.plic.isPending plicVirtioBlkSource = true

/-- The steps that keep it so: the guest completes source 11 only once it has
acknowledged the interrupt, or after a new one has set the pending bit. -/
def KeepsLevel (s : Sys) : Event → Prop
  | .plicWrite offset value =>
      value.toNat = plicVirtioBlkSource → Completes offset value s.dev.plic →
        s.blk.interruptStatus = 0 ∨ s.dev.plic.isPending plicVirtioBlkSource = true
  | _ => True

instance (s : Sys) : Decidable (LevelHeld s) := by
  unfold LevelHeld
  infer_instance

instance (s : Sys) (e : Event) : Decidable (KeepsLevel s e) := by
  unfold KeepsLevel Completes
  split <;> infer_instance

theorem levelHeld_of_eq {s s' : Sys} (h : LevelHeld s)
    (hi : s'.blk.interruptStatus = s.blk.interruptStatus) (hp : s'.dev.plic = s.dev.plic) :
    LevelHeld s' := by
  unfold LevelHeld
  rw [hi, hp]
  exact h

theorem levelHeld_core0 {s : Sys} (h : LevelHeld s) : LevelHeld (core0Step s) :=
  levelHeld_of_eq h (by rw [core0Step_blk]) (core0Step_plic s)

theorem levelHeld_poll {s : Sys} (h : LevelHeld s) : LevelHeld (pollStep s) := by
  cases hc : s.core1 with
  | guest =>
      simp only [pollStep, hc]
      split
      · exact h
      · exact h
  | tested =>
      simp only [pollStep, hc]
      exact h
  | cleared =>
      simp only [pollStep, hc]
      intro _ _
      show (plicSetPending plicVirtioBlkSource true s.dev.plic).isPending _ = true
      rw [isPending_plicSetPending (by decide), if_pos rfl]

theorem levelHeld_write {s : Sys} (h : LevelHeld s) (offset value : Word) :
    LevelHeld (guestStep s (.write offset value)) := by
  show LevelHeld { s with dev := hypVirtioBlkWrite _ offset value s.dev }
  unfold hypVirtioBlkWrite
  cases VirtioMmio.ofOffset offset with
  | none => exact h
  | some r =>
      cases r with
      | interruptAck =>
          intro hi
          have hi' : s.blk.interruptStatus &&& ~~~value ≠ 0 := hi
          have hne : s.blk.interruptStatus ≠ 0 := by
            intro hz
            rw [hz] at hi'
            exact hi' BitVec.zero_and
          have hp : (VirtioMmio.interruptAck.write s.world.sd.hypSdReady value s.dev).plic =
            s.dev.plic := if_neg hi
          simp only [hp]
          exact h hne
      | status =>
          by_cases hv : value = 0
          · intro hi
            refine absurd ?_ hi
            simp only [Sys.blk, VirtioMmio.write, if_pos hv]
          · simp only [VirtioMmio.write, if_neg hv]
            exact h
      | _ => exact h

/-- A claim of the source itself puts it in service, a claim of another one
leaves its bits alone. -/
theorem levelHeld_plicRead {s : Sys} (h : LevelHeld s) (offset : Word) :
    LevelHeld (guestStep s (.plicRead offset)) := by
  show LevelHeld { s with dev := { s.dev with plic := (plicRead offset s.dev.plic).2 } }
  rcases plicRead_cases offset s.dev.plic with he | ⟨_, _, he⟩
  · rw [he]
    exact h
  · rw [he]
    intro hi hs
    have hs' : (s.dev.plic.claimed ||| bit (plicPeek s.dev.plic)).getLsbD plicVirtioBlkSource =
        false :=
      hs
    rw [getLsbD_or_bit (by decide), Bool.or_eq_false_iff, decide_eq_false_iff_not] at hs'
    show (s.dev.plic.pending &&& ~~~bit (plicPeek s.dev.plic)).getLsbD plicVirtioBlkSource = true
    rw [getLsbD_and_not_bit (by decide), decide_eq_false hs'.2, Bool.not_false, Bool.and_true]
    exact h hi hs'.1

theorem levelHeld_plicWrite {s : Sys} (h : LevelHeld s) (offset value : Word) :
    LevelHeld (guestStep s (.plicWrite offset value)) ↔ KeepsLevel s (.plicWrite offset value) := by
  show LevelHeld { s with dev := { s.dev with
    plic := plicWrite (v16550Reeval s.dev.uart) offset value s.dev.plic } } ↔ _
  by_cases hc : Completes offset value s.dev.plic
  · rw [plicWrite_complete hc]
    by_cases hv : value.toNat = plicVirtioBlkSource
    · -- the service of source 11 ends
      have hu : ¬ plicVirtioBlkSource = plicUartSource := by decide
      have hserv : (s.dev.plic.claimed &&& ~~~bit plicVirtioBlkSource).getLsbD
          plicVirtioBlkSource = false := by
        rw [getLsbD_and_not_bit (by decide)]
        simp
      rw [hv, if_neg hu]
      constructor
      · intro hl _ _
        by_cases hi : s.blk.interruptStatus = 0
        · exact .inl hi
        · exact .inr (hl hi hserv)
      · intro hk hi _
        exact (hk hv hc).resolve_left hi
    · -- another source's service ends
      refine iff_of_true ?_ fun hv' => absurd hv' hv
      have hne : ¬ plicVirtioBlkSource = value.toNat := fun he => hv he.symm
      have hserv : (s.dev.plic.claimed &&& ~~~bit value.toNat).getLsbD plicVirtioBlkSource =
          s.dev.plic.inService plicVirtioBlkSource := by
        rw [getLsbD_and_not_bit (by decide), decide_eq_false hne, Bool.not_false, Bool.and_true]
        rfl
      have hu : ¬ plicVirtioBlkSource = plicUartSource := by decide
      split
      · intro hi hs
        rw [inService_v16550Reeval] at hs
        rw [isPending_v16550Reeval (by decide), if_neg hu]
        exact h hi (hserv.symm.trans hs)
      · intro hi hs
        exact h hi (hserv.symm.trans hs)
  · obtain ⟨hp, hcl⟩ := plicWrite_other (u := s.dev.uart) hc
    refine iff_of_true ?_ fun _ hc' => absurd hc' hc
    intro hi hs
    have hs' : (plicWrite (v16550Reeval s.dev.uart) offset value s.dev.plic).claimed.getLsbD
      plicVirtioBlkSource = false := hs
    show (plicWrite (v16550Reeval s.dev.uart) offset value s.dev.plic).pending.getLsbD
      plicVirtioBlkSource = true
    rw [hcl] at hs'
    rw [hp]
    exact h hi hs'

theorem levelHeld_step {s s' : Sys} {e : Event} (h : LevelHeld s) (hf : fire s e = some s') :
    LevelHeld s' ↔ KeepsLevel s e := by
  cases e with
  | core0 =>
      obtain rfl : core0Step s = s' := Option.some.inj hf
      exact iff_of_true (levelHeld_core0 h) trivial
  | poll =>
      obtain rfl : pollStep s = s' := Option.some.inj hf
      exact iff_of_true (levelHeld_poll h) trivial
  | write offset value =>
      obtain ⟨_, rfl⟩ := fire_guest hf (by simp) (by simp)
      exact iff_of_true (levelHeld_write h offset value) trivial
  | plicRead offset =>
      obtain ⟨_, rfl⟩ := fire_guest hf (by simp) (by simp)
      exact iff_of_true (levelHeld_plicRead h offset) trivial
  | plicWrite offset value =>
      obtain ⟨_, rfl⟩ := fire_guest hf (by simp) (by simp)
      exact levelHeld_plicWrite h offset value
  | _ =>
      obtain ⟨_, rfl⟩ := fire_guest hf (by simp) (by simp)
      exact iff_of_true h trivial

/-- In every run from boot, an unacknowledged block interrupt out of service
stays pending throughout exactly when every completion of its source meets
`KeepsLevel`. -/
theorem levelHeld_run {w : World} {h : List (Sys × Event)} {s : Sys}
    (hrun : Run fire (.boot w) h s) : Run.Throughout LevelHeld h s ↔ Run.Meets KeepsLevel h := by
  refine Run.throughout_iff ?_ (fun s e s' hl hf => levelHeld_step hl hf) hrun
  intro hi
  exact absurd rfl hi

/-- A completed request, the poll that raises its interrupt, and a guest that lets
the PLIC forward it and claims it. -/
def raised : List Event :=
  serve 14 ++ [.poll, .poll, .poll, .plicWrite 0x2c 1, .plicWrite 0x2000 0x800, .plicRead 0x200004]

theorem levelHeld_run_acked : ∃ h s, Run fire (.boot (oneOffered 0x48200000)) h s ∧
    Run.Throughout LevelHeld h s := by
  obtain ⟨h, s, hrun, hd⟩ := Run.exists_of_play fire (.boot (oneOffered 0x48200000))
    (raised ++ [.write VirtioMmio.interruptAck.offset 1, .plicWrite 0x200004 11])
    (fun r => decide (Run.Meets KeepsLevel r.1)) true (by decide +kernel)
  exact ⟨h, s, hrun, (levelHeld_run hrun).mpr (of_decide_eq_true hd)⟩

/-- Completed without an acknowledgement, the interrupt is lost. -/
theorem level_lost : ∃ h s, Run fire (.boot (oneOffered 0x48200000)) h s ∧ ¬ LevelHeld s := by
  obtain ⟨h, s, hrun, hd⟩ := Run.exists_of_play fire (.boot (oneOffered 0x48200000))
    (raised ++ [.plicWrite 0x200004 11])
    (fun r => decide (LevelHeld r.2)) false (by decide +kernel)
  exact ⟨h, s, hrun, of_decide_eq_false hd⟩

end P4Hyp
