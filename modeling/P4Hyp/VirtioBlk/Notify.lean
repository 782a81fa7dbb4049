import P4Hyp.VirtioBlk.System

/-!
# Completions and their notifications

Core 0 publishes used elements and then sets `s_irq`; core 1 turns `s_irq` into
`interrupt_status`; the guest acknowledges and then reads `used->idx`.  Several
completions share one notification, and an acknowledgement can cross a new one.
-/

namespace P4Hyp

/-- Core 0 has published an element in this call of `blk_service`, or is about
to, and will set `s_irq` before it leaves. -/
def Core0.onItsWay : Core0 → Bool
  | .idle | .clear | .enter => false
  | .test _ published | .fetch _ published | .header _ published _ | .walk _ published _ _
  | .elemId _ published _ _ | .elemLen _ published _ _ => published
  | .publish _ | .advance _ | .raise => true

/-- The step bumps `used->idx`. -/
def publishes (s : Sys) : Event → Bool
  | .core0 =>
      match s.core0 with
      | .publish _ => true
      | _ => false
  | _ => false

/-- The step acknowledges the interrupt. -/
def acknowledges : Event → Bool
  | .write offset _ => VirtioMmio.ofOffset offset = some .interruptAck
  | _ => false

/-- The driver's reset. -/
def resets : Event → Bool
  | .write offset value => VirtioMmio.ofOffset offset = some .status ∧ value = 0
  | _ => false

/-- What has passed between core 0 and the guest's handler: elements published,
those the guest had seen at its last read of `used->idx`, and whether it has
acknowledged an interrupt since. -/
structure Seen where
  published : Nat
  seen : Nat
  acked : Bool

def Seen.step (g : Seen) (p : Sys × Event) : Seen :=
  { published := if publishes p.1 p.2 then g.published + 1 else g.published
    seen := if p.2 = .readUsed then g.published else g.seen
    acked := if acknowledges p.2 then true else if p.2 = .readUsed then false else g.acked }

def seen (h : List (Sys × Event)) : Seen := h.foldl Seen.step ⟨0, 0, false⟩

theorem seen_snoc (h : List (Sys × Event)) (p : Sys × Event) :
    seen (h ++ [p]) = (seen h).step p := by
  unfold seen
  rw [List.foldl_append]
  rfl

/-- A used element that the guest has not seen has a notification on its way:
core 0 will set `s_irq`, or it is set, or core 1 is turning it into an
interrupt, or the interrupt is raised, or the handler is about to look. -/
def Notified (h : List (Sys × Event)) (s : Sys) : Prop :=
  (seen h).seen < (seen h).published →
    s.core0.onItsWay = true ∨ s.dev.sIrq = true ∨ s.core1 = .cleared ∨
      s.blk.interruptStatus ≠ 0 ∨ (seen h).acked = true

/-! ## Core 0 -/

/-- Once on its way, core 0 stays on its way until it has set `s_irq`. -/
theorem onItsWay_step {s : Sys} (h : s.core0.onItsWay = true) :
    (core0Step s).core0.onItsWay = true ∨ (core0Step s).dev.sIrq = true := by
  cases hpc : s.core0 with
  | idle => rw [hpc] at h; cases h
  | clear => rw [hpc] at h; cases h
  | enter => rw [hpc] at h; cases h
  | test r published =>
      rw [hpc] at h
      obtain rfl : published = true := h
      left
      simp only [core0Step, hpc]
      split
      · rfl
      · rfl
  | header r published head =>
      rw [hpc] at h
      left
      simp only [core0Step, hpc]
      split
      · exact h
      · exact h
  | walk r published head k =>
      rw [hpc] at h
      left
      simp only [core0Step, hpc]
      split
      · exact h
      · exact h
  | fetch r published =>
      rw [hpc] at h
      left
      simp only [core0Step, hpc]
      exact h
  | elemId r published head written =>
      rw [hpc] at h
      left
      simp only [core0Step, hpc]
      exact h
  | elemLen r published head written =>
      left
      simp only [core0Step, hpc]
      rfl
  | publish r =>
      left
      simp only [core0Step, hpc]
      rfl
  | advance r =>
      left
      simp only [core0Step, hpc]
      rfl
  | raise =>
      right
      simp only [core0Step, hpc]

theorem sIrq_core0Step {s : Sys} (h : s.dev.sIrq = true) : (core0Step s).dev.sIrq = true := by
  unfold core0Step
  split <;> first | exact h | rfl | (split <;> exact h)

theorem onItsWay_of_publishes {s : Sys} (h : publishes s .core0 = true) :
    (core0Step s).core0.onItsWay = true := by
  cases hpc : s.core0 with
  | publish r =>
      simp only [core0Step, hpc]
      rfl
  | _ => simp [publishes, hpc] at h

theorem notified_core0 {h : List (Sys × Event)} {s : Sys} (hn : Notified h s) :
    Notified (h ++ [(s, .core0)]) (core0Step s) := by
  intro hlt
  rw [seen_snoc] at hlt ⊢
  have hacked : ((seen h).step (s, .core0)).acked = (seen h).acked := rfl
  have hblk : (core0Step s).blk.interruptStatus = s.blk.interruptStatus := by rw [core0Step_blk]
  rw [hacked, core0Step_core1, hblk]
  cases hp : publishes s .core0 with
  | true => exact .inl (onItsWay_of_publishes hp)
  | false =>
      have hsame : ((seen h).step (s, .core0)).published = (seen h).published := by
        simp only [Seen.step, hp, Bool.false_eq_true, if_false]
      rw [hsame] at hlt
      rcases hn hlt with hw | hi | hrest
      · rcases onItsWay_step hw with hw | hi
        · exact .inl hw
        · exact .inr (.inl hi)
      · exact .inr (.inl (sIrq_core0Step hi))
      · exact .inr (.inr hrest)

/-! ## Core 1 and the guest -/

theorem notified_poll {h : List (Sys × Event)} {s : Sys} (hn : Notified h s) :
    Notified (h ++ [(s, .poll)]) (pollStep s) := by
  intro hlt
  rw [seen_snoc] at hlt ⊢
  have hold := hn hlt
  show _ ∨ _ ∨ _ ∨ _ ∨ (seen h).acked = true
  cases hc : s.core1 with
  | guest =>
      rw [hc] at hold
      simp only [pollStep, hc]
      split
      · rcases hold with hw | hi | hcl | hrest
        · exact .inl hw
        · exact .inr (.inl hi)
        · cases hcl
        · exact .inr (.inr (.inr hrest))
      · rw [hc]
        exact hold
  | tested =>
      simp only [pollStep, hc]
      exact .inr (.inr (.inl trivial))
  | cleared =>
      simp only [pollStep, hc]
      refine .inr (.inr (.inr (.inl ?_)))
      intro hz
      have hbit := congrArg (BitVec.getLsbD · 0) hz
      simp [Sys.blk] at hbit

/-- A register write other than an acknowledgement or a reset. -/
theorem write_line {offset value : Word} (ready : Bool) (d : Devices)
    (ha : acknowledges (.write offset value) = false) (hr : resets (.write offset value) = false) :
    (hypVirtioBlkWrite ready offset value d).sIrq = d.sIrq ∧
      (hypVirtioBlkWrite ready offset value d).blk.interruptStatus = d.blk.interruptStatus := by
  unfold hypVirtioBlkWrite
  cases ho : VirtioMmio.ofOffset offset with
  | none => exact ⟨rfl, rfl⟩
  | some r =>
      cases r with
      | interruptAck => simp [acknowledges, ho] at ha
      | status =>
          have hv : ¬ value = 0 := by simpa [resets, ho] using hr
          simp only [VirtioMmio.write, if_neg hv]
          exact ⟨trivial, trivial⟩
      | _ => exact ⟨rfl, rfl⟩

theorem notified_guest {h : List (Sys × Event)} {s : Sys} {e : Event} (hn : Notified h s)
    (h0 : e ≠ .core0) (hr : resets e = false) :
    Notified (h ++ [(s, e)]) (guestStep s e) := by
  intro hlt
  rw [seen_snoc] at hlt ⊢
  have hpub : ((seen h).step (s, e)).published = (seen h).published := by
    cases e with
    | core0 => exact absurd rfl h0
    | _ => rfl
  by_cases ha : acknowledges e = true
  · refine .inr (.inr (.inr (.inr ?_)))
    simp only [Seen.step, ha, if_true]
  · by_cases hu : e = .readUsed
    · -- the read sees everything published so far
      rw [hpub] at hlt
      have hs : ((seen h).step (s, e)).seen = (seen h).published := if_pos hu
      rw [hs] at hlt
      exact absurd hlt (Nat.lt_irrefl _)
    · have hseen : ((seen h).step (s, e)).seen = (seen h).seen := if_neg hu
      have hacked : ((seen h).step (s, e)).acked = (seen h).acked := by
        simp only [Seen.step, ha, hu, if_false]
        rfl
      rw [hpub, hseen] at hlt
      rw [hacked]
      have hold := hn hlt
      cases e with
      | write offset value =>
          obtain ⟨hi, hs⟩ := write_line s.world.sd.hypSdReady s.dev
            (Bool.not_eq_true _ ▸ ha) hr
          show _ ∨ (hypVirtioBlkWrite _ offset value s.dev).sIrq = true ∨ _ ∨
            (hypVirtioBlkWrite _ offset value s.dev).blk.interruptStatus ≠ 0 ∨ _
          rw [hi, hs]
          exact hold
      | _ => exact hold

/-- In every run without a driver reset, no completion is left without a
notification. -/
theorem notified_run {s₀ s : Sys} {h : List (Sys × Event)} (hrun : Run fire s₀ h s)
    (hC : Run.Meets (fun _ e => resets e = false) h) : Notified h s := by
  refine Run.invariant (fun _ e => resets e = false) Notified ?_ ?_ hrun hC
  · intro hlt
    exact absurd hlt (Nat.lt_irrefl _)
  · intro h s e s' hn hr hf
    cases e with
    | core0 =>
        obtain rfl : core0Step s = s' := Option.some.inj hf
        exact notified_core0 hn
    | poll =>
        obtain rfl : pollStep s = s' := Option.some.inj hf
        exact notified_poll hn
    | _ =>
        obtain ⟨_, rfl⟩ := fire_guest hf (by simp) (by simp)
        exact notified_guest hn (by simp) hr

theorem notified_run_served : ∃ h s, Run fire (.boot (oneOffered 0x48200000)) h s ∧
    (seen h).seen < (seen h).published ∧ Notified h s := by
  obtain ⟨h, s, hrun, hd⟩ := Run.exists_of_play fire (.boot (oneOffered 0x48200000))
    (serve 14 ++ [.poll, .poll])
    (fun r => decide ((seen r.1).seen < (seen r.1).published ∧
      Run.Meets (fun _ e => resets e = false) r.1)) true (by decide +kernel)
  obtain ⟨hlt, hmeets⟩ := of_decide_eq_true hd
  exact ⟨h, s, hrun, hlt, notified_run hrun hmeets⟩

end P4Hyp
