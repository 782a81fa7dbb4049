import P4Hyp.Board

/-!
# Delivery against a hart

On a hart with M and U modes, a machine interrupt that is enabled in `mie` and
pending is taken in M mode when `mstatus.MIE` is set, and in U mode always.  The
guest's privilege is `guest_priv`, which the delivery does not look at.
-/

namespace P4Hyp

/-- The machine interrupts, in order of priority. -/
def machineInterrupts : List Nat := [11, 3, 7]

/-- The interrupts enabled and pending, of which the first is taken. -/
def hartPending (mie mip : Word) : Option Nat :=
  machineInterrupts.find? fun n => (mie &&& mip).getLsbD n

/-- The interrupt that a hart takes. -/
def hartInterrupt (priv mstatus mie mip : Word) : Option Nat :=
  if priv = privM ∧ mstatus &&& mstatusMie = 0 then none else hartPending mie mip

/-- The trap that a hart with the guest's CSRs takes at the end of a trap. -/
def hartDeliver (fm : RvExcFrame × Monitor) : RvExcFrame × Monitor :=
  match hartInterrupt fm.2.guestPriv fm.2.shadow.mstatus fm.2.shadow.mie (shadowMipRead fm.2) with
  | none => fm
  | some n => hypInject (0x80000000 ||| BitVec.ofNat 32 n) 0 fm

/-! ## `mip` -/

theorem shadowMipRead_getLsbD (m : Monitor) {n : Nat} (hn : n < 32) :
    (shadowMipRead m).getLsbD n =
      if n = 11 then meipPending m.dev.plic
      else if n = 7 then mtipPending m.clint
      else m.shadow.mip.getLsbD n := by
  have hm7 : mipMtip = bit 7 := by decide
  have hm11 : mipMeip = bit 11 := by decide
  simp only [shadowMipRead, hm7, hm11]
  have hbase : (m.shadow.mip &&& ~~~(bit 7 ||| bit 11)).getLsbD n =
      (m.shadow.mip.getLsbD n && !(decide (n = 7) || decide (n = 11))) := by
    rw [BitVec.getLsbD_and, BitVec.getLsbD_not, BitVec.getLsbD_or, getLsbD_bit hn, getLsbD_bit hn]
    simp [hn]
  cases mtipPending m.clint with
  | true =>
      cases meipPending m.dev.plic with
      | true =>
          simp only [if_true, getLsbD_or_bit hn, hbase]
          grind
      | false =>
          simp only [if_true, Bool.false_eq_true, if_false, getLsbD_or_bit hn, hbase]
          grind
  | false =>
      cases meipPending m.dev.plic with
      | true =>
          simp only [if_true, Bool.false_eq_true, if_false, getLsbD_or_bit hn, hbase]
          grind
      | false =>
          simp only [Bool.false_eq_true, if_false, hbase]
          grind

/-- Behind the global gate the delivery looks for the interrupts that a hart
looks for. -/
theorem hypPendingCause_eq (m : Monitor) : hypPendingCause m =
    if m.shadow.mstatus &&& mstatusMie = 0 then none
    else (hartPending m.shadow.mie (shadowMipRead m)).map (BitVec.ofNat 32) := by
  have hm3 : mipMsip = bit 3 := by decide
  have hm7 : mipMtip = bit 7 := by decide
  have hm11 : mipMeip = bit 11 := by decide
  unfold hypPendingCause
  by_cases hg : m.shadow.mstatus &&& mstatusMie = 0
  · rw [if_pos hg, if_pos hg]
  · rw [if_neg hg, if_neg hg]
    simp only [hm3, hm7, hm11, and_bit_ne_zero (show 11 < 32 by omega),
      and_bit_ne_zero (show 3 < 32 by omega), and_bit_ne_zero (show 7 < 32 by omega)]
    have h11 := shadowMipRead_getLsbD m (n := 11) (by omega)
    have h3 := shadowMipRead_getLsbD m (n := 3) (by omega)
    have h7 := shadowMipRead_getLsbD m (n := 7) (by omega)
    simp only [hartPending, machineInterrupts, List.find?, BitVec.getLsbD_and, h11, h3, h7]
    cases m.shadow.mie.getLsbD 11 <;> cases meipPending m.dev.plic <;>
      cases m.shadow.mie.getLsbD 3 <;> cases m.shadow.mip.getLsbD 3 <;>
      cases m.shadow.mie.getLsbD 7 <;> cases mtipPending m.clint <;> rfl

/-! ## The delivery -/

section Deliver

variable {p : RvExcFrame × Monitor}

/-- With the gate shut nothing is delivered, whatever the privilege. -/
theorem hypDeliverPending_shut (hg : p.2.shadow.mstatus &&& mstatusMie = 0) :
    hypDeliverPending p = p := by
  unfold hypDeliverPending
  rw [hypPendingCause_eq, if_pos hg]

/-- With the gate open the delivery is the hart's. -/
theorem hypDeliverPending_open (hv : p.2.shadow.mtvec ≠ 0)
    (hg : p.2.shadow.mstatus &&& mstatusMie ≠ 0) : hypDeliverPending p = hartDeliver p := by
  unfold hypDeliverPending hartDeliver hartInterrupt
  rw [hypPendingCause_eq, if_neg hg, if_neg (fun h => hg h.2)]
  cases hartPending p.2.shadow.mie (shadowMipRead p.2) with
  | none => rfl
  | some n => exact if_neg hv

theorem hartDeliver_none
    (h : hartInterrupt p.2.guestPriv p.2.shadow.mstatus p.2.shadow.mie (shadowMipRead p.2) = none) :
    hartDeliver p = p := by
  unfold hartDeliver
  rw [h]

/-- A hart in U mode takes an enabled pending interrupt, to M mode. -/
theorem hartDeliver_user (hu : p.2.guestPriv = privU) {n : Nat}
    (hn : hartPending p.2.shadow.mie (shadowMipRead p.2) = some n) : hartDeliver p ≠ p := by
  have hnm : p.2.guestPriv ≠ privM := by
    rw [hu]
    decide
  intro heq
  unfold hartDeliver hartInterrupt at heq
  rw [if_neg (fun h => hnm h.1), hn] at heq
  exact hnm (congrArg (fun r => r.2.guestPriv) heq).symm

/-- With a trap vector set, the delivery is the hart's unless the guest is in U
mode with `mstatus.MIE` clear and an enabled interrupt pending. -/
theorem hypDeliverPending_hart (hv : p.2.shadow.mtvec ≠ 0)
    (hp : p.2.guestPriv = privU ∨ p.2.guestPriv = privM) :
    hypDeliverPending p = hartDeliver p ↔
      p.2.guestPriv = privM ∨ p.2.shadow.mstatus &&& mstatusMie ≠ 0 ∨
        hartPending p.2.shadow.mie (shadowMipRead p.2) = none := by
  by_cases hg : p.2.shadow.mstatus &&& mstatusMie = 0
  · rw [hypDeliverPending_shut hg]
    rcases hp with hu | hm
    · have hnm : p.2.guestPriv ≠ privM := by
        rw [hu]
        decide
      cases hpend : hartPending p.2.shadow.mie (shadowMipRead p.2) with
      | none =>
          have hnone : hartInterrupt p.2.guestPriv p.2.shadow.mstatus p.2.shadow.mie
              (shadowMipRead p.2) = none := by
            rw [hartInterrupt, if_neg (fun h => hnm h.1), hpend]
          exact iff_of_true (hartDeliver_none hnone).symm (.inr (.inr rfl))
      | some n =>
          refine iff_of_false (fun heq => hartDeliver_user hu hpend heq.symm) ?_
          rintro (h | h | h)
          · exact hnm h
          · exact h hg
          · cases h
    · have hnone : hartInterrupt p.2.guestPriv p.2.shadow.mstatus p.2.shadow.mie
          (shadowMipRead p.2) = none := if_pos ⟨hm, hg⟩
      exact iff_of_true (hartDeliver_none hnone).symm (.inl hm)
  · exact iff_of_true (hypDeliverPending_open hv hg) (.inr (.inl hg))

end Deliver

/-- A guest in U mode with its gate open, and a software interrupt. -/
def softPending : RvExcFrame × Monitor :=
  (⟨0x48000200, fun _ => 0, 8, 0⟩,
    { Monitor.boot with
      shadow :=
        { Monitor.boot.shadow with mstatus := 0x8, mie := 0x8, mip := 0x8, mtvec := 0x48000100 }
      guestPriv := privU })

theorem hypDeliverPending_hart_soft : hypDeliverPending softPending = hartDeliver softPending ∧
    (hypDeliverPending softPending).2.shadow.mcause = 0x80000003 :=
  ⟨(hypDeliverPending_hart (by decide) (.inl rfl)).mpr (.inr (.inl (by decide))), by decide +kernel⟩

/-- A guest that enables and raises a software interrupt in M mode with its gate
shut, and then leaves for U mode by `mret`. -/
def leaveShut : List BoardEvent :=
  trapped [csrw 0x305 0x48000100, csrw 0x304 0x8, csrw 0x344 0x8, csrw 0x341 0x48000200,
    csrw 0x300 0] ++ [.exception guestMret]

/-- In U mode an enabled pending software interrupt is not delivered. -/
theorem deliver_shut : ∃ h b, Run boardFire (.boot (worldOf (fun _ => 0) (smallSd true))) h b ∧
    b.pc = .deliver ∧ b.mon.shadow.mtvec ≠ 0 ∧ b.mon.guestPriv = privU ∧
    hypDeliverPending (b.trap.frame, b.mon) = (b.trap.frame, b.mon) ∧
    hypDeliverPending (b.trap.frame, b.mon) ≠ hartDeliver (b.trap.frame, b.mon) := by
  obtain ⟨h, b, hrun, hd⟩ := Run.exists_of_play boardFire
    (.boot (worldOf (fun _ => 0) (smallSd true))) leaveShut
    (fun r => decide (r.2.pc = .deliver ∧ r.2.mon.shadow.mtvec ≠ 0 ∧
      r.2.mon.guestPriv = privU ∧ r.2.mon.shadow.mstatus &&& mstatusMie = 0 ∧
      hartPending r.2.mon.shadow.mie (shadowMipRead r.2.mon) = some 3)) true
    (by decide +kernel)
  obtain ⟨hpc, hv, hu, hg, hpend⟩ := of_decide_eq_true hd
  have hshut := hypDeliverPending_shut (p := (b.trap.frame, b.mon)) hg
  refine ⟨h, b, hrun, hpc, hv, hu, hshut, ?_⟩
  rw [hshut]
  exact (hartDeliver_user (p := (b.trap.frame, b.mon)) hu hpend).symm

end P4Hyp
