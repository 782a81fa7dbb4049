import P4Hyp.Board

/-!
# What wakes core 1

Core 0 reports a completion by setting `s_irq`, which interrupts nobody: core 1
sees it at its next poll, and polls only after a host interrupt.  So a
completion is sure to be noticed only while the timer's alarm or the UART is
going to interrupt core 1, or a poll has yet to look at `s_irq`.
-/

namespace P4Hyp

/-- A host interrupt is pending on core 1, or the alarm is going to raise one. -/
def hostArmed (m : Monitor) : Bool :=
  m.clint.systimer.alarmEnabled && m.clint.systimer.intEnabled &&
    decide (m.clint.systimer.target < hypMtimeMax) || hostLine m

/-- Core 1 is in a poll that has yet to test `s_irq`, or to clear it. -/
def Pc.willLook : Pc → Bool
  | .alarm _ | .uart _ | .blk _ .guest | .blk _ .tested => true
  | _ => false

/-- While core 1 runs the guest or sleeps, a reported completion has a host
interrupt that leads to a poll. -/
def Noticed (b : Board) : Prop :=
  b.mon.dev.sIrq = true → b.pc = .guest ∨ b.pc = .asleep → hostArmed b.mon = true

/-- The store to a CLINT register, by offset and value, that an exception with
this frame stands for. -/
def clintStore (mem : Mem) (frame : RvExcFrame) : Option (Word × Word) :=
  if (frame.mcause = 5 ∨ frame.mcause = 7) ∧ mmioFind frame.mtval = some .clint then
    match trapDecode mem (guestTrap frame) with
    | none => none
    | some trap =>
        match decodeAccess trap.encoding with
        | none => none
        | some access =>
            if access.isStore then
              some (trap.tval - MmioDevice.clint.base,
                regRead trap.frame (field trap.encoding 20 5))
            else none
  else none

/-- The steps considered: core 0 sets `s_irq` only while core 1 is going to be
interrupted or to look, and the guest does not take its deadline out of the
alarm's reach while `s_irq` is set, unless the UART is interrupting. -/
def KeepsNoticed (b : Board) : BoardEvent → Prop
  | .core0 => b.core0 = .raise → hostArmed b.mon = true ∨ b.pc.willLook = true
  | .exception frame => b.mon.dev.sIrq = true → b.mon.uart0.rxInt = false →
      ∀ p ∈ clintStore b.world.mem frame, ∀ mtimecmp ∈
        mtimecmpWrite p.1 p.2 b.mon.clint.shadowMtimecmp, mtimecmp < hypMtimeMax
  | _ => True

-- The search for an instance may take the two `∀` over all words instead.
instance (b : Board) (frame : RvExcFrame) :
    Decidable (∀ p ∈ clintStore b.world.mem frame, ∀ mtimecmp ∈
      mtimecmpWrite p.1 p.2 b.mon.clint.shadowMtimecmp, mtimecmp < hypMtimeMax) :=
  have (p : Word × Word) := Option.decidableForallMem
    (p := (· < hypMtimeMax)) (mtimecmpWrite p.1 p.2 b.mon.clint.shadowMtimecmp)
  Option.decidableForallMem _

instance (b : Board) (e : BoardEvent) : Decidable (KeepsNoticed b e) := by
  unfold KeepsNoticed
  split <;> infer_instance

/-! ## What a trap leaves alone -/

/-- The same host interrupts and the same `s_irq`. -/
structure SameWires (m m' : Monitor) : Prop where
  sIrq : m'.dev.sIrq = m.dev.sIrq
  rxInt : m'.uart0.rxInt = m.uart0.rxInt
  clint : m'.clint = m.clint

namespace SameWires

theorem refl (m : Monitor) : SameWires m m := ⟨rfl, rfl, rfl⟩

theorem trans {m m' m'' : Monitor} (h : SameWires m m') (h' : SameWires m' m'') :
    SameWires m m'' :=
  ⟨h'.sIrq.trans h.sIrq, h'.rxInt.trans h.rxInt, h'.clint.trans h.clint⟩

theorem armed {m m' : Monitor} (h : SameWires m m') : hostArmed m' = hostArmed m := by
  unfold hostArmed hostLine
  rw [h.clint, h.rxInt]

end SameWires

theorem sameWires_hypInject (cause tval : Word) (fm : RvExcFrame × Monitor) :
    SameWires fm.2 (hypInject cause tval fm).2 := ⟨rfl, rfl, rfl⟩

theorem sameWires_hypDeliverPending (fm : RvExcFrame × Monitor) :
    SameWires fm.2 (hypDeliverPending fm).2 := by
  unfold hypDeliverPending
  split
  · exact .refl _
  · split
    · exact .refl _
    · exact sameWires_hypInject _ _ fm

theorem sameWires_hypervisorMret (trap : GuestTrap) (m : Monitor) :
    SameWires m (hypervisorMret trap m).2.2 := by
  unfold hypervisorMret
  dsimp only
  split
  · exact ⟨rfl, rfl, rfl⟩
  · exact ⟨rfl, rfl, rfl⟩

theorem sameWires_hypervisorWfi (m : Monitor) : SameWires m (hypervisorWfi m).2 := by
  unfold hypervisorWfi
  dsimp only
  split
  · exact .refl _
  · exact ⟨rfl, rfl, rfl⟩

theorem sameWires_set (v : Word) (m : Monitor) (slot : Slot) : SameWires m (slot.set v m) := by
  cases slot <;> exact ⟨rfl, rfl, rfl⟩

theorem sameWires_csrAccess {csr : Word} {funct3 rs1 : Nat} {src old : Word} {m m' : Monitor}
    (h : csrAccess csr funct3 rs1 src m = some (old, m')) : SameWires m m' := by
  unfold csrAccess at h
  dsimp only at h
  split at h
  · obtain ⟨-, rfl⟩ := Prod.mk.inj (Option.some.inj h)
    split
    · exact ⟨rfl, rfl, rfl⟩
    · exact .refl _
  · split at h
    · obtain ⟨-, rfl⟩ := Prod.mk.inj (Option.some.inj h)
      split
      · exact sameWires_set _ _ _
      · exact .refl _
    · split at h
      · obtain ⟨-, rfl⟩ := Prod.mk.inj (Option.some.inj h)
        exact .refl _
      · cases h

theorem sameWires_hypervisorCsr (mem : Mem) (trap : GuestTrap) (m : Monitor) :
    SameWires m (hypervisorCsr mem trap m).2.2 := by
  unfold hypervisorCsr
  cases trapDecode mem trap with
  | none => exact .refl _
  | some trap =>
      dsimp only
      split
      · exact .refl _
      · split
        · split
          · exact sameWires_hypervisorMret _ _
          · split
            · exact sameWires_hypervisorWfi _
            · exact .refl _
        · split
          · exact .refl _
          · split
            · exact .refl _
            · rename_i hacc
              exact sameWires_csrAccess hacc

theorem sameWires_injectOr (cause tval : Word) (trap : GuestTrap) (m : Monitor) :
    SameWires m (injectOr cause tval trap m).2.2 := by
  unfold injectOr
  split
  · exact .refl _
  · exact sameWires_hypInject _ _ (trap.frame, m)

/-! ## Device accesses -/

theorem uartRegRead_uart0 (offset : Word) (c : Console) :
    (uartRegRead offset c).2.uart0 = c.uart0 := by
  simp only [uartRegRead, apply_ite Prod.snd, apply_ite Console.uart0, Console.reeval, ite_self]

theorem uartRegWrite_rxInt (offset : Word) (value : Byte) (c : Console) :
    (uartRegWrite offset value c).uart0.rxInt = c.uart0.rxInt := by
  have hsend : (uartSend value c).uart0.rxInt = c.uart0.rxInt := by
    simp only [uartSend, apply_ite Console.uart0, apply_ite Uart0.rxInt, ite_self]
  simp only [uartRegWrite, Console.reeval, apply_ite Console.uart0, apply_ite Uart0.rxInt, hsend,
    ite_self]

theorem uartRead_uart0 (offset : Word) (width : Nat) (c : Console) :
    (uartRead offset width c).2.uart0 = c.uart0 :=
  uartRead_keeps (I := fun c' => c'.uart0 = c.uart0)
    (fun offset c' h => (uartRegRead_uart0 offset c').trans h) rfl offset width

theorem uartWrite_rxInt (offset value : Word) (width : Nat) (c : Console) :
    (uartWrite offset value width c).uart0.rxInt = c.uart0.rxInt :=
  uartWrite_keeps (I := fun c' => c'.uart0.rxInt = c.uart0.rxInt)
    (fun offset value c' h => (uartRegWrite_rxInt offset value c').trans h) rfl offset value width

theorem hypVirtioBlkWrite_sIrq (ready : Bool) (offset value : Word) (d : Devices) :
    (hypVirtioBlkWrite ready offset value d).sIrq = d.sIrq := by
  unfold hypVirtioBlkWrite
  cases VirtioMmio.ofOffset offset with
  | none => rfl
  | some r =>
      cases r with
      | status =>
          simp only [VirtioMmio.write]
          split
          · rfl
          · rfl
      | _ => rfl

theorem sameWires_read (sd : Sd) (offset : Word) (width : Nat) (m : Monitor) (device : MmioDevice) :
    SameWires m (device.read sd offset width m).2 := by
  cases device with
  | clint => exact .refl _
  | uart => exact ⟨rfl, congrArg Uart0.rxInt (uartRead_uart0 offset width m.console), rfl⟩
  | plic => exact ⟨rfl, rfl, rfl⟩
  | vblk => exact .refl _

theorem sameWires_write (sd : Sd) (offset value : Word) (width : Nat) (m : Monitor)
    {device : MmioDevice} (hd : device ≠ .clint) :
    SameWires m (device.write sd offset value width m) := by
  cases device with
  | clint => exact absurd rfl hd
  | uart => exact ⟨rfl, uartWrite_rxInt offset value width m.console, rfl⟩
  | plic => exact ⟨rfl, rfl, rfl⟩
  | vblk => exact ⟨hypVirtioBlkWrite_sIrq _ _ _ _, rfl, rfl⟩

/-- An exception is a store to the CLINT, or leaves the wires alone. -/
theorem hypervisorTrap_wires (mem : Mem) (sd : Sd) (frame : RvExcFrame) (m : Monitor) :
    (∃ p ∈ clintStore mem frame, (hypervisorTrap mem sd (guestTrap frame) m).2.2 =
        { m with clint := clintWrite p.1 p.2 m.clint }) ∨
      SameWires m (hypervisorTrap mem sd (guestTrap frame) m).2.2 := by
  unfold hypervisorTrap
  by_cases h2 : (guestTrap frame).cause = 2
  · rw [if_pos h2]
    exact .inr (sameWires_hypervisorCsr _ _ _)
  · rw [if_neg h2]
    by_cases h3 : (guestTrap frame).cause = 3
    · rw [if_pos h3]
      exact .inr (sameWires_injectOr _ _ _ _)
    · rw [if_neg h3]
      by_cases h57 : (guestTrap frame).cause = 5 ∨ (guestTrap frame).cause = 7
      · rw [if_pos h57]
        cases hf : mmioFind (guestTrap frame).tval with
        | none => exact .inr (sameWires_injectOr _ _ _ _)
        | some device =>
            simp only [hypervisorMmio, hf]
            cases hd : trapDecode mem (guestTrap frame) with
            | none => exact .inr (.refl _)
            | some trap =>
                cases ha : decodeAccess trap.encoding with
                | none => 
                    simp only [ha]
                    exact .inr (.refl _)
                | some access =>
                    simp only [ha]
                    cases hs : access.isStore with
                    | false => exact .inr (sameWires_read _ _ _ _ _)
                    | true =>
                        by_cases hc : device = .clint
                        · subst hc
                          refine .inl ⟨(trap.tval - MmioDevice.clint.base,
                            regRead trap.frame (field trap.encoding 20 5)), ?_, rfl⟩
                          have hcond : (frame.mcause = 5 ∨ frame.mcause = 7) ∧
                              mmioFind frame.mtval = some .clint := ⟨h57, hf⟩
                          simp only [clintStore, if_pos hcond, hd, ha, hs, if_true]
                          exact rfl
                        · exact .inr (sameWires_write _ _ _ _ _ hc)
      · rw [if_neg h57]
        split
        · exact .inr (sameWires_injectOr _ _ _ _)
        · exact .inr (.refl _)

/-! ## The invariant -/

/-- The alarm's registers agree, and a reported completion is noticed wherever
core 1 is. -/
structure NoticedInv (b : Board) : Prop where
  alarm : AlarmOk b.mon.clint.systimer
  noticed : b.mon.dev.sIrq = true → hostArmed b.mon = true ∨ b.pc.willLook = true

theorem NoticedInv.done {b : Board} (hi : NoticedInv b) : Noticed b := by
  intro hs hpc
  refine (hi.noticed hs).resolve_right ?_
  rcases hpc with hpc | hpc
  · rw [hpc]
    exact Bool.false_ne_true
  · rw [hpc]
    exact Bool.false_ne_true

/-- A step of core 1 that keeps the wires, from a place where it has no more to
look. -/
theorem NoticedInv.keep {b b' : Board} (hi : NoticedInv b) (hw : SameWires b.mon b'.mon)
    (hpc : b.pc.willLook = true → b'.pc.willLook = true) : NoticedInv b' := by
  refine ⟨?_, fun hs => ?_⟩
  · rw [hw.clint]
    exact hi.alarm
  · rw [hw.armed]
    rw [hw.sIrq] at hs
    exact (hi.noticed hs).imp_right hpc

/-- Where it has no more to look, keeping the wires is enough. -/
theorem NoticedInv.keep_looked {b b' : Board} (hi : NoticedInv b) (hpc : b.pc.willLook = false)
    (hw : SameWires b.mon b'.mon) : NoticedInv b' := by
  refine hi.keep hw fun h => ?_
  rw [hpc] at h
  cases h

/-- Only the last step of `blk_service` sets `s_irq`. -/
theorem core0Step_sIrq {s : Sys} (h : (core0Step s).dev.sIrq = true) :
    s.dev.sIrq = true ∨ s.core0 = .raise := by
  cases hpc : s.core0 with
  | raise => exact .inr rfl
  | idle | enter =>
      simp only [core0Step, hpc] at h
      split at h
      · exact .inl h
      · exact .inl h
  | header r published head =>
      simp only [core0Step, hpc] at h
      split at h
      · exact .inl h
      · exact .inl h
  | walk r published head k =>
      simp only [core0Step, hpc] at h
      split at h
      · exact .inl h
      · exact .inl h
  | _ =>
      simp only [core0Step, hpc] at h
      exact .inl h

theorem noticedInv_core0 {b : Board} (hi : NoticedInv b) (hk : KeepsNoticed b .core0) :
    NoticedInv (boardCore0 b) := by
  refine ⟨hi.alarm, fun hs => ?_⟩
  show hostArmed b.mon = true ∨ b.pc.willLook = true
  rcases core0Step_sIrq (s := b.sys) hs with hs | hr
  · exact hi.noticed hs
  · exact hk hr

/-- A deadline that the alarm can reach is an armed alarm. -/
theorem armed_hypArmTimer {m : Monitor} (h : m.clint.shadowMtimecmp < hypMtimeMax) :
    hostArmed { m with clint := hypArmTimer m.clint } = true := by
  rw [hypArmTimer_on (BitVec.not_le.mpr h)]
  unfold hostArmed
  simp only [Systimer.arm, Bool.true_and, Bool.or_eq_true]
  exact .inl (decide_eq_true h)

theorem noticedInv_exception {b : Board} {frame : RvExcFrame} (hi : NoticedInv b)
    (hpc : b.pc = .guest) (hk : KeepsNoticed b (.exception frame)) :
    NoticedInv (boardException frame b) := by
  have hmon : (boardException frame b).mon =
      (hypervisorTrap b.world.mem b.world.sd (guestTrap frame) b.mon).2.2 := by
    unfold boardException
    split
    · rename_i hr
      rw [hr]
      unfold trapEnd
      split
      · rfl
      · rfl
    · rename_i hr
      rw [hr]
  rcases hypervisorTrap_wires b.world.mem b.world.sd frame b.mon with ⟨p, hp, hst⟩ | hw
  · rw [hst] at hmon
    refine ⟨?_, fun hs => .inl ?_⟩
    · rw [hmon]
      exact alarmOk_clintWrite hi.alarm _ _
    · rw [hmon] at hs ⊢
      have hs : b.mon.dev.sIrq = true := hs
      have hold : hostArmed b.mon = true := by
        refine (hi.noticed hs).resolve_right ?_
        rw [hpc]
        exact Bool.false_ne_true
      cases hrx : b.mon.uart0.rxInt with
      | true => simp only [hostArmed, hostLine, hrx, Bool.or_true]
      | false =>
          unfold clintWrite
          split
          · rename_i t ht
            exact armed_hypArmTimer (m := { b.mon with clint := { b.mon.clint with shadowMtimecmp := t } })
              (hk hs hrx p hp t ht)
          · exact hold
  · rw [← hmon] at hw
    exact hi.keep_looked (by rw [hpc]; rfl) hw

theorem pollUart_sIrq (m : Monitor) :
    (pollUart m).dev.sIrq = m.dev.sIrq ∧ (pollUart m).clint = m.clint := by
  rw [pollUart_eq]
  exact ⟨rfl, rfl⟩

/-- `hyp_virtio_blk_poll` clears `s_irq` where it has seen it set, and does so before it returns. -/
theorem noticedInv_poll {b b' : Board} (hi : NoticedInv b) {c : Caller} {k : Core1}
    (hpc : b.pc = .blk c k) (hf : boardCore1 b = some b') : NoticedInv b' := by
  simp only [boardCore1, hpc] at hf
  obtain rfl := Option.some.inj hf
  refine ⟨hi.alarm, ?_⟩
  cases k with
  | guest =>
      cases hs : b.mon.dev.sIrq with
      | true =>
          intro _
          right
          simp only [pollStep, Board.sys, hs, if_true, reduceCtorEq, if_false]
          rfl
      | false =>
          intro h
          simp only [pollStep, Board.sys, hs, Bool.false_eq_true, if_false] at h
  | tested =>
      intro h
      simp only [pollStep] at h
      cases h
  | cleared =>
      intro h
      simp only [pollStep] at h
      have hold := hi.noticed h
      rw [hpc] at hold
      exact .inl (hold.resolve_right Bool.false_ne_true)

theorem noticedInv_core1 {b b' : Board} (hi : NoticedInv b) (hf : boardCore1 b = some b') :
    NoticedInv b' := by
  cases hpc : b.pc with
  | guest =>
      simp only [boardCore1, hpc] at hf
      cases hf
  | panic =>
      simp only [boardCore1, hpc] at hf
      cases hf
  | alarm c =>
      simp only [boardCore1, hpc] at hf
      obtain rfl := Option.some.inj hf
      refine ⟨?_, fun _ => .inr rfl⟩
      show AlarmOk (pollAlarm b.mon).clint.systimer
      unfold pollAlarm
      split
      · exact alarmOk_disarm _
      · exact hi.alarm
  | uart c =>
      simp only [boardCore1, hpc] at hf
      obtain rfl := Option.some.inj hf
      refine ⟨?_, fun _ => .inr rfl⟩
      show AlarmOk (pollUart b.mon).clint.systimer
      rw [(pollUart_sIrq b.mon).2]
      exact hi.alarm
  | blk c k => exact noticedInv_poll hi hpc hf
  | reeval c =>
      simp only [boardCore1, hpc] at hf
      obtain rfl := Option.some.inj hf
      exact hi.keep_looked (by rw [hpc]; rfl) ⟨rfl, rfl, rfl⟩
  | deliver =>
      simp only [boardCore1, hpc] at hf
      obtain rfl := Option.some.inj hf
      exact hi.keep_looked (by rw [hpc]; rfl) (sameWires_hypDeliverPending (b.trap.frame, b.mon))
  | wake =>
      simp only [boardCore1, hpc] at hf
      split at hf
      · obtain rfl := Option.some.inj hf
        have hw : SameWires b.mon
            (trapEnd .advance b.trap { b with mon := { b.mon with hypInWfi := false } }).mon := by
          unfold trapEnd
          split
          · exact ⟨rfl, rfl, rfl⟩
          · exact ⟨rfl, rfl, rfl⟩
        exact hi.keep_looked (by rw [hpc]; rfl) hw
      · obtain rfl := Option.some.inj hf
        exact hi.keep_looked (by rw [hpc]; rfl) (.refl _)
  | asleep =>
      simp only [boardCore1, hpc] at hf
      split at hf
      · obtain rfl := Option.some.inj hf
        exact ⟨hi.alarm, fun _ => .inr rfl⟩
      · cases hf

theorem hostArmed_tick {m : Monitor} (h : hostArmed m = true) (n : Nat) :
    hostArmed { m with clint := { m.clint with systimer := m.clint.systimer.tick n } } = true := by
  simp only [hostArmed, hostLine, Systimer.line, Systimer.tick, Bool.or_eq_true, Bool.and_eq_true]
    at h ⊢
  rcases h with h | ⟨hf, hi⟩ | hr
  · exact .inl h
  · exact .inr (.inl ⟨.inl hf, hi⟩)
  · exact .inr (.inr hr)

/-- In every run in which core 0 reports completions only while core 1 is going
to be interrupted or to look, and the guest keeps its deadline within the alarm's
reach while one is reported, every completion is noticed. -/
theorem noticed_board {w : World} {h : List (Board × BoardEvent)} {b : Board}
    (hrun : Run boardFire (.boot w) h b) (hC : Run.Meets KeepsNoticed h) : Noticed b := by
  refine NoticedInv.done ?_
  have hstart : NoticedInv (.boot w) := by
    refine ⟨?_, fun hs => ?_⟩
    · rintro (ha | hf)
      · cases ha
      · cases hf
    · cases hs
  refine Run.stateInvariant KeepsNoticed NoticedInv hstart ?_ hrun hC
  intro b e b' hi hk hf
  cases e with
  | core0 =>
      obtain rfl := Option.some.inj hf
      exact noticedInv_core0 hi hk
  | core1 => exact noticedInv_core1 hi hf
  | exception frame =>
      simp only [boardFire] at hf
      split at hf
      · rename_i hpc
        obtain rfl := Option.some.inj hf
        exact noticedInv_exception hi hpc.1 hk
      · cases hf
  | hostIrq frame =>
      simp only [boardFire] at hf
      split at hf
      · obtain rfl := Option.some.inj hf
        exact ⟨hi.alarm, fun _ => .inr rfl⟩
      · cases hf
  | store a n f =>
      simp only [boardFire] at hf
      split at hf
      · obtain rfl := Option.some.inj hf
        exact hi.keep (.refl _) id
      · cases hf
  | tick n =>
      obtain rfl := Option.some.inj hf
      exact ⟨alarmOk_tick hi.alarm n,
        fun hs => (hi.noticed hs).imp_left fun ha => hostArmed_tick ha n⟩
  | receive c cs =>
      obtain rfl := Option.some.inj hf
      refine ⟨hi.alarm, fun _ => .inl ?_⟩
      simp only [hostArmed, hostLine, Bool.or_true]
  | sent room =>
      obtain rfl := Option.some.inj hf
      exact hi.keep ⟨rfl, rfl, rfl⟩ id

/-- The guest offers a request and sleeps; core 0 serves it. -/
def sleepAndServe (mie : Word) : List BoardEvent :=
  trapped (guestSetUp ++ [csrw 0x304 mie, guestWfi]) ++ List.replicate 14 .core0

/-- The sleep of a guest that has set a deadline is going to end. -/
theorem noticed_board_timer : ∃ h b, Run boardFire (.boot guestWorld) h b ∧ b.pc = .asleep ∧
    b.mon.dev.sIrq = true ∧ Noticed b := by
  obtain ⟨h, b, hrun, hd⟩ := Run.exists_of_play boardFire (.boot guestWorld)
    (trapped [guestSw 0x02004000 1000, guestSw 0x02004004 0] ++ sleepAndServe 0x80)
    (fun r => decide (r.2.pc = .asleep ∧ r.2.mon.dev.sIrq = true ∧
      Run.Meets KeepsNoticed r.1)) true (by decide +kernel)
  obtain ⟨hpc, hs, hmeets⟩ := of_decide_eq_true hd
  exact ⟨h, b, hrun, hpc, hs, noticed_board hrun hmeets⟩

/-- A guest that waits for the device alone sleeps in `hypervisor_wfi` with the
completion reported and no host interrupt to come. -/
theorem completion_stranded : ∃ h b, Run boardFire (.boot guestWorld) h b ∧ b.pc = .asleep ∧
    b.mon.dev.sIrq = true ∧ hostArmed b.mon = false ∧ ¬ Noticed b := by
  obtain ⟨h, b, hrun, hd⟩ := Run.exists_of_play boardFire (.boot guestWorld)
    (sleepAndServe 0x800)
    (fun r => decide (r.2.pc = .asleep ∧ r.2.mon.dev.sIrq = true ∧
      hostArmed r.2.mon = false)) true (by decide +kernel)
  obtain ⟨hpc, hs, ha⟩ := of_decide_eq_true hd
  refine ⟨h, b, hrun, hpc, hs, ha, fun hn => ?_⟩
  have harmed := hn hs (.inr hpc)
  rw [ha] at harmed
  cases harmed

end P4Hyp
