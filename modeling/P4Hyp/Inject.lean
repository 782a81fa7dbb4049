import P4Hyp.Hart

/-!
# What a handled trap injects

Injection clears `mstatus.MIE`, behind which the delivery at the end of the trap
looks for an interrupt.  So a trap injects once at most, and an exception that
the monitor hands on is not overwritten by an interrupt.
-/

namespace P4Hyp

section Injected

variable {cause tval : Word} {p : RvExcFrame × Monitor}

@[simp] theorem hypInject_injections :
    (hypInject cause tval p).2.injections = p.2.injections + 1 := rfl

theorem hypInject_gate : (hypInject cause tval p).2.shadow.mstatus &&& mstatusMie = 0 := by
  have hm : mstatusMie = bit 3 := by decide
  have hpp : mstatusMpp.getLsbD 3 = false := by decide
  rw [hm, and_bit_eq_zero (by omega)]
  show ((_ &&& ~~~mstatusMie) &&& ~~~mstatusMpp ||| p.2.guestPriv <<< mstatusMppS).getLsbD 3 = false
  rw [BitVec.getLsbD_or, BitVec.getLsbD_and, hm, getLsbD_and_not_bit (by omega),
    BitVec.getLsbD_shiftLeft]
  simp [mstatusMppS]

theorem hypInject_shut : hypPendingCause (hypInject cause tval p).2 = none :=
  if_pos hypInject_gate

end Injected

/-- The delivery does nothing, or takes an interrupt that is enabled and
pending. -/
theorem hypDeliverPending_cases (p : RvExcFrame × Monitor) :
    (hypDeliverPending p = p ∧ (hypPendingCause p.2 = none ∨ p.2.shadow.mtvec = 0)) ∨
      ∃ n, n < 32 ∧ p.2.shadow.mie.getLsbD n = true ∧ (shadowMipRead p.2).getLsbD n = true ∧
        hypDeliverPending p = hypInject (interruptBit ||| BitVec.ofNat 32 n) 0 p := by
  by_cases hv : p.2.shadow.mtvec = 0
  · left
    refine ⟨?_, .inr hv⟩
    unfold hypDeliverPending
    split
    · rfl
    · exact if_pos hv
  · by_cases hg : p.2.shadow.mstatus &&& mstatusMie = 0
    · left
      exact ⟨hypDeliverPending_shut hg, .inl (if_pos hg)⟩
    · rw [hypDeliverPending_open hv hg]
      cases hpend : hartPending p.2.shadow.mie (shadowMipRead p.2) with
      | none =>
          left
          refine ⟨?_, ?_⟩
          · rw [hartDeliver, hartInterrupt, if_neg (fun h => hg h.2), hpend]
          · rw [hypPendingCause_eq, if_neg hg, hpend]
            exact .inl rfl
      | some n =>
          right
          have hmem : n ∈ machineInterrupts := List.mem_of_find?_eq_some hpend
          have hbit := List.find?_some hpend
          rw [BitVec.getLsbD_and, Bool.and_eq_true] at hbit
          refine ⟨n, ?_, hbit.1, hbit.2, ?_⟩
          · simp only [machineInterrupts, List.mem_cons, List.not_mem_nil, or_false] at hmem
            omega
          · rw [hartDeliver, hartInterrupt, if_neg (fun h => hg h.2), hpend]
            rfl

/-- Where the guest resumes if no interrupt is injected: after an emulated
instruction, at the target of an `mret`, and where it was for a host
interrupt. -/
def resumePc (mem : Mem) (frame : RvExcFrame) (m : Monitor) : Word :=
  if frame.mcause &&& interruptBit ≠ 0 then frame.mepc
  else if frame.mcause = 2 ∧ frame.mtval = 0x30200073 then m.shadow.mepc
  else
    match trapDecode mem (guestTrap frame) with
    | none => frame.mepc
    | some trap => frame.mepc + trap.length

/-- What a handled trap has injected, from `frame` and `m` to `frame'` and
`m'`. -/
structure TrapDelivery (mem : Mem) (frame : RvExcFrame) (m : Monitor) (frame' : RvExcFrame)
    (m' : Monitor) : Prop where
  once : m'.injections = m.injections ∨ m'.injections = m.injections + 1
  exception : ∀ cause tval, handedOn frame = some (cause, tval) →
    m'.injections = m.injections + 1 ∧ m'.shadow.mepc = frame.mepc ∧ m'.shadow.mcause = cause ∧
      m'.shadow.mtval = tval ∧ frame'.mepc = m.shadow.mtvec &&& ~~~0x3
  interrupt : m'.injections = m.injections + 1 → m'.shadow.mcause &&& interruptBit ≠ 0 →
    m'.shadow.mepc = resumePc mem frame m ∧ ∃ n, n < 32 ∧
      m'.shadow.mcause = interruptBit ||| BitVec.ofNat 32 n ∧
        m'.shadow.mie.getLsbD n = true ∧ (shadowMipRead m').getLsbD n = true
  drained : m'.shadow.mtvec ≠ 0 → hypPendingCause m' = none

theorem add_one_ne (x : Word) : x ≠ x + 1 := by
  intro h
  have := congrArg BitVec.toNat h
  rw [BitVec.toNat_add] at this
  have hx := x.isLt
  simp at this
  omega

/-- The delivery after a handler that has injected nothing. -/
theorem trapDelivery_deliver {mem : Mem} {frame frame' r : RvExcFrame} {m m' m₁ : Monitor}
    (hp : (frame', m') = hypDeliverPending (r, m₁)) (hhand : handedOn frame = none)
    (hpc : r.mepc = resumePc mem frame m) (hn : m₁.injections = m.injections) :
    TrapDelivery mem frame m frame' m' := by
  show TrapDelivery mem frame m (frame', m').1 (frame', m').2
  rw [hp]
  rcases hypDeliverPending_cases (r, m₁) with ⟨heq, hdone⟩ | ⟨n, hlt, hie, hip, heq⟩
  · rw [heq]
    refine ⟨.inl hn, ?_, ?_, ?_⟩
    · intro cause tval h
      rw [hhand] at h
      cases h
    · intro h
      exact absurd (hn.symm.trans h) (add_one_ne _)
    · intro hv
      exact hdone.resolve_right hv
  · rw [heq]
    refine ⟨?_, ?_, ?_, ?_⟩
    · right
      rw [hypInject_injections]
      exact congrArg (· + 1) hn
    · intro cause tval h
      rw [hhand] at h
      cases h
    · intro _ _
      exact ⟨hpc, n, hlt, rfl, hie, hip⟩
    · intro _
      exact hypInject_shut

/-- An exception that is handed on is not an interrupt. -/
theorem handedOn_exception {frame : RvExcFrame} {cause tval : Word}
    (h : handedOn frame = some (cause, tval)) :
      frame.mcause = cause ∧ cause &&& interruptBit = 0 := by
  unfold handedOn at h
  split at h
  · rename_i h3
    obtain ⟨rfl, -⟩ := Prod.mk.inj (Option.some.inj h)
    exact ⟨h3, by decide⟩
  · split at h
    · rename_i h57
      split at h
      · obtain ⟨rfl, -⟩ := Prod.mk.inj (Option.some.inj h)
        refine ⟨rfl, ?_⟩
        rcases h57 with h | h
        · rw [h]
          decide
        · rw [h]
          decide
      · cases h
    · split at h
      · rename_i h8
        obtain ⟨rfl, -⟩ := Prod.mk.inj (Option.some.inj h)
        exact ⟨h8, by decide⟩
      · cases h

/-- After an exception that was handed on, nothing is delivered. -/
theorem trapDelivery_injected {mem : Mem} {frame frame' : RvExcFrame} {m m' : Monitor}
    {cause tval : Word} (hp : (frame', m') = hypDeliverPending (hypInject cause tval (frame, m)))
    (hhand : handedOn frame = some (cause, tval)) : TrapDelivery mem frame m frame' m' := by
  show TrapDelivery mem frame m (frame', m').1 (frame', m').2
  rw [hp, hypDeliverPending_shut hypInject_gate]
  refine ⟨.inr rfl, ?_, ?_, ?_⟩
  · intro cause' tval' h
    obtain ⟨rfl, rfl⟩ := Prod.mk.inj (Option.some.inj (hhand.symm.trans h))
    exact ⟨rfl, rfl, rfl, rfl, rfl⟩
  · intro _ hbit
    exact absurd (handedOn_exception hhand).2 hbit
  · intro _
    exact hypInject_shut

/-! ## The whole trap -/

theorem regWrite_mepc (i : Nat) (v : Word) (frame : RvExcFrame) :
    (regWrite i v frame).mepc = frame.mepc := by
  unfold regWrite
  split <;> rfl

theorem hypPollHostDevices_injections (m : Monitor) :
    (hypPollHostDevices m).injections = m.injections := by
  show (pollUart (pollAlarm m)).injections = m.injections
  rw [pollUart_eq, pollAlarm_eq]

theorem hostSteps_injections (es : List HostEvent) (m : Monitor) :
    (es.foldl hostStep m).injections = m.injections := by
  induction es generalizing m with
  | nil => rfl
  | cons e es ih =>
      rw [List.foldl_cons, ih]
      cases e <;> rfl

theorem wfiLoop_injections {m m' : Monitor} {sleeps : List (List HostEvent)}
    (h : wfiLoop m sleeps = some m') : m'.injections = m.injections := by
  induction sleeps generalizing m with
  | nil =>
      unfold wfiLoop at h
      split at h
      · obtain rfl := Option.some.inj h
        rfl
      · cases h
  | cons es sleeps ih =>
      unfold wfiLoop at h
      split at h
      · obtain rfl := Option.some.inj h
        rfl
      · rw [ih h, hypPollHostDevices_injections, hostSteps_injections]

theorem hypervisorWfi_cases (m : Monitor) : hypervisorWfi m = (some .advance, m) ∨
    hypervisorWfi m = (none, { m with hypInWfi := true }) := by
  unfold hypervisorWfi
  dsimp only
  split
  · exact .inl rfl
  · exact .inr rfl

/-- A trap that ends by skipping an instruction. -/
theorem trapExit_advance {trap : GuestTrap} {m : Monitor} {p : RvExcFrame × Monitor}
    (h : trapExit .advance trap m = (true, p)) : p = hypDeliverPending
      ({ trap.frame with mepc := trap.frame.mepc + trap.length }, m) := by
  unfold trapExit trapResume at h
  by_cases hl : trap.length = 0
  · simp only [if_pos hl] at h
    cases h
  · simp only [if_neg hl] at h
    exact (Prod.mk.inj h).2.symm

theorem resumePc_advance {mem : Mem} {frame : RvExcFrame} {m : Monitor} {trap : GuestTrap}
    (hc : ¬ frame.mcause &&& interruptBit ≠ 0)
    (hi : ¬ (frame.mcause = 2 ∧ frame.mtval = 0x30200073))
    (hd : trapDecode mem (guestTrap frame) = some trap) :
    resumePc mem frame m = frame.mepc + trap.length := by
  rw [resumePc, if_neg hc, if_neg hi, hd]

/-- The ways in which a handled trap ends, each with the delivery that follows. -/
inductive TrapEnd (mem : Mem) (frame : RvExcFrame) (m : Monitor) : RvExcFrame × Monitor → Prop
  | host (hint : frame.mcause &&& interruptBit ≠ 0) :
      TrapEnd mem frame m (hypDeliverPending (frame, hypPollHostDevices m))
  | injected {cause tval} (hint : ¬ frame.mcause &&& interruptBit ≠ 0)
      (hr : handedOn frame = some (cause, tval)) :
      TrapEnd mem frame m (hypDeliverPending (hypInject cause tval (frame, m)))
  | mret (hint : ¬ frame.mcause &&& interruptBit ≠ 0) (hr : handedOn frame = none)
      (hc : frame.mcause = 2) (hi : frame.mtval = 0x30200073) :
      TrapEnd mem frame m (hypDeliverPending ({ frame with mepc := m.shadow.mepc }, m.mret))
  | advance {trap f m₁} (hint : ¬ frame.mcause &&& interruptBit ≠ 0) (hr : handedOn frame = none)
      (hi : ¬ (frame.mcause = 2 ∧ frame.mtval = 0x30200073))
      (hd : trapDecode mem (guestTrap frame) = some trap)
      (hf : ∃ v, f = regWrite (destination frame.mcause trap.encoding) v frame)
      (hn : m₁.injections = m.injections) :
      TrapEnd mem frame m (hypDeliverPending ({ f with mepc := f.mepc + trap.length }, m₁))

/-- A `wfi` has no destination. -/
theorem destination_wfi {mem : Mem} {frame : RvExcFrame} {trap : GuestTrap} (hc : frame.mcause = 2)
    (hi : frame.mtval = 0x10500073) (hd : trapDecode mem (guestTrap frame) = some trap) :
    destination frame.mcause trap.encoding = 0 := by
  obtain ⟨trap', hd', he, -⟩ := trapDecode_illegal mem hc
  obtain rfl := Option.some.inj (hd.symm.trans hd')
  rw [destination, if_pos hc, he, hi]
  exact if_pos (by decide)

theorem hypervisor_end {running : Bool} {mem : Mem} {sd : Sd} {sleeps : List (List HostEvent)}
    {frame : RvExcFrame} {m : Monitor} {p : RvExcFrame × Monitor}
    (h : hypervisor running mem sd sleeps frame m = some (true, p)) : TrapEnd mem frame m p := by
  unfold hypervisor at h
  split at h
  · cases h
  · split at h
    · rename_i hint
      obtain ⟨-, rfl⟩ := Prod.mk.inj (Option.some.inj h)
      exact .host hint
    · rename_i hint
      have hcase := hypervisorTrap_case mem sd frame m
      generalize hypervisorTrap mem sd (guestTrap frame) m = res at h hcase
      cases hcase with
      | unhandled => cases h
      | injected hr hv =>
          obtain ⟨-, rfl⟩ := Prod.mk.inj (Option.some.inj h)
          exact .injected hint hr
      | @mret trap hr hc hi hd h0 =>
          obtain ⟨-, rfl⟩ := Prod.mk.inj (Option.some.inj h)
          exact .mret hint hr hc hi
      | @wfi trap hr hc hi hd =>
          have hni : ¬ (frame.mcause = 2 ∧ frame.mtval = 0x30200073) := by
            rintro ⟨-, hi'⟩
            rw [hi] at hi'
            revert hi'
            decide
          have hf : ∃ v, trap.frame =
              regWrite (destination frame.mcause trap.encoding) v frame := by
            rw [destination_wfi hc hi hd]
            exact ⟨0, (trapDecode_frame hd).1⟩
          rcases hypervisorWfi_cases m with hw | hw
          · rw [hw] at h
            rw [trapExit_advance (Option.some.inj h)]
            exact .advance hint hr hni hd hf rfl
          · rw [hw] at h
            obtain ⟨m₁, hl, he⟩ := Option.map_eq_some_iff.mp h
            have hn := wfiLoop_injections hl
            rw [trapExit_advance he]
            exact .advance hint hr hni hd hf hn
      | @emulated trap v m₁ hr hi hd hn =>
          rw [trapExit_advance (Option.some.inj h)]
          have hend := TrapEnd.advance hint hr hi hd ⟨v, rfl⟩ hn
          exact hend

/-- A handled trap injects once at most, keeps the exception that it hands on,
saves the pc at which the guest would have resumed, and leaves nothing to
deliver. -/
theorem hypervisor_delivery {running : Bool} {mem : Mem} {sd : Sd}
    {sleeps : List (List HostEvent)} {frame frame' : RvExcFrame} {m m' : Monitor}
    (h : hypervisor running mem sd sleeps frame m = some (true, frame', m')) :
    TrapDelivery mem frame m frame' m' := by
  have hend := hypervisor_end h
  generalize hp : (frame', m') = p at hend
  cases hend with
  | host hint =>
      have hhand : handedOn frame = none := by
        cases hr : handedOn frame with
        | none => rfl
        | some ct =>
            obtain ⟨hm, h0⟩ := handedOn_exception hr
            rw [hm] at hint
            exact absurd h0 hint
      exact trapDelivery_deliver hp hhand (if_pos hint).symm (hypPollHostDevices_injections m)
  | injected hint hr => exact trapDelivery_injected hp hr
  | mret hint hr hc hi =>
      have hpc : m.shadow.mepc = resumePc mem frame m := by
        rw [resumePc, if_neg hint, if_pos ⟨hc, hi⟩]
      exact trapDelivery_deliver hp hr hpc rfl
  | @advance trap f m₁ hint hr hi hd hf hn =>
      refine trapDelivery_deliver hp hr ?_ hn
      obtain ⟨v, rfl⟩ := hf
      rw [resumePc_advance hint hi hd]
      exact congrArg (· + trap.length) (regWrite_mepc _ _ _)

/-- The guest opens its gate, behind which a software interrupt is pending. -/
theorem hypervisor_delivery_opened : ∃ frame' m',
    hypervisor true (fun _ => 0) (smallSd true) [] (csrw 0x300 0x8)
        { softPending.2 with shadow := { softPending.2.shadow with mstatus := 0 } } =
      some (true, frame', m') ∧
    m'.injections = 1 ∧ m'.shadow.mcause = 0x80000003 ∧ m'.shadow.mepc = 0x48000004 ∧
    TrapDelivery (fun _ => 0) (csrw 0x300 0x8)
      { softPending.2 with shadow := { softPending.2.shadow with mstatus := 0 } } frame' m' := by
  have hrun : (hypervisor true (fun _ => 0) (smallSd true) [] (csrw 0x300 0x8)
      { softPending.2 with shadow := { softPending.2.shadow with mstatus := 0 } }).map
        (fun r => (r.1, r.2.2.injections, r.2.2.shadow.mcause, r.2.2.shadow.mepc)) =
      some (true, 1, 0x80000003, 0x48000004) := by
    decide +kernel
  obtain ⟨⟨b, frame', m'⟩, hr, he⟩ := Option.map_eq_some_iff.mp hrun
  simp only [Prod.mk.injEq] at he
  obtain ⟨rfl, hn, hc, hpc⟩ := he
  exact ⟨frame', m', hr, hn, hc, hpc, hypervisor_delivery hr⟩

end P4Hyp
