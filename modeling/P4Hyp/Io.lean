import P4Hyp.Lib.Run
import P4Hyp.Mmio
import P4Hyp.VirtioBlk.Chain

/-!
# Core 1's devices over time

What the guest does to its devices, what the monitor's polls do, and what reaches
them from outside, in any order.
-/

namespace P4Hyp

inductive IoEvent
  /-- The guest loads from a device window. -/
  | load (device : MmioDevice) (offset : Word) (width : Nat)
  | store (device : MmioDevice) (offset value : Word) (width : Nat)
  | poll
  | host (e : HostEvent)

def ioFire (sd : Sd) (m : Monitor) : IoEvent → Option Monitor
  | .load device offset width => some (device.read sd offset width m).2
  | .store device offset value width => some (device.write sd offset value width m)
  | .poll => some (hypPollHostDevices m)
  | .host e => some (hostStep m e)

/-! ## The timer -/

/-- A deadline that the counter can reach has been reached, or has the alarm set
to it; for any other the alarm is off. -/
def DeadlineKept (c : Clint) : Prop :=
  (hypMtimeMax ≤ c.shadowMtimecmp ∧ c.systimer.alarmEnabled = false) ∨ mtipPending c = true ∨
    (c.systimer.alarmEnabled = true ∧ c.systimer.target = c.shadowMtimecmp)

/-- When time reaches the deadline, MTIP is pending, and was already or has the
host interrupt core 1. -/
def DeadlineMet (c : Clint) : Prop :=
  ∀ n, c.systimer.counter.toNat + n < 2 ^ 52 →
    c.shadowMtimecmp.toNat ≤ c.systimer.counter.toNat + n →
    mtipPending { c with systimer := c.systimer.tick n } = true ∧
      (mtipPending c = true ∨ (c.systimer.tick n).line = true)

/-- The counter does not wrap. -/
def TimeGoesOn (m : Monitor) : IoEvent → Prop
  | .host (.tick n) => m.clint.systimer.counter.toNat + n < 2 ^ 52
  | _ => True

instance (m : Monitor) : (e : IoEvent) → Decidable (TimeGoesOn m e)
  | .host (.tick _) => inferInstanceAs (Decidable (_ < _))
  | .host (.receive _ _) | .host (.sent _) | .host .complete | .load _ _ _ | .store _ _ _ _
    | .poll =>
      .isTrue trivial

structure TimerInv (c : Clint) : Prop where
  kept : DeadlineKept c
  /-- The interrupt of an alarm that has fired is the deadline's. -/
  fired : c.systimer.fired = true → mtipPending c = true
  alarm : AlarmOk c.systimer

section Timer

variable {c : Clint} {n : Nat}

theorem mtipPending_iff (c : Clint) :
    mtipPending c = true ↔ c.shadowMtimecmp.toNat ≤ c.systimer.counter.toNat := by
  unfold mtipPending hypMtime
  rw [decide_eq_true_iff, BitVec.le_def, BitVec.toNat_setWidth]
  have hc := c.systimer.counter.isLt
  rw [Nat.mod_eq_of_lt (by omega)]

theorem toNat_tick (h : c.systimer.counter.toNat + n < 2 ^ 52) :
    (c.systimer.tick n).counter.toNat = c.systimer.counter.toNat + n := by
  show (c.systimer.counter + BitVec.ofNat 52 n).toNat = _
  rw [BitVec.toNat_add, BitVec.toNat_ofNat, Nat.add_mod_mod, Nat.mod_eq_of_lt h]

theorem mtipPending_tick (h : c.systimer.counter.toNat + n < 2 ^ 52) :
    mtipPending { c with systimer := c.systimer.tick n } = true ↔
      c.shadowMtimecmp.toNat ≤ c.systimer.counter.toNat + n := by
  rw [mtipPending_iff]
  show _ ≤ (c.systimer.tick n).counter.toNat ↔ _
  rw [toNat_tick h]

/-- An alarm fires when its target is reached. -/
theorem fired_tick (h : c.systimer.counter.toNat + n < 2 ^ 52) :
    (c.systimer.tick n).fired = true ↔ c.systimer.fired = true ∨
      c.systimer.alarmEnabled = true ∧ c.systimer.target.toNat ≤ c.systimer.counter.toNat + n := by
  show (_ || (_ && decide (_ ≤ (c.systimer.tick n).counter.setWidth 64))) = true ↔ _
  rw [Bool.or_eq_true, Bool.and_eq_true, decide_eq_true_iff, BitVec.le_def, BitVec.toNat_setWidth,
    toNat_tick h, Nat.mod_eq_of_lt (by omega)]

theorem timerInv_boot : TimerInv .boot := by
  refine ⟨.inl ⟨by decide, rfl⟩, fun h => absurd h Bool.false_ne_true, ?_⟩
  rintro (h | h)
  · cases h
  · cases h

theorem timerInv_tick (hi : TimerInv c) (h : c.systimer.counter.toNat + n < 2 ^ 52) :
    TimerInv { c with systimer := c.systimer.tick n } := by
  have hmono : mtipPending c = true →
      mtipPending { c with systimer := c.systimer.tick n } = true := by
    intro hm
    rw [mtipPending_iff] at hm
    rw [mtipPending_tick h]
    omega
  refine ⟨?_, ?_, alarmOk_tick hi.alarm n⟩
  · rcases hi.kept with hk | hk | hk
    · exact .inl hk
    · exact .inr (.inl (hmono hk))
    · exact .inr (.inr hk)
  · intro hf
    rcases (fired_tick h).mp hf with hf | ⟨ha, ht⟩
    · exact hmono (hi.fired hf)
    · rcases hi.kept with ⟨-, hk⟩ | hk | ⟨-, hk⟩
      · rw [hk] at ha
        cases ha
      · exact hmono hk
      · rw [hk] at ht
        exact (mtipPending_tick h).mpr ht

/-- The alarm follows every write to the deadline, whatever was set before. -/
theorem timerInv_hypArmTimer (c : Clint) : TimerInv (hypArmTimer c) := by
  refine ⟨?_, ?_, alarmOk_hypArmTimer c⟩
  · by_cases h : hypMtimeMax ≤ c.shadowMtimecmp
    · rw [hypArmTimer_off h]
      exact .inl ⟨h, rfl⟩
    · rw [hypArmTimer_on h]
      exact .inr (.inr ⟨rfl, rfl⟩)
  · by_cases h : hypMtimeMax ≤ c.shadowMtimecmp
    · rw [hypArmTimer_off h]
      exact fun hf => absurd hf Bool.false_ne_true
    · rw [hypArmTimer_on h]
      exact fun hf => absurd hf Bool.false_ne_true

theorem timerInv_clintWrite (hi : TimerInv c) (offset value : Word) :
    TimerInv (clintWrite offset value c) := by
  unfold clintWrite
  split
  · exact timerInv_hypArmTimer _
  · exact hi

/-- A poll disarms an alarm only after the deadline. -/
theorem timerInv_pollAlarm {m : Monitor} (hi : TimerInv m.clint) :
    TimerInv (pollAlarm m).clint := by
  unfold pollAlarm
  split
  · rename_i hl
    have hf : m.clint.systimer.fired = true := (Bool.and_eq_true_iff.mp hl).1
    exact ⟨.inr (.inl (hi.fired hf)), fun h => absurd h Bool.false_ne_true, alarmOk_disarm _⟩
  · exact hi

theorem TimerInv.met (hi : TimerInv c) : DeadlineMet c := by
  intro n hn hd
  refine ⟨(mtipPending_tick hn).mpr hd, ?_⟩
  rcases hi.kept with ⟨hk, -⟩ | hk | ⟨ha, ht⟩
  · have hk : 2 ^ 52 ≤ c.shadowMtimecmp.toNat := BitVec.le_def.mp hk
    omega
  · exact .inl hk
  · right
    have hf : (c.systimer.tick n).fired = true := by
      rw [fired_tick hn, ht]
      exact .inr ⟨ha, hd⟩
    show ((c.systimer.tick n).fired && c.systimer.intEnabled) = true
    rw [hf, (hi.alarm (.inl ha)).1]
    rfl

end Timer

theorem read_clint (sd : Sd) (offset : Word) (width : Nat) (m : Monitor) (device : MmioDevice) :
    (device.read sd offset width m).2.clint = m.clint := by
  cases device <;> rfl

theorem timerInv_step {sd : Sd} {m m' : Monitor} {e : IoEvent} (hi : TimerInv m.clint)
    (ht : TimeGoesOn m e) (hf : ioFire sd m e = some m') : TimerInv m'.clint := by
  cases e with
  | load device offset width =>
      obtain rfl := Option.some.inj hf
      rw [read_clint]
      exact hi
  | store device offset value width =>
      obtain rfl := Option.some.inj hf
      cases device with
      | clint => exact timerInv_clintWrite hi offset value
      | uart | plic | vblk => exact hi
  | poll =>
      obtain rfl := Option.some.inj hf
      show TimerInv (pollUart (pollAlarm m)).clint
      rw [pollUart_eq]
      exact timerInv_pollAlarm hi
  | host e =>
      obtain rfl := Option.some.inj hf
      cases e with
      | tick n => exact timerInv_tick hi ht
      | receive | sent | complete => exact hi

/-- However time, the half-writes of the deadline and the polls interleave, the
deadline has the alarm set to it until it is reached. -/
theorem deadlineKept_run {sd : Sd} {h : List (Monitor × IoEvent)} {m : Monitor}
    (hrun : Run (ioFire sd) .boot h m) (ht : Run.Meets TimeGoesOn h) :
    DeadlineKept m.clint ∧ DeadlineMet m.clint := by
  have hi : TimerInv m.clint := Run.stateInvariant TimeGoesOn (fun m => TimerInv m.clint)
    timerInv_boot (fun m e m' hi he hf => timerInv_step hi he hf) hrun ht
  exact ⟨hi.kept, hi.met⟩

/-- Linux's three writes of a deadline, the first of which disarms an alarm that
is about to fire. -/
def deadlineWrites : List IoEvent :=
  [.store .clint 0x4004 0 4, .store .clint 0x4000 100 4, .host (.tick 150),
    .store .clint 0x4000 0xffffffff 4, .store .clint 0x4004 0 4, .store .clint 0x4000 200 4, .poll,
    .host (.tick 50)]

theorem deadlineKept_run_writes : ∃ h m, Run (ioFire (smallSd true)) .boot h m ∧ h.length = 8 ∧
    mtipPending m.clint = true ∧ m.clint.systimer.line = true ∧
    DeadlineKept m.clint ∧ DeadlineMet m.clint := by
  obtain ⟨h, m, hrun, hd⟩ := Run.exists_of_play (ioFire (smallSd true)) .boot deadlineWrites
    (fun r => decide (r.1.length = 8 ∧ mtipPending r.2.clint = true ∧
      r.2.clint.systimer.line = true ∧ Run.Meets TimeGoesOn r.1)) true (by decide +kernel)
  obtain ⟨hl, hm, hline, ht⟩ := of_decide_eq_true hd
  exact ⟨h, m, hrun, hl, hm, hline, deadlineKept_run hrun ht⟩

/-! ## The UART's line -/

/-- While the UART is not in service, its pending bit is the level of its line. -/
def LineHeld (u : Uart16550) (p : Plic) : Prop :=
  p.inService plicUartSource = false → p.isPending plicUartSource = uartLine u

/-- What a read of IIR now would return. -/
def uartIirRead (m : Monitor) : Byte := (uartRegRead 2 m.console).1

/-- Received data, or the transmitter's interrupt. -/
def UartWants (u : Uart16550) : Prop :=
  (u.ier &&& 0x01 ≠ 0 ∧ uartRxEmpty u = false) ∨ u.ier &&& 0x02 ≠ 0

theorem uartLine_iff (u : Uart16550) : uartLine u = true ↔ UartWants u := by
  unfold uartLine UartWants
  rw [Bool.or_eq_true, Bool.and_eq_true, bne_iff_ne, bne_iff_ne, Bool.not_eq_true']

/-- IIR reports an interrupt, in bit 0 clear, exactly when the line is up. -/
theorem uartIirRead_iff (m : Monitor) : uartIirRead m &&& 1 = 0 ↔ UartWants m.dev.uart := by
  have hfcr (x : Byte) :
      (x ||| if m.dev.uart.fcr &&& 0x01 ≠ 0 then 0xc0 else 0x00) &&& 1 = x &&& 1 := by
    rw [BitVec.and_comm, BitVec.and_or_distrib_left, BitVec.and_comm]
    split
    · exact BitVec.or_zero
    · exact BitVec.or_zero
  have hread : uartIirRead m =
      uartIir m.dev.uart ||| if m.dev.uart.fcr &&& 0x01 ≠ 0 then 0xc0 else 0x00 := by
    unfold uartIirRead uartRegRead
    rw [if_neg (fun h => absurd h.2 (by decide)), if_neg (fun h => absurd h.2 (by decide))]
    rfl
  rw [hread, hfcr]
  unfold uartIir UartWants
  by_cases hrx : m.dev.uart.ier &&& 0x01 ≠ 0 ∧ uartRxEmpty m.dev.uart = false
  · rw [if_pos hrx]
    exact iff_of_true (by decide) (.inl hrx)
  · rw [if_neg hrx]
    by_cases htx : m.dev.uart.ier &&& 0x02 ≠ 0
    · rw [if_pos htx]
      exact iff_of_true (by decide) (.inr htx)
    · rw [if_neg htx]
      exact iff_of_false (by decide) (fun h => h.elim hrx htx)

section Line

variable {u u' : Uart16550} {p p' : Plic}

theorem lineHeld_reeval (u : Uart16550) (p : Plic) : LineHeld u (v16550Reeval u p) :=
  fun _ => isPending_v16550Reeval (by decide) u p

/-- An operation that touches neither the line nor the source keeps its level. -/
theorem LineHeld.keep (h : LineHeld u p) (hline : uartLine u' = uartLine u)
    (hp : p'.isPending plicUartSource = p.isPending plicUartSource)
    (hs : p'.inService plicUartSource = p.inService plicUartSource) : LineHeld u' p' := by
  intro hns
  rw [hs] at hns
  rw [hp, hline]
  exact h hns

/-- A write of THR or IER recomputes the line, and the other registers do not
enter into it. -/
theorem uartRegWrite_cases (offset : Word) (value : Byte) (c : Console) :
    (∃ c' : Console, uartRegWrite offset value c = c'.reeval) ∨
      (uartRegWrite offset value c).plic = c.plic ∧
        uartLine (uartRegWrite offset value c).uart16550 = uartLine c.uart16550 := by
  by_cases hr : AtRing offset c.uart16550
  · exact .inl ⟨_, uartRegWrite_thr hr value⟩
  · unfold uartRegWrite
    dsimp only
    split
    · exact .inr ⟨rfl, rfl⟩
    · split
      · exact .inr ⟨rfl, rfl⟩
      · split
        · exact .inl ⟨_, rfl⟩
        · split
          · exact .inl ⟨_, rfl⟩
          · right
            repeat' split
            all_goals exact ⟨rfl, rfl⟩

theorem lineHeld_regRead {c : Console} (h : LineHeld c.uart16550 c.plic) (offset : Word) :
    LineHeld (uartRegRead offset c).2.uart16550 (uartRegRead offset c).2.plic := by
  by_cases hr : AtRing offset c.uart16550
  · rw [uartRegRead_rbr hr]
    exact lineHeld_reeval _ c.plic
  · rw [uartRegRead_other hr]
    exact h

theorem lineHeld_regWrite {c : Console} (h : LineHeld c.uart16550 c.plic) (offset : Word)
    (value : Byte) :
    LineHeld (uartRegWrite offset value c).uart16550 (uartRegWrite offset value c).plic := by
  rcases uartRegWrite_cases offset value c with ⟨c', he⟩ | ⟨hp, hl⟩
  · rw [he]
    exact lineHeld_reeval c'.uart16550 c'.plic
  · rw [hp]
    exact h.keep hl rfl rfl

theorem lineHeld_uartRead {c : Console} (h : LineHeld c.uart16550 c.plic) (offset : Word)
    (width : Nat) :
    LineHeld (uartRead offset width c).2.uart16550 (uartRead offset width c).2.plic :=
  uartRead_keeps (I := fun c => LineHeld c.uart16550 c.plic)
    (fun offset _ h => lineHeld_regRead h offset) h offset width

theorem lineHeld_uartWrite {c : Console} (h : LineHeld c.uart16550 c.plic) (offset value : Word)
    (width : Nat) :
    LineHeld (uartWrite offset value width c).uart16550 (uartWrite offset value width c).plic :=
  uartWrite_keeps (I := fun c => LineHeld c.uart16550 c.plic)
    (fun offset value _ h => lineHeld_regWrite h offset value) h offset value width

/-- A claim of the UART puts it in service. -/
theorem lineHeld_plicRead (h : LineHeld u p) (offset : Word) :
    LineHeld u (plicRead offset p).2 := by
  rcases plicRead_cases offset p with he | ⟨-, -, he⟩
  · rw [he]
    exact h
  · rw [he]
    intro hs
    have hs : (p.claimed ||| bit (plicPeek p)).getLsbD plicUartSource = false := hs
    rw [getLsbD_or_bit (by decide), Bool.or_eq_false_iff, decide_eq_false_iff_not] at hs
    show (p.pending &&& ~~~bit (plicPeek p)).getLsbD plicUartSource = uartLine u
    rw [getLsbD_and_not_bit (by decide), decide_eq_false hs.2, Bool.not_false, Bool.and_true]
    exact h hs.1

/-- A complete of the UART recomputes its line. -/
theorem lineHeld_plicWrite (h : LineHeld u p) (offset value : Word) :
    LineHeld u (plicWrite (v16550Reeval u) offset value p) := by
  by_cases hc : Completes offset value p
  · rw [plicWrite_complete hc]
    by_cases hv : value.toNat = plicUartSource
    · rw [if_pos hv]
      exact lineHeld_reeval u _
    · rw [if_neg hv]
      refine h.keep rfl rfl ?_
      show (p.claimed &&& ~~~bit value.toNat).getLsbD plicUartSource = _
      rw [getLsbD_and_not_bit (by decide), decide_eq_false (Ne.symm hv), Bool.not_false,
        Bool.and_true]
      rfl
  · obtain ⟨hp, hs⟩ := plicWrite_other (u := u) hc
    refine h.keep rfl ?_ ?_
    · rw [Plic.isPending, hp]
      rfl
    · rw [Plic.inService, hs]
      rfl

theorem lineHeld_setPending {source : Nat} (h : LineHeld u p) (hs : source ≠ plicUartSource)
    (asserted : Bool) : LineHeld u (plicSetPending source asserted p) := by
  refine h.keep rfl ?_ (inService_plicSetPending asserted)
  rw [isPending_plicSetPending (by decide), if_neg (Ne.symm hs)]

/-- The block device drives its own source alone. -/
theorem hypVirtioBlkWrite_wires (ready : Bool) (offset value : Word) (d : Devices) :
    (hypVirtioBlkWrite ready offset value d).uart = d.uart ∧
      ((hypVirtioBlkWrite ready offset value d).plic = d.plic ∨
        (hypVirtioBlkWrite ready offset value d).plic =
          plicSetPending plicVirtioBlkSource false d.plic) := by
  unfold hypVirtioBlkWrite
  cases VirtioMmio.ofOffset offset with
  | none => exact ⟨rfl, .inl rfl⟩
  | some r =>
      cases r with
      | interruptAck =>
          refine ⟨rfl, ?_⟩
          by_cases hi : d.blk.interruptStatus &&& ~~~value = 0
          · exact .inr (if_pos hi)
          · exact .inl (if_neg hi)
      | status =>
          by_cases hv : value = 0
          · simp only [VirtioMmio.write, if_pos hv, or_true, true_and]
          · simp only [VirtioMmio.write, if_neg hv, true_or, true_and]
      | _ => exact ⟨rfl, .inl rfl⟩

theorem lineHeld_virtioWrite {d : Devices} (h : LineHeld d.uart d.plic) (ready : Bool)
    (offset value : Word) : LineHeld (hypVirtioBlkWrite ready offset value d).uart
      (hypVirtioBlkWrite ready offset value d).plic := by
  obtain ⟨hu, hp | hp⟩ := hypVirtioBlkWrite_wires ready offset value d
  · rw [hu, hp]
    exact h
  · rw [hu, hp]
    exact lineHeld_setPending h (by decide) false

end Line

theorem lineHeld_pollReeval (m : Monitor) :
    LineHeld (pollReeval m).dev.uart (pollReeval m).dev.plic :=
  lineHeld_reeval m.dev.uart m.dev.plic

theorem lineHeld_step {sd : Sd} {m m' : Monitor} {e : IoEvent} (h : LineHeld m.dev.uart m.dev.plic)
    (hf : ioFire sd m e = some m') : LineHeld m'.dev.uart m'.dev.plic := by
  cases e with
  | load device offset width =>
      obtain rfl := Option.some.inj hf
      cases device with
      | uart => exact lineHeld_uartRead (c := m.console) h offset width
      | plic => exact lineHeld_plicRead h offset
      | clint | vblk => exact h
  | store device offset value width =>
      obtain rfl := Option.some.inj hf
      cases device with
      | clint => exact h
      | uart => exact lineHeld_uartWrite (c := m.console) h offset value width
      | plic => exact lineHeld_plicWrite h offset value
      | vblk => exact lineHeld_virtioWrite h sd.hypSdReady offset value
  | poll =>
      obtain rfl := Option.some.inj hf
      exact lineHeld_pollReeval _
  | host e =>
      obtain rfl := Option.some.inj hf
      cases e with
      | tick | receive | sent | complete => exact h

theorem lineHeld_reached {sd : Sd} {h : List (Monitor × IoEvent)} {m : Monitor}
    (hrun : Run (ioFire sd) .boot h m) : LineHeld m.dev.uart m.dev.plic := by
  induction hrun with
  | start => exact fun _ => by decide
  | step _ hf ih => exact lineHeld_step ih hf

/-- While the UART is not in service, it is pending exactly when IIR would report
an interrupt, which is when it has one. -/
theorem lineHeld_run {sd : Sd} {h : List (Monitor × IoEvent)} {m : Monitor}
    (hrun : Run (ioFire sd) .boot h m) (hs : m.dev.plic.inService plicUartSource = false) :
    (m.dev.plic.isPending plicUartSource = true ↔ uartIirRead m &&& 1 = 0) ∧
      (uartIirRead m &&& 1 = 0 ↔ UartWants m.dev.uart) := by
  refine ⟨?_, uartIirRead_iff m⟩
  rw [lineHeld_reached hrun hs, uartLine_iff, uartIirRead_iff]

/-- A byte arrives and is polled; the guest enables its interrupt, claims it,
reads it and completes. -/
def uartService : List IoEvent :=
  [.store .uart 1 1 1, .store .plic 0x28 1 4, .store .plic 0x2000 0x400 4,
    .host (.receive 0x61 [0x62]),
    .poll, .load .plic 0x200004 4, .load .uart 0 1, .store .plic 0x200004 10 4]

theorem lineHeld_run_service : ∃ h m, Run (ioFire (smallSd true)) .boot h m ∧ h.length = 8 ∧
    m.dev.plic.isPending plicUartSource = true ∧ UartWants m.dev.uart := by
  obtain ⟨h, m, hrun, hd⟩ := Run.exists_of_play (ioFire (smallSd true)) .boot uartService
    (fun r => decide (r.1.length = 8 ∧ r.2.dev.plic.inService plicUartSource = false ∧
      r.2.dev.plic.isPending plicUartSource = true)) true (by decide +kernel)
  obtain ⟨hl, hs, hp⟩ := of_decide_eq_true hd
  obtain ⟨h₁, h₂⟩ := lineHeld_run hrun hs
  exact ⟨h, m, hrun, hl, hp, h₂.mp (h₁.mp hp)⟩

end P4Hyp
