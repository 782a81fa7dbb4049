import P4Hyp.Clint
import P4Hyp.Decode
import P4Hyp.VirtioBlk.Registers

/-!
# Injection and host device servicing

The state of core 1's monitor, and the one place where interrupts are delivered
to the guest.  Of the statistics that the monitor only counts, the injections
are kept.
-/

namespace P4Hyp

def mstatusMie : Word := 0x8
def mstatusMpie : Word := 0x80
def mstatusMpp : Word := 0x1800
def mstatusMppS : Nat := 11

def mipMsip : Word := 0x8
def mipMtip : Word := 0x80
def mipMeip : Word := 0x800

def privU : Word := 0
def privM : Word := 3

/-- The CSRs the guest thinks it has.  Bits 7 and 11 of `mip` are not stored. -/
structure HypShadowCsr where
  mstatus : Word
  mie : Word
  mtvec : Word
  mscratch : Word
  mepc : Word
  mcause : Word
  mtval : Word
  mip : Word

structure Monitor where
  shadow : HypShadowCsr
  guestPriv : Word
  shadowPmpcfg : Nat → Word
  shadowPmpaddr : Nat → Word
  clint : Clint
  uart0 : Uart0
  dev : Devices
  /-- Ctrl-^ has arrived. -/
  hypStatsWanted : Bool
  hypInWfi : Bool
  /-- `hyp_stats.injections`. -/
  injections : Word

/-- When core 1 enters the guest. -/
def Monitor.boot : Monitor :=
  { shadow :=
      { mstatus := privM <<< mstatusMppS, mie := 0, mtvec := 0, mscratch := 0, mepc := 0,
        mcause := 0, mtval := 0, mip := 0 }
    guestPriv := privM
    shadowPmpcfg := fun _ => 0
    shadowPmpaddr := fun _ => 0
    clint := .boot
    uart0 := { rxInt := false, rxFifo := [], txRoom := 128, txFifo := [] }
    dev := .reset
    hypStatsWanted := false
    hypInWfi := false
    injections := 0 }

def Monitor.console (m : Monitor) : Console := ⟨m.dev.uart, m.uart0, m.dev.plic⟩

def Monitor.setConsole (c : Console) (m : Monitor) : Monitor :=
  { m with uart0 := c.uart0, dev := { m.dev with uart := c.uart16550, plic := c.plic } }

def shadowMipRead (m : Monitor) : Word :=
  let mip := m.shadow.mip &&& ~~~(mipMtip ||| mipMeip)
  let mip := if mtipPending m.clint then mip ||| mipMtip else mip
  if meipPending m.dev.plic then mip ||| mipMeip else mip

/-- The cause of the interrupt to deliver, `none` for -1. -/
def hypPendingCause (m : Monitor) : Option Word :=
  if m.shadow.mstatus &&& mstatusMie = 0 then none
  else if m.shadow.mie &&& mipMeip ≠ 0 ∧ meipPending m.dev.plic = true then some 11
  else if m.shadow.mie &&& mipMsip ≠ 0 ∧ m.shadow.mip &&& mipMsip ≠ 0 then some 3
  else if m.shadow.mie &&& mipMtip ≠ 0 ∧ mtipPending m.clint = true then some 7
  else none

def hypInject (cause tval : Word) (fm : RvExcFrame × Monitor) : RvExcFrame × Monitor :=
  let (frame, m) := fm
  let status := m.shadow.mstatus
  let status :=
    status &&& ~~~mstatusMpie ||| if status &&& mstatusMie ≠ 0 then mstatusMpie else 0
  let status := status &&& ~~~mstatusMie
  let status := status &&& ~~~mstatusMpp ||| m.guestPriv <<< mstatusMppS
  ({ frame with mepc := m.shadow.mtvec &&& ~~~0x3 },
    { m with
      shadow := { m.shadow with mstatus := status, mepc := frame.mepc, mcause := cause,
                                mtval := tval }
      guestPriv := privM
      injections := m.injections + 1 })

def hypDeliverPending (fm : RvExcFrame × Monitor) : RvExcFrame × Monitor :=
  match hypPendingCause fm.2 with
  | none => fm
  | some cause => if fm.2.shadow.mtvec = 0 then fm else hypInject (0x80000000 ||| cause) 0 fm

theorem hypDeliverPending_x (p : RvExcFrame × Monitor) : (hypDeliverPending p).1.x = p.1.x := by
  unfold hypDeliverPending
  split
  · rfl
  · split <;> rfl

def hypKeyStatsDump : Byte := 0x1e

/-- The alarm has fired: it is disarmed and acknowledged. -/
def pollAlarm (m : Monitor) : Monitor :=
  if m.clint.systimer.line then
    { m with clint := { m.clint with systimer := m.clint.systimer.disarm } }
  else m

/-- One byte read from the receive FIFO. -/
def pollByte (m : Monitor) (c : Byte) : Monitor :=
  if c = hypKeyStatsDump then { m with hypStatsWanted := true }
  else { m with dev := { m.dev with uart := uartRxPush c m.dev.uart } }

/-- The receive FIFO is drained, and its interrupt cleared. -/
def pollUart (m : Monitor) : Monitor :=
  if m.uart0.rxInt then
    let m := m.uart0.rxFifo.foldl pollByte m
    { m with uart0 := { m.uart0 with rxFifo := [], rxInt := false } }
  else m

def pollBlk (m : Monitor) : Monitor := { m with dev := hypVirtioBlkPoll m.dev }

def pollReeval (m : Monitor) : Monitor :=
  { m with dev := { m.dev with plic := v16550Reeval m.dev.uart m.dev.plic } }

def hypPollHostDevices (m : Monitor) : Monitor := pollReeval (pollBlk (pollUart (pollAlarm m)))

/-- What reaches core 1's devices from outside. -/
inductive HostEvent
  | tick (n : Nat)
  /-- Bytes arrive on the wire. -/
  | receive (c : Byte) (cs : List Byte)
  /-- The transmitter has room. -/
  | sent (room : Nat)
  /-- Core 0 has published used elements and sets `s_irq`. -/
  | complete

def hostStep (m : Monitor) : HostEvent → Monitor
  | .tick n => { m with clint := { m.clint with systimer := m.clint.systimer.tick n } }
  | .receive c cs =>
      { m with uart0 := { m.uart0 with rxInt := true, rxFifo := m.uart0.rxFifo ++ c :: cs } }
  | .sent room => { m with uart0 := { m.uart0 with txRoom := room } }
  | .complete => { m with dev := { m.dev with sIrq := true } }

/-! ## What a poll leaves alone -/

/-- The receive ring, for the bytes that are not the monitor's own. -/
def drainByte (u : Uart16550) (c : Byte) : Uart16550 :=
  if c = hypKeyStatsDump then u else uartRxPush c u

theorem pollBytes_eq (cs : List Byte) (m : Monitor) : cs.foldl pollByte m = { m with
    dev := { m.dev with uart := cs.foldl drainByte m.dev.uart }
    hypStatsWanted := (cs.foldl pollByte m).hypStatsWanted } := by
  induction cs generalizing m with
  | nil => rfl
  | cons c cs ih =>
      rw [List.foldl_cons, List.foldl_cons, ih]
      unfold pollByte drainByte
      split
      · rfl
      · rfl

/-- Draining the host's FIFO changes the receive ring and UART0. -/
theorem pollUart_eq (m : Monitor) : pollUart m = { m with
    uart0 := (pollUart m).uart0
    dev := { m.dev with uart := (pollUart m).dev.uart }
    hypStatsWanted := (pollUart m).hypStatsWanted } := by
  unfold pollUart
  split
  · dsimp only
    rw [pollBytes_eq]
  · rfl

theorem pollAlarm_eq (m : Monitor) :
    pollAlarm m = { m with clint := (pollAlarm m).clint } := by
  unfold pollAlarm
  split
  · rfl
  · rfl

theorem hypVirtioBlkPoll_uart (d : Devices) : (hypVirtioBlkPoll d).uart = d.uart := by
  unfold hypVirtioBlkPoll
  split
  · rfl
  · rfl

theorem hypPollHostDevices_uart (m : Monitor) : (hypPollHostDevices m).dev.uart =
    if m.uart0.rxInt then m.uart0.rxFifo.foldl drainByte m.dev.uart else m.dev.uart := by
  show (hypVirtioBlkPoll (pollUart (pollAlarm m)).dev).uart = _
  rw [hypVirtioBlkPoll_uart, pollAlarm_eq]
  unfold pollUart
  split
  · dsimp only
    rw [pollBytes_eq]
  · rfl

/-- A poll recomputes the UART's pending bit, and sets that of a reported
completion. -/
theorem hypPollHostDevices_isPending (m : Monitor) {n : Nat} (hn : n < 32) :
    (hypPollHostDevices m).dev.plic.isPending n =
      if n = plicUartSource then uartLine (hypPollHostDevices m).dev.uart
      else if n = plicVirtioBlkSource ∧ m.dev.sIrq = true then true
      else m.dev.plic.isPending n := by
  have hdev : (pollUart (pollAlarm m)).dev.plic = m.dev.plic ∧
      (pollUart (pollAlarm m)).dev.sIrq = m.dev.sIrq := by
    rw [pollUart_eq, pollAlarm_eq]
    exact ⟨rfl, rfl⟩
  show (v16550Reeval _ (hypVirtioBlkPoll (pollUart (pollAlarm m)).dev).plic).isPending n = _
  rw [isPending_v16550Reeval hn]
  by_cases hu : n = plicUartSource
  · rw [if_pos hu, if_pos hu]
    rfl
  · rw [if_neg hu, if_neg hu]
    unfold hypVirtioBlkPoll
    cases hs : m.dev.sIrq with
    | false =>
        rw [if_neg (by rw [hdev.2, hs]; exact Bool.false_ne_true),
          if_neg (fun h => absurd h.2 Bool.false_ne_true), hdev.1]
    | true =>
        rw [if_pos (by rw [hdev.2, hs])]
        show (plicSetPending plicVirtioBlkSource true _).isPending n = _
        rw [isPending_plicSetPending hn, hdev.1]
        by_cases hb : n = plicVirtioBlkSource
        · rw [if_pos hb, if_pos ⟨hb, rfl⟩]
        · rw [if_neg hb, if_neg (fun h => hb h.1)]

theorem hypPollHostDevices_sIrq (m : Monitor) : (hypPollHostDevices m).dev.sIrq = false := by
  show (hypVirtioBlkPoll _).sIrq = false
  unfold hypVirtioBlkPoll
  split
  · rfl
  · exact Bool.not_eq_true _ ▸ ‹_›

end P4Hyp
