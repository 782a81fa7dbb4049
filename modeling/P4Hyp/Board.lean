import P4Hyp.Core
import P4Hyp.VirtioBlk.System

/-!
# The board

Core 0 serves the block device, core 1 runs the guest and its monitor, and the
host's timer and UART interrupt core 1.  A trap is one step, except that the
parts of `hyp_poll_host_devices`, the rounds of the `wfi` loop and the delivery
at the end are steps of their own, so that core 0 can go on between them.
-/

namespace P4Hyp

/-- Who has called `hyp_poll_host_devices`. -/
inductive Caller
  | irq
  | wfi
  deriving DecidableEq

/-- Where core 1 is. -/
inductive Pc
  | guest
  /-- About to check the alarm. -/
  | alarm (c : Caller)
  | uart (c : Caller)
  /-- In `hyp_virtio_blk_poll`. -/
  | blk (c : Caller) (k : Core1)
  | reeval (c : Caller)
  /-- About to run `hyp_deliver_pending` and return to the guest. -/
  | deliver
  /-- About to test `hyp_wfi_wake`. -/
  | wake
  /-- In the host's `wfi`. -/
  | asleep
  | panic
  deriving DecidableEq

/-- Where the caller of a poll goes on. -/
def Caller.next : Caller → Pc
  | .irq => .deliver
  | .wfi => .wake

structure Board where
  world : World
  core0 : Core0
  mon : Monitor
  trap : GuestTrap
  pc : Pc

namespace Board

/-- What core 0 sees. -/
def sys (b : Board) : Sys := ⟨b.world, b.mon.dev, b.core0, .guest⟩

def boot (w : World) : Board :=
  { world := w, core0 := .idle, mon := .boot, trap := guestTrap ⟨0, fun _ => 0, 0, 0⟩,
    pc := .guest }

end Board

/-- A host interrupt is pending on core 1. -/
def hostLine (m : Monitor) : Bool := m.clint.systimer.line || m.uart0.rxInt

/-- A step of core 0. -/
def boardCore0 (b : Board) : Board :=
  let s := core0Step b.sys
  { b with world := s.world, core0 := s.core0, mon := { b.mon with dev := s.dev } }

/-- The end of a trap: resume the guest at `deliver`, or panic. -/
def trapEnd (r : TrapResult) (trap : GuestTrap) (b : Board) : Board :=
  match trapResume r trap with
  | some frame => { b with trap := { trap with frame }, pc := .deliver }
  | none => { b with trap, pc := .panic }

/-- The guest takes an exception. -/
def boardException (frame : RvExcFrame) (b : Board) : Board :=
  match hypervisorTrap b.world.mem b.world.sd (guestTrap frame) b.mon with
  | (some r, trap, mon) => trapEnd r trap { b with mon }
  | (none, trap, mon) => { b with mon, trap, pc := .wake }

/-- Core 1 goes on with a trap.  It waits in `wfi` for a host interrupt. -/
def boardCore1 (b : Board) : Option Board :=
  match b.pc with
  | .guest => none
  | .alarm c => some { b with mon := pollAlarm b.mon, pc := .uart c }
  | .uart c => some { b with mon := pollUart b.mon, pc := .blk c .guest }
  | .blk c k =>
      let s := pollStep { b.sys with core1 := k }
      some { b with
        mon := { b.mon with dev := s.dev }
        pc := if s.core1 = .guest then .reeval c else .blk c s.core1 }
  | .reeval c => some { b with mon := pollReeval b.mon, pc := c.next }
  | .deliver =>
      let (frame, mon) := hypDeliverPending (b.trap.frame, b.mon)
      some { b with mon, trap := { b.trap with frame }, pc := .guest }
  | .wake =>
      if hypWfiWake b.mon then
        some (trapEnd .advance b.trap { b with mon := { b.mon with hypInWfi := false } })
      else some { b with pc := .asleep }
  | .asleep => if hostLine b.mon then some { b with pc := .alarm .wfi } else none
  | .panic => none

inductive BoardEvent
  | core0
  | core1
  /-- The guest takes an exception, with these registers. -/
  | exception (frame : RvExcFrame)
  /-- A host interrupt is taken while the guest runs. -/
  | hostIrq (frame : RvExcFrame)
  /-- The guest stores `n` bytes. -/
  | store (a : Word) (n : Nat) (f : Nat → Byte)
  | tick (n : Nat)
  /-- Bytes arrive on the wire. -/
  | receive (c : Byte) (cs : List Byte)
  /-- The transmitter has room. -/
  | sent (room : Nat)

def boardFire (b : Board) : BoardEvent → Option Board
  | .core0 => some (boardCore0 b)
  | .core1 => boardCore1 b
  | .exception frame =>
      if b.pc = .guest ∧ frame.mcause &&& interruptBit = 0 then some (boardException frame b)
      else none
  | .hostIrq frame =>
      if b.pc = .guest ∧ hostLine b.mon = true then
        some { b with trap := guestTrap frame, pc := .alarm .irq }
      else none
  | .store a n f =>
      if b.pc = .guest then some { b with world := { b.world with mem := b.world.mem.fill a n f } }
      else none
  | .tick n =>
      some { b with mon :=
        { b.mon with clint := { b.mon.clint with systimer := b.mon.clint.systimer.tick n } } }
  | .receive c cs =>
      some { b with mon :=
        { b.mon with uart0 := { b.mon.uart0 with
            rxInt := true, rxFifo := b.mon.uart0.rxFifo ++ c :: cs } } }
  | .sent room =>
      some { b with mon := { b.mon with uart0 := { b.mon.uart0 with txRoom := room } } }

/-! ## The steps of a poll -/

/-- `n` steps of core 1. -/
def boardCore1Steps : Nat → Board → Option Board
  | 0, b => some b
  | n + 1, b => (boardCore1 b).bind (boardCore1Steps n)

/-- Core 1 alone carries a poll through as `hyp_poll_host_devices` does. -/
theorem boardCore1_poll {b : Board} {c : Caller} (hpc : b.pc = .alarm c) :
    ∃ n, boardCore1Steps n b =
      some { b with mon := hypPollHostDevices b.mon, pc := c.next } := by
  obtain ⟨w, c0, m, t, pc⟩ := b
  obtain rfl : pc = .alarm c := hpc
  cases hi : (pollUart (pollAlarm m)).dev.sIrq with
  | true =>
      refine ⟨6, ?_⟩
      simp [boardCore1Steps, boardCore1, pollStep, Board.sys, hi, hypPollHostDevices, pollBlk,
        hypVirtioBlkPoll]
  | false =>
      refine ⟨4, ?_⟩
      simp [boardCore1Steps, boardCore1, pollStep, Board.sys, hi, hypPollHostDevices, pollBlk,
        hypVirtioBlkPoll]

/-! ## Some instructions of a guest -/

/-- `csrw csr, t0` with `value` in every register. -/
def csrw (csr value : Word) : RvExcFrame := ⟨0x48000000, fun _ => value, 2, csr <<< 20 ||| 0x29073⟩

def guestMret : RvExcFrame := ⟨0x48000000, fun _ => 0, 2, 0x30200073⟩

def guestWfi : RvExcFrame := ⟨0x48000000, fun _ => 0, 2, 0x10500073⟩

/-- A store fault of the word `value`, where the guest's code has `sw`. -/
def guestSw (address value : Word) : RvExcFrame := ⟨0x48000000, fun _ => value, 7, address⟩

/-- The queue and the request of `oneOffered`, with `sw a1, 0(a0)` as the guest's
code. -/
def guestWorld : World :=
  { oneOffered 0x48200000 with mem := (oneOffered 0x48200000).mem.store32 0x48000000 0x00b52023 }

/-- An exception, and its delivery. -/
def trapped (frames : List RvExcFrame) : List BoardEvent :=
  frames.flatMap fun frame => [.exception frame, .core1]

/-- The stores that set up the queue of `smallBlk` and notify it. -/
def guestSetUp : List RvExcFrame :=
  [guestSw 0x10001038 4, guestSw 0x10001028 4096, guestSw 0x10001040 0x48001, guestSw 0x10001050 0]

end P4Hyp
