import P4Hyp.VirtioBlk.Chain
import P4Hyp.VirtioBlk.Registers

/-!
# The two cores and the guest

Core 0 runs `blk_task`, one access to shared state at a time, except that the
header and each descriptor of a request are one step.  Core 1 runs either the
guest, whose register accesses and stores are steps, or `hyp_virtio_blk_poll`,
which the guest cannot interrupt.  Memory is sequentially consistent.
-/

namespace P4Hyp

/-- The ring pointers that `blk_service` takes when it starts. -/
structure Rings where
  avail : Word
  used : Word
  deriving DecidableEq

/-- Where core 0 is.  `published` is the local variable of `blk_service`. -/
inductive Core0
  /-- About to test `s_kick`. -/
  | idle
  /-- About to clear `s_kick`. -/
  | clear
  /-- About to test `blk.live` and take the ring pointers. -/
  | enter
  /-- About to read `avail->idx`. -/
  | test (r : Rings) (published : Bool)
  /-- About to read the avail entry. -/
  | fetch (r : Rings) (published : Bool)
  | header (r : Rings) (published : Bool) (head : Half)
  | walk (r : Rings) (published : Bool) (head : Half) (k : Walk)
  /-- About to store the `id` of the used element. -/
  | elemId (r : Rings) (published : Bool) (head : Half) (written : Word)
  | elemLen (r : Rings) (published : Bool) (head : Half) (written : Word)
  /-- About to bump `used->idx`. -/
  | publish (r : Rings)
  /-- About to bump `blk.last_avail`. -/
  | advance (r : Rings)
  /-- About to set `s_irq`. -/
  | raise
  deriving DecidableEq

/-- Where core 1 is: in the guest or in a trap between polls, or in
`hyp_virtio_blk_poll` having seen `s_irq` or having cleared it. -/
inductive Core1
  | guest
  | tested
  | cleared
  deriving DecidableEq

structure Sys where
  world : World
  dev : Devices
  core0 : Core0
  core1 : Core1

namespace Sys

def blk (s : Sys) : Blk := s.dev.blk

def mem (s : Sys) : Mem := s.world.mem

/-- The ring pointers that the registers describe now. -/
def rings (s : Sys) : Rings := ⟨s.blk.availRing, s.blk.usedRing⟩

end Sys

/-- `used->ring[used->idx % blk.queue_num]`. -/
def usedElemAddr (r : Rings) (blk : Blk) (m : Mem) : Word :=
  usedSlotAddr r.used (ringSlot (m.load16 (usedIdxAddr r.used)) blk.queueNum)

/-- `avail->ring[blk.last_avail % blk.queue_num]`. -/
def availEntryAddr (r : Rings) (blk : Blk) : Word :=
  availSlotAddr r.avail (ringSlot blk.lastAvail blk.queueNum)

/-- The next step of core 0. -/
def core0Step (s : Sys) : Sys :=
  match s.core0 with
  | .idle => if s.dev.sKick then { s with core0 := .clear } else s
  | .clear => { s with dev := { s.dev with sKick := false }, core0 := .enter }
  | .enter =>
      if s.dev.blk.live then { s with core0 := .test s.rings false } else { s with core0 := .idle }
  | .test r published =>
      let idx := s.mem.load16 (availIdxAddr r.avail)
      { s with
        world := s.world.touch [.load (availIdxAddr r.avail) 2]
        core0 := if s.blk.lastAvail ≠ idx then .fetch r published
          else if published then .raise else .idle }
  | .fetch r published =>
      let a := availEntryAddr r s.blk
      { s with
        world := s.world.touch [.load a 2]
        core0 := .header r published (s.mem.load16 a) }
  | .header r published head =>
      match blkHeader s.blk head s.world with
      | .inl (k, w) => { s with world := w, core0 := .walk r published head k }
      | .inr (written, w) => { s with world := w, core0 := .elemId r published head written }
  | .walk r published head k =>
      match blkWalkStep s.blk.queueNum k s.world with
      | .inl (k, w) => { s with world := w, core0 := .walk r published head k }
      | .inr (written, w) => { s with world := w, core0 := .elemId r published head written }
  | .elemId r published head written =>
      let a := usedElemAddr r s.blk s.mem
      { s with
        world := { s.world.touch [.load (usedIdxAddr r.used) 2, .store a 4] with
          mem := s.mem.store32 a (head.setWidth 32) }
        core0 := .elemLen r published head written }
  | .elemLen r _ _ written =>
      let a := usedElemAddr r s.blk s.mem + 4
      { s with
        world := { s.world.touch [.load (usedIdxAddr r.used) 2, .store a 4] with
          mem := s.mem.store32 a written }
        core0 := .publish r }
  | .publish r =>
      let a := usedIdxAddr r.used
      { s with
        world := { s.world.touch [.load a 2, .store a 2] with
          mem := s.mem.store16 a (s.mem.load16 a + 1) }
        core0 := .advance r }
  | .advance r =>
      { s with
        dev := { s.dev with blk := { s.dev.blk with lastAvail := s.dev.blk.lastAvail + 1 } }
        core0 := .test r true }
  | .raise => { s with dev := { s.dev with sIrq := true }, core0 := .idle }

/-- The next step of `hyp_virtio_blk_poll` on core 1. -/
def pollStep (s : Sys) : Sys :=
  match s.core1 with
  | .guest => if s.dev.sIrq then { s with core1 := .tested } else s
  | .tested => { s with dev := { s.dev with sIrq := false }, core1 := .cleared }
  | .cleared =>
      { s with
        dev := { s.dev with
          blk := { s.dev.blk with interruptStatus := s.dev.blk.interruptStatus ||| 1 }
          plic := plicSetPending plicVirtioBlkSource true s.dev.plic }
        core1 := .guest }

inductive Event
  | core0
  | poll
  /-- A guest store to a register of the device. -/
  | write (offset value : Word)
  | plicRead (offset : Word)
  | plicWrite (offset value : Word)
  | store8 (a : Word) (v : Byte)
  | store16 (a : Word) (v : Half)
  | store32 (a : Word) (v : Word)
  /-- The guest reads `used->idx`. -/
  | readUsed
  deriving DecidableEq

/-- A guest store. -/
def Sys.store (s : Sys) (m : Mem) : Sys := { s with world := { s.world with mem := m } }

/-- What an access of the guest does. -/
def guestStep (s : Sys) : Event → Sys
  | .write offset value =>
      { s with dev := hypVirtioBlkWrite s.world.sd.hypSdReady offset value s.dev }
  | .plicRead offset => { s with dev := { s.dev with plic := (plicRead offset s.dev.plic).2 } }
  | .plicWrite offset value =>
      { s with dev := { s.dev with
          plic := plicWrite (v16550Reeval s.dev.uart) offset value s.dev.plic } }
  | .store8 a v => s.store (s.mem.store8 a v)
  | .store16 a v => s.store (s.mem.store16 a v)
  | .store32 a v => s.store (s.mem.store32 a v)
  | _ => s

/-- The system: core 0 and the poll can always go on, the guest runs while core 1
is not in a poll. -/
def fire (s : Sys) : Event → Option Sys
  | .core0 => some (core0Step s)
  | .poll => some (pollStep s)
  | e => if s.core1 = .guest then some (guestStep s e) else none

theorem fire_guest {s s' : Sys} {e : Event} (h : fire s e = some s') (h0 : e ≠ .core0)
    (hp : e ≠ .poll) : s.core1 = .guest ∧ s' = guestStep s e := by
  cases e with
  | core0 => exact absurd rfl h0
  | poll => exact absurd rfl hp
  | _ =>
      simp only [fire] at h
      split at h
      · exact ⟨‹_›, (Option.some.inj h).symm⟩
      · cases h

/-- All state of the monitor starts out as zero. -/
def Sys.boot (w : World) : Sys := { world := w, dev := .reset, core0 := .idle, core1 := .guest }

/-! ## What core 0 leaves alone -/

/-- Core 0 is about to bump `blk.last_avail`. -/
def Core0.advancing : Core0 → Bool
  | .advance _ => true
  | _ => false

/-- The pointers core 0 works with while it is inside `blk_service`. -/
def Core0.rings? : Core0 → Option Rings
  | .idle | .clear | .enter | .raise => none
  | .test r _ | .fetch r _ | .header r _ _ | .walk r _ _ _ | .elemId r _ _ _ | .elemLen r _ _ _
  | .publish r | .advance r => some r

theorem core0Step_core1 (s : Sys) : (core0Step s).core1 = s.core1 := by
  unfold core0Step
  split <;> first | rfl | (split <;> rfl)

theorem core0Step_plic (s : Sys) : (core0Step s).dev.plic = s.dev.plic := by
  unfold core0Step
  split <;> first | rfl | (split <;> rfl)

/-- Of the device's registers core 0 changes `last_avail` alone. -/
theorem core0Step_blk (s : Sys) : (core0Step s).blk =
    { s.blk with lastAvail := if s.core0.advancing then s.blk.lastAvail + 1
      else s.blk.lastAvail } := by
  unfold core0Step
  split <;> rename_i hpc <;> simp only [hpc, Core0.advancing, Bool.false_eq_true, if_true, if_false]
    <;> first | rfl | (split <;> rfl)

/-! ## The steps against the functions -/

/-- Three steps of a poll that finds `s_irq` set are `hyp_virtio_blk_poll`. -/
theorem pollStep_poll {s : Sys} (hg : s.core1 = .guest) (hi : s.dev.sIrq = true) :
    pollStep (pollStep (pollStep s)) = { s with dev := hypVirtioBlkPoll s.dev } := by
  obtain ⟨w, d, c0, c1⟩ := s
  obtain rfl : c1 = .guest := hg
  have hi' : d.sIrq = true := hi
  simp only [pollStep, hypVirtioBlkPoll, hi', if_true]

theorem pollStep_idle {s : Sys} (hg : s.core1 = .guest) (hi : s.dev.sIrq = false) :
    pollStep s = { s with dev := hypVirtioBlkPoll s.dev } := by
  simp only [pollStep, hypVirtioBlkPoll, hg, hi, Bool.false_eq_true, if_false]
  rw [← hg]

/-- `n` steps of core 0. -/
def core0Steps : Nat → Sys → Sys
  | 0, s => s
  | n + 1, s => core0Steps n (core0Step s)

theorem core0Steps_walk {fuel : Nat} {s : Sys} {r : Rings} {published : Bool} {head : Half}
    {k : Walk} {written : Word} {w : World} (hpc : s.core0 = .walk r published head k)
    (h : loop (fun kw => blkWalkStep s.blk.queueNum kw.1 kw.2) fuel (k, s.world) =
      some (written, w)) :
    ∃ n, core0Steps n s = { s with world := w, core0 := .elemId r published head written } := by
  induction fuel generalizing s k with
  | zero => cases h
  | succ fuel ih =>
      cases hs : blkWalkStep s.blk.queueNum k s.world with
      | inl kw =>
          rw [loop_again hs] at h
          have hstep : core0Step s =
              { s with world := kw.2, core0 := .walk r published head kw.1 } := by
            simp only [core0Step, hpc, hs]
          obtain ⟨n, hn⟩ := ih (s := core0Step s) (k := kw.1) (by rw [hstep])
            (by rw [hstep]; exact h)
          refine ⟨n + 1, ?_⟩
          rw [core0Steps, hn, hstep]
      | inr res =>
          rw [loop_leave hs] at h
          obtain rfl : res = (written, w) := Option.some.inj h
          refine ⟨1, ?_⟩
          simp only [core0Steps, core0Step, hpc, hs]

/-- Core 0 alone carries a request from its header to its used element as
`blk_do_request` does. -/
theorem core0Steps_request {fuel : Nat} {s : Sys} {r : Rings} {published : Bool} {head : Half}
    {written : Word} {w : World} (hpc : s.core0 = .header r published head)
    (h : blkDoRequest fuel s.blk head s.world = some (written, w)) :
    ∃ n, core0Steps n s = { s with world := w, core0 := .elemId r published head written } := by
  cases hh : blkHeader s.blk head s.world with
  | inl kw =>
      simp only [blkDoRequest, hh] at h
      have hstep : core0Step s =
          { s with world := kw.2, core0 := .walk r published head kw.1 } := by
        simp only [core0Step, hpc, hh]
      obtain ⟨n, hn⟩ := core0Steps_walk (s := core0Step s) (k := kw.1) (by rw [hstep])
        (by rw [hstep]; exact h)
      refine ⟨n + 1, ?_⟩
      rw [core0Steps, hn, hstep]
  | inr res =>
      simp only [blkDoRequest, hh] at h
      obtain rfl : res = (written, w) := Option.some.inj h
      refine ⟨1, ?_⟩
      simp only [core0Steps, core0Step, hpc, hh]

/-! ## A small run -/

/-- Set-up of the queue of `smallBlk`, a notification, and core 0's steps until it
is idle again, `n` of them. -/
def serve (n : Nat) : List Event :=
  [.write VirtioMmio.queueNum.offset 4, .write VirtioMmio.guestPageSize.offset 4096,
    .write VirtioMmio.queuePfn.offset 0x48001, .write VirtioMmio.queueNotify.offset 0] ++
    List.replicate n .core0

/-- Memory with the chain of `oneSector` made available in that queue. -/
def oneOffered (buf : BitVec 64) : World :=
  worldOf ((oneSector virtioBlkTIn 0 buf).store16 0x48001042 1) (smallSd true)

end P4Hyp
