import P4Hyp.Lib.Privileged
import P4Hyp.Lib.Simulation
import P4Hyp.LoadStore
import P4Hyp.User
import P4Hyp.Nest

/-!
# The guest's hart

The guest runs in U mode throughout, and what it would not be allowed there traps
to the monitor.  Together they are a hart with M and U modes, whose CSRs are the
shadow bank and whose devices are the emulated ones.
-/

namespace P4Hyp

open Privileged (Mode Hart Platform)

/-! ## The devices -/

/-- What the guest can reach through its device windows. -/
structure Periph where
  clint : Clint
  uart0 : Uart0
  dev : Devices

def Monitor.periph (m : Monitor) : Periph := ⟨m.clint, m.uart0, m.dev⟩

/-- The devices, with the rest of a monitor. -/
def Periph.on (d : Periph) (m : Monitor) : Monitor :=
  { m with clint := d.clint, uart0 := d.uart0, dev := d.dev }

namespace Periph

def read (sd : Sd) (a : Word) (width : Nat) (d : Periph) : Word × Periph :=
  match mmioFind a with
  | none => (0, d)
  | some device =>
      let (v, m) := device.read sd (a - device.base) width (d.on .boot)
      (v, m.periph)

def write (sd : Sd) (a v : Word) (width : Nat) (d : Periph) : Periph :=
  match mmioFind a with
  | none => d
  | some device => (device.write sd (a - device.base) v width (d.on .boot)).periph

/-- The devices get on with what comes from outside. -/
inductive Moves : Periph → Periph → Prop
  | host (d : Periph) (e : HostEvent) : Moves d (hostStep (d.on .boot) e).periph
  | poll (d : Periph) : Moves d (hypPollHostDevices (d.on .boot)).periph

end Periph

/-- The hart that the monitor emulates. -/
def guestPlatform (sd : Sd) : Platform Periph where
  writable := csrWritable
  timer d := mtipPending d.clint
  external d := meipPending d.dev.plic
  read := Periph.read sd
  write := Periph.write sd
  moves := Periph.Moves

/-! ## The instructions -/

/-- The instructions that trap.  A fault is any instruction whose access to an
address outside the device windows fails. -/
inductive GuestInsn
  | zicsr (i : ZicsrInsn)
  | mret
  | wfi
  | ecall
  | ebreak
  | access (i : MemInsn)
  | fault (store : Bool) (a : Word)

def wordAt (mem : Mem) (pc : Word) : Word := mem.load16 (pc + 2) ++ mem.load16 pc

/-- The address of a load or store. -/
def MemInsn.address (x : Nat → Word) : MemInsn → Word
  | load _ _ rs1 imm => x rs1.toNat + imm.signExtend 32
  | store _ _ rs1 imm => x rs1.toNat + imm.signExtend 32
  | cLw _ rs1 uimm => x (8 + rs1.toNat) + (uimm ++ 0b00#2).setWidth 32
  | cSw _ rs1 uimm => x (8 + rs1.toNat) + (uimm ++ 0b00#2).setWidth 32

def MemInsn.isStore : MemInsn → Bool
  | load .. | cLw .. => false
  | store .. | cSw .. => true

deriving instance DecidableEq for ZicsrInsn

namespace GuestInsn

/-- The instruction is the one at `pc`, with these registers. -/
def At (mem : Mem) (pc : Word) (x : Nat → Word) : GuestInsn → Prop
  | zicsr i => ZicsrInsn.decode (wordAt mem pc) = some i
  | mret => wordAt mem pc = 0x30200073
  | wfi => wordAt mem pc = 0x10500073
  | ecall => wordAt mem pc = 0x00000073
  | ebreak => wordAt mem pc = 0x00100073 ∨ mem.load16 pc = 0x9002
  | access i => i.At mem pc ∧ (mmioFind (i.address x)).isSome = true
  | fault _ a => mmioFind a = none

instance (mem : Mem) (pc : Word) : (i : MemInsn) → Decidable (i.At mem pc)
  | .load .. | .store .. | .cLw .. | .cSw .. => inferInstanceAs (Decidable (_ = _))

instance (mem : Mem) (pc : Word) (x : Nat → Word) : (i : GuestInsn) → Decidable (i.At mem pc x)
  | .zicsr _ | .mret | .wfi | .ecall | .fault _ _ => inferInstanceAs (Decidable (_ = _))
  | .ebreak => inferInstanceAs (Decidable (_ ∨ _))
  | .access _ => inferInstanceAs (Decidable (_ ∧ _))

/-- What a hart in U mode puts into `mcause` and `mtval`. -/
def cause : GuestInsn → Word
  | zicsr _ | mret | wfi => 2
  | ecall => 8
  | ebreak => 3
  | access i => if i.isStore then 7 else 5
  | fault store _ => if store then 7 else 5

def tval (mem : Mem) (pc : Word) (x : Nat → Word) : GuestInsn → Word
  | zicsr _ | mret | wfi => wordAt mem pc
  | ecall => 0
  | ebreak => pc
  | access i => i.address x
  | fault _ a => a

end GuestInsn

namespace ZicsrInsn

/-- The instruction on a hart. -/
def exec (P : Platform Periph) (i : ZicsrInsn) (h : Hart Periph) : Hart Periph :=
  let src := if i.immediate then BitVec.ofNat 32 i.source else h.x i.source
  (h.access P i.csr i.rd i.Writes fun old => i.op.apply old src).next 4

end ZicsrInsn

/-- The instruction on a hart. -/
def MemInsn.exec (P : Platform Periph) (i : MemInsn) (h : Hart Periph) : Hart Periph :=
  match i with
  | load op rd _ _ =>
      (h.load P rd.toNat (i.address h.x) op.access.width op.access.extend).next 4
  | store op rs2 _ _ => (h.store P (i.address h.x) (h.x rs2.toNat) op.access.width).next 4
  | cLw rd _ _ => (h.load P (8 + rd.toNat) (i.address h.x) 4 id).next 2
  | cSw rs2 _ _ => (h.store P (i.address h.x) (h.x (8 + rs2.toNat)) 4).next 2

/-- What the instructions do on a hart of their own. -/
inductive Executes (P : Platform Periph) : GuestInsn → Hart Periph → Hart Periph → Prop
  | zicsr (i h) : Executes P (.zicsr i) h (i.exec P h)
  | mret {mode h} : Privileged.mpp (h.csr Privileged.mstatus) = some mode →
      Executes P .mret h (h.ret mode)
  | wfi {h dev} : h.Resumes P dev → Executes P .wfi h ({ h with dev }.next 4)
  | ecall (h) : Executes P .ecall h (h.trap (if h.mode = .machine then 11 else 8) 0)
  | ebreak (h) : Executes P .ebreak h (h.trap 3 h.pc)
  | access (i h) : Executes P (.access i) h (i.exec P h)
  | fault (store a h) : Executes P (.fault store a) h (h.trap (if store then 7 else 5) a)

/-! ## The guest's hart as such -/

inductive HartAct
  /-- Instructions that do not trap. -/
  | native (mem : Mem) (pc : Word) (x : Nat → Word)
  | insn (i : GuestInsn)
  | devices
  /-- An interrupt is taken, if one is due. -/
  | interrupt

/-- A hart with its memory.  Interrupts are looked for after every instruction that
traps, and at times between the others. -/
inductive HartStep (P : Platform Periph) :
    Mem × Hart Periph → HartAct → Mem × Hart Periph → Prop
  | native {mem h mem' pc x} :
      HartStep P (mem, h) (.native mem' pc x) (mem', { h with pc, x })
  | insn {mem h i h'} : i.At mem h.pc h.x → Executes P i h h' →
      HartStep P (mem, h) (.insn i) (mem, h'.attend P)
  | devices {mem h dev} : P.moves h.dev dev → HartStep P (mem, h) .devices (mem, { h with dev })
  | interrupt {mem h} : HartStep P (mem, h) .interrupt (mem, h.attend P)

/-! ## The guest under the monitor -/

/-- The guest's memory and registers, and the monitor. -/
structure Hosted where
  mem : Mem
  pc : Word
  x : Nat → Word
  mon : Monitor
  panicked : Bool

namespace Hosted

def boot (mem : Mem) (pc : Word) (x : Nat → Word) : Hosted := ⟨mem, pc, x, .boot, false⟩

/-- The trap that `hypervisor` gets. -/
def frame (s : Hosted) (cause tval : Word) : RvExcFrame := ⟨s.pc, s.x, cause, tval⟩

/-- The registers as instructions see them. -/
def regs (x : Nat → Word) (i : Nat) : Word := if i ≠ 0 then x i else 0

/-- The machine after a trap. -/
def after (s : Hosted) (r : Bool × RvExcFrame × Monitor) : Hosted :=
  { s with pc := r.2.1.mepc, x := r.2.1.x, mon := r.2.2, panicked := !r.1 }

end Hosted

inductive HostedEvent
  /-- The guest executes instructions that do not trap, and core 0 writes memory. -/
  | native (mem : Mem) (pc : Word) (x : Nat → Word)
  /-- An instruction traps; the sleeps are those of a `wfi`. -/
  | insn (i : GuestInsn) (sleeps : List (List HostEvent))
  /-- A host interrupt. -/
  | irq (mcause : Word)
  | device (e : HostEvent)

def hostedFire (sd : Sd) (s : Hosted) : HostedEvent → Option Hosted
  | .native mem pc x => if s.panicked then none else some { s with mem, pc, x }
  | .insn i sleeps =>
      if s.panicked = false ∧ i.At s.mem s.pc (Hosted.regs s.x) then
        (hypervisor true s.mem sd sleeps
          (s.frame i.cause (i.tval s.mem s.pc (Hosted.regs s.x))) s.mon).map s.after
      else none
  | .irq mcause =>
      if s.panicked = false ∧ mcause &&& interruptBit ≠ 0 then
        (hypervisor true s.mem sd [] (s.frame mcause 0) s.mon).map s.after
      else none
  | .device e => some { s with mon := hostStep s.mon e }

/-! ## The refinement -/

/-- The hart that a monitor and the guest's registers make up. -/
def Monitor.hart (m : Monitor) (pc : Word) (x : Nat → Word) : Hart Periph :=
  { pc, x := Hosted.regs x, mode := if m.guestPriv = privM then .machine else .user,
    csr := csrStored m, dev := m.periph }

def Hosted.hart (s : Hosted) : Hart Periph := s.mon.hart s.pc s.x

/-- The gate is open only behind a direct trap vector, and in U mode it is open. -/
structure Tame (h : Hart Periph) : Prop where
  user : h.mode = .user → h.gate = true
  vector : h.gate = true →
    h.csr Privileged.mtvec ≠ 0 ∧ h.csr Privileged.mtvec &&& 0x3 = 0

instance (h : Hart Periph) : Decidable (Tame h) :=
  decidable_of_iff ((h.mode = .user → h.gate = true) ∧ (h.gate = true →
      h.csr Privileged.mtvec ≠ 0 ∧ h.csr Privileged.mtvec &&& 0x3 = 0))
    ⟨fun ht => ⟨ht.1, ht.2⟩, fun ht => ⟨ht.1, ht.2⟩⟩

/-- What the guest may do: privileged instructions in M mode, on CSRs that are there and
can be written, returns to a mode and an address that are there, and environment calls in
U mode.  Wherever it may trap it has a direct vector. -/
def Allowed (sd : Sd) (h : Hart Periph) : GuestInsn → Prop
  | .zicsr i => h.mode = .machine ∧ CsrImplemented i.csr ∧ ¬ (i.Writes ∧ i.csr >>> 10 = 3) ∧
      Tame (i.exec (guestPlatform sd) h)
  | .mret => h.mode = .machine ∧ h.csr Privileged.mepc ≠ 0 ∧
      (h.csr Privileged.mstatus).getLsbD 17 = false ∧
        ∃ mode ∈ Privileged.mpp (h.csr Privileged.mstatus), Tame (h.ret mode)
  | .wfi => h.mode = .machine
  | .ecall => h.mode = .user
  | .ebreak | .fault _ _ =>
      h.csr Privileged.mtvec ≠ 0 ∧ h.csr Privileged.mtvec &&& 0x3 = 0
  | .access _ => True

instance (sd : Sd) (h : Hart Periph) : (i : GuestInsn) → Decidable (Allowed sd h i)
  | .zicsr _ | .mret | .ebreak | .fault _ _ => inferInstanceAs (Decidable (_ ∧ _))
  | .wfi | .ecall => inferInstanceAs (Decidable (_ = _))
  | .access _ => .isTrue trivial

def GuestStep (sd : Sd) (s : Hosted) : HostedEvent → Prop
  | .insn i _ => Allowed sd s.hart i
  | _ => True

instance (sd : Sd) (s : Hosted) : (e : HostedEvent) → Decidable (GuestStep sd s e)
  | .insn i _ => inferInstanceAs (Decidable (Allowed sd s.hart i))
  | .native _ _ _ | .irq _ | .device _ => .isTrue trivial

/-- What the hart does meanwhile. -/
def hartActs : HostedEvent → List HartAct
  | .native mem pc x => [.native mem pc (Hosted.regs x)]
  | .insn i _ => [.insn i]
  | .irq _ => [.devices, .interrupt]
  | .device _ => [.devices]

end P4Hyp
