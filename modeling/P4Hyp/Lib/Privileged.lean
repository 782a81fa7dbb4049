import Mathlib.Logic.Function.Basic
import Mathlib.Logic.Relation
import P4Hyp.Lib.Memory

/-!
# A hart with M and U modes

The machine-level part of a RISC-V hart: trap entry, `mret`, the CSR
instructions and the choice of an interrupt, over arbitrary devices.  What the
privileged architecture leaves to the implementation is in `Platform`.
-/

namespace P4Hyp

namespace Privileged

inductive Mode
  | user
  | machine
  deriving DecidableEq

structure Hart (δ : Type*) where
  pc : Word
  x : Nat → Word
  mode : Mode
  csr : Word → Word
  dev : δ

/-- The devices and the CSRs as an implementation has them. -/
structure Platform (δ : Type*) where
  /-- The bits of a CSR that a write reaches. -/
  writable : Word → Word
  /-- The lines behind MTIP and MEIP. -/
  timer : δ → Bool
  external : δ → Bool
  read : Word → Nat → δ → Word × δ
  write : Word → Word → Nat → δ → δ
  /-- The devices go on by themselves. -/
  moves : δ → δ → Prop

def mstatus : Word := 0x300
def mie : Word := 0x304
def mtvec : Word := 0x305
def mepc : Word := 0x341
def mcause : Word := 0x342
def mtval : Word := 0x343
def mip : Word := 0x344

/-! ## The fields of `mstatus` -/

/-- Bit `n` of a word, replaced. -/
def put (n : Nat) (b : Bool) (w : Word) : Word :=
  if b then w ||| 1#32 <<< n else w &&& ~~~(1#32 <<< n)

theorem getLsbD_put {n i : Nat} (b : Bool) (w : Word) (hi : i < 32) :
    (put n b w).getLsbD i = if i = n then b else w.getLsbD i := by
  have hone : (1#32 <<< n).getLsbD i = decide (i = n) := by
    rw [BitVec.getLsbD_shiftLeft, BitVec.getLsbD_one]
    grind
  unfold put
  split
  · rw [BitVec.getLsbD_or, hone]
    grind
  · rw [BitVec.getLsbD_and, BitVec.getLsbD_not, hone]
    grind

theorem put_getLsbD {n : Nat} {b : Bool} {w : Word} (h : w.getLsbD n = b) : put n b w = w := by
  apply BitVec.eq_of_getLsbD_eq
  intro i hi
  rw [getLsbD_put b w hi]
  split
  · rename_i he
    rw [he, h]
  · rfl

/-- The mode in MPP, if it is one that the hart has. -/
def mpp (status : Word) : Option Mode :=
  match status.getLsbD 12, status.getLsbD 11 with
  | false, false => some .user
  | true, true => some .machine
  | _, _ => none

/-- A trap from `mode`: MIE goes to MPIE and is cleared, and MPP gets the mode. -/
def enter (mode : Mode) (status : Word) : Word :=
  put 12 (mode = .machine) (put 11 (mode = .machine) (put 3 false (put 7 (status.getLsbD 3) status)))

/-- An `mret` to `mode`: MPIE goes to MIE and is set, MPP becomes U, and MPRV is
cleared on the way to U mode. -/
def leave (mode : Mode) (status : Word) : Word :=
  let status := put 12 false (put 11 false (put 7 true (put 3 (status.getLsbD 7) status)))
  if mode = .machine then status else put 17 false status

/-- The address of the handler, in direct and in vectored mode. -/
def vector (tvec cause : Word) : Word :=
  if tvec &&& 0x3 = 1 ∧ cause.msb then (tvec &&& ~~~3#32) + cause <<< 2 else tvec &&& ~~~3#32

namespace Hart

variable {δ : Type*} (P : Platform δ)

def setCsr (n v : Word) (h : Hart δ) : Hart δ := { h with csr := Function.update h.csr n v }

def setReg (i : Nat) (v : Word) (h : Hart δ) : Hart δ :=
  if i = 0 then h else { h with x := Function.update h.x i v }

/-- The instruction of `n` bytes at `pc` is done. -/
def next (n : Word) (h : Hart δ) : Hart δ := { h with pc := h.pc + n }

/-- MTIP and MEIP are the lines of the devices. -/
def pending (h : Hart δ) : Word := put 11 (P.external h.dev) (put 7 (P.timer h.dev) (h.csr mip))

def readCsr (n : Word) (h : Hart δ) : Word := if n = mip then h.pending P else h.csr n

def writeCsr (n v : Word) (h : Hart δ) : Hart δ := h.setCsr n (v &&& P.writable n)

/-- The global interrupt enable. -/
def gate (h : Hart δ) : Bool := (h.csr mstatus).getLsbD 3

/-! ## Traps and returns -/

def trap (cause tval : Word) (h : Hart δ) : Hart δ :=
  { (((h.setCsr mstatus (enter h.mode (h.csr mstatus))).setCsr mepc h.pc).setCsr mcause cause).setCsr
      mtval tval with
    pc := vector (h.csr mtvec) cause, mode := .machine }

def ret (mode : Mode) (h : Hart δ) : Hart δ :=
  { h.setCsr mstatus (leave mode (h.csr mstatus)) with pc := h.csr mepc, mode }

/-- The interrupt enabled and pending that comes first: external, software,
timer. -/
def enabled (h : Hart δ) : Option Nat :=
  [11, 3, 7].find? fun n => (h.csr mie &&& h.pending P).getLsbD n

/-- In M mode the gate has to be open. -/
def due (h : Hart δ) : Option Nat :=
  if h.mode = .machine ∧ h.gate = false then none else h.enabled P

/-- Take the interrupt that is due. -/
def attend (h : Hart δ) : Hart δ :=
  match h.due P with
  | none => h
  | some n => h.trap (0x80000000 ||| BitVec.ofNat 32 n) 0

/-! ## Accesses -/

/-- A CSR instruction, by what it makes of the old value. -/
def access (n : Word) (rd : Nat) (writes : Bool) (f : Word → Word) (h : Hart δ) : Hart δ :=
  (if writes then h.writeCsr P n (f (h.readCsr P n)) else h).setReg rd (h.readCsr P n)

/-- A load of `width` bytes, of which `extend` makes the value of the register. -/
def load (rd : Nat) (a : Word) (width : Nat) (extend : Word → Word) (h : Hart δ) : Hart δ :=
  let (v, dev) := P.read a width h.dev
  { h with dev }.setReg rd (extend v)

def store (a v : Word) (width : Nat) (h : Hart δ) : Hart δ :=
  { h with dev := P.write a v width h.dev }

/-- The end of a `wfi`: at once, or when the devices have made an enabled interrupt
pending, whatever the gate. -/
def Resumes (h : Hart δ) (dev : δ) : Prop :=
  dev = h.dev ∨
    Relation.ReflTransGen P.moves h.dev dev ∧ ({ h with dev }.enabled P).isSome = true

end Hart

end Privileged

end P4Hyp
