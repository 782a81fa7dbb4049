import P4Hyp.Lib.Memory

/-!
# Instruction fetch, decode and register access

A trap carries the guest's registers by value.  The encoding and the length of
the instruction are only valid after `trap_decode`, and the length is zero until
then.
-/

namespace P4Hyp

/-- What the trap entry saves: `mepc`, `x1` to `x31`, and the cause. -/
structure RvExcFrame where
  mepc : Word
  x : Nat → Word
  mcause : Word
  mtval : Word

def regRead (frame : RvExcFrame) (index : Nat) : Word := if index ≠ 0 then frame.x index else 0

def regWrite (index : Nat) (value : Word) (frame : RvExcFrame) : RvExcFrame :=
  if index ≠ 0 then { frame with x := fun i => if i = index then value else frame.x i }
  else frame

structure GuestTrap where
  frame : RvExcFrame
  cause : Word
  tval : Word
  encoding : Word
  length : Word

inductive TrapResult
  | unhandled
  | advance
  | resume
  deriving DecidableEq

/-- Bits `lo` to `lo + n - 1` of an instruction. -/
def field (x : Word) (lo n : Nat) : Nat := (x.extractLsb' lo n).toNat

/-- The encoding and length of the instruction at `mepc`, by halfwords. -/
def guestFetch (mem : Mem) (mepc : Word) : Option (Word × Word) :=
  let low := (mem.load16 mepc).setWidth 32
  if low &&& 0x3 ≠ 0x3 then some (low, 2)
  else if low &&& 0x1f = 0x1f then none
  else some (low ||| (mem.load16 (mepc + 2)).setWidth 32 <<< 16, 4)

/-- `c.lw` and `c.sw` as the 32-bit instructions they stand for, 0 for any other
encoding. -/
def rvcExpand (c : Word) : Word :=
  if c &&& 0x3 ≠ 0x0 then 0
  else
    let rs1 := 8 + ((c >>> 7) &&& 0x7)
    let rx := 8 + ((c >>> 2) &&& 0x7)
    let off := ((c >>> 10) &&& 0x7) <<< 3 ||| ((c >>> 6) &&& 0x1) <<< 2 ||| ((c >>> 5) &&& 0x1) <<< 6
    if (c >>> 13) &&& 0x7 = 0x2 then
      off <<< 20 ||| rs1 <<< 15 ||| 0x2 <<< 12 ||| rx <<< 7 ||| 0x03
    else if (c >>> 13) &&& 0x7 = 0x6 then
      (off >>> 5) <<< 25 ||| rx <<< 20 ||| rs1 <<< 15 ||| 0x2 <<< 12 ||| (off &&& 0x1f) <<< 7 ||| 0x23
    else 0

/-- `trap_decode`: the trap with its encoding and length filled in. -/
def trapDecode (mem : Mem) (trap : GuestTrap) : Option GuestTrap :=
  if trap.cause = 2 then
    some { trap with encoding := trap.tval, length := if trap.tval &&& 0x3 = 0x3 then 4 else 2 }
  else
    match guestFetch mem trap.frame.mepc with
    | none => none
    | some (encoding, length) =>
        if length = 2 then
          if rvcExpand encoding = 0 then none
          else some { trap with encoding := rvcExpand encoding, length }
        else some { trap with encoding, length }

/-- Decoding fills in the length of an instruction. -/
theorem trapDecode_length {mem : Mem} {trap trap' : GuestTrap}
    (h : trapDecode mem trap = some trap') :
    trap'.length = 2 ∨ trap'.length = 4 := by
  unfold trapDecode at h
  split at h
  · obtain rfl := Option.some.inj h
    show (if _ then _ else _) = _ ∨ (if _ then _ else _) = _
    split
    · exact .inr rfl
    · exact .inl rfl
  · split at h
    · cases h
    · rename_i encoding length hf
      have hl : length = 2 ∨ length = 4 := by
        unfold guestFetch at hf
        dsimp only at hf
        split at hf
        · exact .inl (Prod.mk.inj (Option.some.inj hf)).2.symm
        · split at hf
          · cases hf
          · exact .inr (Prod.mk.inj (Option.some.inj hf)).2.symm
      split at h
      · split at h
        · cases h
        · obtain rfl := Option.some.inj h
          exact hl
      · obtain rfl := Option.some.inj h
        exact hl

end P4Hyp
