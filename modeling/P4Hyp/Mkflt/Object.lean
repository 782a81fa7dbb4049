import P4Hyp.Lib.Text

/-!
# The object file

What `mkflt.lua` reads of it.  Integers have 32 bits on the board: they wrap,
and they are compared with their sign.
-/

namespace P4Hyp.Mkflt

/-- How the script stops early: with a message of its own, or on an error of Lua's. -/
inductive Fault
  | die (text : Str)
  | lua
  deriving DecidableEq

def dec (v : Word) : Str :=
  (if v.toInt < 0 then ['-'] else []) ++ Nat.toDigits 10 v.toInt.natAbs

def hex (v : Word) : Str := Nat.toDigits 16 v.toNat

/-! ## Bytes -/

section Bytes

variable (d : List Byte)

/-- `d:byte(o + 1)`: a position below zero counts from the end. -/
def u8 (o : Word) : Except Fault Word :=
  let i := (o + 1).toInt
  let byte := if 0 < i then d[i.toNat - 1]?
    else if i < 0 ∧ -(d.length : Int) ≤ i then d[(d.length + i).toNat]?
    else none
  match byte with
  | some b => .ok (b.setWidth 32)
  | none => .error .lua

def u16 (o : Word) : Except Fault Word := do
  return (← u8 d o) ||| ((← u8 d (o + 1)) <<< 8)

def u32 (o : Word) : Except Fault Word := do
  return (← u8 d o) ||| ((← u8 d (o + 1)) <<< 8) ||| ((← u8 d (o + 2)) <<< 16) |||
    ((← u8 d (o + 3)) <<< 24)

def s32 (o : Word) : Except Fault Word := do
  let v ← u32 d o
  -- both constants wrap: the comparison always holds, and nothing is taken away
  return if (0x80000000 : Word).toInt ≤ v.toInt then v - 0x100000000 else v

/-- `d:sub(i):match("^[^%z]*")` -/
def cString (i : Word) : Str :=
  let from' := if 0 < i.toInt then d.drop (i.toNat - 1)
    else if i.toInt < 0 ∧ -(d.length : Int) ≤ i.toInt then d.drop (d.length + i.toInt).toNat
    else d
  (from'.takeWhile (· ≠ 0)).map chr

end Bytes

/-! ## Sections -/

def shtSymtab : Word := 2
def shtRela : Word := 4
def shtNobits : Word := 8
def shtRel : Word := 9
def shfAlloc : Word := 0x2
def shnUndef : Word := 0
def shnAbs : Word := 0xfff1
def emRiscv : Word := 243
def etRel : Word := 1

structure Section where
  name : Str
  type : Word
  flags : Word
  offset : Word
  size : Word
  link : Word
  info : Word
  align : Word
  entsize : Word

/-- An object whose headers have been read, with the file itself. -/
structure Object where
  d : List Byte
  sec : List Section

def readSection (d : List Byte) (shstr o : Word) : Except Fault Section := do
  let name := cString d (shstr + (← u32 d o) + 1)
  let type ← u32 d (o + 4)
  let flags ← u32 d (o + 8)
  let offset ← u32 d (o + 16)
  let size ← u32 d (o + 20)
  let link ← u32 d (o + 24)
  let info ← u32 d (o + 28)
  let align ← u32 d (o + 32)
  let entsize ← u32 d (o + 36)
  return { name, type, flags, offset, size, link, info, align, entsize }

def readObject (d : List Byte) (obj : Str) : Except Fault Object := do
  if d.length < 52 ∨ d.take 4 ≠ [127, 69, 76, 70] then
    throw (.die (obj ++ " is not an ELF file".toList))
  if (← u8 d 4) ≠ 1 then throw (.die (obj ++ " is not ELF32".toList))
  if (← u8 d 5) ≠ 1 then throw (.die (obj ++ " is not little-endian".toList))
  if (← u16 d 16) ≠ etRel then
    throw (.die (obj ++ " is not a relocatable object (as leaves ET_REL; this is type ".toList ++
      dec (← u16 d 16) ++ ")".toList))
  if (← u16 d 18) ≠ emRiscv then throw (.die (obj ++ " is not RISC-V".toList))
  let shoff ← u32 d 32
  let shentsize ← u16 d 46
  let shnum ← u16 d 48
  let shstrndx ← u16 d 50
  if shoff = 0 ∨ shnum = 0 then throw (.die (obj ++ " has no section headers".toList))
  let shstr ← u32 d (shoff + shstrndx * shentsize + 16)
  let sec ← (List.range shnum.toNat).mapM fun n =>
    readSection d shstr (shoff + BitVec.ofNat 32 n * shentsize)
  return { d, sec }

end P4Hyp.Mkflt
