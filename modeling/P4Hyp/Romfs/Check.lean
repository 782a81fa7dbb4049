import P4Hyp.Romfs.Emit

/-!
# Reading a romfs image

The checker's reader.  The name of an entry comes from the entry itself, what it
refers to from following the hard links.
-/

namespace P4Hyp.Romfs

/-- `bytes.decode` -/
def decode : List Byte → Except Stop Str
  | [] => .ok []
  | a :: l =>
      if a.toNat < 0x80 then return chr a :: (← decode l)
      else match l with
        | b :: l =>
            match utf8Char [a, b] with
            | some c => return c :: (← decode l)
            | none =>
                match l with
                | c :: l =>
                    match utf8Char [a, b, c] with
                    | some c => return c :: (← decode l)
                    | none =>
                        match l with
                        | d :: l =>
                            match utf8Char [a, b, c, d] with
                            | some c => return c :: (← decode l)
                            | none => throw .unicodeDecodeError
                        | [] => throw .unicodeDecodeError
                | [] => throw .unicodeDecodeError
        | [] => throw .unicodeDecodeError

/-- `img.index(b"\0", pos)` -/
def indexNul (img : List Byte) (pos : Nat) : Except Stop Nat :=
  match (img.drop pos).findIdx? (· == 0) with
  | some i => .ok (pos + i)
  | none => .error .valueError

structure Hdr where
  nxt : Nat
  spec : Nat
  sz : Nat
  name : Str

section Reader

variable (img : List Byte)

def hdr (pos : Nat) : Except Stop Hdr :=
  match (img.drop pos).take 16 with
  | [a, b, c, d, e, f, g, h, i, j, k, l, _, _, _, _] => do
      let stop ← indexNul img (pos + 16)
      let name ← decode ((img.drop (pos + 16)).take (stop - (pos + 16)))
      return { nxt := ofBe32 a b c d, spec := ofBe32 e f g h, sz := ofBe32 i j k l, name }
  | _ => .error .structError

/-- `& ~15` -/
def mask15 (n : Nat) : Nat := n / 16 * 16

/-- The inode behind the hard links: where it is, and its header. -/
def resolve : Nat → Nat → Except Stop (Nat × Hdr)
  | 0, _ => .error .fuel
  | fuel + 1, pos => do
      let h ← hdr img pos
      if h.nxt % 8 ≠ Kind.hrd then return (pos, h) else resolve fuel (mask15 h.spec)

def data (pos sz : Nat) : Except Stop (List Byte) := do
  let name := (← hdr img pos).name
  let skip := pad16 (16 + name.length + 1)
  return (img.drop (pos + skip)).take sz

inductive Found
  | dir
  | sym (data : List Byte)
  | reg (data : List Byte)
  | other
  deriving DecidableEq

/-- A dictionary by paths. -/
abbrev Dict := Str → Option Found

def Dict.set (found : Dict) (path : Str) (x : Found) :
    Dict := fun p => if p = path then some x else found p

mutual

def walk (size : Nat) : Nat → Nat → Str → Nat → Dict → Except Stop Dict
  | 0, _, _, _, _ => .error .fuel
  | fuel + 1, pos, path, depth, found => do
      if ¬ depth < 40 then throw (.assertion ("runaway at ".toList ++ path))
      let (_, dir) ← resolve img fuel pos
      entries size fuel (mask15 dir.spec) path depth found

/-- The loop over the entries of a directory. -/
def entries (size : Nat) : Nat → Nat → Str → Nat → Dict → Except Stop Dict
  | 0, _, _, _, _ => .error .fuel
  | fuel + 1, off, path, depth, found =>
      if off ≠ 0 ∧ off < size then do
        let entry ← hdr img off
        let (tpos, target) ← resolve img fuel off
        let kind := target.nxt % 8
        let full := path ++ '/' :: entry.name
        let found ←
          if entry.name = ['.'] ∨ entry.name = ['.', '.'] then pure found
          else if kind = Kind.dir then walk size fuel tpos full (depth + 1) (found.set full .dir)
          else if kind = Kind.sym then do
            pure (found.set full (.sym (← data img tpos target.sz)))
          else if kind = Kind.reg then do
            pure (found.set full (.reg (← data img tpos target.sz)))
          else pure (found.set full .other)
        entries size fuel (mask15 entry.nxt) path depth found
      else return found

end

end Reader

/-- What the checker finds in an image, when it accepts it. -/
def checkromfs (img : List Byte) (fuel : Nat) : Except Stop Dict := do
  if img.take 8 ≠ magic then throw (.assertion "bad magic".toList)
  match (img.drop 8).take 4 with
  | [a, b, c, d] => do
      let size := ofBe32 a b c d
      if size ≠ img.length then
        throw (.assertion ("size ".toList ++ Nat.toDigits 10 size ++ " != file ".toList ++
          Nat.toDigits 10 img.length))
      let span := img.take (min size 512)
      if span.length % 4 ≠ 0 then throw .structError
      if (beWords span).sum % 2 ^ 32 ≠ 0 then
        throw (.assertion "superblock checksum != 0".toList)
      let nlen := (← indexNul img 16) - 16
      let root := pad16 (16 + nlen + 1)
      walk img size fuel root [] 0 (fun _ => none)
  | _ => throw .structError

/-! ## The superblock -/

/-- The magic number, the size and the checksum are what the checker asserts. -/
structure Passes (img : List Byte) : Prop where
  magic : img.take 8 = magic
  length : img.length < 2 ^ 32
  size : (img.drop 8).take 4 = be32 (BitVec.ofNat 32 img.length)
  words : (img.take (min img.length 512)).length % 4 = 0
  checksum : (beWords (img.take (min img.length 512))).sum % 2 ^ 32 = 0

/-- Where the checker takes the root to be, behind the name of the volume. -/
def rootOf (img : List Byte) : Except Stop Nat := do
  let nlen := (← indexNul img 16) - 16
  return pad16 (16 + nlen + 1)

/-- Behind the assertions there is only the walk. -/
theorem Passes.checkromfs {img : List Byte} (h : Passes img) (fuel : Nat) :
    checkromfs img fuel = (do walk img img.length fuel (← rootOf img) [] 0 fun _ => none) := by
  have hsize : (BitVec.ofNat 32 img.length).toNat = img.length := by
    rw [BitVec.toNat_ofNat, Nat.mod_eq_of_lt h.length]
  unfold Romfs.checkromfs rootOf
  rw [if_neg (not_not.2 h.magic), h.size]
  simp only [be32]
  rw [ofBe32_be32, hsize, if_neg (not_not.2 rfl), if_neg (not_not.2 h.words),
    if_neg (not_not.2 h.checksum)]
  cases indexNul img 16 with
  | error e => rfl
  | ok stop => rfl

end P4Hyp.Romfs
