import P4Hyp.Lib.Slice
import P4Hyp.Lib.Utf8
import P4Hyp.Romfs.Node

/-!
# Writing a romfs image
-/

namespace P4Hyp.Romfs

/-- Why a script stops: an exception, an assertion, or no fuel. -/
inductive Stop
  | structError
  | valueError
  | unicodeDecodeError
  | assertion (text : Str)
  | fuel

/-- `struct.pack(">I", n)` -/
def pack (n : Nat) : Except Stop (List Byte) :=
  if n < 2 ^ 32 then .ok (be32 (BitVec.ofNat 32 n)) else .error .structError

namespace Node

variable (n : Node)

def diskSpec : Nat := if n.kind % 8 = Kind.chr ∨ n.kind % 8 = Kind.blk then n.specDev else n.spec

def paddedName : List Byte :=
  let name := encode n.name ++ [0]
  name ++ List.replicate (n.hdrLen - 16 - name.length) 0

def paddedData : List Byte := n.data ++ List.replicate (pad16 n.data.length - n.data.length) 0

end Node

def emit (buf : List Byte) (node : Node) : Except Stop (List Byte) := do
  let block := (← pack (node.nxt ||| node.kind)) ++ (← pack node.diskSpec) ++
    (← pack node.data.length) ++ be32 0 ++ node.paddedName
  if block.length % 4 ≠ 0 then throw .structError
  let block := setSlice block 12 (be32 (checksum block))
  let buf := setSlice buf node.off block
  return setSlice buf (node.off + node.hdrLen) node.paddedData

def magic : List Byte := [45, 114, 111, 109, 49, 102, 115, 45]

def mkromfs (root : Tree) (volume : Str) : Except Stop (List Byte) := do
  match layout root volume with
  | none => throw .fuel
  | some (flat, size) =>
      let buf := setSlice (List.replicate size 0) 0 magic
      let buf := setSlice buf 8 (← pack size)
      let buf := setSlice buf 16 (encode volume ++ [0])
      let buf ← flat.foldlM emit buf
      let span := buf.take (min size 512)
      if span.length % 4 ≠ 0 then throw .structError
      return setSlice buf 12 (be32 (checksum span))

end P4Hyp.Romfs
