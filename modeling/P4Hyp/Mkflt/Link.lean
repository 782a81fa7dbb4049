import P4Hyp.Lib.Slice
import P4Hyp.Mkflt.Encode
import P4Hyp.Mkflt.Layout

/-!
# Linking

The image, the symbols, the relocations and the file that is written.
-/

namespace P4Hyp.Mkflt

def die {α : Type} (text : Str) : Except Fault α := .error (.die text)

/-! ## The image -/

/-- The table of bytes: what its entries hold, and which of them there are. -/
structure Image where
  byte : Mem
  set : Word → Bool

namespace Image

variable (im : Image)

/-- `for n = 0, image_len - 1 do image[n + 1] = 0 end` -/
def blank (imageLen : Word) : Image :=
  { byte := fun _ => 0, set := fun x => decide (0 ≤ x.toInt ∧ x.toInt ≤ (imageLen - 1).toInt) }

def blit (b : Word) (bytes : List Byte) : Image :=
  { byte := im.byte.fill b bytes.length fun i => bytes.getD i 0
    set := fun x => im.set x || decide (Covers b bytes.length x) }

def rd32 (off : Word) : Except Fault Word :=
  if im.set off && im.set (off + 1) && im.set (off + 2) && im.set (off + 3) then
    .ok (im.byte.load32 off)
  else .error .lua

def wr32 (off v : Word) : Image :=
  { byte := im.byte.store32 off v, set := fun x => im.set x || decide (Covers off 4 x) }

/-- `string.char(table.unpack(image, k, last))` -/
def unpack (k last : Word) : List Byte :=
  (List.range (last.toInt - k.toInt + 1).toNat).map fun i => im.byte (k - 1 + BitVec.ofNat 32 i)

def blob (imageLen : Word) : List Byte :=
  (List.range ((imageLen.toInt + 199).fdiv 200).toNat).flatMap fun j =>
    let k := 1 + 200 * BitVec.ofNat 32 j
    let last := k + 199
    im.unpack k (if imageLen.toInt < last.toInt then imageLen else last)

end Image

/-- What comes of one run of `objcopy`. -/
inductive Dump
  | failed
  | nothing
  | wrote (bytes : List Byte)

def copySection (o : Object) (objcopy : Str → Dump) (im : Image) (p : Section × Nat) :
    Except Fault Image :=
  match o.base p.2 with
  | none => .ok im
  | some b =>
      if p.1.isNobits then .ok im
      else match objcopy p.1.name with
        | .failed => die ("objcopy failed on section ".toList ++ p.1.name)
        | .nothing => die ("objcopy wrote nothing for ".toList ++ p.1.name)
        | .wrote bytes =>
            if bytes.length ≠ p.1.size.toNat then
              die ("objcopy gave ".toList ++ Nat.toDigits 10 bytes.length ++ " bytes for ".toList ++
                p.1.name ++ ", section header says ".toList ++ dec p.1.size)
            else .ok (im.blit b bytes)

/-! ## Symbols -/

structure Symbol where
  name : Str
  value : Word
  shndx : Word
  addr : Option Word
  deriving DecidableEq

namespace Object

variable (o : Object)

def symtab : Option Section := (o.sec.filter fun s => s.type == shtSymtab).getLast?

def symName (symtab : Section) (off : Word) : Except Fault Str :=
  match o.sec[symtab.link.toNat]? with
  | none => .error .lua
  | some strtab => .ok (cString o.d (strtab.offset + off + 1))

/-- `addr` of a symbol; what has no base keeps its value. -/
def addrOf (shndx value : Word) : Option Word :=
  if shndx = shnAbs then some value
  else if shndx = shnUndef then none
  else match o.base shndx.toNat with
    | some b => some (b + value)
    | none => some value

def symbol (symtab : Section) (k : Nat) : Except Fault Symbol := do
  let p := symtab.offset + BitVec.ofNat 32 k * 16
  let shndx ← u16 o.d (p + 14)
  let value ← u32 o.d (p + 4)
  let addr := o.addrOf shndx value
  let name ← o.symName symtab (← u32 o.d p)
  return { name, value, shndx, addr }

def symbols (obj : Str) : Except Fault (List Symbol) :=
  match o.symtab with
  | none => die (obj ++ " has no symbol table".toList)
  | some symtab => (List.range (symtab.size.toInt.fdiv 16).toNat).mapM (o.symbol symtab)

end Object

def symAddr (sym : List Symbol) (obj : Str) (k : Word) : Except Fault Word :=
  match sym[k.toNat]? with
  | none => die ("relocation names symbol ".toList ++ dec k ++ ", which does not exist".toList)
  | some s =>
      match s.addr with
      | some a => .ok a
      | none =>
          die ("undefined symbol '".toList ++ (if s.name ≠ [] then s.name else '#' :: dec k) ++
            ("'.\nmkflt.lua: there is no linker and no libraries here -- every symbol must be\n" ++
              "mkflt.lua: defined in ").toList ++ obj ++ " itself.".toList)

/-! ## Relocations -/

/-- The types in the table of the script, and all the others. -/
inductive R
  | none | rv32 | branch | jal | call | callPlt | gotHi20 | pcrelHi20 | pcrelLo12I | pcrelLo12S
  | hi20 | lo12I | lo12S | add8 | add16 | add32 | sub8 | sub16 | sub32 | align | rvcBranch | rvcJump
  | relax | sub6 | set6 | set8 | set16 | set32 | rv32Pcrel
  | unlisted (n : Nat)
  deriving DecidableEq

def R.ofNumber : Nat → R
  | 0 => .none
  | 1 => .rv32
  | 16 => .branch
  | 17 => .jal
  | 18 => .call
  | 19 => .callPlt
  | 20 => .gotHi20
  | 23 => .pcrelHi20
  | 24 => .pcrelLo12I
  | 25 => .pcrelLo12S
  | 26 => .hi20
  | 27 => .lo12I
  | 28 => .lo12S
  | 33 => .add8
  | 34 => .add16
  | 35 => .add32
  | 37 => .sub8
  | 38 => .sub16
  | 39 => .sub32
  | 43 => .align
  | 44 => .rvcBranch
  | 45 => .rvcJump
  | 51 => .relax
  | 52 => .sub6
  | 53 => .set6
  | 54 => .set8
  | 55 => .set16
  | 56 => .set32
  | 57 => .rv32Pcrel
  | n => .unlisted n

/-- `RNAME`, where the script asks for it. -/
def R.text : R → Str
  | .add8 => "R_RISCV_ADD8".toList
  | .add16 => "R_RISCV_ADD16".toList
  | .sub8 => "R_RISCV_SUB8".toList
  | .sub16 => "R_RISCV_SUB16".toList
  | .sub6 => "R_RISCV_SUB6".toList
  | .set6 => "R_RISCV_SET6".toList
  | .set8 => "R_RISCV_SET8".toList
  | .set16 => "R_RISCV_SET16".toList
  | .rvcBranch => "R_RISCV_RVC_BRANCH".toList
  | .rvcJump => "R_RISCV_RVC_JUMP".toList
  | .pcrelLo12I => "R_RISCV_PCREL_LO12_I".toList
  | .pcrelLo12S => "R_RISCV_PCREL_LO12_S".toList
  | _ => "type".toList

structure Reloc where
  target : Nat
  off : Word
  site : Word
  number : Word
  sym : Word
  addend : Word
  deriving DecidableEq

def Reloc.type (r : Reloc) : R := R.ofNumber r.number.toNat

namespace Object

variable (o : Object)

def entrySize (s : Section) : Word := if s.type = shtRela then 12 else 8

/-- The entries of the tables that apply to a placed section, with its base. -/
def entries : List (Section × Word × Nat) :=
  o.sec.flatMap fun s =>
    if s.type = shtRela ∨ s.type = shtRel then
      match o.base s.info.toNat with
      | none => []
      | some b => (List.range (s.size.toInt.fdiv (entrySize s).toInt).toNat).map fun k => (s, b, k)
    else []

def readAddend (s : Section) (p : Word) : Except Fault Word :=
  if s.type = shtRela then s32 o.d (p + 8) else .ok 0

def readReloc (e : Section × Word × Nat) : Except Fault Reloc := do
  let s := e.1
  let p := s.offset + BitVec.ofNat 32 e.2.2 * entrySize s
  let off ← u32 o.d p
  let info ← u32 o.d (p + 4)
  let addend ← o.readAddend s p
  return { target := s.info.toNat, off, site := e.2.1 + off, number := info &&& 0xff,
           sym := (info >>> 8) &&& 0xffffff, addend }

def relocs : Except Fault (List Reloc) := o.entries.mapM o.readReloc

end Object

structure Linking where
  image : Image
  hi20At : Word → Option Word

def Linking.write (st : Linking) (off v : Word) : Linking :=
  { st with image := st.image.wr32 off v }

def atOffset (site : Word) : Str := " at image offset 0x".toList ++ hex site

def checkRange (v : Word) (bits : Nat) (what : String) (off : Word) : Except Fault Unit :=
  let limit := (1 : Word) <<< (bits - 1)
  if limit.toInt ≤ v.toInt ∨ v.toInt < (-limit).toInt then
    die (what.toList ++ atOffset off ++ " is ".toList ++ dec v ++ " bytes away, out of ".toList ++
      Nat.toDigits 10 bits ++
      "-bit range.\nmkflt.lua: a linker would relax this; there is no linker.".toList)
  else .ok ()

def relocate (sym : List Symbol) (obj : Str) (st : Linking) (r : Reloc) : Except Fault Linking :=
  match r.type with
  | .none | .relax => .ok st
  | .rv32 =>
      let name (d : String) := (sym[r.sym.toNat]?.map Symbol.name).getD d.toList
      die ("R_RISCV_32".toList ++ atOffset r.site ++
        ": a stored pointer (.word ".toList ++ name "?" ++
        (").\nmkflt.lua: that needs a load-time relocation, which a single-segment flat binary " ++
          "cannot have.\nmkflt.lua: compute the address at run time instead:  lla reg, ").toList ++
        name "sym")
  | .rv32Pcrel => do
      let a ← symAddr sym obj r.sym
      return st.write r.site (a + r.addend - r.site)
  | .gotHi20 =>
      die ("R_RISCV_GOT_HI20".toList ++ atOffset r.site ++
        (".\nmkflt.lua: \x60la\x60 under .option pic needs a global offset table, and a flat\n" ++
          "mkflt.lua: binary built this way has none. Use \x60lla\x60.").toList)
  | .pcrelHi20 => do
      let v := (← symAddr sym obj r.sym) + r.addend - r.site
      let st := { st with hi20At := fun x => if x = r.site then some v else st.hi20At x }
      return st.write r.site (putU (← st.image.rd32 r.site) (hi20 v))
  | .pcrelLo12I | .pcrelLo12S => do
      let site ← symAddr sym obj r.sym
      match st.hi20At site with
      | none =>
          die (r.type.text ++ " at 0x".toList ++ hex r.site ++ " refers to 0x".toList ++ hex site ++
            ", which is not a PCREL_HI20 site".toList)
      | some v =>
          let lo := v - (hi20 v <<< 12)
          if r.type = .pcrelLo12I then return st.write r.site (putI (← st.image.rd32 r.site) lo)
          else return st.write r.site (putS (← st.image.rd32 r.site) lo)
  | .hi20 => do
      let v := (← symAddr sym obj r.sym) + r.addend
      return st.write r.site (putU (← st.image.rd32 r.site) (hi20 v))
  | .lo12I => do
      let v := (← symAddr sym obj r.sym) + r.addend
      return st.write r.site (putI (← st.image.rd32 r.site) (v - (hi20 v <<< 12)))
  | .lo12S => do
      let v := (← symAddr sym obj r.sym) + r.addend
      return st.write r.site (putS (← st.image.rd32 r.site) (v - (hi20 v <<< 12)))
  | .branch => do
      let v := (← symAddr sym obj r.sym) + r.addend - r.site
      checkRange v 13 "branch" r.site
      return st.write r.site (putB (← st.image.rd32 r.site) v)
  | .jal => do
      let v := (← symAddr sym obj r.sym) + r.addend - r.site
      checkRange v 21 "jal" r.site
      return st.write r.site (putJ (← st.image.rd32 r.site) v)
  | .call | .callPlt => do
      let v := (← symAddr sym obj r.sym) + r.addend - r.site
      let st := st.write r.site (putU (← st.image.rd32 r.site) (hi20 v))
      return st.write (r.site + 4) (putI (← st.image.rd32 (r.site + 4)) (v - (hi20 v <<< 12)))
  | .add8 | .add16 | .add32 | .sub8 | .sub16 | .sub32 | .sub6 | .set6 | .set8 | .set16
    | .set32 => do
      let v := (← symAddr sym obj r.sym) + r.addend
      if r.type = .add32 then return st.write r.site ((← st.image.rd32 r.site) + v)
      else if r.type = .sub32 then return st.write r.site ((← st.image.rd32 r.site) - v)
      else if r.type = .set32 then return st.write r.site v
      else die (r.type.text ++ atOffset r.site ++ " is not supported in loadable data".toList)
  | .align =>
      die ("R_RISCV_ALIGN".toList ++ atOffset r.site ++
        (".\nmkflt.lua: this object was assembled with relaxation on, which leaves the\n" ++
          "mkflt.lua: instruction stream for a linker to shrink. Assemble with -mno-relax.").toList)
  | .rvcBranch | .rvcJump | .unlisted _ =>
      die ("unsupported relocation ".toList ++ r.type.text ++ " (".toList ++ dec r.number ++
        ")".toList ++ atOffset r.site)

/-! ## The file -/

def flatHdrSize : Word := 64
def flatVersion : Word := 4
def flatFlagRam : Word := 0x1

def entryPoint (sym : List Symbol) : Word :=
  (sym.foldl (fun entry s => if s.name = "_start".toList ∧ s.addr ≠ none then s.addr else entry)
    Option.none).getD 0

def flatHeader (entry imageLen stack : Word) : List Byte :=
  let imageEnd := flatHdrSize + imageLen
  [98, 70, 76, 84] ++ be32 flatVersion ++ be32 (flatHdrSize + entry) ++ be32 imageEnd ++
    be32 imageEnd ++ be32 imageEnd ++ be32 stack ++ be32 imageEnd ++ be32 0 ++ be32 flatFlagRam ++
    be32 0 ++ (List.replicate 5 (be32 0)).flatten

def Object.link (o : Object) (obj : Str) (objcopy : Str → Dump) (stack : Word) :
    Except Fault (List Byte) := do
  if o.stored.imageLen = 0 then die (obj ++ " has no allocatable content".toList)
  let image ← o.sec.zipIdx.foldlM (copySection o objcopy) (.blank o.layout.imageLen)
  let sym ← o.symbols obj
  let st ← o.entries.foldlM (fun st e => o.readReloc e >>= relocate sym obj st)
    { image, hi20At := fun _ => Option.none }
  let header := flatHeader (entryPoint sym) o.layout.imageLen stack
  if header.length ≠ flatHdrSize.toNat then
    die ("built a ".toList ++ Nat.toDigits 10 header.length ++ "-byte header, expected ".toList ++
      dec flatHdrSize)
  return header ++ st.image.blob o.layout.imageLen

/-- `mkflt.lua OBJECT OUTPUT -s STACK`, up to writing the file. -/
def mkflt (d : List Byte) (obj : Str) (objcopy : Str → Dump) (stack : Word) :
    Except Fault (List Byte) := do
  if stack.toInt < 1024 then
    die ("stack size ".toList ++ dec stack ++ " is below the 1024-byte floor".toList)
  let o ← readObject d obj
  o.link obj objcopy stack

end P4Hyp.Mkflt
