import P4Hyp.BootPatch

/-!
# Loading the guest

Before its scheduler starts, core 0 copies the kernel and the device tree out of flash
into the guest's memory, leaves the root file system where it is, and patches both
copies.
-/

namespace P4Hyp

inductive PartitionErr
  | notFound
  | invalidState
  /-- What `esp_partition_mmap` returns. -/
  | mmap (name : String)
  deriving DecidableEq

/-- `esp_err_to_name`. -/
def PartitionErr.name : PartitionErr → String
  | notFound => "ESP_ERR_NOT_FOUND"
  | invalidState => "ESP_ERR_INVALID_STATE"
  | mmap name => name

/-- A data partition; `mmap` tells where its first `span` bytes are mapped. -/
structure Partition where
  size : Word
  contents : Nat → Byte
  mmap : Word → Except PartitionErr Word

/-- `esp_partition_find_first`, by label. -/
abbrev PartitionTable := String → Option Partition

structure GuestWindow where
  label : String
  mountpoint : String
  placeholder : Vector Byte 8

def rootfsPlaceholder : Vector Byte 8 := #v[0x49, 0xD0, 0x00, 0x00, 0x00, 0x20, 0x00, 0x00]

def guestWindows : List GuestWindow := [⟨"rootfs", "/", rootfsPlaceholder⟩]

def socDromLow : Word := 0x40000000
def socDromHigh : Word := 0x44000000

/-- What the loading has done: the guest's memory, and what has been printed. -/
structure Loading where
  mem : Mem
  lines : List String

def Loading.print (l : Loading) (line : String) : Loading := { l with lines := l.lines ++ [line] }

/-- `%08x` -/
def hex08 (w : Word) : String :=
  let digits := Nat.toDigits 16 w.toNat
  String.ofList (List.replicate (8 - digits.length) '0' ++ digits)

def kilobytes (span : Word) : String := toString (span.toNat / 1024) ++ " KB"

/-- The part of the partition that is copied, and where it is mapped. -/
def partitionSource (t : PartitionTable) (label : String) (limit : Word) :
    Except PartitionErr (Word × (Nat → Byte)) :=
  match t label with
  | none => .error .notFound
  | some p =>
      let span := if limit ≠ 0 ∧ p.size > limit then limit else p.size
      match p.mmap span with
      | .error e => .error e
      | .ok _ => .ok (span, p.contents)

def partitionCpToPsram (t : PartitionTable) (label : String) (destination limit : Word) (m : Mem) :
    Except PartitionErr Mem :=
  (partitionSource t label limit).map fun s => m.fill destination s.1.toNat s.2

/-- `window_map_from_flash`: the mapping and its span, and what is printed. -/
def windowMapFromFlash (t : PartitionTable) (w : GuestWindow) (l : Loading) :
    Except PartitionErr (Word × Word) × Loading :=
  match t w.label with
  | none => (.error .notFound, l)
  | some p =>
      match p.mmap p.size with
      | .error e => (.error e, l)
      | .ok va =>
          let span := p.size
          if va < socDromLow ∨ va + span > socDromHigh then
            (.error .invalidState, l.print ("E: " ++ w.label ++ " mapped at 0x" ++ hex08 va ++
              ", outside the PMP-granted flash window 0x" ++ hex08 socDromLow ++ "-0x" ++
              hex08 socDromHigh ++ "\n"))
          else if span &&& (span - 1) ≠ 0 then
            -- `1u << (31 - __builtin_clz(w->span))`
            (.ok (va, span), l.print ("W: " ++ w.label ++ " is " ++ kilobytes span ++
              ", not a power of two -- the guest sees only " ++
              kilobytes (BitVec.ofNat 32 (2 ^ Nat.log2 span.toNat)) ++
              " of it (physmap rounds down)\n"))
          else (.ok (va, span), l)

/-- How far `hyp_load_guest` searches for the command line. -/
def cmdlineSpan : Word := 0x00400000

/-- The end of `hyp_load_guest`. -/
def loadCmdline (l : Loading) : Option (Bool × Loading) :=
  (patchGuestCmdline cmdlineSpan l.mem).map fun r =>
    (true, { l with mem := r.2 }.print (if r.1 then "I: Patched guest command line\n"
      else "I: Guest command line left as built\n"))

/-- The loop over `guest_windows`, and the rest. -/
def loadWindows (t : PartitionTable) : List GuestWindow → Loading → Option (Bool × Loading)
  | [], l => loadCmdline l
  | w :: ws, l =>
      match windowMapFromFlash t w l with
      | (.error e, l) =>
          loadWindows t ws (l.print
            ("W: " ++ w.label ++ ": " ++ e.name ++ " (no " ++ w.mountpoint ++ " mount)\n"))
      | (.ok (va, span), l) =>
          match patchDtbWindow w.placeholder va span l.mem with
          | (false, _) =>
              some (false, l.print ("E: " ++ w.label ++ " mapped at 0x" ++ hex08 va ++
                " but its DTB placeholder was not found -- guest would read the wrong address\n"))
          | (true, m) =>
              loadWindows t ws ({ l with mem := m }.print
                ("I: " ++ w.label ++ " XIP from flash at 0x" ++
                hex08 va ++ " (" ++ kilobytes span ++ ") -> " ++ w.mountpoint ++ "\n"))

def loadDtb (t : PartitionTable) (l : Loading) : Option (Bool × Loading) :=
  match partitionCpToPsram t "dtb" dtbAddress 0 l.mem with
  | .error e => some (false, l.print ("E: dtb: " ++ e.name ++ "\n"))
  | .ok m => loadWindows t guestWindows ({ l with mem := m }.print "I: Copied DTB to PSRAM\n")

/-- `hyp_load_guest`, `none` where `strlen` finds no end. -/
def hypLoadGuest (t : PartitionTable) (l : Loading) : Option (Bool × Loading) :=
  match partitionCpToPsram t "kernel" linuxBaseAddress 0 l.mem with
  | .error e => some (false, l.print ("E: kernel: " ++ e.name ++ "\n"))
  | .ok m => loadDtb t ({ l with mem := m }.print "I: Copied Linux Image to PSRAM\n")

end P4Hyp
