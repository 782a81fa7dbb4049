import P4Hyp.Intr

/-!
# Device accesses

The guest's devices, and the loads and stores that trap into their windows.
-/

namespace P4Hyp

/-- The rows of `mmio_devices`, in order. -/
inductive MmioDevice
  | clint
  | uart
  | plic
  | vblk
  deriving DecidableEq

namespace MmioDevice

def base : MmioDevice → Word
  | clint => 0x02000000
  | uart => 0x10000000
  | plic => 0x0c000000
  | vblk => 0x10001000

def size : MmioDevice → Word
  | clint => 0x00010000
  | uart => 0x00000100
  | plic => 0x00400000
  | vblk => 0x00001000

def all : List MmioDevice := [clint, uart, plic, vblk]

def read (sd : Sd) (offset : Word) (width : Nat) (m : Monitor) : MmioDevice → Word × Monitor
  | clint => (clintRead offset m.clint, m)
  | uart =>
      let (v, c) := uartRead offset width m.console
      (v, m.setConsole c)
  | plic =>
      let (v, p) := plicRead offset m.dev.plic
      (v, { m with dev := { m.dev with plic := p } })
  | vblk => (hypVirtioBlkRead sd m.dev.blk offset (BitVec.ofNat 32 width), m)

def write (sd : Sd) (offset value : Word) (width : Nat) (m : Monitor) : MmioDevice → Monitor
  | clint => { m with clint := clintWrite offset value m.clint }
  | uart => m.setConsole (uartWrite offset value width m.console)
  | plic =>
      { m with dev := { m.dev with
          plic := plicWrite (v16550Reeval m.dev.uart) offset value m.dev.plic } }
  | vblk => { m with dev := hypVirtioBlkWrite sd.hypSdReady offset value m.dev }

end MmioDevice

def mmioFind (address : Word) : Option MmioDevice :=
  MmioDevice.all.find? fun device => device.base ≤ address ∧ address < device.base + device.size

/-- The loads and stores by their dense key: `funct3`, and opcode bit 5 above
it. -/
inductive Access
  | lb
  | lh
  | lw
  | lbu
  | lhu
  | sb
  | sh
  | sw
  deriving DecidableEq

namespace Access

def ofKey : Nat → Option Access
  | 0x0 => some lb
  | 0x1 => some lh
  | 0x2 => some lw
  | 0x4 => some lbu
  | 0x5 => some lhu
  | 0x8 => some sb
  | 0x9 => some sh
  | 0xa => some sw
  | _ => none

def width : Access → Nat
  | lb | lbu | sb => 1
  | lh | lhu | sh => 2
  | lw | sw => 4

def isStore : Access → Bool
  | sb | sh | sw => true
  | _ => false

/-- What a load leaves of the device's value. -/
def extend (v : Word) : Access → Word
  | lb => (v.setWidth 8).signExtend 32
  | lh => (v.setWidth 16).signExtend 32
  | _ => v

end Access

/-- The access that an instruction asks for. -/
def decodeAccess (instruction : Word) : Option Access :=
  if instruction &&& 0x5f ≠ 0x03 then none
  else Access.ofKey (field instruction 12 3 + 8 * field instruction 5 1)

def hypervisorMmio (mem : Mem) (sd : Sd) (trap : GuestTrap) (m : Monitor) :
    TrapResult × GuestTrap × Monitor :=
  match mmioFind trap.tval with
  | none => (.unhandled, trap, m)
  | some device =>
      match trapDecode mem trap with
      | none => (.unhandled, trap, m)
      | some trap =>
          match decodeAccess trap.encoding with
          | none => (.unhandled, trap, m)
          | some access =>
              let offset := trap.tval - device.base
              if access.isStore then
                let src := regRead trap.frame (field trap.encoding 20 5)
                (.advance, trap, device.write sd offset src access.width m)
              else
                let (v, m) := device.read sd offset access.width m
                let frame := regWrite (field trap.encoding 7 5) (access.extend v) trap.frame
                (.advance, { trap with frame }, m)

end P4Hyp
