import P4Hyp.Lib.Memory

/-!
# The legacy virtqueue

The guest gives one page number, a page size, a queue size and an alignment; the
descriptor table, the avail ring and the used ring follow from them by 32-bit
arithmetic that wraps.  `x % 0 = x` for bit vectors, as for the `remu`
instruction that the C `%` compiles to.
-/

namespace P4Hyp

def vringDescFNext : Half := 1

def hypVqSize : Word := 128

/-- `struct vring_desc`. -/
structure VringDesc where
  addr : BitVec 64
  len : Word
  flags : Half
  next : Half

/-- The device state of `hyp_virtio_blk.c`. -/
structure Blk where
  /-- The guest's driver status byte. -/
  status : Word
  deviceFeaturesSel : Word
  driverFeatures : Word
  guestPageSize : Word
  queueSel : Word
  queueNum : Word
  queueAlign : Word
  queuePfn : Word
  interruptStatus : Word
  /-- How far the avail ring has been consumed. -/
  lastAvail : Half
  /-- The ring is set up and usable. -/
  live : Bool
  deriving DecidableEq

/-- All of `blk` starts out as zero. -/
def Blk.reset : Blk :=
  { status := 0, deviceFeaturesSel := 0, driverFeatures := 0, guestPageSize := 0, queueSel := 0,
    queueNum := 0, queueAlign := 0, queuePfn := 0, interruptStatus := 0, lastAvail := 0,
    live := false }

/-- Guest physical address to host pointer: the identity, cut to 32 bits. -/
def gpa (addr : BitVec 64) : Word := addr.setWidth 32

/-- `i % blk.queue_num` for a 16-bit index. -/
def ringSlot (i : Half) (queueNum : Word) : Word := i.setWidth 32 % queueNum

namespace Blk

def descTable (blk : Blk) : Word := blk.queuePfn * blk.guestPageSize

def availRing (blk : Blk) : Word := blk.descTable + blk.queueNum * 16

def usedRing (blk : Blk) : Word :=
  let afterAvail := blk.availRing + 4 + blk.queueNum * 2 + 2
  let align := if blk.queueAlign ≠ 0 then blk.queueAlign else 4096
  (afterAvail + align - 1) &&& ~~~(align - 1)

end Blk

/-- `&desc[i % queue_num]`. -/
def descAddr (desc queueNum : Word) (i : Half) : Word := desc + ringSlot i queueNum * 16

/-- The fields of the descriptor at `d`. -/
def Mem.desc (m : Mem) (d : Word) : VringDesc :=
  { addr := m.load64 d, len := m.load32 (d + 8), flags := m.load16 (d + 12),
    next := m.load16 (d + 14) }

theorem Mem.desc_congr {m m' : Mem} {d : Word} (h : m.AgreeOn m' d 16) :
    m'.desc d = m.desc d := by
  unfold Mem.desc
  rw [Mem.load64_congr (h.mono (by omega)),
    Mem.load32_congr (a := d + 8) (h.offset (o := 8) (by omega) (by omega)),
    Mem.load16_congr (a := d + 12) (h.offset (o := 12) (by omega) (by omega)),
    Mem.load16_congr (a := d + 14) (h.offset (o := 14) (by omega) (by omega))]

/-- Write a descriptor, as the guest's driver does. -/
def Mem.storeDesc (m : Mem) (d : Word) (v : VringDesc) : Mem :=
  ((((m.store32 d (v.addr.setWidth 32)).store32 (d + 4) ((v.addr >>> 32).setWidth 32)).store32
    (d + 8) v.len).store16 (d + 12) v.flags).store16 (d + 14) v.next

/-! ## Fields of the two rings -/

def availIdxAddr (avail : Word) : Word := avail + 2

def availSlotAddr (avail slot : Word) : Word := avail + 4 + slot * 2

def usedIdxAddr (used : Word) : Word := used + 2

def usedSlotAddr (used slot : Word) : Word := used + 4 + slot * 8

end P4Hyp
