import P4Hyp.Lib.Loop
import P4Hyp.Sd
import P4Hyp.VirtioBlk.Ring

/-!
# One request of the block device

`blk_transfer` and `blk_do_request`, as core 0 runs them on the guest's memory.
The descriptors are read where the code reads them, so a transfer that lands on
a descriptor is seen by the rest of the walk.
-/

namespace P4Hyp

def virtioBlkTIn : Word := 0
def virtioBlkTOut : Word := 1
def virtioBlkTFlush : Word := 4
def virtioBlkTGetId : Word := 8

def virtioBlkSOk : Byte := 0
def virtioBlkSIoerr : Byte := 1
def virtioBlkSUnsupp : Byte := 2

def hypBlkBounceSectors : Nat := 64

/-- An access core 0 makes to memory on the guest's behalf. -/
inductive Touch
  | load (a : Word) (n : Nat)
  | store (a : Word) (n : Nat)
  /-- The one-byte store of `*status_byte`. -/
  | status (a : Word) (v : Byte)
  deriving DecidableEq

/-- What core 0 works on: the memory it shares with the guest, the card, the
bounce buffer and the counters.  `trace` lists the accesses made on the guest's
behalf, in order; the code does not keep it. -/
structure World where
  mem : Mem
  sd : Sd
  sBounce : Nat → Byte
  sReads : Word
  sWrites : Word
  sErrors : Word
  sRequests : Word
  trace : List Touch

namespace World

def touch (w : World) (ts : List Touch) : World := { w with trace := w.trace ++ ts }

/-- `memcpy` from the guest into the bounce buffer. -/
def fromGuest (w : World) (a : Word) (n : Nat) : World :=
  { w.touch [.load a n] with
    sBounce := fun i => if i < n then w.mem (a + BitVec.ofNat 32 i) else w.sBounce i }

/-- Store `n` bytes into guest memory. -/
def toGuest (w : World) (a : Word) (n : Nat) (f : Nat → Byte) : World :=
  { w.touch [.store a n] with mem := w.mem.fill a n f }

@[simp] theorem touch_mem (w : World) (ts : List Touch) : (w.touch ts).mem = w.mem := rfl
@[simp] theorem touch_sd (w : World) (ts : List Touch) : (w.touch ts).sd = w.sd := rfl
@[simp] theorem touch_sBounce (w : World) (ts : List Touch) :
    (w.touch ts).sBounce = w.sBounce := rfl
@[simp] theorem touch_trace (w : World) (ts : List Touch) :
    (w.touch ts).trace = w.trace ++ ts := rfl
@[simp] theorem fromGuest_mem (w : World) (a : Word) (n : Nat) :
    (w.fromGuest a n).mem = w.mem := rfl
@[simp] theorem fromGuest_sd (w : World) (a : Word) (n : Nat) : (w.fromGuest a n).sd = w.sd := rfl
@[simp] theorem fromGuest_trace (w : World) (a : Word) (n : Nat) :
    (w.fromGuest a n).trace = w.trace ++ [.load a n] := rfl
@[simp] theorem toGuest_mem (w : World) (a : Word) (n : Nat) (f : Nat → Byte) :
    (w.toGuest a n f).mem = w.mem.fill a n f := rfl
@[simp] theorem toGuest_sd (w : World) (a : Word) (n : Nat) (f : Nat → Byte) :
    (w.toGuest a n f).sd = w.sd := rfl
@[simp] theorem toGuest_trace (w : World) (a : Word) (n : Nat) (f : Nat → Byte) :
    (w.toGuest a n f).trace = w.trace ++ [.store a n] := rfl

end World

/-- `chunk_max`. -/
def blkChunkMax : Nat := hypBlkBounceSectors * hypBlkSectorSize

/-- The length of the next chunk of `len` bytes. -/
def blkChunk (len : Word) : Word :=
  if len.toNat > blkChunkMax then BitVec.ofNat 32 blkChunkMax else len

/-- The `while (len > 0)` loop of `blk_transfer`.  Every round with `len > 0`
shortens `len`, so `len.toNat` rounds are enough. -/
def blkTransferLoop (write : Bool) : Nat → Word → Word → Word → World → Bool × World
  | 0, _, _, _, w => (true, w)
  | fuel + 1, sector, guestBuf, len, w =>
      if len = 0 then (true, w)
      else
        let n := blkChunk len
        let sectors := n / BitVec.ofNat 32 hypBlkSectorSize
        if write then
          let w := w.fromGuest guestBuf n.toNat
          match w.sd.hypSdWrite sector sectors w.sBounce with
          | (false, sd) => (false, { w with sd := sd })
          | (true, sd) =>
              blkTransferLoop write fuel (sector + sectors) (guestBuf + n) (len - n)
                { w with sd := sd }
        else
          match w.sd.hypSdRead sector sectors w.sBounce with
          | (false, bounce, sd) => (false, { w with sd := sd, sBounce := bounce })
          | (true, bounce, sd) =>
              blkTransferLoop write fuel (sector + sectors) (guestBuf + n) (len - n)
                ({ w with sd := sd, sBounce := bounce }.toGuest guestBuf n.toNat bounce)

def blkTransfer (write : Bool) (sector guestBuf len : Word) (w : World) : Bool × World :=
  blkTransferLoop write len.toNat sector guestBuf len w

/-- `static const char id[] = "esp32p4-sd"`, its terminator included. -/
def blkId : List Byte :=
  [0x65, 0x73, 0x70, 0x33, 0x32, 0x70, 0x34, 0x2d, 0x73, 0x64, 0x00]

/-- What the walk over the data descriptors carries round. -/
structure Walk where
  /-- `desc_table()`, taken once at the head of the request. -/
  desc : Word
  type : Word
  sector : Word
  idx : Half
  written : Word
  deriving DecidableEq

/-- The `switch (type)` of the walk for one data descriptor: `ok`, `sector` and
`written` after it. -/
def blkData (k : Walk) (buf len : Word) (w : World) : Bool × Word × Word × World :=
  let aligned := len % BitVec.ofNat 32 hypBlkSectorSize = 0
  let next := k.sector + len / BitVec.ofNat 32 hypBlkSectorSize
  if k.type = virtioBlkTIn then
    if aligned then
      let (ok, w) := blkTransfer false k.sector buf len w
      (ok, next, k.written + len, { w with sReads := w.sReads + 1 })
    else (false, k.sector, k.written, w)
  else if k.type = virtioBlkTOut then
    if aligned then
      let (ok, w) := blkTransfer true k.sector buf len w
      (ok, next, k.written, { w with sWrites := w.sWrites + 1 })
    else (false, k.sector, k.written, w)
  else if k.type = virtioBlkTGetId then
    let n := min len.toNat blkId.length
    let w := w.toGuest buf len.toNat fun _ => 0
    (true, k.sector, k.written + len, w.toGuest buf n fun i => blkId.getD i 0)
  else if k.type = virtioBlkTFlush then (true, k.sector, k.written, w)
  else (false, k.sector, k.written, w)

/-- The end of `blk_do_request`, after the walk.  `status` is `status_byte`,
zero for `null`. -/
def blkFinish (type status : Word) (ok : Bool) (written : Word) (w : World) : Word × World :=
  let v := if ok then virtioBlkSOk
    else if virtioBlkTGetId < type then virtioBlkSUnsupp else virtioBlkSIoerr
  let (written, w) :=
    if status ≠ 0 then
      (written + 1, { w with mem := w.mem.store8 status v, trace := w.trace ++ [.status status v] })
    else (written, w)
  let w := if ok then w else { w with sErrors := w.sErrors + 1 }
  (written, { w with sRequests := w.sRequests + 1 })

/-- One round of the walk: go on to the next descriptor, or leave the request
with the number of bytes written. -/
def blkWalkStep (queueNum : Word) (k : Walk) (w : World) : (Walk × World) ⊕ (Word × World) :=
  let d := descAddr k.desc queueNum k.idx
  let flags := (w.mem.desc d).flags
  let addr := (w.mem.desc d).addr
  let w := w.touch [.load (d + 12) 2, .load d 8]
  if flags &&& vringDescFNext = 0 then
    .inr (blkFinish k.type (gpa addr) true k.written w)
  else
    let len := (w.mem.desc d).len
    match blkData k (gpa addr) len (w.touch [.load (d + 8) 4]) with
    | (false, _, written, w) => .inr (blkFinish k.type 0 false written w)
    | (true, sector, written, w) =>
        .inl ({ k with sector, written, idx := (w.mem.desc d).next }, w.touch [.load (d + 14) 2])

/-- The request header: the walk to start, or the result of a request that ends
before it. -/
def blkHeader (blk : Blk) (head : Half) (w : World) : (Walk × World) ⊕ (Word × World) :=
  let desc := blk.descTable
  let d := descAddr desc blk.queueNum head
  let hd := w.mem.desc d
  let w := w.touch [.load (d + 8) 4]
  if hd.len < 16 then .inr (0, { w with sErrors := w.sErrors + 1 })
  else
    let hdr := gpa hd.addr
    let type := w.mem.load32 hdr
    let sector := w.mem.load64 (hdr + 8)
    let w := w.touch [.load d 8, .load hdr 4, .load (hdr + 8) 8, .load (d + 14) 2, .load (d + 12) 2]
    if hd.flags &&& vringDescFNext = 0 then .inr (blkFinish type 0 true 0 w)
    else .inl ({ desc, type, sector := sector.setWidth 32, idx := hd.next, written := 0 }, w)

/-- `blk_do_request(head)`: the bytes written and the state after it, or `none`
while the walk is still going after `fuel` descriptors. -/
def blkDoRequest (fuel : Nat) (blk : Blk) (head : Half) (w : World) : Option (Word × World) :=
  match blkHeader blk head w with
  | .inr r => some r
  | .inl kw => loop (fun kw => blkWalkStep blk.queueNum kw.1 kw.2) fuel kw

end P4Hyp
