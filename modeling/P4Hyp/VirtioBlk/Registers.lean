import P4Hyp.Lib.Run
import P4Hyp.Uart
import P4Hyp.VirtioBlk.Request

/-!
# The device's registers

What core 1 does for a guest access to the virtio window.  `blk.live` is
computed once, when QueuePFN is written, from registers that other writes can
still change.
-/

namespace P4Hyp

/-- The legacy virtio-mmio registers. -/
inductive VirtioMmio
  | magicValue
  | version
  | deviceId
  | vendorId
  | deviceFeatures
  | deviceFeaturesSel
  | driverFeatures
  | driverFeaturesSel
  | guestPageSize
  | queueSel
  | queueNumMax
  | queueNum
  | queueAlign
  | queuePfn
  | queueNotify
  | interruptStatus
  | interruptAck
  | status
  deriving DecidableEq

namespace VirtioMmio

def offset : VirtioMmio → Word
  | magicValue => 0x000
  | version => 0x004
  | deviceId => 0x008
  | vendorId => 0x00c
  | deviceFeatures => 0x010
  | deviceFeaturesSel => 0x014
  | driverFeatures => 0x020
  | driverFeaturesSel => 0x024
  | guestPageSize => 0x028
  | queueSel => 0x030
  | queueNumMax => 0x034
  | queueNum => 0x038
  | queueAlign => 0x03c
  | queuePfn => 0x040
  | queueNotify => 0x050
  | interruptStatus => 0x060
  | interruptAck => 0x064
  | status => 0x070

def all : List VirtioMmio :=
  [magicValue, version, deviceId, vendorId, deviceFeatures, deviceFeaturesSel, driverFeatures,
    driverFeaturesSel, guestPageSize, queueSel, queueNumMax, queueNum, queueAlign, queuePfn,
    queueNotify, interruptStatus, interruptAck, status]

/-- The register at an offset: which `case` of the `switch` runs. -/
def ofOffset (o : Word) : Option VirtioMmio := all.find? fun r => r.offset = o

@[simp] theorem ofOffset_offset (r : VirtioMmio) : ofOffset r.offset = some r := by
  cases r <;> decide

end VirtioMmio

def virtioMmioConfig : Word := 0x100
def virtioMmioMagic : Word := 0x74726976
def virtioIdBlock : Word := 2
def hypVirtioVendor : Word := 0x50345052

/-- What the two cores share of the device, with the interrupt controller that
core 1 drives for it. -/
structure Devices where
  blk : Blk
  plic : Plic
  uart : Uart16550
  sKick : Bool
  sIrq : Bool

def Devices.reset : Devices :=
  { blk := .reset, plic := .reset, uart := .reset, sKick := false, sIrq := false }

/-- `cfg[i]`: the capacity in sectors, then zeros. -/
def blkConfig (sd : Sd) (i : Nat) : Byte :=
  if i < 8 then ((sd.hypSdSectorCount.setWidth 64 : BitVec 64) >>> (8 * i)).setWidth 8 else 0

def hypVirtioBlkRead (sd : Sd) (blk : Blk) (offset width : Word) : Word :=
  if virtioMmioConfig ≤ offset then
    let o := offset - virtioMmioConfig
    let is := (List.range width.toNat).takeWhile fun i => (o + BitVec.ofNat 32 i).toNat < 16
    is.foldl (fun value i =>
      value ||| ((blkConfig sd (o + BitVec.ofNat 32 i).toNat).setWidth 32 <<< (8 * i))) 0
  else
    match VirtioMmio.ofOffset offset with
    | some .magicValue => virtioMmioMagic
    | some .version => 1
    | some .deviceId => virtioIdBlock
    | some .vendorId => hypVirtioVendor
    | some .deviceFeatures => 0
    | some .queueNumMax => hypVqSize
    | some .queuePfn => blk.queuePfn
    | some .interruptStatus => blk.interruptStatus
    | some .status => blk.status
    | _ => 0

/-- The `switch` of `hyp_virtio_blk_write`.  `ready` is `hyp_sd_ready()`. -/
def VirtioMmio.write (ready : Bool) (value : Word) (d : Devices) : VirtioMmio → Devices
  | deviceFeaturesSel => { d with blk := { d.blk with deviceFeaturesSel := value } }
  | driverFeatures => { d with blk := { d.blk with driverFeatures := value } }
  | driverFeaturesSel => d
  | guestPageSize => { d with blk := { d.blk with guestPageSize := value } }
  | queueSel => { d with blk := { d.blk with queueSel := value } }
  | queueNum => { d with blk := { d.blk with queueNum := value } }
  | queueAlign => { d with blk := { d.blk with queueAlign := value } }
  | queuePfn =>
      { d with blk := { d.blk with
          queuePfn := value
          live := value != 0 && d.blk.queueNum != 0 && d.blk.guestPageSize != 0 && ready
          lastAvail := 0 } }
  | queueNotify => { d with sKick := true }
  | interruptAck =>
      let interruptStatus := d.blk.interruptStatus &&& ~~~value
      { d with
        blk := { d.blk with interruptStatus }
        plic := if interruptStatus = 0 then plicSetPending plicVirtioBlkSource false d.plic
          else d.plic }
  | status =>
      -- zero is the driver's reset
      if value = 0 then
        { d with
          blk := { d.blk with status := value, live := false, interruptStatus := 0, lastAvail := 0 }
          plic := plicSetPending plicVirtioBlkSource false d.plic }
      else { d with blk := { d.blk with status := value } }
  | _ => d

def hypVirtioBlkWrite (ready : Bool) (offset value : Word) (d : Devices) : Devices :=
  match VirtioMmio.ofOffset offset with
  | some r => r.write ready value d
  | none => d

/-- `hyp_virtio_blk_poll`. -/
def hypVirtioBlkPoll (d : Devices) : Devices :=
  if d.sIrq then
    { d with
      sIrq := false
      blk := { d.blk with interruptStatus := d.blk.interruptStatus ||| 1 }
      plic := plicSetPending plicVirtioBlkSource true d.plic }
  else d

/-! ## The queue a live device works on -/

/-- A live queue has a ring, a page size, and a size within what the device
offers. -/
def QueueSane (blk : Blk) : Prop :=
  blk.live = true → blk.queuePfn ≠ 0 ∧ blk.guestPageSize ≠ 0 ∧
    1 ≤ blk.queueNum.toNat ∧ blk.queueNum.toNat ≤ hypVqSize.toNat

/-- The writes that keep it so.  `hyp_virtio_blk_write` checks neither the size
against the maximum nor, once the queue is live, what replaces the size and the
page size. -/
def KeepsQueue (d : Devices) (e : Word × Word) : Prop :=
  match VirtioMmio.ofOffset e.1 with
  | some .guestPageSize => d.blk.live = true → e.2 ≠ 0
  | some .queueNum => d.blk.live = true → 1 ≤ e.2.toNat ∧ e.2.toNat ≤ hypVqSize.toNat
  | some .queuePfn => e.2 ≠ 0 → d.blk.queueNum ≠ 0 → d.blk.guestPageSize ≠ 0 →
      d.blk.queueNum.toNat ≤ hypVqSize.toNat
  | _ => True

instance (d : Devices) (e : Word × Word) : Decidable (KeepsQueue d e) := by
  unfold KeepsQueue
  split <;> infer_instance

/-- A guest that writes registers, with the card ready. -/
def fireWrite (d : Devices) (e : Word × Word) : Option Devices :=
  some (hypVirtioBlkWrite true e.1 e.2 d)

theorem one_le_toNat {x : Word} : 1 ≤ x.toNat ↔ x ≠ 0 := by
  constructor
  · rintro h rfl
    simp at h
  · intro h
    exact Nat.pos_of_ne_zero fun hz => h (BitVec.eq_of_toNat_eq hz)

theorem queueSane_write {d : Devices} {e : Word × Word} (h : QueueSane d.blk) :
    QueueSane (hypVirtioBlkWrite true e.1 e.2 d).blk ↔ KeepsQueue d e := by
  unfold hypVirtioBlkWrite KeepsQueue
  cases VirtioMmio.ofOffset e.1 with
  | none => exact iff_of_true h trivial
  | some r =>
      cases r with
      | guestPageSize =>
          show (d.blk.live = true → _ ∧ _ ∧ _ ∧ _) ↔ (d.blk.live = true → _)
          constructor
          · intro hs hl
            exact (hs hl).2.1
          · intro hc hl
            obtain ⟨hp, _, hn⟩ := h hl
            exact ⟨hp, hc hl, hn⟩
      | queueNum =>
          show (d.blk.live = true → _ ∧ _ ∧ _ ∧ _) ↔ (d.blk.live = true → _)
          constructor
          · intro hs hl
            exact (hs hl).2.2
          · intro hc hl
            obtain ⟨hp, hg, _⟩ := h hl
            exact ⟨hp, hg, hc hl⟩
      | queuePfn =>
          simp only [QueueSane, VirtioMmio.write, Bool.and_true, Bool.and_eq_true, bne_iff_ne,
            one_le_toNat]
          constructor
          · intro hs hv hn hg
            exact (hs ⟨⟨hv, hn⟩, hg⟩).2.2.2
          · rintro hc ⟨⟨hv, hn⟩, hg⟩
            exact ⟨hv, hg, hn, hc hv hn hg⟩
      | interruptAck => exact iff_of_true h trivial
      | status =>
          refine iff_of_true ?_ trivial
          by_cases hv : e.2 = 0
          · simp only [VirtioMmio.write, if_pos hv]
            intro hl
            cases hl
          · simp only [VirtioMmio.write, if_neg hv]
            exact h
      | _ => exact iff_of_true h trivial

/-- Over any sequence of register writes, the queue is sane whenever it is live
exactly when every write keeps it so. -/
theorem queueSane_run {h : List (Devices × (Word × Word))} {d : Devices}
    (hrun : Run fireWrite .reset h d) :
    Run.Throughout (fun d => QueueSane d.blk) h d ↔ Run.Meets KeepsQueue h := by
  refine Run.throughout_iff ?_ ?_ hrun
  · intro hl
    cases hl
  · intro d e d' hd hfire
    obtain rfl : hypVirtioBlkWrite true e.1 e.2 d = d' := by simpa [fireWrite] using hfire
    exact queueSane_write hd

/-- A driver's set-up of a queue of eight. -/
def setUp : List (Word × Word) :=
  [(VirtioMmio.queueNum.offset, 8), (VirtioMmio.guestPageSize.offset, 4096),
    (VirtioMmio.queuePfn.offset, 1)]

theorem queueSane_run_setUp : ∃ h d, Run fireWrite .reset h d ∧ d.blk.live = true ∧
    Run.Throughout (fun d => QueueSane d.blk) h d := by
  obtain ⟨h, d, hrun, hd⟩ := Run.exists_of_play fireWrite .reset setUp
    (fun r => (r.2.blk.live, decide (Run.Meets KeepsQueue r.1))) (true, true) rfl
  obtain ⟨hlive, hmeets⟩ := Prod.mk.inj hd
  exact ⟨h, d, hrun, hlive, (queueSane_run hrun).mpr (of_decide_eq_true hmeets)⟩

/-- The size of a live queue can be set to 0. -/
theorem queueNum_zero_live : ∃ h d, Run fireWrite .reset h d ∧ d.blk.live = true ∧
    d.blk.queueNum = 0 ∧ ¬ QueueSane d.blk := by
  obtain ⟨h, d, hrun, hd⟩ := Run.exists_of_play fireWrite .reset
    (setUp ++ [(VirtioMmio.queueNum.offset, 0)])
    (fun r => (r.2.blk.live, r.2.blk.queueNum)) (true, 0) rfl
  obtain ⟨hlive, hnum⟩ := Prod.mk.inj hd
  refine ⟨h, d, hrun, hlive, hnum, fun hs => ?_⟩
  have hpos := (hs hlive).2.2.1
  rw [hnum] at hpos
  exact absurd hpos (by decide)

end P4Hyp
