import P4Hyp.Lib.BlockStore
import P4Hyp.VirtioBlk.Sectors

/-!
# The disk over whole runs

The guest lays out requests and core 0 carries them out, any number of them, with
any pattern of failures of the driver.  To the guest the card is then a store of
sectors: what a read finds is what the last write of the sector put there.
-/

namespace P4Hyp

abbrev Sector := Fin hypBlkSectorSize → Byte

/-- The buffers' contents, cut into sectors. -/
def sectorsIn (m : Mem) (bufs : List (Word × Word)) : List Sector :=
  List.ofFn fun (i : Fin (sectorCount bufs)) (o : Fin hypBlkSectorSize) =>
    gather m bufs (i.val * hypBlkSectorSize + o.val)

/-- A chain that the guest makes available. -/
structure Offer where
  head : Half
  data : List Half
  status : Half

inductive DiskEvent
  /-- The guest changes memory. -/
  | guest (mem : Mem)
  /-- Core 0 carries out a request. -/
  | request (o : Offer)

section

variable (blk : Blk)

namespace Offer

def bufs (o : Offer) (m : Mem) : List (Word × Word) :=
  chainBufs m blk.descTable blk.queueNum o.data

/-- The first sector that the request names. -/
def start (o : Offer) (m : Mem) : Nat := (requestSector blk m o.head).toNat

/-- `blk_do_request`, in as many rounds as the chain has descriptors. -/
def serve (o : Offer) (w : World) : Option (Word × World) :=
  blkDoRequest (o.data.length + 1) blk o.head w

/-- A request that a driver lays out: a chain, for a read or write with a sector of 32
bits, and for a read with buffers and a status byte that do not overlap. -/
structure Proper (o : Offer) (m : Mem) : Prop where
  chain : ChainAt blk m o.head o.data o.status
  sector : requestType blk m o.head = virtioBlkTIn ∨ requestType blk m o.head = virtioBlkTOut →
    o.start blk m < 2 ^ 32
  apart : requestType blk m o.head = virtioBlkTIn →
    (o.bufs blk m).Pairwise (fun b c => Apart b.1 b.2.toNat c.1 c.2.toNat) ∧
      ∀ b ∈ o.bufs blk m, ¬ Covers b.1 b.2.toNat (descBuf blk m o.status)

/-- What the request is to a store of sectors: nothing if it is a read that fails or
neither a read nor a write. -/
def ops (o : Offer) (w w' : World) : List (BlockOp Sector) :=
  if requestType blk w.mem o.head = virtioBlkTOut then
    if w'.sErrors = w.sErrors then
      [.write (o.start blk w.mem) (sectorsIn w.mem (o.bufs blk w.mem))]
    else [.failed (o.start blk w.mem) (sectorCount (o.bufs blk w.mem))]
  else if requestType blk w.mem o.head = virtioBlkTIn ∧ w'.sErrors = w.sErrors then
    [.read (o.start blk w.mem) (sectorsIn w'.mem (o.bufs blk w.mem))]
  else []

end Offer

def diskFire (w : World) : DiskEvent → Option World
  | .guest mem => some { w with mem }
  | .request o => (o.serve blk w).map Prod.snd

def DiskOk (w : World) : DiskEvent → Prop
  | .guest _ => True
  | .request o => o.Proper blk w.mem

/-- The store's operations behind an event. -/
def diskOps (w : World) : DiskEvent → List (BlockOp Sector)
  | .guest _ => []
  | .request o =>
      match o.serve blk w with
      | none => []
      | some (_, w') => o.ops blk w w'

end

/-! ## Sectors in buffers -/

theorem sectorsIn_length (m : Mem) (bufs : List (Word × Word)) :
    (sectorsIn m bufs).length = sectorCount bufs := List.length_ofFn

theorem sectorsIn_getElem {m : Mem} {bufs : List (Word × Word)} {i : Nat}
    (hi : i < sectorCount bufs) :
    (sectorsIn m bufs)[i]? = some fun o => gather m bufs (i * hypBlkSectorSize + o.val) := by
  rw [sectorsIn, List.getElem?_ofFn, dif_pos hi]

theorem overlay_sectorsIn (c : Nat → Sector) (start : Nat) (m : Mem) (bufs : List (Word × Word)) :
    overlay start (sectorsIn m bufs) c =
      Sd.putSectors c start (sectorCount bufs) (gather m bufs) := by
  funext s o
  unfold overlay Sd.putSectors
  by_cases hs : start ≤ s
  · by_cases hlt : s < start + sectorCount bufs
    · rw [if_pos hs, if_pos ⟨hs, hlt⟩, sectorsIn_getElem (by omega)]
      rfl
    · rw [if_pos hs, if_neg (fun h => hlt h.2), List.getElem?_eq_none]
      · rfl
      · rw [sectorsIn_length]
        omega
  · rw [if_neg hs, if_neg (fun h => hs h.1)]

theorem scatter_outside {bufs : List (Word × Word)} {x : Word}
    (h : ∀ b ∈ bufs, ¬ Covers b.1 b.2.toNat x) (m : Mem) (f : Nat → Byte) :
      scatter m bufs f x = m x := by
  induction bufs generalizing m f with
  | nil => rfl
  | cons b bufs ih =>
      unfold scatter
      rw [ih fun c hc => h c (List.mem_cons_of_mem _ hc)]
      exact Mem.fill_outside (h b List.mem_cons_self)

/-- Buffers that do not overlap keep what is scattered into them. -/
theorem gather_scatter {bufs : List (Word × Word)}
    (hp : bufs.Pairwise fun b c => Apart b.1 b.2.toNat c.1 c.2.toNat) (m : Mem) (f : Nat → Byte) :
    ∀ i < (bufs.map fun b => b.2.toNat).sum, gather (scatter m bufs f) bufs i = f i := by
  induction bufs generalizing m f with
  | nil => exact fun i hi => absurd hi (Nat.not_lt_zero i)
  | cons b bufs ih =>
      obtain ⟨hhead, htail⟩ := List.pairwise_cons.mp hp
      obtain ⟨buf, len⟩ := b
      intro i hi
      simp only [List.map_cons, List.sum_cons] at hi
      unfold gather scatter
      by_cases hlt : i < len.toNat
      · have hlen := len.isLt
        have hin : Covers buf len.toNat (buf + BitVec.ofNat 32 i) := covers_at hlt (by omega)
        have hoff : (buf + BitVec.ofNat 32 i - buf).toNat = i := by
          rw [BitVec.toNat_sub, BitVec.toNat_add, BitVec.toNat_ofNat]
          have := buf.isLt
          omega
        rw [if_pos hlt, scatter_outside fun c hc => hhead c hc _ hin, Mem.fill_inside hin, hoff]
      · rw [if_neg hlt, ih htail _ _ _ (by omega)]
        congr 1
        omega

/-- A byte stored elsewhere is not in the buffers. -/
theorem gather_store8 {bufs : List (Word × Word)} {a : Word}
    (h : ∀ b ∈ bufs, ¬ Covers b.1 b.2.toNat a) (m : Mem) (v : Byte) :
    ∀ i < (bufs.map fun b => b.2.toNat).sum, gather (m.store8 a v) bufs i = gather m bufs i := by
  induction bufs with
  | nil => exact fun i hi => absurd hi (Nat.not_lt_zero i)
  | cons b bufs ih =>
      obtain ⟨buf, len⟩ := b
      intro i hi
      simp only [List.map_cons, List.sum_cons] at hi
      unfold gather
      by_cases hlt : i < len.toNat
      · have hlen := len.isLt
        have hin : Covers buf len.toNat (buf + BitVec.ofNat 32 i) := covers_at hlt (by omega)
        rw [if_pos hlt, if_pos hlt, Mem.store8, Mem.fill_outside]
        intro hc
        have heq : buf + BitVec.ofNat 32 i = a := by
          unfold Covers at hc
          have hz : buf + BitVec.ofNat 32 i - a = 0 := by
            apply BitVec.eq_of_toNat_eq
            simpa using hc
          rw [BitVec.sub_eq_iff_eq_add] at hz
          simpa using hz
        rw [heq] at hin
        exact h _ List.mem_cons_self hin
      · rw [if_neg hlt, if_neg hlt, ih (fun c hc => h c (List.mem_cons_of_mem _ hc)) _ (by omega)]

/-! ## A request -/

section Request

variable {blk : Blk} {o : Offer} {w : World}

/-- A request does not change what the card is. -/
theorem serve_card (hch : ChainAt blk w.mem o.head o.data o.status) {r : Word × World}
    (h : o.serve blk w = some r) :
    r.2.sd.accepts = w.sd.accepts ∧ r.2.sd.capacity = w.sd.capacity := by
  have hrule := blkDoRequest_chain (P := fun _ _ w _ w' =>
    w'.sd.accepts = w.sd.accepts ∧ w'.sd.capacity = w.sd.capacity)
    ?done ?failed ?next hch (Nat.lt_succ_self _)
  case done =>
    intro k w w' hw
    rw [hw.sd]
    exact ⟨rfl, rfl⟩
  case failed =>
    intro buf len bufs k w w₀ sector written w' hw hd
    have hq := (blkData_spec k buf len w₀).quiet
    rw [hd] at hq
    rw [← hw.sd]
    exact ⟨hq.accepts, hq.capacity⟩
  case next =>
    intro buf len bufs k w w₀ sector written idx w₁ w₂ ok w' hw hd hw₂ hrest
    have hq := (blkData_spec k buf len w₀).quiet
    rw [hd] at hq
    rw [hrest.1, hrest.2, hw₂.sd, ← hw.sd]
    exact ⟨hq.accepts, hq.capacity⟩
  obtain ⟨ok, written, w₀, w', heq, hw₀, -, hP⟩ := hrule
  obtain rfl := Option.some.inj (heq.symm.trans h)
  rw [blkFinish_sd, ← hw₀.sd]
  exact hP

theorem blkData_sectors {k : Walk} (ht : k.type ≠ virtioBlkTOut) (buf len : Word) (w : World) :
    (blkData k buf len w).2.2.2.sd.sectors = w.sd.sectors := by
  by_cases hin : k.type = virtioBlkTIn
  · exact (blkData_in hin buf len w).1
  · simp only [blkData, if_neg hin, if_neg ht]
    split
    · simp only [World.toGuest_sd]
    · split <;> rfl

/-- Only a write changes the card's contents. -/
theorem serve_sectors (hch : ChainAt blk w.mem o.head o.data o.status)
    (ht : requestType blk w.mem o.head ≠ virtioBlkTOut) {r : Word × World}
    (h : o.serve blk w = some r) : r.2.sd.sectors = w.sd.sectors := by
  have hrule := blkDoRequest_chain (P := fun _ k w _ w' =>
    k.type ≠ virtioBlkTOut → w'.sd.sectors = w.sd.sectors)
    ?done ?failed ?next hch (Nat.lt_succ_self _)
  case done =>
    intro k w w' hw _
    rw [hw.sd]
  case failed =>
    intro buf len bufs k w w₀ sector written w' hw hd ht
    have hq := blkData_sectors ht buf len w₀
    rw [hd] at hq
    rw [← hw.sd]
    exact hq
  case next =>
    intro buf len bufs k w w₀ sector written idx w₁ w₂ ok w' hw hd hw₂ hrest ht
    have hq := blkData_sectors ht buf len w₀
    rw [hd] at hq
    rw [hrest ht, hw₂.sd, ← hw.sd]
    exact hq
  obtain ⟨ok, written, w₀, w', heq, hw₀, -, hP⟩ := hrule
  obtain rfl := Option.some.inj (heq.symm.trans h)
  rw [blkFinish_sd, ← hw₀.sd]
  exact hP ht

/-- What a read that succeeds leaves in the buffers. -/
theorem serve_read (hB : w.sd.Bounded) (ho : o.Proper blk w.mem) {w' : World}
    (hr : RequestResult (requestType blk w.mem o.head) ((requestSector blk w.mem o.head).setWidth 32)
      (descBuf blk w.mem o.status) (o.bufs blk w.mem) w w')
    (ht : requestType blk w.mem o.head = virtioBlkTIn) (hok : w'.sErrors = w.sErrors) (i : Nat)
    (hi : i < (sectorsIn w'.mem (o.bufs blk w.mem)).length) :
    (sectorsIn w'.mem (o.bufs blk w.mem))[i]? = some (w.sd.sectors (o.start blk w.mem + i)) := by
  obtain ⟨-, hinto, -, -⟩ := sectorsRight_of_lt hr (.inl ht) hB (ho.sector (.inl ht))
  obtain ⟨-, hmem⟩ := hinto ht hok
  obtain ⟨hp, hst⟩ := ho.apart ht
  rw [sectorsIn_length] at hi
  rw [sectorsIn_getElem hi]
  congr 1
  funext j
  have hj := j.isLt
  have hbytes : i * hypBlkSectorSize + j.val < ((o.bufs blk w.mem).map fun b => b.2.toNat).sum := by
    have hsum : ((o.bufs blk w.mem).map fun b => b.2.toNat).sum =
        hypBlkSectorSize * sectorCount (o.bufs blk w.mem) :=
      bytes_of_aligned (hr.fits (.inl ht) hB hok).1
    unfold hypBlkSectorSize at *
    omega
  have hgather : gather w'.mem (o.bufs blk w.mem) (i * hypBlkSectorSize + j.val) =
      w.sd.bytesFrom (o.start blk w.mem) (i * hypBlkSectorSize + j.val) := by
    have hfill := gather_scatter hp w.mem (w.sd.bytesFrom (o.start blk w.mem)) _ hbytes
    rw [← hfill, hmem]
    unfold storeStatus
    split
    · rfl
    · exact gather_store8 hst _ _ _ hbytes
  rw [hgather, ← Sd.bytesFrom_add]
  unfold Sd.bytesFrom
  simp [Nat.div_eq_of_lt hj, Nat.mod_eq_of_lt hj]

/-- A proper request is an operation on the store. -/
theorem serve_step (hB : w.sd.Bounded) (ho : o.Proper blk w.mem) {written : Word} {w' : World}
    (h : o.serve blk w = some (written, w')) :
    Steps BlockStep w.sd.sectors (o.ops blk w w') w'.sd.sectors := by
  obtain ⟨written', w₁, heq, hr⟩ := blkDoRequest_result (w := w) ho.chain (Nat.lt_succ_self _)
  obtain ⟨rfl, rfl⟩ := Prod.mk.inj (Option.some.inj (heq.symm.trans h))
  unfold Offer.ops
  by_cases ht : requestType blk w.mem o.head = virtioBlkTOut
  · obtain ⟨hout, -, -, hothers⟩ := sectorsRight_of_lt hr (.inr ht) hB (ho.sector (.inr ht))
    rw [if_pos ht]
    by_cases hok : w₁.sErrors = w.sErrors
    · rw [if_pos hok, hout ht hok, ← overlay_sectorsIn]
      exact .single .write
    · rw [if_neg hok]
      exact .single (.failed hothers)
  · rw [if_neg ht, serve_sectors ho.chain ht heq]
    split
    · rename_i hread
      obtain ⟨htin, hok⟩ := hread
      exact .single (.read (serve_read hB ho hr htin hok))
    · exact .nil

/-- A proper request ends. -/
theorem serve_ends (ho : o.Proper blk w.mem) :
    ∃ written w', o.serve blk w = some (written, w') := by
  obtain ⟨written, w', heq, -⟩ := blkDoRequest_result (w := w) ho.chain (Nat.lt_succ_self _)
  exact ⟨written, w', heq⟩

end Request

/-! ## Runs -/

section Run

variable {blk : Blk} {w₀ w : World} {h : List (World × DiskEvent)}

/-- Over a run the card is a store, and each request an operation on it. -/
theorem disk_steps (hB : w₀.sd.Bounded) (hrun : Run (diskFire blk) w₀ h w)
    (hC : Run.Meets (DiskOk blk) h) : w.sd.Bounded ∧
      Steps BlockStep w₀.sd.sectors (h.flatMap fun p => diskOps blk p.1 p.2) w.sd.sectors := by
  refine Run.simulates BlockStep (DiskOk blk) (fun w => w.sd.Bounded) (fun w => w.sd.sectors)
    (diskOps blk) hB ?_ hrun hC
  intro w e w' hB hc hf
  cases e with
  | guest mem =>
      obtain rfl := Option.some.inj hf
      exact ⟨hB, .nil⟩
  | request o =>
      obtain ⟨⟨written, w₁⟩, hserve, rfl⟩ := Option.map_eq_some_iff.mp hf
      obtain ⟨haccepts, hcapacity⟩ := serve_card hc.chain hserve
      refine ⟨hB.congr haccepts hcapacity, ?_⟩
      simp only [diskOps, hserve]
      exact serve_step hB hc hserve

/-- After any run of proper requests, successful or not, the next read ends, and if it
succeeds it puts into the guest's buffers, sector by sector, what the last write of
that sector stored, or the card's first contents if there was none. -/
theorem disk_reads_back (hB : w₀.sd.Bounded) (hrun : Run (diskFire blk) w₀ h w)
    (hC : Run.Meets (DiskOk blk) h) {o : Offer} (ho : o.Proper blk w.mem)
    (ht : requestType blk w.mem o.head = virtioBlkTIn) :
    ∃ written w', o.serve blk w = some (written, w') ∧
      (w'.sErrors = w.sErrors → ∀ i < sectorCount (o.bufs blk w.mem),
        (lastWritten (h.flatMap fun p => diskOps blk p.1 p.2) (o.start blk w.mem + i)).Holds
          (w₀.sd.sectors (o.start blk w.mem + i))
          fun j => gather w'.mem (o.bufs blk w.mem) (i * hypBlkSectorSize + j.val)) := by
  obtain ⟨hBw, hsteps⟩ := disk_steps hB hrun hC
  obtain ⟨written, w', heq⟩ := serve_ends (w := w) ho
  refine ⟨written, w', heq, fun hok i hi => ?_⟩
  have hread := serve_step hBw ho heq
  rw [Offer.ops, if_neg (by rw [ht]; decide), if_pos ⟨ht, hok⟩] at hread
  have hdata : (sectorsIn w'.mem (o.bufs blk w.mem))[i]? =
      some (w.sd.sectors (o.start blk w.mem + i)) := by
    cases hread with
    | cons hstep _ =>
        cases hstep with
        | read hr => exact hr i (by rw [sectorsIn_length]; exact hi)
  rw [sectorsIn_getElem hi] at hdata
  rw [Option.some.inj hdata]
  exact hsteps.lastWritten _

/-- Memory with a write of sector 5 laid out, from a buffer whose byte 7 is `0xab`. -/
def sector5Out : Mem := (oneSector virtioBlkTOut 5 0x48200000).store8 0x48200007 0xab

theorem smallSd_bounded (ok : Bool) : (smallSd ok).Bounded := by
  intro k write sector count h
  simp only [smallSd, Bool.and_eq_true, decide_eq_true_eq] at h
  exact h.2

theorem sector5Out_proper : (Offer.mk 0 [1] 2).Proper smallBlk sector5Out where
  chain := ⟨by decide +kernel, by decide +kernel, by decide +kernel,
    oneSector_clear (by decide +kernel)⟩
  sector := fun _ => by decide +kernel
  apart := fun h => absurd h (by decide +kernel)

theorem sector5In_bufs :
    (Offer.mk 0 [1] 2).bufs smallBlk (oneSector virtioBlkTIn 5 0x48200000) =
      [(0x48200000, 512)] := by
  decide +kernel

theorem sector5In_proper :
    (Offer.mk 0 [1] 2).Proper smallBlk (oneSector virtioBlkTIn 5 0x48200000) where
  chain := ⟨by decide +kernel, by decide +kernel, by decide +kernel,
    oneSector_clear (by decide +kernel)⟩
  sector := fun _ => by decide +kernel
  apart := fun _ => by
    rw [sector5In_bufs]
    refine ⟨List.pairwise_singleton _ _, fun b hb => ?_⟩
    rw [List.mem_singleton.mp hb]
    decide +kernel

/-- What the write leaves. -/
def sector5Served : Word × World :=
  ((Offer.mk 0 [1] 2).serve smallBlk (worldOf sector5Out (smallSd true))).getD
    (0, worldOf sector5Out (smallSd true))

theorem sector5Served_eq :
    (Offer.mk 0 [1] 2).serve smallBlk (worldOf sector5Out (smallSd true)) = some sector5Served := by
  have hserve : ((Offer.mk 0 [1] 2).serve smallBlk (worldOf sector5Out (smallSd true))).isSome =
      true := by
    decide +kernel
  obtain ⟨r, hr⟩ := Option.isSome_iff_exists.mp hserve
  rw [sector5Served, hr, Option.getD_some]

/-- Sector 5 is written, the memory replaced, and the sector read. -/
theorem disk_reads_back_sector5 :
    ∃ h w, Run (diskFire smallBlk) (worldOf sector5Out (smallSd true)) h w ∧
    ∃ written w', (Offer.mk 0 [1] 2).serve smallBlk w = some (written, w') ∧
      w'.sErrors = w.sErrors ∧
      (lastWritten (h.flatMap fun p => diskOps smallBlk p.1 p.2) 5).Holds (fun _ => 0)
        fun j => gather w'.mem [(0x48200000, 512)] j.val := by
  have hrun : Run (diskFire smallBlk) (worldOf sector5Out (smallSd true))
      [(worldOf sector5Out (smallSd true), .request ⟨0, [1], 2⟩),
        (sector5Served.2, .guest (oneSector virtioBlkTIn 5 0x48200000))]
      { sector5Served.2 with mem := oneSector virtioBlkTIn 5 0x48200000 } :=
    .step (.step .start (by rw [diskFire, sector5Served_eq]; rfl)) rfl
  have hC : Run.Meets (DiskOk smallBlk) [(worldOf sector5Out (smallSd true), .request ⟨0, [1], 2⟩),
      (sector5Served.2, .guest (oneSector virtioBlkTIn 5 0x48200000))] := by
    intro p hp
    rcases List.mem_cons.mp hp with rfl | hp
    · exact sector5Out_proper
    · rw [List.mem_singleton.mp hp]
      trivial
  have ht : requestType smallBlk (oneSector virtioBlkTIn 5 0x48200000) 0 = virtioBlkTIn := by
    decide +kernel
  obtain ⟨written, w', heq, hread⟩ :=
    disk_reads_back (smallSd_bounded true) hrun hC sector5In_proper ht
  have hok : ((Offer.mk 0 [1] 2).serve smallBlk
      { sector5Served.2 with mem := oneSector virtioBlkTIn 5 0x48200000 }).map
        (fun r => r.2.sErrors) = some sector5Served.2.sErrors := by
    decide +kernel
  rw [heq] at hok
  have hstart : (Offer.mk 0 [1] 2).start smallBlk (oneSector virtioBlkTIn 5 0x48200000) = 5 := by
    decide +kernel
  refine ⟨_, _, hrun, written, w', heq, Option.some.inj hok, ?_⟩
  have hzero := hread (Option.some.inj hok) 0 (by rw [sector5In_bufs]; decide)
  simp only [sector5In_bufs, hstart, Nat.zero_mul, Nat.zero_add, Nat.add_zero] at hzero
  exact hzero

end Run

end P4Hyp
