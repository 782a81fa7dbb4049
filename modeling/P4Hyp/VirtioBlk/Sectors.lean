import P4Hyp.VirtioBlk.Walk

/-!
# Which sectors a request moves

The header's 64-bit sector is cut to 32 bits before the walk.  Below `2 ^ 32`
the cut loses nothing, and the card's bounds keep every later addition from
wrapping, so the sectors moved are the ones named.  From `2 ^ 32` on the request
is carried out on other sectors, unless nothing of it fits there.
-/

namespace P4Hyp

/-- The number of sectors that buffers of these lengths name. -/
def sectorCount (bufs : List (Word × Word)) : Nat :=
  (bufs.map fun b => b.2.toNat / hypBlkSectorSize).sum

/-- The contents of the buffers, one after the other. -/
def gather (m : Mem) : List (Word × Word) → Nat → Byte
  | [], _ => 0
  | (buf, len) :: bufs, i =>
      if i < len.toNat then m (buf + BitVec.ofNat 32 i) else gather m bufs (i - len.toNat)

/-- Memory with the buffers filled from `f`, one after the other. -/
def scatter (m : Mem) : List (Word × Word) → (Nat → Byte) → Mem
  | [], _ => m
  | (buf, len) :: bufs, f => scatter (m.fill buf len.toNat f) bufs fun i => f (len.toNat + i)

/-- The first buffer that is not empty. -/
def firstBuf (bufs : List (Word × Word)) : Option (Word × Word) := bufs.find? fun b => b.2 ≠ 0

theorem sectorCount_cons (buf len : Word) (bufs : List (Word × Word)) :
    sectorCount ((buf, len) :: bufs) = len.toNat / hypBlkSectorSize + sectorCount bufs := rfl

theorem firstBuf_cons {buf len : Word} (hl : len ≠ 0) (bufs : List (Word × Word)) :
    firstBuf ((buf, len) :: bufs) = some (buf, len) := by
  unfold firstBuf
  rw [List.find?_cons_of_pos (by simpa using hl)]

theorem sectorCount_of_firstBuf {bufs : List (Word × Word)} (h : firstBuf bufs = none) :
    sectorCount bufs = 0 := by
  induction bufs with
  | nil => rfl
  | cons b bufs ih =>
      obtain ⟨buf, len⟩ := b
      by_cases hl : len = 0
      · subst hl
        rw [sectorCount_cons, ih h]
        rfl
      · rw [firstBuf_cons hl] at h
        cases h

theorem scatter_congr {f g : Nat → Byte} {bufs : List (Word × Word)} (m : Mem)
    (h : ∀ i < (bufs.map fun b => b.2.toNat).sum, f i = g i) :
      scatter m bufs f = scatter m bufs g := by
  induction bufs generalizing m f g with
  | nil => rfl
  | cons b bufs ih =>
      simp only [List.map_cons, List.sum_cons] at h
      unfold scatter
      rw [Mem.fill_congr (g := g) fun i hi => h i (by omega)]
      exact ih _ fun i hi => h _ (by omega)

/-- Scattering one byte value puts it everywhere in the buffers. -/
theorem scatter_const {v : Byte} {x : Word} {bufs : List (Word × Word)} {m : Mem}
    (h : m x = v ∨ ∃ b ∈ bufs, Covers b.1 b.2.toNat x) : scatter m bufs (fun _ => v) x = v := by
  induction bufs generalizing m with
  | nil =>
      rcases h with h | ⟨b, hb, _⟩
      · exact h
      · cases hb
  | cons b bufs ih =>
      unfold scatter
      apply ih
      by_cases hx : Covers b.1 b.2.toNat x
      · exact .inl (Mem.fill_inside hx)
      · rw [Mem.fill_outside hx]
        rcases h with h | ⟨c, hc, hcx⟩
        · exact .inl h
        · rcases List.mem_cons.mp hc with rfl | hc
          · exact absurd hcx hx
          · exact .inr ⟨c, hc, hcx⟩

/-! ## The bounds of a granted request -/

/-- Calls that the card grants lie inside it, so their sectors do not wrap. -/
theorem Sd.GrantsFrom.fits {sd : Sd} {k : Nat} {write : Bool} {sector : Word} {count : Nat}
    (h : sd.GrantsFrom k write sector count) (hB : sd.Bounded) (hc : 0 < count) :
    sector.toNat + count ≤ sd.capacity.toNat := by
  induction count using Nat.strongRecOn generalizing k sector with
  | ind count ih =>
      obtain ⟨hfirst, hrest⟩ := (sd.grantsFrom_next k write sector hc).mp h
      have hb := hB.of_grants hfirst
      have hcap := sd.capacity.isLt
      rw [BitVec.toNat_ofNat] at hb
      by_cases hlast : count ≤ 64
      · omega
      · have hb' := ih (count - min 64 count) (by omega) hrest (by omega)
        rw [BitVec.toNat_add, BitVec.toNat_ofNat] at hb'
        omega

theorem AllGranted.sectors {sd : Sd} {type : Word} {k : Nat} {sector : Word}
    (bufs : List (Word × Word)) (ht : type = virtioBlkTIn ∨ type = virtioBlkTOut)
    (hB : sd.Bounded) (h : AllGranted sd type k sector (bufs.map Prod.snd)) :
    (∀ b ∈ bufs, b.2.toNat % hypBlkSectorSize = 0) ∧
      (0 < sectorCount bufs → sector.toNat + sectorCount bufs ≤ sd.capacity.toNat) := by
  induction bufs generalizing k sector with
  | nil =>
      exact ⟨fun _ hb => absurd hb List.not_mem_nil, fun h => absurd h (Nat.lt_irrefl 0)⟩
  | cons b bufs ih =>
      obtain ⟨buf, len⟩ := b
      obtain ⟨hd, hrest⟩ := h
      have hal : len.toNat % hypBlkSectorSize = 0 ∧
          ∃ write, sd.GrantsFrom k write sector (len.toNat / hypBlkSectorSize) := by
        rcases ht with ht | ht
        · rw [DescGranted, if_pos ht] at hd
          exact ⟨hd.1, false, hd.2⟩
        · rw [DescGranted, if_neg (by rw [ht]; decide), if_pos ht] at hd
          exact ⟨hd.1, true, hd.2⟩
      obtain ⟨hal, write, hg⟩ := hal
      obtain ⟨hals, hfits⟩ := ih hrest
      rw [sectorCount_cons]
      constructor
      · intro c hc
        rcases List.mem_cons.mp hc with rfl | hc
        · exact hal
        · exact hals c hc
      · intro hpos
        have hn : nextSector type sector len = sector + len / BitVec.ofNat 32 hypBlkSectorSize :=
          if_pos ht
        rw [hn, BitVec.toNat_add, BitVec.toNat_udiv] at hfits
        have hlt := sd.capacity.isLt
        have hd : (BitVec.ofNat 32 hypBlkSectorSize).toNat = hypBlkSectorSize := rfl
        rw [hd] at hfits
        have hslt := sector.isLt
        have hfirst := fun hz => hg.fits hB hz
        generalize len.toNat / hypBlkSectorSize = n at *
        by_cases hz : n = 0
        · omega
        · have := hfirst (by omega)
          omega

/-! ## One data descriptor -/

/-- A write whose first call is refused moves nothing. -/
theorem blkTransfer_write_stuck {sector buf len : Word} {w : World} {N : Nat} (hl : len ≠ 0)
    (hN : len.toNat = hypBlkSectorSize * N)
    (hg : w.sd.grants w.sd.calls true sector (BitVec.ofNat 32 (min 64 N)) = false) :
    (blkTransfer true sector buf len w).1 = false ∧
      (blkTransfer true sector buf len w).2.sd.sectors = w.sd.sectors := by
  have hpos : len.toNat = len.toNat - 1 + 1 := by
    have : len.toNat ≠ 0 := fun hz => hl (BitVec.eq_of_toNat_eq hz)
    omega
  rw [← blkChunk_sectors hN] at hg
  obtain ⟨w', he, hm⟩ := blkTransferLoop_refused (len.toNat - 1) buf hl hg
  rw [← hpos] at he
  rw [blkTransfer, he]
  exact ⟨rfl, hm.sectors⟩

/-- A write whose first call is granted has put the first sector of the buffer
on the card, whatever becomes of the rest. -/
theorem blkTransfer_write_first {sector buf len : Word} {w : World} {N : Nat} (hl : len ≠ 0)
    (hB : w.sd.Bounded) (hN : len.toNat = hypBlkSectorSize * N)
    (hg : w.sd.grants w.sd.calls true sector (BitVec.ofNat 32 (min 64 N)) = true) :
    (blkTransfer true sector buf len w).2.sd.sectors sector.toNat =
      fun o => w.mem (buf + BitVec.ofNat 32 o.val) := by
  have hpos : len.toNat = len.toNat - 1 + 1 := by
    have : len.toNat ≠ 0 := fun hz => hl (BitVec.eq_of_toNat_eq hz)
    omega
  have hNpos : 0 < N := by
    unfold hypBlkSectorSize at hN
    omega
  rw [← blkChunk_sectors hN] at hg
  obtain ⟨w', he, hm⟩ := blkTransferLoop_granted (len.toNat - 1) buf hl hg
  obtain ⟨hsec, hcnt⟩ := chunk_sector hB hN hg
  have hrest := sub_blkChunk hN
  have hlt : (len - blkChunk len).toNat ≤ len.toNat - 1 := sub_blkChunk_lt hl (by omega)
  have hgo : blkTransfer true sector buf len w = blkTransfer true
      (sector + blkChunk len / BitVec.ofNat 32 hypBlkSectorSize) (buf + blkChunk len)
      (len - blkChunk len) w' := by
    rw [blkTransfer, hpos, he]
    exact blkTransferLoop_fuel hlt
  have hout := blkTransfer_write_outside (s := sector.toNat)
    (sector + blkChunk len / BitVec.ofNat 32 hypBlkSectorSize) (buf + blkChunk len)
      (hB.congr hm.quiet.accepts hm.quiet.capacity) hrest (by rw [hsec]; omega)
  rw [hgo, hout, (hm.out rfl).2, hcnt]
  funext o
  have ho := o.isLt
  have hchunk := blkChunk_eq hN
  unfold Sd.putSectors
  unfold hypBlkSectorSize at ho hchunk
  rw [if_pos (by omega), Nat.sub_self, Nat.zero_mul, Nat.zero_add]
  exact if_pos (by omega)

/-- What `blkData` does for a write. -/
structure OutData (k : Walk) (buf len : Word) (w : World) (r : Bool × Word × Word × World) :
    Prop where
  mem : r.2.2.2.mem = w.mem
  outside : w.sd.Bounded → ∀ s, ¬ (k.sector.toNat ≤ s ∧
    s < k.sector.toNat + len.toNat / hypBlkSectorSize) → r.2.2.2.sd.sectors s = w.sd.sectors s
  moved : w.sd.Bounded → r.1 = true → r.2.2.2.sd.sectors = Sd.putSectors w.sd.sectors
    k.sector.toNat (len.toNat / hypBlkSectorSize) fun i => w.mem (buf + BitVec.ofNat 32 i)
  stuck : len ≠ 0 → (len.toNat % hypBlkSectorSize = 0 → w.sd.grants w.sd.calls true k.sector
    (BitVec.ofNat 32 (min 64 (len.toNat / hypBlkSectorSize))) = false) →
      r.1 = false ∧ r.2.2.2.sd.sectors = w.sd.sectors
  first : w.sd.Bounded → len ≠ 0 → len.toNat % hypBlkSectorSize = 0 →
    w.sd.grants w.sd.calls true k.sector
      (BitVec.ofNat 32 (min 64 (len.toNat / hypBlkSectorSize))) = true →
    r.2.2.2.sd.sectors k.sector.toNat = fun o => w.mem (buf + BitVec.ofNat 32 o.val)

theorem blkData_out {k : Walk} (ht : k.type = virtioBlkTOut) (buf len : Word) (w : World) :
    OutData k buf len w (blkData k buf len w) := by
  have hin : ¬ k.type = virtioBlkTIn := by rw [ht]; decide
  have hmod := mod_sector_iff len
  by_cases hal : len % BitVec.ofNat 32 hypBlkSectorSize = 0
  · have hN := sectors_mul (hmod.mp hal)
    simp only [blkData, if_neg hin, if_pos ht, if_pos hal]
    exact ⟨blkTransfer_write_mem _ _ _ _, fun hB s hs => blkTransfer_write_outside _ _ hB hN hs,
      fun hB hok => blkTransfer_write hB hN hok,
      fun hl hg => blkTransfer_write_stuck hl hN (hg (hmod.mp hal)),
      fun hB hl _ hg => blkTransfer_write_first hl hB hN hg⟩
  · simp only [blkData, if_neg hin, if_pos ht, if_neg hal]
    exact ⟨rfl, fun _ _ _ => rfl, fun _ h => absurd h Bool.false_ne_true, fun _ _ => ⟨rfl, rfl⟩,
      fun _ _ h => absurd (hmod.mpr h) hal⟩

theorem blkData_in {k : Walk} (ht : k.type = virtioBlkTIn) (buf len : Word) (w : World) :
    (blkData k buf len w).2.2.2.sd.sectors = w.sd.sectors ∧
      (w.sd.Bounded → (blkData k buf len w).1 = true → (blkData k buf len w).2.2.2.mem =
        w.mem.fill buf len.toNat (w.sd.bytesFrom k.sector.toNat)) := by
  by_cases hal : len % BitVec.ofNat 32 hypBlkSectorSize = 0
  · have hN := sectors_mul ((mod_sector_iff len).mp hal)
    simp only [blkData, if_pos ht, if_pos hal]
    exact ⟨blkTransfer_read_sectors _ _ _ _, fun hB hok => blkTransfer_read hB hN hok⟩
  · simp only [blkData, if_pos ht, if_neg hal]
    exact ⟨trivial, fun _ h => absurd h Bool.false_ne_true⟩

/-! ## The whole walk -/

/-- A write of the sectors of `bufs`, from `k.sector` on, that ended in `w'`. -/
structure OutEnd (bufs : List (Word × Word)) (k : Walk) (w : World) (ok : Bool) (w' : World) :
    Prop where
  mem : w'.mem = w.mem
  outside : w.sd.Bounded → ∀ s, ¬ (k.sector.toNat ≤ s ∧ s < k.sector.toNat + sectorCount bufs) →
    w'.sd.sectors s = w.sd.sectors s
  moved : w.sd.Bounded → ok = true → w'.sd.sectors =
    Sd.putSectors w.sd.sectors k.sector.toNat (sectorCount bufs) (gather w.mem bufs)
  stuck : w.sd.Bounded → (∀ b, firstBuf bufs = some b → b.2.toNat % hypBlkSectorSize = 0 →
    w.sd.grants w.sd.calls true k.sector
      (BitVec.ofNat 32 (min 64 (b.2.toNat / hypBlkSectorSize))) = false) →
    w'.sd.sectors = w.sd.sectors
  first : w.sd.Bounded → ∀ b, firstBuf bufs = some b → b.2.toNat % hypBlkSectorSize = 0 →
    w.sd.grants w.sd.calls true k.sector
      (BitVec.ofNat 32 (min 64 (b.2.toNat / hypBlkSectorSize))) = true →
    w'.sd.sectors k.sector.toNat = fun o => w.mem (b.1 + BitVec.ofNat 32 o.val)

/-- The data descriptor succeeded: what its sectors are, and that they do not
wrap. -/
theorem granted_sector {type sector len : Word} {sd : Sd} {k : Nat}
    (ht : type = virtioBlkTIn ∨ type = virtioBlkTOut) (hB : sd.Bounded)
    (h : DescGranted sd type k sector len) :
    len.toNat % hypBlkSectorSize = 0 ∧ (nextSector type sector len).toNat =
      sector.toNat + len.toNat / hypBlkSectorSize := by
  obtain ⟨hals, hfits⟩ := AllGranted.sectors [((0 : Word), len)] ht hB ⟨h, trivial⟩
  refine ⟨hals (0, len) (by simp), ?_⟩
  have hlt := sd.capacity.isLt
  have hslt := sector.isLt
  have hcount : sectorCount [((0 : Word), len)] = len.toNat / hypBlkSectorSize := by
    simp [sectorCount]
  rw [hcount] at hfits
  have hd : (BitVec.ofNat 32 hypBlkSectorSize).toNat = hypBlkSectorSize := rfl
  rw [nextSector, if_pos ht, BitVec.toNat_add, BitVec.toNat_udiv, hd]
  generalize len.toNat / hypBlkSectorSize = n at *
  by_cases hz : n = 0
  · omega
  · have := hfits (by omega)
    omega

theorem gather_next (m : Mem) (buf : Word) {len : Word} (bufs : List (Word × Word))
    (hal : len.toNat % hypBlkSectorSize = 0) :
    gather m ((buf, len) :: bufs) = fun i =>
      if i < len.toNat / hypBlkSectorSize * hypBlkSectorSize then m (buf + BitVec.ofNat 32 i)
      else gather m bufs (i - len.toNat / hypBlkSectorSize * hypBlkSectorSize) := by
  have hN : len.toNat / hypBlkSectorSize * hypBlkSectorSize = len.toNat := by
    rw [Nat.mul_comm]
    exact (sectors_mul hal).symm
  rw [hN]
  rfl

theorem OutEnd.next {buf len : Word} {bufs : List (Word × Word)} {k : Walk}
    {w w₀ w₁ w₂ w' : World} {sector written : Word} {idx : Half} {ok : Bool}
    (ht : k.type = virtioBlkTOut) (hw : SameButTrace w w₀)
    (hd : blkData k buf len w₀ = (true, sector, written, w₁)) (hw₂ : SameButTrace w₁ w₂)
    (h : OutEnd bufs { k with sector, written, idx } w₂ ok w') :
    OutEnd ((buf, len) :: bufs) k w ok w' := by
  have hs := blkData_spec k buf len w₀
  have ho := blkData_out ht buf len w₀
  rw [hd] at hs ho
  have hsec : sector = nextSector k.type k.sector len := hs.sector rfl
  have hg := hs.ok.mp rfl
  have hB₂ (hB : w.sd.Bounded) : w₂.sd.Bounded := by
    rw [hw₂.sd]
    exact (hw.sd.symm ▸ hB).congr hs.quiet.accepts hs.quiet.capacity
  have hwrap (hB : w.sd.Bounded) := granted_sector (.inr ht) (hw.sd.symm ▸ hB) hg
  have hmem₁ : w₂.mem = w.mem := hw₂.mem.trans (ho.mem.trans hw.mem)
  have hsec₂ : w₂.sd.sectors = w₁.sd.sectors := by rw [hw₂.sd]
  have hsec₀ : w₀.sd.sectors = w.sd.sectors := by rw [hw.sd]
  -- an empty buffer changes nothing that the rest of the walk looks at
  have hzero (hB : w.sd.Bounded) (hl : len = 0) : sector = k.sector ∧ w₂.sd.calls = w.sd.calls ∧
      w₂.sd.sectors = w.sd.sectors ∧ ∀ count, w₂.sd.grants w.sd.calls true k.sector count =
        w.sd.grants w.sd.calls true k.sector count := by
    subst hl
    have hput := ho.moved (hw.sd.symm ▸ hB) rfl
    have hcalls : w₁.sd.calls = w₀.sd.calls + dataCalls k.type 0 := hs.calls rfl
    have hc0 : dataCalls k.type 0 = 0 := by
      rw [ht]
      rfl
    refine ⟨hsec.trans (BitVec.eq_of_toNat_eq (hwrap hB).2), ?_, ?_, ?_⟩
    · rw [hw₂.sd, hcalls, hc0, hw.sd]
      rfl
    · rw [hsec₂, ← hsec₀]
      exact hput.trans (Sd.putSectors_zero _ _ _)
    · intro count
      rw [hw₂.sd, Sd.grants_congr hs.quiet.ready hs.quiet.accepts, hw.sd]
  refine ⟨h.mem.trans hmem₁, fun hB s hns => ?_, fun hB hok => ?_, fun hB hst => ?_,
    fun hB b hb hal hgr => ?_⟩
  · have hout := h.outside (hB₂ hB) s
    have hhere := ho.outside (hw.sd.symm ▸ hB) s
    simp only [hsec, (hwrap hB).2] at hout
    rw [sectorCount_cons] at hns
    generalize len.toNat / hypBlkSectorSize = n at *
    rw [hout (by omega), hsec₂, hhere (by omega), hsec₀]
  · have hm := h.moved (hB₂ hB) hok
    have hhere := ho.moved (hw.sd.symm ▸ hB) rfl
    simp only [hsec, (hwrap hB).2] at hm
    simp only [hsec₀, hw.mem] at hhere
    rw [hm, hsec₂, hhere, Sd.putSectors_next, hmem₁, gather_next _ _ _ (hwrap hB).1]
    rfl
  · by_cases hl : len = 0
    · obtain ⟨hsame, hcalls, hsectors, hgrants⟩ := hzero hB hl
      subst hl
      rw [h.stuck (hB₂ hB) ?_, hsectors]
      intro b hb hal
      rw [hcalls, hsame, hgrants]
      exact hst b hb hal
    · have hno := (ho.stuck hl fun hal => by
        rw [hw.sd]
        exact hst _ (firstBuf_cons hl bufs) hal).1
      cases hno
  · by_cases hl : len = 0
    · obtain ⟨hsame, hcalls, _, hgrants⟩ := hzero hB hl
      subst hl
      have hf := h.first (hB₂ hB) b hb hal
      simp only [hcalls, hsame, hgrants, hmem₁] at hf
      exact hf hgr
    · rw [firstBuf_cons hl] at hb
      obtain rfl : (buf, len) = b := by simpa using hb
      have hhere := ho.first (hw.sd.symm ▸ hB) hl hal (by rw [hw.sd]; exact hgr)
      have hout := h.outside (hB₂ hB) k.sector.toNat
      have hpos : 0 < len.toNat / hypBlkSectorSize := by
        have hne : len.toNat ≠ 0 := fun hz => hl (BitVec.eq_of_toNat_eq hz)
        have hm := sectors_mul hal
        refine Nat.pos_of_ne_zero fun hz => hne ?_
        rw [hm, hz, Nat.mul_zero]
      simp only [hsec, (hwrap hB).2] at hout
      rw [hout (by omega), hsec₂, hhere, hw.mem]

theorem OutEnd.failed {buf len : Word} {bufs : List (Word × Word)} {k : Walk} {w w₀ w' : World}
    {sector written : Word} (ht : k.type = virtioBlkTOut) (hw : SameButTrace w w₀)
    (hd : blkData k buf len w₀ = (false, sector, written, w')) :
    OutEnd ((buf, len) :: bufs) k w false w' := by
  have hs := blkData_spec k buf len w₀
  have ho := blkData_out ht buf len w₀
  rw [hd] at hs ho
  have hsec₀ : w₀.sd.sectors = w.sd.sectors := by rw [hw.sd]
  -- an empty buffer never fails
  have hl : len ≠ 0 := by
    intro hl
    subst hl
    have hg : DescGranted w₀.sd k.type w₀.sd.calls k.sector 0 := by
      rw [DescGranted, if_neg (by rw [ht]; decide), if_pos ht]
      exact ⟨by decide, Sd.grantsFrom_zero _ _ _ _⟩
    have hno := hs.ok.mpr hg
    cases hno
  refine ⟨ho.mem.trans hw.mem, fun hB s hns => ?_,
    fun _ h => absurd h Bool.false_ne_true, fun _ hst => ?_,
    fun hB b hb hal hgr => ?_⟩
  · have hhere := ho.outside (hw.sd.symm ▸ hB) s
    rw [sectorCount_cons] at hns
    generalize len.toNat / hypBlkSectorSize = n at *
    rw [hhere (by omega), hsec₀]
  · have hno := ho.stuck hl fun hal => by
      rw [hw.sd]
      exact hst _ (firstBuf_cons hl bufs) hal
    rw [hno.2, hsec₀]
  · rw [firstBuf_cons hl] at hb
    obtain rfl : (buf, len) = b := by simpa using hb
    rw [ho.first (hw.sd.symm ▸ hB) hl hal (by rw [hw.sd]; exact hgr), hw.mem]

/-- A read into `bufs`, from `k.sector` on, that ended in `w'`. -/
structure InEnd (bufs : List (Word × Word)) (k : Walk) (w : World) (ok : Bool) (w' : World) :
    Prop where
  sectors : w'.sd.sectors = w.sd.sectors
  filled : w.sd.Bounded → ok = true →
    w'.mem = scatter w.mem bufs (w.sd.bytesFrom k.sector.toNat)

theorem InEnd.next {buf len : Word} {bufs : List (Word × Word)} {k : Walk}
    {w w₀ w₁ w₂ w' : World} {sector written : Word} {idx : Half} {ok : Bool}
    (ht : k.type = virtioBlkTIn) (hw : SameButTrace w w₀)
    (hd : blkData k buf len w₀ = (true, sector, written, w₁)) (hw₂ : SameButTrace w₁ w₂)
    (h : InEnd bufs { k with sector, written, idx } w₂ ok w') :
    InEnd ((buf, len) :: bufs) k w ok w' := by
  have hs := blkData_spec k buf len w₀
  have hi := blkData_in ht buf len w₀
  rw [hd] at hs hi
  have hsec : sector = nextSector k.type k.sector len := hs.sector rfl
  have hsectors : w₂.sd.sectors = w.sd.sectors := by
    rw [hw₂.sd, hi.1, hw.sd]
  refine ⟨h.sectors.trans hsectors, fun hB hok => ?_⟩
  have hB₂ : w₂.sd.Bounded := by
    rw [hw₂.sd]
    exact (hw.sd.symm ▸ hB).congr hs.quiet.accepts hs.quiet.capacity
  obtain ⟨hal, hwrap⟩ := granted_sector (.inl ht) (hw.sd.symm ▸ hB) (hs.ok.mp rfl)
  have hfill := hi.2 (hw.sd.symm ▸ hB) rfl
  have hrest := h.filled hB₂ hok
  simp only [hsec, hwrap] at hrest
  have hmem : w₂.mem = w.mem.fill buf len.toNat (w.sd.bytesFrom k.sector.toNat) := by
    rw [hw₂.mem, hfill, hw.mem, hw.sd]
  rw [hrest, hmem, Sd.bytesFrom_congr hsectors]
  refine scatter_congr _ fun i _ => ?_
  rw [Sd.bytesFrom_add, Nat.mul_comm, ← sectors_mul hal]

theorem InEnd.failed {buf len : Word} {bufs : List (Word × Word)} {k : Walk} {w w₀ w' : World}
    {sector written : Word} (ht : k.type = virtioBlkTIn) (hw : SameButTrace w w₀)
    (hd : blkData k buf len w₀ = (false, sector, written, w')) :
    InEnd ((buf, len) :: bufs) k w false w' := by
  have hi := (blkData_in ht buf len w₀).1
  rw [hd] at hi
  exact ⟨hi.trans (by rw [hw.sd]), fun _ h => absurd h Bool.false_ne_true⟩

/-- What a read or write request comes to, from any state and with any card. -/
theorem blkDoRequest_ended {blk : Blk} {head : Half} {w : World} {data : List Half} {status : Half}
    {fuel : Nat} (hch : ChainAt blk w.mem head data status) (hfuel : data.length < fuel) :
    ∃ ok written w₀ w', blkDoRequest fuel blk head w = some (blkFinish (requestType blk w.mem head)
        (if ok then descBuf blk w.mem status else 0) ok written w') ∧
      SameButTrace w w₀ ∧
      WalkEnd (chainBufs w.mem blk.descTable blk.queueNum data)
        (startWalk blk w.mem head) w₀ ok w' ∧
      (requestType blk w.mem head = virtioBlkTOut →
        OutEnd (chainBufs w.mem blk.descTable blk.queueNum data)
          (startWalk blk w.mem head) w₀ ok w') ∧
      (requestType blk w.mem head = virtioBlkTIn →
        InEnd (chainBufs w.mem blk.descTable blk.queueNum data)
          (startWalk blk w.mem head) w₀ ok w') := by
  have hrule := blkDoRequest_chain (P := fun bufs k w ok w' =>
    (k.type = virtioBlkTOut → OutEnd bufs k w ok w') ∧
      (k.type = virtioBlkTIn → InEnd bufs k w ok w'))
    ?done ?failed ?next hch hfuel
  case done =>
    intro k w w' hw
    refine ⟨fun _ => ⟨hw.mem, fun _ _ _ => by rw [hw.sd], fun _ _ => ?_, fun _ _ => by rw [hw.sd],
      fun _ _ hb => absurd hb.symm (Option.some_ne_none _)⟩, fun _ =>
        ⟨by rw [hw.sd], fun _ _ => hw.mem⟩⟩
    rw [hw.sd]
    exact (Sd.putSectors_zero _ _ _).symm
  case failed =>
    intro buf len bufs k w w₀ sector written w' hw hd
    exact ⟨fun ht => OutEnd.failed ht hw hd, fun ht => InEnd.failed ht hw hd⟩
  case next =>
    rintro buf len bufs k w w₀ sector written idx w₁ w₂ ok w' hw hd hw₂ ⟨hout, hin⟩
    exact ⟨fun ht => OutEnd.next ht hw hd hw₂ (hout ht), fun ht => InEnd.next ht hw hd hw₂ (hin ht)⟩
  obtain ⟨ok, written, w₀, w', heq, hw₀, hend, hout, hin⟩ := hrule
  exact ⟨ok, written, w₀, w', heq, hw₀, hend, hout, hin⟩

/-! ## The result of a request -/

/-- The request ended with OK in its status byte. -/
def ReportedOk (a : Word) (w w' : World) : Prop :=
  statuses w'.trace = statuses w.trace ++ [(a, virtioBlkSOk)]

theorem not_reportedOk {a : Word} {w w' : World} (h : statuses w'.trace = statuses w.trace) :
    ¬ ReportedOk a w w' := by
  rw [ReportedOk, h]
  simp

/-- Every transfer succeeded: `blk_do_request` counted no error. -/
def Succeeded (w w' : World) : Prop := w'.sErrors = w.sErrors

/-- The final store of OK, which an address that reads as null suppresses. -/
def storeStatus (m : Mem) (a : Word) : Mem := if a = 0 then m else m.store8 a virtioBlkSOk

/-- What is known of a request for the buffers `bufs` from `sector` on that took
`w` to `w'`, with its status byte at `a`. -/
structure RequestResult (type sector a : Word) (bufs : List (Word × Word)) (w w' : World) :
    Prop where
  granted : Succeeded w w' ↔ AllGranted w.sd type w.sd.calls sector (bufs.map Prod.snd)
  reported : ReportedOk a w w' ↔ Succeeded w w' ∧ a ≠ 0
  out : type = virtioBlkTOut → ∃ k w₁, k.sector = sector ∧ w'.sd.sectors = w₁.sd.sectors ∧
    ∃ ok, (ok = true ↔ Succeeded w w') ∧ OutEnd bufs k w ok w₁
  sectors : type = virtioBlkTIn → w'.sd.sectors = w.sd.sectors
  filled : type = virtioBlkTIn → w.sd.Bounded → Succeeded w w' →
    w'.mem = storeStatus (scatter w.mem bufs (w.sd.bytesFrom sector.toNat)) a

theorem OutEnd.of_same {bufs : List (Word × Word)} {k : Walk} {w w₀ w' : World} {ok : Bool}
    (hw : SameButTrace w w₀) (h : OutEnd bufs k w₀ ok w') : OutEnd bufs k w ok w' := by
  obtain ⟨h1, h2, h3, h4, h5⟩ := h
  rw [hw.sd] at h2 h3 h4 h5
  rw [hw.mem] at h1 h3 h5
  exact ⟨h1, h2, h3, h4, h5⟩

theorem blkDoRequest_result {blk : Blk} {head : Half} {w : World} {data : List Half} {status : Half}
    {fuel : Nat} (hch : ChainAt blk w.mem head data status) (hfuel : data.length < fuel) :
    ∃ written w', blkDoRequest fuel blk head w = some (written, w') ∧
      RequestResult (requestType blk w.mem head) ((requestSector blk w.mem head).setWidth 32)
        (descBuf blk w.mem status) (chainBufs w.mem blk.descTable blk.queueNum data) w w' := by
  obtain ⟨ok, written, w₀, w₁, heq, hw₀, hend, hout, hin⟩ := blkDoRequest_ended hch hfuel
  have hst : statuses w₁.trace = statuses w.trace := hend.statuses.trans hw₀.trace
  have hall := hend.ok
  rw [hw₀.sd] at hall
  have herr : w₁.sErrors = w.sErrors := hend.errors.trans hw₀.errors
  generalize hr : blkFinish (requestType blk w.mem head)
    (if ok then descBuf blk w.mem status else 0) ok written w₁ = r at heq
  have hsucc : Succeeded w r.2 ↔ ok = true := by
    rw [← hr, Succeeded, ← herr]
    exact blkFinish_errors _ _ _ _ _
  have hsd : r.2.sd = w₁.sd := by
    rw [← hr]
    exact blkFinish_sd _ _ _ _ _
  refine ⟨r.1, r.2, heq, hsucc.trans hall, ?_, fun ht => ?_, fun ht => ?_, fun ht hB hok => ?_⟩
  · rw [hsucc, ← hr]
    cases ok with
    | false =>
        exact iff_of_false (not_reportedOk ((blkFinish_null _ _ _ _).1.trans hst)) (by simp)
    | true =>
        by_cases ha : descBuf blk w.mem status = 0
        · rw [if_pos rfl, ha]
          exact iff_of_false (not_reportedOk ((blkFinish_null _ _ _ _).1.trans hst))
            fun h => h.2 rfl
        · refine iff_of_true ?_ ⟨rfl, ha⟩
          rw [ReportedOk, ← hst]
          exact (blkFinish_ok _ ha _ _).1
  · exact ⟨_, w₁, rfl, by rw [hsd], ok, hsucc.symm, (hout ht).of_same hw₀⟩
  · rw [hsd, (hin ht).sectors, hw₀.sd]
  · have hok' := hsucc.mp hok
    subst hok'
    have hfill := (hin ht).filled (hw₀.sd.symm ▸ hB) rfl
    rw [hw₀.mem, hw₀.sd] at hfill
    unfold storeStatus
    by_cases ha : descBuf blk w.mem status = 0
    · rw [if_pos ha, ← hr, ha]
      exact (blkFinish_null _ _ _ _).2.trans hfill
    · rw [if_neg ha, ← hr]
      have hm := (blkFinish_ok (requestType blk w.mem head) ha written w₁).2
      rw [hfill] at hm
      exact hm

/-! ## The sectors a request names -/

/-- The request names sector `s`: it is one of `S, S + 1, …`, one for each sector
of its buffers. -/
def Names (S : BitVec 64) (bufs : List (Word × Word)) (s : Nat) : Prop :=
  S.toNat ≤ s ∧ s < S.toNat + sectorCount bufs

/-- The request that took `w` to `w'` moved the sectors it names and no others. -/
structure SectorsRight (type : Word) (S : BitVec 64) (a : Word) (bufs : List (Word × Word))
    (w w' : World) : Prop where
  out : type = virtioBlkTOut → Succeeded w w' → w'.sd.sectors =
    Sd.putSectors w.sd.sectors S.toNat (sectorCount bufs) (gather w.mem bufs)
  into : type = virtioBlkTIn → Succeeded w w' → w'.sd.sectors = w.sd.sectors ∧
    w'.mem = storeStatus (scatter w.mem bufs (w.sd.bytesFrom S.toNat)) a
  beyond : (∃ s, Names S bufs s ∧ w.sd.capacity.toNat ≤ s) → ¬ ReportedOk a w w'
  others : ∀ s, ¬ Names S bufs s → w'.sd.sectors s = w.sd.sectors s

/-- With its sector cut to 32 bits the request still moves nothing: a write whose
first non-empty buffer is misaligned or starts with a call that goes past the
card's end, a read that is misaligned, empty or goes past the end. -/
def CutIdle (type sector capacity : Word) (bufs : List (Word × Word)) : Prop :=
  if type = virtioBlkTOut then
    ∀ b, firstBuf bufs = some b → b.2.toNat % hypBlkSectorSize = 0 →
      capacity.toNat < sector.toNat + min 64 (b.2.toNat / hypBlkSectorSize)
  else
    (∀ b ∈ bufs, b.2.toNat % hypBlkSectorSize = 0) → 0 < sectorCount bufs →
      capacity.toNat < sector.toNat + sectorCount bufs

theorem firstBuf_some {bufs : List (Word × Word)} {b : Word × Word} (h : firstBuf bufs = some b) :
    b ∈ bufs ∧ b.2 ≠ 0 ∧ b.2.toNat / hypBlkSectorSize ≤ sectorCount bufs := by
  induction bufs with
  | nil => cases h
  | cons c bufs ih =>
      obtain ⟨buf, len⟩ := c
      rw [sectorCount_cons]
      by_cases hl : len = 0
      · subst hl
        obtain ⟨hmem, hne, hle⟩ := ih h
        exact ⟨List.mem_cons_of_mem _ hmem, hne, Nat.le_trans hle (Nat.le_add_left _ _)⟩
      · rw [firstBuf_cons hl] at h
        obtain rfl : (buf, len) = b := by simpa using h
        exact ⟨by simp, hl, Nat.le_add_right _ _⟩

theorem bytes_of_aligned {bufs : List (Word × Word)}
    (h : ∀ b ∈ bufs, b.2.toNat % hypBlkSectorSize = 0) :
    (bufs.map fun b => b.2.toNat).sum = hypBlkSectorSize * sectorCount bufs := by
  induction bufs with
  | nil => rfl
  | cons b bufs ih =>
      have hb := sectors_mul (h b (by simp))
      have hrest := ih fun c hc => h c (List.mem_cons_of_mem _ hc)
      have hc : sectorCount (b :: bufs) = b.2.toNat / hypBlkSectorSize + sectorCount bufs := rfl
      rw [hc, List.map_cons, List.sum_cons, hrest, Nat.mul_add]
      exact congrArg (· + _) hb

section Right

variable {type a : Word} {S : BitVec 64} {bufs : List (Word × Word)} {w w' : World}

/-- A request that succeeds is aligned and lies inside the card. -/
theorem RequestResult.fits (hr : RequestResult type (S.setWidth 32) a bufs w w')
    (ht : type = virtioBlkTIn ∨ type = virtioBlkTOut) (hB : w.sd.Bounded) (hok : Succeeded w w') :
    (∀ b ∈ bufs, b.2.toNat % hypBlkSectorSize = 0) ∧ (0 < sectorCount bufs →
      (S.setWidth 32).toNat + sectorCount bufs ≤ w.sd.capacity.toNat) :=
  AllGranted.sectors bufs ht hB (hr.granted.mp hok)

theorem sectorsRight_of_lt (hr : RequestResult type (S.setWidth 32) a bufs w w')
    (ht : type = virtioBlkTIn ∨ type = virtioBlkTOut) (hB : w.sd.Bounded) (hS : S.toNat < 2 ^ 32) :
    SectorsRight type S a bufs w w' := by
  have hcut : (S.setWidth 32).toNat = S.toNat := by
    rw [BitVec.toNat_setWidth]
    exact Nat.mod_eq_of_lt hS
  refine ⟨fun hty hok => ?_, fun hty hok => ?_, ?_, fun s hs => ?_⟩
  · obtain ⟨k, w₁, hk, hsec, ok, hiff, hend⟩ := hr.out hty
    rw [hsec, hend.moved hB (hiff.mpr hok), hk, hcut]
  · refine ⟨hr.sectors hty, ?_⟩
    rw [hr.filled hty hB hok, hcut]
  · rintro ⟨s, ⟨hle, hlt⟩, hcap⟩ hrep
    have hfit := (hr.fits ht hB (hr.reported.mp hrep).1).2 (by omega)
    omega
  · rcases ht with ht | ht
    · rw [hr.sectors ht]
    · obtain ⟨k, w₁, hk, hsec, ok, _, hend⟩ := hr.out ht
      rw [hsec]
      refine hend.outside hB s ?_
      rw [hk, hcut]
      exact hs

/-- A request that is idle after the cut moves nothing, so it is right about any
sector. -/
theorem sectorsRight_of_idle (hr : RequestResult type (S.setWidth 32) a bufs w w')
    (ht : type = virtioBlkTIn ∨ type = virtioBlkTOut) (hB : w.sd.Bounded)
    (hidle : CutIdle type (S.setWidth 32) w.sd.capacity bufs) :
      SectorsRight type S a bufs w w' := by
  have hempty (hok : Succeeded w w') : sectorCount bufs = 0 := by
    obtain ⟨hal, hfit⟩ := hr.fits ht hB hok
    by_contra hne
    have hfit := hfit (by omega)
    unfold CutIdle at hidle
    by_cases hty : type = virtioBlkTOut
    · rw [if_pos hty] at hidle
      cases hb : firstBuf bufs with
      | none => exact hne (sectorCount_of_firstBuf hb)
      | some b =>
          obtain ⟨hmem, _, hle⟩ := firstBuf_some hb
          have hpast := hidle b hb (hal b hmem)
          omega
    · rw [if_neg hty] at hidle
      have hpast := hidle hal (by omega)
      omega
  have hsame : w'.sd.sectors = w.sd.sectors := by
    rcases ht with ht | ht
    · exact hr.sectors ht
    · obtain ⟨k, w₁, hk, hsec, ok, _, hend⟩ := hr.out ht
      rw [hsec]
      refine hend.stuck hB fun b hb hal => ?_
      unfold CutIdle at hidle
      rw [if_pos ht] at hidle
      have hpast := hidle b hb hal
      rw [← Bool.not_eq_true]
      intro hg
      have hin := hB.of_grants hg
      rw [hk, BitVec.toNat_ofNat] at hin
      omega
  refine ⟨fun _ hok => ?_, fun hty hok => ⟨hsame, ?_⟩, ?_, fun s _ => by rw [hsame]⟩
  · rw [hsame, hempty hok, Sd.putSectors_zero]
  · rw [hr.filled hty hB hok]
    congr 1
    refine scatter_congr _ fun i hi => ?_
    rw [bytes_of_aligned (hr.fits ht hB hok).1, hempty hok] at hi
    omega
  · rintro ⟨s, ⟨hle, hlt⟩, _⟩ hrep
    have := hempty (hr.reported.mp hrep).1
    omega

end Right

/-! ## Requests from sector `2 ^ 32` on -/

/-- A card that grants every call inside it. -/
def openSd (capacity : Word) (sectors : Nat → Fin hypBlkSectorSize → Byte) : Sd :=
  { sReady := true, capacity, sectors, calls := 0,
    accepts := fun _ _ sector count => decide (sector.toNat + count.toNat ≤ capacity.toNat) }

theorem openSd_bounded (capacity : Word) (c : Nat → Fin hypBlkSectorSize → Byte) :
    (openSd capacity c).Bounded := by
  intro k write sector count h
  exact of_decide_eq_true h

theorem openSd_grantsFrom {capacity : Word} {c : Nat → Fin hypBlkSectorSize → Byte} {k : Nat}
    {write : Bool} {sector : Word} {count : Nat} (h : sector.toNat + count ≤ capacity.toNat) :
    (openSd capacity c).GrantsFrom k write sector count := by
  intro j hj
  have hcap := capacity.isLt
  have hin : (sector + BitVec.ofNat 32 (64 * j)).toNat +
      (BitVec.ofNat 32 (min 64 (count - 64 * j))).toNat ≤ capacity.toNat := by
    rw [BitVec.toNat_add, BitVec.toNat_ofNat, BitVec.toNat_ofNat]
    omega
  simp only [Sd.grants, openSd, hin, decide_true, Bool.and_self]

theorem openSd_allGranted {capacity : Word} {c : Nat → Fin hypBlkSectorSize → Byte} {k : Nat}
    {sector : Word} {bufs : List (Word × Word)}
    (hal : ∀ b ∈ bufs, b.2.toNat % hypBlkSectorSize = 0)
    (hfit : 0 < sectorCount bufs → sector.toNat + sectorCount bufs ≤ capacity.toNat) :
    AllGranted (openSd capacity c) virtioBlkTIn k sector (bufs.map Prod.snd) := by
  induction bufs generalizing k sector with
  | nil => trivial
  | cons b bufs ih =>
      obtain ⟨buf, len⟩ := b
      have hlen := hal (buf, len) (by simp)
      rw [sectorCount_cons] at hfit
      have hd : DescGranted (openSd capacity c) virtioBlkTIn k sector len := by
        rw [DescGranted, if_pos rfl]
        refine ⟨hlen, ?_⟩
        generalize len.toNat / hypBlkSectorSize = n at *
        by_cases hz : n = 0
        · rw [hz]
          exact Sd.grantsFrom_zero _ _ _ _
        · exact openSd_grantsFrom (by omega)
      have hsec := (granted_sector (.inl rfl) (openSd_bounded capacity c) hd).2
      refine ⟨hd, ih (fun b hb => hal b (List.mem_cons_of_mem _ hb)) fun hpos => ?_⟩
      rw [hsec]
      generalize len.toNat / hypBlkSectorSize = n at *
      omega

/-- The property of a chain in memory `m` on a card of `capacity` sectors: from
any state of the rest, with any contents of the card and any pattern of calls
that the driver grants inside the card, the request moves what it names. -/
def ChainSectorsRight (blk : Blk) (m : Mem) (head : Half) (data : List Half) (status : Half)
    (capacity : Word) : Prop :=
  ∀ w : World, w.mem = m → w.sd.Bounded → w.sd.capacity = capacity →
    ∃ written w', blkDoRequest (data.length + 1) blk head w = some (written, w') ∧
      SectorsRight (requestType blk m head) (requestSector blk m head) (descBuf blk m status)
        (chainBufs m blk.descTable blk.queueNum data) w w'

section Wrong

variable {blk : Blk} {m : Mem} {head status : Half} {data : List Half} {capacity : Word}

/-- What the property says of a card with the contents `sectors`. -/
theorem ChainSectorsRight.onCard (h : ChainSectorsRight blk m head data status capacity)
    (hch : ChainAt blk m head data status) (sectors : Nat → Fin hypBlkSectorSize → Byte) :
    ∃ w', RequestResult (requestType blk m head) ((requestSector blk m head).setWidth 32)
        (descBuf blk m status) (chainBufs m blk.descTable blk.queueNum data)
        (worldOf m (openSd capacity sectors)) w' ∧
      SectorsRight (requestType blk m head) (requestSector blk m head) (descBuf blk m status)
        (chainBufs m blk.descTable blk.queueNum data) (worldOf m (openSd capacity sectors)) w' := by
  obtain ⟨written, w', heq, hright⟩ :=
    h (worldOf m (openSd capacity sectors)) rfl (openSd_bounded _ _) rfl
  obtain ⟨written₂, w₂, heq₂, hr⟩ :=
    blkDoRequest_result (w := worldOf m (openSd capacity sectors)) hch (Nat.lt_succ_self _)
  rw [heq₂] at heq
  obtain ⟨rfl, rfl⟩ : written₂ = written ∧ w₂ = w' := by simpa using heq
  exact ⟨w₂, hr, hright⟩

/-- A write at or past `2 ^ 32` whose first call fits the card changes a sector
that the request does not name. -/
theorem cutIdle_of_out (hch : ChainAt blk m head data status)
    (ht : requestType blk m head = virtioBlkTOut) (hS : 2 ^ 32 ≤ (requestSector blk m head).toNat)
    (h : ChainSectorsRight blk m head data status capacity) :
    CutIdle (requestType blk m head) ((requestSector blk m head).setWidth 32) capacity
      (chainBufs m blk.descTable blk.queueNum data) := by
  rw [CutIdle, if_pos ht]
  intro b hb hal
  by_contra hle
  -- a card on which no byte is the first one of the buffer
  let w := worldOf m (openSd capacity fun _ _ => m b.1 + 1)
  obtain ⟨w₂, hr, hright⟩ : ∃ w', RequestResult _ _ _ _ w w' ∧ SectorsRight _ _ _ _ w w' :=
    h.onCard hch _
  generalize (requestSector blk m head).setWidth 32 = sector at hr hle
  obtain ⟨k, w₁, hk, hsec, ok, _, hend⟩ := hr.out ht
  have hlt := sector.isLt
  have hg : w.sd.grants w.sd.calls true k.sector
      (BitVec.ofNat 32 (min 64 (b.2.toNat / hypBlkSectorSize))) = true := by
    rw [hk]
    have hin : sector.toNat + (BitVec.ofNat 32 (min 64 (b.2.toNat / hypBlkSectorSize))).toNat ≤
        capacity.toNat := by
      rw [BitVec.toNat_ofNat]
      generalize b.2.toNat / hypBlkSectorSize = n at hle ⊢
      omega
    exact (Bool.true_and _).trans (decide_eq_true hin)
  have hfirst := hend.first (openSd_bounded _ _) b hb hal hg
  have hother := hright.others sector.toNat (by unfold Names; omega)
  rw [hsec, ← hk] at hother
  have hbad := congrFun (hfirst.symm.trans hother) ⟨0, Nat.succ_pos 511⟩
  simp [w, worldOf, openSd] at hbad

/-- A read at or past `2 ^ 32` that fits the card once cut is reported as OK, or
fills memory from sectors that the request does not name. -/
theorem cutIdle_of_in (hch : ChainAt blk m head data status)
    (ht : requestType blk m head = virtioBlkTIn) (hS : 2 ^ 32 ≤ (requestSector blk m head).toNat)
    (h : ChainSectorsRight blk m head data status capacity) :
    CutIdle (requestType blk m head) ((requestSector blk m head).setWidth 32) capacity
      (chainBufs m blk.descTable blk.queueNum data) := by
  rw [CutIdle, if_neg (by rw [ht]; decide)]
  intro hal hpos
  by_contra hle
  -- a card whose sectors from `2 ^ 32` on differ from all the others
  let w := worldOf m (openSd capacity fun s _ => if s < 2 ^ 32 then 1 else 0)
  obtain ⟨w₂, hr, hright⟩ : ∃ w', RequestResult _ _ _ _ w w' ∧ SectorsRight _ _ _ _ w w' :=
    h.onCard hch _
  generalize (requestSector blk m head).setWidth 32 = sector at hr hle
  generalize chainBufs m blk.descTable blk.queueNum data = bufs at hr hle hal hpos hright
  have hcap := capacity.isLt
  have hok : Succeeded w w₂ := hr.granted.mpr (by
    rw [ht]
    exact openSd_allGranted hal fun _ => by omega)
  by_cases ha : descBuf blk m status = 0
  · have hcode : w₂.mem = storeStatus (scatter m bufs (w.sd.bytesFrom sector.toNat))
        (descBuf blk m status) := hr.filled ht (openSd_bounded _ _) hok
    have hclaim : w₂.mem = storeStatus (scatter m bufs
        (w.sd.bytesFrom (requestSector blk m head).toNat)) (descBuf blk m status) :=
      (hright.into ht hok).2
    have hone : scatter m bufs (w.sd.bytesFrom sector.toNat) = scatter m bufs fun _ => 1 := by
      refine scatter_congr _ fun i hi => ?_
      rw [bytes_of_aligned hal] at hi
      have hdiv : i / hypBlkSectorSize < sectorCount bufs :=
        (Nat.div_lt_iff_lt_mul (by decide)).mpr (by rw [Nat.mul_comm]; exact hi)
      have hlow : sector.toNat + i / hypBlkSectorSize < 2 ^ 32 := by
        generalize i / hypBlkSectorSize = j at hdiv ⊢
        omega
      exact if_pos hlow
    have hzero : scatter m bufs (w.sd.bytesFrom (requestSector blk m head).toNat) =
        scatter m bufs fun _ => 0 := by
      refine scatter_congr _ fun i _ => ?_
      have hhigh : ¬ (requestSector blk m head).toNat + i / hypBlkSectorSize < 2 ^ 32 := by
        generalize i / hypBlkSectorSize = j
        omega
      exact if_neg hhigh
    cases hb : firstBuf bufs with
    | none =>
        rw [sectorCount_of_firstBuf hb] at hpos
        omega
    | some b =>
        obtain ⟨hmem, hne, _⟩ := firstBuf_some hb
        have hcov : Covers b.1 b.2.toNat b.1 := covers_self
          (Nat.pos_of_ne_zero fun hz => hne (BitVec.eq_of_toNat_eq hz))
        have h1 := scatter_const (m := m) (v := 1) (.inr ⟨b, hmem, hcov⟩)
        have h0 := scatter_const (m := m) (v := 0) (.inr ⟨b, hmem, hcov⟩)
        rw [storeStatus, if_pos ha] at hcode hclaim
        have hsame := congrFun (hcode.symm.trans hclaim) b.1
        rw [hone, hzero, h1, h0] at hsame
        exact absurd hsame (by decide)
  · refine hright.beyond ⟨(requestSector blk m head).toNat, ⟨Nat.le_refl _, by omega⟩, ?_⟩
      (hr.reported.mpr ⟨hok, ha⟩)
    show capacity.toNat ≤ _
    omega

end Wrong

/-- A well-formed read or write moves the sectors it names, on every card and
whatever the driver grants, exactly when its sector is below `2 ^ 32` or the
request moves nothing even at the sector that the cut makes of it. -/
theorem blkDoRequest_sectors {blk : Blk} {m : Mem} {head : Half} {data : List Half} {status : Half}
    {capacity : Word} (hch : ChainAt blk m head data status)
    (ht : requestType blk m head = virtioBlkTIn ∨ requestType blk m head = virtioBlkTOut) :
    ChainSectorsRight blk m head data status capacity ↔
      (requestSector blk m head).toNat < 2 ^ 32 ∨
        CutIdle (requestType blk m head) ((requestSector blk m head).setWidth 32) capacity
          (chainBufs m blk.descTable blk.queueNum data) := by
  constructor
  · intro h
    by_cases hS : (requestSector blk m head).toNat < 2 ^ 32
    · exact .inl hS
    · rcases ht with ht | ht
      · exact .inr (cutIdle_of_in hch ht (by omega) h)
      · exact .inr (cutIdle_of_out hch ht (by omega) h)
  · rintro h w rfl hB rfl
    obtain ⟨written, w', heq, hr⟩ := blkDoRequest_result (w := w) hch (Nat.lt_succ_self _)
    refine ⟨written, w', heq, ?_⟩
    rcases h with hS | hidle
    · exact sectorsRight_of_lt hr ht hB hS
    · exact sectorsRight_of_idle hr ht hB hidle

theorem blkDoRequest_sectors_oneSector :
    ChainSectorsRight smallBlk (oneSector virtioBlkTIn 0 0x48200000) 0 [1] 2 1024 :=
  (blkDoRequest_sectors oneSector_in (.inl (by decide +kernel))).mpr (.inl (by decide +kernel))

/-- A write of one sector at `2 ^ 32`, on a card of 1024 sectors, is reported as
OK and changes sector 0. -/
theorem blkDoRequest_sectors_cut :
    ChainAt smallBlk (oneSector virtioBlkTOut 0x100000000 0x48200000) 0 [1] 2 ∧
      ∃ written w', blkDoRequest 2 smallBlk 0 (worldOf
          (oneSector virtioBlkTOut 0x100000000 0x48200000) (openSd 1024 fun _ _ => 1)) =
            some (written, w') ∧
        ¬ SectorsRight virtioBlkTOut
          (requestSector smallBlk (oneSector virtioBlkTOut 0x100000000 0x48200000) 0)
          (descBuf smallBlk (oneSector virtioBlkTOut 0x100000000 0x48200000) 2)
          (chainBufs (oneSector virtioBlkTOut 0x100000000 0x48200000) smallBlk.descTable
            smallBlk.queueNum [1])
          (worldOf (oneSector virtioBlkTOut 0x100000000 0x48200000) (openSd 1024 fun _ _ => 1)) w' := by
  have hrun : (blkDoRequest 2 smallBlk 0 (worldOf (oneSector virtioBlkTOut 0x100000000 0x48200000)
      (openSd 1024 fun _ _ => 1))).map (fun r => r.2.sd.sectors 0 ⟨0, Nat.succ_pos 511⟩) =
        some 0 := by
    decide +kernel
  obtain ⟨r, hr, hzero⟩ := Option.map_eq_some_iff.mp hrun
  refine ⟨oneSector_out, r.1, r.2, hr, fun hright => ?_⟩
  have hsame := congrFun (hright.others 0 fun h => absurd h.1 (by decide +kernel)) ⟨0,
    Nat.succ_pos 511⟩
  rw [hzero] at hsame
  exact absurd hsame (by decide)

end P4Hyp
