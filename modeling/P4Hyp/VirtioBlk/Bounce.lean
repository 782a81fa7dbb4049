import P4Hyp.VirtioBlk.Chain

/-!
# A transfer in bounce-sized chunks

The loop of `blk_transfer` moves what a single transfer would, up to the first
chunk that the driver refuses.
-/

namespace P4Hyp

/-- One round of the loop of `blk_transfer`, on `sector`, `guest_buf`, `len` and
the rest of the state. -/
def blkTransferRound (write : Bool) (s : Word × Word × Word × World) :
    (Word × Word × Word × World) ⊕ (Bool × World) :=
  let (sector, guestBuf, len, w) := s
  if len = 0 then .inr (true, w)
  else
    let n := blkChunk len
    let sectors := n / BitVec.ofNat 32 hypBlkSectorSize
    if write then
      let w := w.fromGuest guestBuf n.toNat
      match w.sd.hypSdWrite sector sectors w.sBounce with
      | (false, sd) => .inr (false, { w with sd := sd })
      | (true, sd) => .inl (sector + sectors, guestBuf + n, len - n, { w with sd := sd })
    else
      match w.sd.hypSdRead sector sectors w.sBounce with
      | (false, bounce, sd) => .inr (false, { w with sd := sd, sBounce := bounce })
      | (true, bounce, sd) =>
          .inl (sector + sectors, guestBuf + n, len - n,
            { w with sd := sd, sBounce := bounce }.toGuest guestBuf n.toNat bounce)

/-- `count` whole sectors have been moved, and nothing else. -/
structure Moved (write : Bool) (sector buf : Word) (count : Nat) (w w' : World) : Prop where
  out : write = true → w'.mem = w.mem ∧ w'.sd.sectors =
    Sd.putSectors w.sd.sectors sector.toNat count fun i => w.mem (buf + BitVec.ofNat 32 i)
  into : write = false → w'.sd.sectors = w.sd.sectors ∧ w'.mem =
    w.mem.fill buf (hypBlkSectorSize * count) (w.sd.bytesFrom sector.toNat)

/-- Whether the driver grants chunk `i` of a transfer of `count` sectors. -/
def ChunkGranted (w : World) (write : Bool) (sector : Word) (count i : Nat) : Prop :=
  w.sd.grants (w.sd.calls + i) write (sector + BitVec.ofNat 32 (64 * i))
    (BitVec.ofNat 32 (min 64 (count - 64 * i))) = true

instance (w : World) (write : Bool) (sector : Word) (count i : Nat) :
    Decidable (ChunkGranted w write sector count i) := inferInstanceAs (Decidable (_ = _))

section Rounds

variable {write : Bool} {sector buf len : Word} {w w' w'' : World} {N : Nat}

/-- The loop ends after a round for each chunk and one that finds nothing left. -/
theorem loop_blkTransferRound (hN : len.toNat = hypBlkSectorSize * N) :
    loop (blkTransferRound write) ((N + 63) / 64 + 1) (sector, buf, len, w) =
      some (blkTransfer write sector buf len w) := by
  suffices hrounds : ∀ rounds fuel sector buf len w N, len.toNat = hypBlkSectorSize * N →
      (N + 63) / 64 = rounds → len.toNat ≤ fuel →
      loop (blkTransferRound write) (rounds + 1) (sector, buf, len, w) =
        some (blkTransferLoop write fuel sector buf len w) from
    hrounds _ _ _ _ _ _ N hN rfl (Nat.le_refl _)
  intro rounds
  induction rounds with
  | zero =>
      intro fuel sector buf len w N hN hr hf
      have hl : len = 0 := by
        apply BitVec.eq_of_toNat_eq
        rw [hN, show N = 0 by omega]
        rfl
      rw [hl, blkTransferLoop_done]
      rfl
  | succ rounds ih =>
      intro fuel sector buf len w N hN hr hf
      have hl : len ≠ 0 := by
        rintro rfl
        have := sectors_zero hN
        omega
      obtain ⟨fuel, rfl⟩ : ∃ k, fuel = k + 1 := by
        refine ⟨fuel - 1, ?_⟩
        have := sectors_pos hl hN
        unfold hypBlkSectorSize at hN
        omega
      have hrest := sub_blkChunk hN
      have hround : (N - min 64 N + 63) / 64 = rounds := by omega
      have hnext (sector' buf' : Word) (w' : World) :
          loop (blkTransferRound write) (rounds + 1) (sector', buf', len - blkChunk len, w') =
            some (blkTransferLoop write fuel sector' buf' (len - blkChunk len) w') :=
        ih _ _ _ _ _ _ hrest hround (sub_blkChunk_lt hl hf)
      cases write with
      | false =>
          simp only [loop, blkTransferRound, blkTransferLoop, if_neg hl,
            Bool.false_eq_true, if_false]
          cases hc : w.sd.hypSdRead sector (blkChunk len / BitVec.ofNat 32 hypBlkSectorSize)
            w.sBounce with
          | mk ok rest =>
              cases ok with
              | false => rfl
              | true => exact hnext _ _ _
      | true =>
          simp only [loop, blkTransferRound, blkTransferLoop, if_neg hl, if_true]
          cases hc : (w.fromGuest buf (blkChunk len).toNat).sd.hypSdWrite sector
            (blkChunk len / BitVec.ofNat 32 hypBlkSectorSize)
            (w.fromGuest buf (blkChunk len).toNat).sBounce with
          | mk ok rest =>
              cases ok with
              | false => rfl
              | true => exact hnext _ _ _

theorem Moved.none (write : Bool) (sector buf : Word) (hm : w'.mem = w.mem)
    (hs : w'.sd.sectors = w.sd.sectors) : Moved write sector buf 0 w w' where
  out _ := ⟨hm, by rw [Sd.putSectors_zero, hs]⟩
  into _ := ⟨hs, by rw [Nat.mul_zero, Mem.fill_zero, hm]⟩

/-- The chunk at the front, and what the rest of the loop moves after it. -/
theorem Moved.next {a m : Nat} (hfit : hypBlkSectorSize * (a + m) < 2 ^ 32)
    (hwrap : m = 0 ∨ sector.toNat + a < 2 ^ 32) (hcount : a ≤ 64)
    (hm : ChunkMoved write sector buf (hypBlkSectorSize * a) (BitVec.ofNat 32 a) w w')
    (hrest : Moved write (sector + BitVec.ofNat 32 a)
      (buf + BitVec.ofNat 32 (hypBlkSectorSize * a)) m w' w'') :
    Moved write sector buf (a + m) w w'' := by
  have ha : (BitVec.ofNat 32 a).toNat = a := by
    rw [BitVec.toNat_ofNat]
    omega
  have hsec (hpos : m ≠ 0) : (sector + BitVec.ofNat 32 a).toNat = sector.toNat + a := by
    have := hwrap.resolve_left hpos
    rw [BitVec.toNat_add, ha, Nat.mod_eq_of_lt this]
  constructor
  · intro hw
    obtain ⟨hmem, hput⟩ := hm.out hw
    obtain ⟨hmem', hput'⟩ := hrest.out hw
    refine ⟨hmem'.trans hmem, ?_⟩
    have hfront : w'.sd.sectors = Sd.putSectors w.sd.sectors sector.toNat a fun i =>
        w.mem (buf + BitVec.ofNat 32 i) := by
      rw [hput, ha]
      refine Sd.putSectors_congr fun i hi => if_pos ?_
      rw [Nat.mul_comm]
      exact hi
    by_cases hm0 : m = 0
    · rw [hput', hm0, Sd.putSectors_zero, hfront]
      rfl
    · rw [hput', hsec hm0, hfront, Sd.putSectors_next, hmem]
      refine Sd.putSectors_congr fun i _ => ?_
      by_cases hi : i < a * hypBlkSectorSize
      · exact if_pos hi
      · rw [if_neg hi, BitVec.add_assoc, ← BitVec.ofNat_add]
        congr 3
        rw [Nat.mul_comm]
        omega
  · intro hw
    obtain ⟨hsame, hfill⟩ := hm.into hw
    obtain ⟨hsame', hfill'⟩ := hrest.into hw
    refine ⟨hsame'.trans hsame, ?_⟩
    have hfront : w'.mem = w.mem.fill buf (hypBlkSectorSize * a) (w.sd.bytesFrom sector.toNat) := by
      rw [hfill, ha]
      refine Mem.fill_congr fun i hi => if_pos ?_
      rw [Nat.mul_comm]
      exact hi
    by_cases hm0 : m = 0
    · rw [hfill', hm0, Nat.mul_zero, Mem.fill_zero, hfront]
      rfl
    · rw [hfill', hsec hm0, hfront, Mem.fill_fill_next (by rw [← Nat.mul_add]; exact hfit),
        ← Nat.mul_add, Sd.bytesFrom_congr hsame]
      refine Mem.fill_congr fun i _ => ?_
      by_cases hi : i < hypBlkSectorSize * a
      · exact if_pos hi
      · rw [if_neg hi, Sd.bytesFrom_add, Nat.mul_comm]
        congr 1
        omega

variable (write sector) in
/-- The chunks after the first one are those of the transfer of what it leaves. -/
theorem chunkGranted_next {j : Nat} (hj : j + 1 < (N + 63) / 64) (hsd : w'.sd.sReady = w.sd.sReady)
    (hacc : w'.sd.accepts = w.sd.accepts) (hcalls : w'.sd.calls = w.sd.calls + 1) :
    ChunkGranted w' write (sector + BitVec.ofNat 32 (min 64 N)) (N - min 64 N) j ↔
      ChunkGranted w write sector N (j + 1) := by
  obtain ⟨hs, hn⟩ := chunk_next sector hj
  have hcall : w.sd.calls + 1 + j = w.sd.calls + (j + 1) := by omega
  unfold ChunkGranted
  rw [hs, hn, hcalls, Sd.grants_congr hsd hacc, hcall]

theorem chunkGranted_first (hN : len.toNat = hypBlkSectorSize * N) :
    ChunkGranted w write sector N 0 ↔
      w.sd.grants w.sd.calls write sector
        (blkChunk len / BitVec.ofNat 32 hypBlkSectorSize) = true := by
  rw [blkChunk_sectors hN]
  unfold ChunkGranted
  simp

variable (buf) in
/-- Where the driver grants the chunks below `j` and then refuses one, or has
granted them all, the chunks below `j` have been moved. -/
theorem blkTransfer_moved (hN : len.toNat = hypBlkSectorSize * N)
    (hfit : sector.toNat + N ≤ 2 ^ 32) {j : Nat} (hj : j ≤ (N + 63) / 64)
    (hgrant : ∀ i < j, ChunkGranted w write sector N i)
    (hend : j < (N + 63) / 64 → ¬ ChunkGranted w write sector N j) :
    ((blkTransfer write sector buf len w).1 = true ↔ j = (N + 63) / 64) ∧
      Moved write sector buf (min N (64 * j)) w (blkTransfer write sector buf len w).2 := by
  revert N j
  apply blkTransfer_induct (P := fun sector buf len w r => ∀ {N : Nat},
    len.toNat = hypBlkSectorSize * N → sector.toNat + N ≤ 2 ^ 32 → ∀ {j : Nat},
    j ≤ (N + 63) / 64 → (∀ i < j, ChunkGranted w write sector N i) →
    (j < (N + 63) / 64 → ¬ ChunkGranted w write sector N j) →
    (r.1 = true ↔ j = (N + 63) / 64) ∧ Moved write sector buf (min N (64 * j)) w r.2)
  · intro sector buf w N hN _ j hj _ _
    obtain rfl := sectors_zero hN
    have hj0 : j = 0 := by omega
    refine ⟨iff_of_true rfl hj0, ?_⟩
    rw [Nat.zero_min]
    exact .none write sector buf rfl rfl
  · intro sector buf len w w' hl hg hm N hN _ j hj hgrant _
    have hpos := sectors_pos hl hN
    obtain rfl : j = 0 := by
      by_contra hne
      have := (chunkGranted_first hN).mp (hgrant 0 (by omega))
      rw [hg] at this
      cases this
    refine ⟨iff_of_false Bool.false_ne_true (by omega), ?_⟩
    rw [Nat.mul_zero, Nat.min_zero]
    refine .none write sector buf ?_ hm.sectors
    funext x
    exact hm.quiet.mem x (Nat.not_lt_zero _)
  · intro sector buf len w w' r hl hg hm ih N hN hfit j hj hgrant hend
    have hpos := sectors_pos hl hN
    obtain ⟨j, rfl⟩ : ∃ i, j = i + 1 := by
      refine ⟨j - 1, ?_⟩
      by_contra hne
      obtain rfl : j = 0 := by omega
      exact hend (by omega) ((chunkGranted_first hN).mpr hg)
    have hlt := len.isLt
    have hn : blkChunk len = BitVec.ofNat 32 (hypBlkSectorSize * min 64 N) := by
      rw [← blkChunk_eq hN, BitVec.ofNat_toNat, BitVec.setWidth_eq]
    have hsectors := blkChunk_sectors hN
    have hrest := sub_blkChunk hN
    rw [hsectors, hn] at ih
    rw [hsectors, blkChunk_eq hN] at hm
    rw [hn] at hrest
    have hfit' : (sector + BitVec.ofNat 32 (min 64 N)).toNat + (N - min 64 N) ≤ 2 ^ 32 := by
      rw [BitVec.toNat_add, BitVec.toNat_ofNat]
      omega
    have hchunk (i : Nat) (hi : i + 1 < (N + 63) / 64) :=
      chunkGranted_next write sector hi hm.quiet.ready hm.quiet.accepts
        hm.calls
    obtain ⟨hok, hmoved⟩ := ih hrest hfit' (j := j) (by omega)
      (fun i hi => (hchunk i (by omega)).mpr (hgrant (i + 1) (by omega)))
      fun hlt' => mt (hchunk j (by omega)).mp (hend (by omega))
    have hmin : min N (64 * (j + 1)) = min 64 N + min (N - min 64 N) (64 * j) := by omega
    refine ⟨hok.trans (by omega), ?_⟩
    rw [hmin]
    refine .next ?_ (by omega) (by omega) hm hmoved
    unfold hypBlkSectorSize at hN ⊢
    omega

/-- The loop ends, and moves what a single transfer would; where the driver
refuses a call, exactly the chunks before that one, and returns false. -/
theorem blkTransfer_whole (write : Bool) (sector buf len : Word) (w : World)
    (hlen : len.toNat % hypBlkSectorSize = 0)
    (hfit : sector.toNat + len.toNat / hypBlkSectorSize ≤ 2 ^ 32) :
    let count := len.toNat / hypBlkSectorSize
    let chunks := (count + 63) / 64
    let r := blkTransfer write sector buf len w
    loop (blkTransferRound write) (chunks + 1) (sector, buf, len, w) = some r ∧
      ((∀ i < chunks, ChunkGranted w write sector count i) →
        r.1 = true ∧ Moved write sector buf count w r.2) ∧
      ∀ j < chunks, (∀ i < j, ChunkGranted w write sector count i) →
        ¬ ChunkGranted w write sector count j →
        r.1 = false ∧ Moved write sector buf (64 * j) w r.2 := by
  intro count chunks r
  have hN : len.toNat = hypBlkSectorSize * count := by
    show len.toNat = hypBlkSectorSize * (len.toNat / hypBlkSectorSize)
    unfold hypBlkSectorSize at hlen ⊢
    omega
  refine ⟨loop_blkTransferRound hN, fun hall => ?_, fun j hj hgrant hno => ?_⟩
  · obtain ⟨hok, hmoved⟩ :=
      blkTransfer_moved buf hN hfit (Nat.le_refl _) hall fun h => absurd h (Nat.lt_irrefl _)
    have hmin : min count (64 * chunks) = count := by omega
    rw [hmin] at hmoved
    exact ⟨hok.mpr rfl, hmoved⟩
  · obtain ⟨hok, hmoved⟩ :=
      blkTransfer_moved buf hN hfit (Nat.le_of_lt hj) hgrant fun _ => hno
    have hmin : min count (64 * j) = 64 * j := by omega
    rw [hmin] at hmoved
    exact ⟨Bool.eq_false_iff.mpr (mt hok.mp (Nat.ne_of_lt hj)), hmoved⟩

end Rounds

/-- A write of 65 sectors whose last one is past the end of the card. -/
theorem blkTransfer_whole_refused :
    (blkTransfer true 960 0x48200000 33280 (worldOf (fun _ => 7) (smallSd true))).1 = false ∧
      Moved true 960 0x48200000 64 (worldOf (fun _ => 7) (smallSd true))
        (blkTransfer true 960 0x48200000 33280 (worldOf (fun _ => 7) (smallSd true))).2 :=
  (blkTransfer_whole true 960 0x48200000 33280 _ (by decide) (by decide)).2.2 1 (by decide)
    (by decide) (by decide)

end P4Hyp
