import P4Hyp.VirtioBlk.Request

/-!
# What `blk_transfer` does

A transfer of `N` sectors makes one driver call for every 64 of them.  It
succeeds exactly when the driver grants each call, and until then it has moved
the chunks before the first refusal.
-/

namespace P4Hyp

/-- The driver grants every call that a transfer of `count` sectors from
`sector` makes, the first of them being call `k`. -/
def Sd.GrantsFrom (sd : Sd) (k : Nat) (write : Bool) (sector : Word) (count : Nat) : Prop :=
  ∀ j < (count + 63) / 64, sd.grants (k + j) write (sector + BitVec.ofNat 32 (64 * j))
    (BitVec.ofNat 32 (min 64 (count - 64 * j))) = true

instance (sd : Sd) (k : Nat) (write : Bool) (sector : Word) (count : Nat) :
    Decidable (sd.GrantsFrom k write sector count) :=
  inferInstanceAs (Decidable (∀ j < _, _))

theorem Sd.grants_congr {sd sd' : Sd} (hr : sd'.sReady = sd.sReady)
    (ha : sd'.accepts = sd.accepts) (k : Nat) (write : Bool) (sector count : Word) :
    sd'.grants k write sector count = sd.grants k write sector count := by
  simp only [grants, hr, ha]

theorem Sd.grantsFrom_congr {sd sd' : Sd} (hr : sd'.sReady = sd.sReady)
    (ha : sd'.accepts = sd.accepts) (k : Nat) (write : Bool) (sector : Word) (count : Nat) :
    sd'.GrantsFrom k write sector count ↔ sd.GrantsFrom k write sector count := by
  simp only [GrantsFrom, grants_congr hr ha]

theorem Sd.grantsFrom_zero (sd : Sd) (k : Nat) (write : Bool) (sector : Word) :
    sd.GrantsFrom k write sector 0 := by
  intro j hj
  omega

/-- Chunk `j + 1` of a transfer is chunk `j` of what its first chunk leaves. -/
theorem chunk_next (sector : Word) {count j : Nat} (hj : j + 1 < (count + 63) / 64) :
    sector + BitVec.ofNat 32 (64 * (j + 1)) =
        sector + BitVec.ofNat 32 (min 64 count) + BitVec.ofNat 32 (64 * j) ∧
      count - 64 * (j + 1) = count - min 64 count - 64 * j := by
  have hm : min 64 count = 64 := by omega
  constructor
  · rw [BitVec.add_assoc, ← BitVec.ofNat_add, hm]
    congr 2
    omega
  · omega

/-- The calls of a transfer: its first chunk, then a transfer of the rest. -/
theorem Sd.grantsFrom_next (sd : Sd) (k : Nat) (write : Bool) (sector : Word) {count : Nat}
    (hc : 0 < count) :
    sd.GrantsFrom k write sector count ↔
      sd.grants k write sector (BitVec.ofNat 32 (min 64 count)) = true ∧
        sd.GrantsFrom (k + 1) write (sector + BitVec.ofNat 32 (min 64 count))
          (count - min 64 count) := by
  constructor
  · intro h
    constructor
    · have h0 := h 0 (by omega)
      simpa using h0
    · intro j hj
      have hj' : j + 1 < (count + 63) / 64 := by omega
      have hs := h (j + 1) hj'
      obtain ⟨ha, hn⟩ := chunk_next sector hj'
      rw [ha, hn] at hs
      rw [show k + 1 + j = k + (j + 1) by omega]
      exact hs
  · rintro ⟨h0, hrest⟩ j hj
    cases j with
    | zero => simpa using h0
    | succ j =>
        have hs := hrest j (by omega)
        obtain ⟨ha, hn⟩ := chunk_next sector hj
        rw [ha, hn, show k + (j + 1) = k + 1 + j by omega]
        exact hs

/-! ## The frame of a transfer -/

/-- What a step of a request leaves alone when it moves data at `[a, a + n)`:
the driver, the error counter, all other memory, and the status byte, which it
does not store. -/
structure Quiet (a : Word) (n : Nat) (w w' : World) : Prop where
  ready : w'.sd.sReady = w.sd.sReady
  capacity : w'.sd.capacity = w.sd.capacity
  accepts : w'.sd.accepts = w.sd.accepts
  errors : w'.sErrors = w.sErrors
  mem : ∀ x, ¬ Covers a n x → w'.mem x = w.mem x
  trace : ∃ ts, w'.trace = w.trace ++ ts ∧ ∀ b v, Touch.status b v ∉ ts

namespace Quiet

theorem refl (a : Word) (n : Nat) (w : World) : Quiet a n w w :=
  ⟨rfl, rfl, rfl, rfl, fun _ _ => rfl, [], by simp, by simp⟩

theorem trans {a b c : Word} {n k l : Nat} {w w' w'' : World} (h : Quiet a n w w')
    (h' : Quiet b k w' w'') (ha : ∀ x, Covers a n x → Covers c l x)
    (hb : ∀ x, Covers b k x → Covers c l x) : Quiet c l w w'' := by
  obtain ⟨ts, hts, hns⟩ := h.trace
  obtain ⟨ts', hts', hns'⟩ := h'.trace
  refine ⟨h'.ready.trans h.ready, h'.capacity.trans h.capacity, h'.accepts.trans h.accepts,
    h'.errors.trans h.errors, fun x hx => ?_, ts ++ ts', ?_, ?_⟩
  · exact (h'.mem x fun hc => hx (hb x hc)).trans (h.mem x fun hc => hx (ha x hc))
  · rw [hts', hts, List.append_assoc]
  · intro b v hm
    rcases List.mem_append.mp hm with hm | hm
    · exact hns b v hm
    · exact hns' b v hm

theorem mono {a b : Word} {n k : Nat} {w w' : World} (h : Quiet a n w w')
    (ha : ∀ x, Covers a n x → Covers b k x) : Quiet b k w w' :=
  h.trans (refl b k w') ha fun _ hx => hx

theorem agreeOn {a b : Word} {n k : Nat} {w w' : World} (h : Quiet a n w w')
    (hab : Apart b k a n) : w.mem.AgreeOn w'.mem b k :=
  fun x hx => h.mem x (hab x hx)

theorem touch (a : Word) (n : Nat) (w : World) {ts : List Touch}
    (hts : ∀ b v, Touch.status b v ∉ ts) : Quiet a n w (w.touch ts) :=
  ⟨rfl, rfl, rfl, rfl, fun _ _ => rfl, ts, rfl, hts⟩

theorem toGuest (a : Word) (n : Nat) (f : Nat → Byte) (w : World) :
    Quiet a n w (w.toGuest a n f) :=
  ⟨rfl, rfl, rfl, rfl, fun _ hx => Mem.fill_outside hx, [.store a n], rfl, by simp⟩

end Quiet

/-! ## The chunk arithmetic -/

theorem blkChunk_le (len : Word) : (blkChunk len).toNat ≤ len.toNat := by
  unfold blkChunk blkChunkMax hypBlkBounceSectors hypBlkSectorSize
  split
  · rw [BitVec.toNat_ofNat]
    omega
  · exact Nat.le_refl _

theorem blkChunk_pos {len : Word} (h : len ≠ 0) : 0 < (blkChunk len).toNat := by
  have hl : len.toNat ≠ 0 := fun hz => h (BitVec.eq_of_toNat_eq hz)
  unfold blkChunk blkChunkMax hypBlkBounceSectors hypBlkSectorSize
  split
  · simp
  · omega

theorem blkChunk_eq {len : Word} {N : Nat} (h : len.toNat = hypBlkSectorSize * N) :
    (blkChunk len).toNat = hypBlkSectorSize * min 64 N := by
  have hlt := len.isLt
  unfold hypBlkSectorSize at h ⊢
  unfold blkChunk blkChunkMax hypBlkBounceSectors hypBlkSectorSize
  split
  · rw [BitVec.toNat_ofNat]
    omega
  · omega

theorem blkChunk_sectors {len : Word} {N : Nat} (h : len.toNat = hypBlkSectorSize * N) :
    blkChunk len / BitVec.ofNat 32 hypBlkSectorSize = BitVec.ofNat 32 (min 64 N) := by
  apply BitVec.eq_of_toNat_eq
  have hlt := len.isLt
  have hd : (BitVec.ofNat 32 hypBlkSectorSize).toNat = 512 := rfl
  rw [BitVec.toNat_udiv, blkChunk_eq h, hd, BitVec.toNat_ofNat]
  unfold hypBlkSectorSize at h ⊢
  omega

theorem sub_blkChunk {len : Word} {N : Nat} (h : len.toNat = hypBlkSectorSize * N) :
    (len - blkChunk len).toNat = hypBlkSectorSize * (N - min 64 N) := by
  have hc := blkChunk_eq h
  have hle := blkChunk_le len
  have hlt := len.isLt
  rw [BitVec.toNat_sub]
  unfold hypBlkSectorSize at h hc ⊢
  omega

theorem sub_blkChunk_lt {len : Word} (h : len ≠ 0) {fuel : Nat} (hf : len.toNat ≤ fuel + 1) :
    (len - blkChunk len).toNat ≤ fuel := by
  have hp := blkChunk_pos h
  have hle := blkChunk_le len
  have hlt := len.isLt
  rw [BitVec.toNat_sub]
  omega

/-- The part of a buffer after its first chunk. -/
theorem covers_rest {buf len x : Word}
    (hx : Covers (buf + blkChunk len) (len - blkChunk len).toNat x) :
    Covers buf len.toNat x := by
  have hle := blkChunk_le len
  have hlt := len.isLt
  have hs : (len - blkChunk len).toNat = len.toNat - (blkChunk len).toNat := by
    rw [BitVec.toNat_sub]
    omega
  have hb : blkChunk len = BitVec.ofNat 32 (blkChunk len).toNat := by simp
  rw [hs, hb] at hx
  refine covers_of_offset ?_ (by omega) hx
  simp only [BitVec.toNat_ofNat]
  omega

/-! ## One round of the loop -/

section Round

variable {write : Bool} {sector len : Word} {w : World}

theorem blkTransferLoop_done (fuel : Nat) (sector buf : Word) (w : World) :
    blkTransferLoop write fuel sector buf 0 w = (true, w) := by
  cases fuel with
  | zero => rfl
  | succ fuel => simp [blkTransferLoop]

/-- A chunk that the driver refuses: nothing is moved, but a write has already
taken it from guest memory. -/
structure ChunkRefused (write : Bool) (buf : Word) (n : Nat) (w w' : World) : Prop where
  quiet : Quiet buf 0 w w'
  sectors : w'.sd.sectors = w.sd.sectors
  trace : w'.trace = w.trace ++ if write then [.load buf n] else []

theorem blkTransferLoop_refused (fuel : Nat) (buf : Word) (hl : len ≠ 0)
    (hg : w.sd.grants w.sd.calls write sector
      (blkChunk len / BitVec.ofNat 32 hypBlkSectorSize) = false) :
    ∃ w', blkTransferLoop write (fuel + 1) sector buf len w = (false, w') ∧
      ChunkRefused write buf (blkChunk len).toNat w w' := by
  cases write with
  | false =>
      obtain ⟨k, hk⟩ := Sd.hypSdRead_fail w.sBounce hg
      refine ⟨{ w with sd := { w.sd with calls := k } }, ?_, ?_, rfl, by simp⟩
      · simp only [blkTransferLoop, if_neg hl, Bool.false_eq_true, if_false, hk]
      · exact ⟨rfl, rfl, rfl, rfl, fun _ _ => rfl, [], by simp, by simp⟩
  | true =>
      let w₁ := w.fromGuest buf (blkChunk len).toNat
      have hg₁ : w₁.sd.grants w₁.sd.calls true sector
          (blkChunk len / BitVec.ofNat 32 hypBlkSectorSize) = false := hg
      obtain ⟨k, hk⟩ := Sd.hypSdWrite_fail w₁.sBounce hg₁
      refine ⟨{ w₁ with sd := { w.sd with calls := k } }, ?_, ?_, rfl, rfl⟩
      · simp only [blkTransferLoop, if_neg hl, if_true]
        rw [hk]
        rfl
      · exact ⟨rfl, rfl, rfl, rfl, fun _ _ => rfl, [.load buf (blkChunk len).toNat], rfl, by simp⟩

/-- What a granted chunk moves. -/
structure ChunkMoved (write : Bool) (sector buf : Word) (n : Nat) (count : Word) (w w' : World) :
    Prop where
  quiet : Quiet buf n w w'
  calls : w'.sd.calls = w.sd.calls + 1
  trace : w'.trace = w.trace ++ if write then [.load buf n] else [.store buf n]
  out : write = true → w'.mem = w.mem ∧ w'.sd.sectors =
    Sd.putSectors w.sd.sectors sector.toNat count.toNat fun i =>
      if i < n then w.mem (buf + BitVec.ofNat 32 i) else w.sBounce i
  into : write = false → w'.sd.sectors = w.sd.sectors ∧ w'.mem =
    w.mem.fill buf n fun i =>
      if i < count.toNat * hypBlkSectorSize then w.sd.bytesFrom sector.toNat i else w.sBounce i

theorem blkTransferLoop_granted (fuel : Nat) (buf : Word) (hl : len ≠ 0)
    (hg : w.sd.grants w.sd.calls write sector
      (blkChunk len / BitVec.ofNat 32 hypBlkSectorSize) = true) :
    ∃ w', blkTransferLoop write (fuel + 1) sector buf len w =
        blkTransferLoop write fuel (sector + blkChunk len / BitVec.ofNat 32 hypBlkSectorSize)
          (buf + blkChunk len) (len - blkChunk len) w' ∧
      ChunkMoved write sector buf (blkChunk len).toNat
        (blkChunk len / BitVec.ofNat 32 hypBlkSectorSize) w w' := by
  cases write with
  | false =>
      have hr := Sd.hypSdRead_ok w.sBounce hg
      let bounce := (Sd.hypSdRead sector (blkChunk len / BitVec.ofNat 32 hypBlkSectorSize)
        w.sBounce w.sd).2.1
      refine ⟨{ w with sd := { w.sd with calls := w.sd.calls + 1 }, sBounce := bounce }.toGuest buf
        (blkChunk len).toNat bounce, ?_, ?_⟩
      · simp only [blkTransferLoop, if_neg hl, Bool.false_eq_true, if_false, hr, bounce]
      · simp only [hr, bounce]
        refine ⟨?_, rfl, rfl, by simp, fun _ => ⟨rfl, rfl⟩⟩
        refine ⟨rfl, rfl, rfl, rfl, fun x hx => ?_, [.store buf (blkChunk len).toNat], rfl, by simp⟩
        rw [World.toGuest_mem, Mem.fill_outside hx]
  | true =>
      let w₁ := w.fromGuest buf (blkChunk len).toNat
      have hg₁ : w₁.sd.grants w₁.sd.calls true sector
          (blkChunk len / BitVec.ofNat 32 hypBlkSectorSize) = true := hg
      have hr := Sd.hypSdWrite_ok w₁.sBounce hg₁
      refine ⟨{ w₁ with sd := { w.sd with
        calls := w.sd.calls + 1,
        sectors := Sd.putSectors w.sd.sectors sector.toNat
          (blkChunk len / BitVec.ofNat 32 hypBlkSectorSize).toNat w₁.sBounce } }, ?_, ?_⟩
      · simp only [blkTransferLoop, if_neg hl, if_true]
        rw [hr]
        rfl
      · refine ⟨?_, rfl, rfl, fun _ => ⟨rfl, rfl⟩, by simp⟩
        exact ⟨rfl, rfl, rfl, rfl, fun _ _ => rfl, [.load buf (blkChunk len).toNat], rfl, by simp⟩

end Round

/-- Induction over the chunks of a transfer. -/
theorem blkTransfer_induct {write : Bool}
    {P : Word → Word → Word → World → Bool × World → Prop}
    (done : ∀ sector buf w, P sector buf 0 w (true, w))
    (refused : ∀ sector buf len w w', len ≠ 0 →
      w.sd.grants w.sd.calls write sector
        (blkChunk len / BitVec.ofNat 32 hypBlkSectorSize) = false →
      ChunkRefused write buf (blkChunk len).toNat w w' → P sector buf len w (false, w'))
    (granted : ∀ sector buf len w w' r, len ≠ 0 →
      w.sd.grants w.sd.calls write sector
        (blkChunk len / BitVec.ofNat 32 hypBlkSectorSize) = true →
      ChunkMoved write sector buf (blkChunk len).toNat
        (blkChunk len / BitVec.ofNat 32 hypBlkSectorSize) w w' →
      P (sector + blkChunk len / BitVec.ofNat 32 hypBlkSectorSize) (buf + blkChunk len)
        (len - blkChunk len) w' r → P sector buf len w r)
    (sector buf len : Word) (w : World) :
    P sector buf len w (blkTransfer write sector buf len w) := by
  suffices hloop : ∀ fuel sector buf len w, len.toNat ≤ fuel →
      P sector buf len w (blkTransferLoop write fuel sector buf len w) from
    hloop len.toNat sector buf len w (Nat.le_refl _)
  intro fuel
  induction fuel with
  | zero =>
      intro sector buf len w hf
      have hl : len = 0 := BitVec.eq_of_toNat_eq (by simp; omega)
      subst hl
      exact done sector buf w
  | succ fuel ih =>
      intro sector buf len w hf
      by_cases hl : len = 0
      · subst hl
        rw [blkTransferLoop_done]
        exact done sector buf w
      · cases hg : w.sd.grants w.sd.calls write sector
            (blkChunk len / BitVec.ofNat 32 hypBlkSectorSize) with
        | false =>
            obtain ⟨w', he, hm⟩ := blkTransferLoop_refused fuel buf hl hg
            rw [he]
            exact refused sector buf len w w' hl hg hm
        | true =>
            obtain ⟨w', he, hm⟩ := blkTransferLoop_granted fuel buf hl hg
            rw [he]
            exact granted sector buf len w w' _ hl hg hm
              (ih _ _ _ w' (sub_blkChunk_lt hl hf))

/-! ## The whole transfer -/

/-- More fuel than `len` changes nothing. -/
theorem blkTransferLoop_fuel {write : Bool} {fuel : Nat} {sector buf len : Word} {w : World}
    (hf : len.toNat ≤ fuel) :
    blkTransferLoop write fuel sector buf len w = blkTransfer write sector buf len w := by
  suffices hmore : ∀ n fuel sector buf len w, len.toNat ≤ n → n ≤ fuel →
      blkTransferLoop write fuel sector buf len w = blkTransferLoop write n sector buf len w from
    hmore len.toNat fuel sector buf len w (Nat.le_refl _) hf
  intro n
  induction n with
  | zero =>
      intro fuel sector buf len w hn _
      have hl : len = 0 := BitVec.eq_of_toNat_eq (by simp; omega)
      rw [hl, blkTransferLoop_done, blkTransferLoop_done]
  | succ n ih =>
      intro fuel sector buf len w hn hf
      obtain ⟨fuel, rfl⟩ : ∃ f, fuel = f + 1 := ⟨fuel - 1, by omega⟩
      by_cases hl : len = 0
      · rw [hl, blkTransferLoop_done, blkTransferLoop_done]
      · have hlt := sub_blkChunk_lt hl hn
        cases write with
        | false =>
            simp only [blkTransferLoop, if_neg hl, Bool.false_eq_true, if_false]
            split
            · rfl
            · exact ih fuel _ _ _ _ hlt (by omega)
        | true =>
            simp only [blkTransferLoop, if_neg hl, if_true]
            split
            · rfl
            · exact ih fuel _ _ _ _ hlt (by omega)

theorem blkTransfer_quiet (write : Bool) (sector buf len : Word) (w : World) :
    Quiet buf len.toNat w (blkTransfer write sector buf len w).2 := by
  apply blkTransfer_induct (P := fun _ buf len w r => Quiet buf len.toNat w r.2)
  · intro _ buf w
    exact Quiet.refl _ _ _
  · intro _ buf len w w' _ _ hm
    exact hm.quiet.mono fun x hx => covers_mono (Nat.zero_le _) hx
  · intro _ buf len w w' r _ _ hm ih
    exact hm.quiet.trans ih (fun x hx => covers_mono (blkChunk_le len) hx)
      fun x hx => covers_rest hx

theorem sectors_zero {N : Nat} (hN : (0 : Word).toNat = hypBlkSectorSize * N) : N = 0 := by
  unfold hypBlkSectorSize at hN
  simp at hN
  omega

theorem sectors_pos {len : Word} {N : Nat} (hl : len ≠ 0) (hN : len.toNat = hypBlkSectorSize * N) :
    0 < N := by
  have := blkChunk_pos hl
  have := blkChunk_eq hN
  unfold hypBlkSectorSize at this
  omega

/-- A transfer of whole sectors succeeds exactly when the driver grants every
call it makes, and then has made one call for every 64 sectors. -/
theorem blkTransfer_ok_iff (write : Bool) (sector buf : Word) {len : Word} (w : World) {N : Nat}
    (hN : len.toNat = hypBlkSectorSize * N) :
    ((blkTransfer write sector buf len w).1 = true ↔
      w.sd.GrantsFrom w.sd.calls write sector N) ∧
    ((blkTransfer write sector buf len w).1 = true →
      (blkTransfer write sector buf len w).2.sd.calls = w.sd.calls + (N + 63) / 64) := by
  revert N
  apply blkTransfer_induct (P := fun sector _ len w r =>
    ∀ {N : Nat}, len.toNat = hypBlkSectorSize * N →
      (r.1 = true ↔ w.sd.GrantsFrom w.sd.calls write sector N) ∧
        (r.1 = true → r.2.sd.calls = w.sd.calls + (N + 63) / 64))
  · intro sector _ w N hN
    rw [sectors_zero hN]
    exact ⟨iff_of_true rfl (Sd.grantsFrom_zero _ _ _ _), fun _ => rfl⟩
  · intro sector _ len w w' hl hg _ N hN
    rw [Sd.grantsFrom_next _ _ _ _ (sectors_pos hl hN), ← blkChunk_sectors hN, hg]
    simp
  · intro sector _ len w w' r hl hg hm ih N hN
    obtain ⟨hi, hc⟩ := ih (sub_blkChunk hN)
    have hcongr := Sd.grantsFrom_congr hm.quiet.ready hm.quiet.accepts
    rw [hm.calls, hcongr] at hi
    rw [Sd.grantsFrom_next _ _ _ _ (sectors_pos hl hN), ← blkChunk_sectors hN, hg]
    refine ⟨by simpa using hi, fun hok => ?_⟩
    rw [hc hok, hm.calls]
    have := sectors_pos hl hN
    omega

/-! ## The data of a transfer

From here on the driver is assumed never to accept a range that goes past the
end of the card.  A granted call then ends below `2 ^ 32`, so the sector number
of the next chunk does not wrap. -/

theorem chunk_sector {w : World} (hB : w.sd.Bounded) {write : Bool} {sector len : Word} {N k : Nat}
    (hN : len.toNat = hypBlkSectorSize * N)
    (hg : w.sd.grants k write sector (blkChunk len / BitVec.ofNat 32 hypBlkSectorSize) = true) :
    (sector + blkChunk len / BitVec.ofNat 32 hypBlkSectorSize).toNat =
        sector.toNat + min 64 N ∧
      (blkChunk len / BitVec.ofNat 32 hypBlkSectorSize).toNat = min 64 N := by
  have hb := hB.of_grants hg
  have hlt := w.sd.capacity.isLt
  rw [blkChunk_sectors hN] at hb ⊢
  rw [BitVec.toNat_add]
  rw [BitVec.toNat_ofNat] at hb ⊢
  omega

theorem buf_add_chunk (buf len : Word) (i : Nat) :
    buf + blkChunk len + BitVec.ofNat 32 i = buf + BitVec.ofNat 32 ((blkChunk len).toNat + i) := by
  have hb : blkChunk len = BitVec.ofNat 32 (blkChunk len).toNat := by simp
  rw [BitVec.ofNat_add, ← hb, BitVec.add_assoc]

/-- A write leaves memory alone, whatever becomes of it. -/
theorem blkTransfer_write_mem (sector buf len : Word) (w : World) :
    (blkTransfer true sector buf len w).2.mem = w.mem := by
  apply blkTransfer_induct (P := fun _ _ _ w r => r.2.mem = w.mem)
  · intro _ _ w
    rfl
  · intro _ buf _ w w' _ _ hm
    funext x
    exact hm.quiet.mem x (by simp [Covers])
  · intro _ _ _ w w' r _ _ hm ih
    rw [ih, (hm.out rfl).1]

/-- A read leaves the card alone, whatever becomes of it. -/
theorem blkTransfer_read_sectors (sector buf len : Word) (w : World) :
    (blkTransfer false sector buf len w).2.sd.sectors = w.sd.sectors := by
  apply blkTransfer_induct (P := fun _ _ _ w r => r.2.sd.sectors = w.sd.sectors)
  · intro _ _ w
    rfl
  · intro _ _ _ w w' _ _ hm
    exact hm.sectors
  · intro _ _ _ w w' r _ _ hm ih
    rw [ih, (hm.into rfl).1]

/-- A write changes no sector outside its range, whatever becomes of it. -/
theorem blkTransfer_write_outside (sector buf : Word) {len : Word} {w : World} {N s : Nat}
    (hB : w.sd.Bounded) (hN : len.toNat = hypBlkSectorSize * N)
    (hs : ¬ (sector.toNat ≤ s ∧ s < sector.toNat + N)) :
    (blkTransfer true sector buf len w).2.sd.sectors s = w.sd.sectors s := by
  revert N
  revert hB
  apply blkTransfer_induct (P := fun sector _ len w r => w.sd.Bounded →
    ∀ {N : Nat}, len.toNat = hypBlkSectorSize * N →
      ¬ (sector.toNat ≤ s ∧ s < sector.toNat + N) → r.2.sd.sectors s = w.sd.sectors s)
  · intro _ _ w _ N _ _
    rfl
  · intro _ _ _ w w' _ _ hm _ N _ _
    rw [hm.sectors]
  · intro sector _ len w w' r _ hg hm ih hB N hN hs
    obtain ⟨hsec, hcnt⟩ := chunk_sector hB hN hg
    have hrest := ih (hB.congr hm.quiet.accepts hm.quiet.capacity) (sub_blkChunk hN)
      (by rw [hsec]; omega)
    rw [hrest, (hm.out rfl).2, Sd.putSectors_outside (by rw [hcnt]; omega)]

/-- A write that succeeds has put the buffer on the card. -/
theorem blkTransfer_write {sector buf len : Word} {w : World} {N : Nat}
    (hB : w.sd.Bounded) (hN : len.toNat = hypBlkSectorSize * N)
    (hok : (blkTransfer true sector buf len w).1 = true) :
    (blkTransfer true sector buf len w).2.sd.sectors =
      Sd.putSectors w.sd.sectors sector.toNat N fun i => w.mem (buf + BitVec.ofNat 32 i) := by
  revert N
  revert hB hok
  apply blkTransfer_induct (P := fun sector buf len w r => w.sd.Bounded → r.1 = true →
    ∀ {N : Nat}, len.toNat = hypBlkSectorSize * N → r.2.sd.sectors =
      Sd.putSectors w.sd.sectors sector.toNat N fun i => w.mem (buf + BitVec.ofNat 32 i))
  · intro _ _ w _ _ N hN
    rw [sectors_zero hN, Sd.putSectors_zero]
  · intro _ _ _ w w' _ _ _ _ hok
    cases hok
  · intro sector buf len w w' r _ hg hm ih hB hok N hN
    obtain ⟨hsec, hcnt⟩ := chunk_sector hB hN hg
    obtain ⟨hmem, hput⟩ := hm.out rfl
    have hchunk := blkChunk_eq hN
    rw [ih (hB.congr hm.quiet.accepts hm.quiet.capacity) hok (sub_blkChunk hN), hput, hsec, hcnt,
      hmem, Sd.putSectors_next, show min 64 N + (N - min 64 N) = N by omega]
    refine Sd.putSectors_congr fun i _ => ?_
    by_cases hi : i < min 64 N * hypBlkSectorSize
    · rw [if_pos hi, if_pos (by rw [hchunk, Nat.mul_comm]; exact hi)]
    · rw [if_neg hi, buf_add_chunk, hchunk]
      congr 3
      rw [Nat.mul_comm]
      omega

/-- A read that succeeds has filled the buffer from the card. -/
theorem blkTransfer_read {sector buf len : Word} {w : World} {N : Nat}
    (hB : w.sd.Bounded) (hN : len.toNat = hypBlkSectorSize * N)
    (hok : (blkTransfer false sector buf len w).1 = true) :
    (blkTransfer false sector buf len w).2.mem =
      w.mem.fill buf len.toNat (w.sd.bytesFrom sector.toNat) := by
  revert N
  revert hB hok
  apply blkTransfer_induct (P := fun sector buf len w r => w.sd.Bounded → r.1 = true →
    ∀ {N : Nat}, len.toNat = hypBlkSectorSize * N →
      r.2.mem = w.mem.fill buf len.toNat (w.sd.bytesFrom sector.toNat))
  · intro _ _ w _ _ N _
    exact (Mem.fill_zero _ _ _).symm
  · intro _ _ _ w w' _ _ _ _ hok
    cases hok
  · intro sector buf len w w' r _ hg hm ih hB hok N hN
    obtain ⟨hsec, hcnt⟩ := chunk_sector hB hN hg
    obtain ⟨hsame, hfill⟩ := hm.into rfl
    have hchunk := blkChunk_eq hN
    have hrest := sub_blkChunk hN
    have hle := blkChunk_le len
    have hlt := len.isLt
    have hb : buf + blkChunk len = buf + BitVec.ofNat 32 (blkChunk len).toNat := by simp
    have hsum : (blkChunk len).toNat + (len - blkChunk len).toNat = len.toNat := by
      unfold hypBlkSectorSize at hN hchunk hrest
      omega
    rw [ih (hB.congr hm.quiet.accepts hm.quiet.capacity) hok hrest, hfill, hsec, hcnt,
      Sd.bytesFrom_congr hsame, hb, Mem.fill_fill_next (by omega), hsum]
    refine Mem.fill_congr fun i _ => ?_
    by_cases hi : i < (blkChunk len).toNat
    · rw [if_pos hi, if_pos (by rw [Nat.mul_comm, ← hchunk]; exact hi)]
    · rw [if_neg hi, Sd.bytesFrom_add, Nat.mul_comm, ← hchunk]
      congr 1
      omega

end P4Hyp
