import P4Hyp.VirtioBlk.Sectors

/-!
# Where the walk ends

The walk follows `next` for as long as descriptors carry the flag and succeed;
nothing counts them.
-/

namespace P4Hyp

/-- What lies ahead of the walk at one of its rounds: the descriptor it is at, the
sector and the number of driver calls it has come to, and the memory. -/
@[ext] structure Ahead where
  idx : Half
  sector : Word
  calls : Nat
  mem : Mem

/-- Memory after a data descriptor has succeeded: a read brings in the card, and the
table with it where the buffer lies over the table. -/
def dataMem (sd : Sd) (type sector buf len : Word) (m : Mem) : Mem :=
  if type = virtioBlkTIn then m.fill buf len.toNat (sd.bytesFrom sector.toNat)
  else if type = virtioBlkTGetId then
    (m.fill buf len.toNat fun _ => 0).fill buf (min len.toNat blkId.length) fun i => blkId.getD i 0
  else m

section Ahead

variable (blk : Blk) (sd : Sd) (type : Word)

def Ahead.desc (a : Ahead) : VringDesc := a.mem.desc (descAddr blk.descTable blk.queueNum a.idx)

/-- The descriptor linked next, with everything as a success leaves it. -/
def Ahead.next (a : Ahead) : Ahead :=
  let d := a.desc blk
  let mem := dataMem sd type a.sector (gpa d.addr) d.len a.mem
  { idx := (mem.desc (descAddr blk.descTable blk.queueNum a.idx)).next
    sector := nextSector type a.sector d.len
    calls := a.calls + dataCalls type d.len
    mem }

/-- The descriptor has no next one, or what it asks for fails. -/
def Ahead.Ends (a : Ahead) : Prop :=
  (a.desc blk).flags &&& vringDescFNext = 0 ∨
    ¬ DescGranted sd type a.calls a.sector (a.desc blk).len

end Ahead

/-- The walk that a header starts. -/
def headAhead (blk : Blk) (head : Half) (w : World) : Ahead :=
  { idx := (w.mem.desc (descAddr blk.descTable blk.queueNum head)).next
    sector := (requestSector blk w.mem head).setWidth 32
    calls := w.sd.calls
    mem := w.mem }

/-- The header ends the request: it is short, or nothing is linked to it. -/
def HeadEnds (blk : Blk) (m : Mem) (head : Half) : Prop :=
  (m.desc (descAddr blk.descTable blk.queueNum head)).len < 16 ∨
    (m.desc (descAddr blk.descTable blk.queueNum head)).flags &&& vringDescFNext = 0

theorem blkData_mem {k : Walk} {buf len : Word} {w : World} (hB : w.sd.Bounded)
    (hok : (blkData k buf len w).1 = true) :
    (blkData k buf len w).2.2.2.mem = dataMem w.sd k.type k.sector buf len w.mem := by
  unfold dataMem
  by_cases hin : k.type = virtioBlkTIn
  · rw [if_pos hin]
    exact (blkData_in hin buf len w).2 hB hok
  · rw [if_neg hin]
    by_cases hout : k.type = virtioBlkTOut
    · rw [if_neg (by rw [hout]; decide)]
      exact (blkData_out hout buf len w).mem
    · by_cases hid : k.type = virtioBlkTGetId
      · simp only [blkData, if_neg hin, if_neg hout, if_pos hid]
        rfl
      · rw [if_neg hid]
        simp only [blkData, if_neg hin, if_neg hout, if_neg hid]
        split <;> rfl

/-- The walk is where `a` says, on the card that the request started with. -/
structure WalkAt (blk : Blk) (sd : Sd) (type : Word) (kw : Walk × World) (a : Ahead) : Prop where
  desc : kw.1.desc = blk.descTable
  type : kw.1.type = type
  idx : kw.1.idx = a.idx
  sector : kw.1.sector = a.sector
  calls : kw.2.sd.calls = a.calls
  mem : kw.2.mem = a.mem
  ready : kw.2.sd.sReady = sd.sReady
  accepts : kw.2.sd.accepts = sd.accepts
  capacity : kw.2.sd.capacity = sd.capacity
  sectors : kw.1.type = virtioBlkTIn → kw.2.sd.sectors = sd.sectors

section Walk

variable {blk : Blk} {sd : Sd} {type : Word} {kw : Walk × World} {a : Ahead}

theorem WalkAt.desc_eq (h : WalkAt blk sd type kw a) :
    kw.2.mem.desc (descAddr kw.1.desc blk.queueNum kw.1.idx) = a.desc blk := by
  rw [h.desc, h.idx, h.mem]
  rfl

theorem WalkAt.granted (h : WalkAt blk sd type kw a) {w : World} (hw : SameButTrace kw.2 w)
    (len : Word) : DescGranted w.sd kw.1.type w.sd.calls kw.1.sector len ↔
      DescGranted sd type a.calls a.sector len := by
  rw [hw.sd, h.type, h.calls, h.sector, descGranted_congr h.ready h.accepts]

theorem WalkAt.leave (h : WalkAt blk sd type kw a) (he : a.Ends blk sd type) :
    ∃ r, blkWalkStep blk.queueNum kw.1 kw.2 = .inr r := by
  by_cases hf : (kw.2.mem.desc (descAddr kw.1.desc blk.queueNum kw.1.idx)).flags &&& vringDescFNext = 0
  · exact ⟨_, blkWalkStep_status hf⟩
  · obtain ⟨w₀, hw₀, hfail, -⟩ := blkWalkStep_data hf
    rw [h.desc_eq] at hf hfail
    have hrefused : ¬ DescGranted sd type a.calls a.sector (a.desc blk).len := he.resolve_left hf
    have hspec := blkData_spec kw.1 (gpa (a.desc blk).addr) (a.desc blk).len w₀
    rcases hd : blkData kw.1 (gpa (a.desc blk).addr) (a.desc blk).len w₀
      with ⟨ok, sector, written, w'⟩
    rw [hd] at hspec
    cases ok with
    | false => exact ⟨_, hfail _ _ _ hd⟩
    | true => exact absurd ((h.granted hw₀ _).mp (hspec.ok.mp rfl)) hrefused

theorem WalkAt.go (hB : sd.Bounded) (h : WalkAt blk sd type kw a) (he : ¬ a.Ends blk sd type) :
    ∃ kw', blkWalkStep blk.queueNum kw.1 kw.2 = .inl kw' ∧
      WalkAt blk sd type kw' (a.next blk sd type) := by
  obtain ⟨hf, hgranted⟩ := not_or.mp he
  have hdata : (kw.2.mem.desc (descAddr kw.1.desc blk.queueNum kw.1.idx)).flags &&& vringDescFNext ≠ 0 := by
    rw [h.desc_eq]
    exact hf
  obtain ⟨w₀, hw₀, -, hnext⟩ := blkWalkStep_data hdata
  rw [h.desc_eq] at hnext
  have hspec := blkData_spec kw.1 (gpa (a.desc blk).addr) (a.desc blk).len w₀
  have hok : (blkData kw.1 (gpa (a.desc blk).addr) (a.desc blk).len w₀).1 = true :=
    hspec.ok.mpr ((h.granted hw₀ _).mpr (not_not.mp hgranted))
  have hB₀ : w₀.sd.Bounded := by
    rw [hw₀.sd]
    exact hB.congr h.accepts h.capacity
  have hmem := blkData_mem hB₀ hok
  have hsectors (hin : kw.1.type = virtioBlkTIn) :=
    (blkData_in hin (gpa (a.desc blk).addr) (a.desc blk).len w₀).1
  rcases hd : blkData kw.1 (gpa (a.desc blk).addr) (a.desc blk).len w₀
    with ⟨ok, sector, written, w'⟩
  rw [hd] at hspec hok hmem hsectors
  obtain rfl : ok = true := hok
  have hquiet := hspec.quiet
  have hmem' : w'.mem = (a.next blk sd type).mem := by
    show w'.mem = dataMem sd type a.sector _ _ a.mem
    rw [show w'.mem = _ from hmem, hw₀.mem, h.mem, h.type, h.sector, hw₀.sd]
    unfold dataMem
    by_cases hin : type = virtioBlkTIn
    · rw [if_pos hin, if_pos hin, Sd.bytesFrom_congr (h.sectors (h.type.trans hin))]
    · rw [if_neg hin, if_neg hin]
  refine ⟨_, hnext _ _ _ hd, ?_⟩
  exact {
    desc := h.desc
    type := h.type
    idx := by
      show (w'.mem.desc _).next = _
      rw [hmem', h.desc, h.idx]
      rfl
    sector := by
      show sector = nextSector type a.sector (a.desc blk).len
      rw [← h.type, ← h.sector]
      exact hspec.sector rfl
    calls := by
      show w'.sd.calls = a.calls + dataCalls type (a.desc blk).len
      rw [← h.type, ← h.calls, ← hw₀.sd]
      exact hspec.calls rfl
    mem := hmem'
    ready := by
      show w'.sd.sReady = _
      rw [hquiet.ready, hw₀.sd, h.ready]
    accepts := by
      show w'.sd.accepts = _
      rw [hquiet.accepts, hw₀.sd, h.accepts]
    capacity := by
      show w'.sd.capacity = _
      rw [hquiet.capacity, hw₀.sd, h.capacity]
    sectors := fun hin => by
      show w'.sd.sectors = _
      rw [hsectors hin, hw₀.sd, h.sectors hin] }

end Walk

/-! ## The request -/

variable {blk : Blk} {head : Half} {w : World}

theorem blkDoRequest_head (h : HeadEnds blk w.mem head) :
    ∃ r, ∀ fuel, blkDoRequest fuel blk head w = some r := by
  have hr : ∃ r, blkHeader blk head w = .inr r := by
    simp only [blkHeader]
    split
    · exact ⟨_, rfl⟩
    · rename_i hlen
      rw [if_pos (h.resolve_left hlen)]
      exact ⟨_, rfl⟩
  obtain ⟨r, hr⟩ := hr
  refine ⟨r, fun fuel => ?_⟩
  simp only [blkDoRequest, hr]

theorem blkHeader_ahead (h : ¬ HeadEnds blk w.mem head) :
    ∃ kw, blkHeader blk head w = .inl kw ∧
      WalkAt blk w.sd (requestType blk w.mem head) kw (headAhead blk head w) := by
  obtain ⟨hlen, hf⟩ := not_or.mp h
  obtain ⟨w₀, hw₀, hstart⟩ := blkHeader_walk hlen hf
  refine ⟨_, hstart, ?_⟩
  exact {
    desc := rfl
    type := rfl
    idx := rfl
    sector := rfl
    calls := congrArg Sd.calls hw₀.sd
    mem := hw₀.mem
    ready := congrArg Sd.sReady hw₀.sd
    accepts := congrArg Sd.accepts hw₀.sd
    capacity := congrArg Sd.capacity hw₀.sd
    sectors := fun _ => congrArg Sd.sectors hw₀.sd }

/-- For any number of rounds. -/
theorem blkDoRequest_rounds_iff (hB : w.sd.Bounded) (fuel : Nat) :
    (∃ r, blkDoRequest fuel blk head w = some r) ↔ HeadEnds blk w.mem head ∨
      ∃ j < fuel, ((Ahead.next blk w.sd (requestType blk w.mem head))^[j]
        (headAhead blk head w)).Ends blk w.sd (requestType blk w.mem head) := by
  by_cases h : HeadEnds blk w.mem head
  · obtain ⟨r, hr⟩ := blkDoRequest_head h
    exact iff_of_true ⟨r, hr fuel⟩ (.inl h)
  · obtain ⟨kw, hkw, hat⟩ := blkHeader_ahead h
    generalize requestType blk w.mem head = type at hat ⊢
    have hleave (kw : Walk × World) (a : Ahead) (hat : WalkAt blk w.sd type kw a)
        (he : a.Ends blk w.sd type) : ∃ r, blkWalkStep blk.queueNum kw.1 kw.2 = .inr r :=
      hat.leave he
    have hgo (kw : Walk × World) (a : Ahead) (hat : WalkAt blk w.sd type kw a)
        (he : ¬ a.Ends blk w.sd type) : ∃ kw', blkWalkStep blk.queueNum kw.1 kw.2 = .inl kw' ∧
          WalkAt blk w.sd type kw' (a.next blk w.sd type) := hat.go hB he
    have hloop := loop_ends_iff hleave hgo fuel hat
    simp only [blkDoRequest, hkw]
    exact hloop.trans (or_iff_right h).symm

/-- A request returns within `queue_num` rounds of its walk exactly when the header
ends it, or one of the first `queue_num` descriptors that follow has no next one or
asks for something that fails. -/
theorem blkDoRequest_ends_iff (hB : w.sd.Bounded) :
    (∃ r, blkDoRequest blk.queueNum.toNat blk head w = some r) ↔ HeadEnds blk w.mem head ∨
      ∃ j < blk.queueNum.toNat, ((Ahead.next blk w.sd (requestType blk w.mem head))^[j]
        (headAhead blk head w)).Ends blk w.sd (requestType blk w.mem head) :=
  blkDoRequest_rounds_iff hB _

theorem blkDoRequest_ends_oneSector :
    ∃ r, blkDoRequest 4 smallBlk 0 (worldOf (oneSector virtioBlkTIn 0 0x48200000)
      (openSd 1024 fun _ _ => 1)) = some r := by
  refine (@blkDoRequest_ends_iff smallBlk 0 _ (openSd_bounded _ _)).mpr
    (.inr ⟨1, by decide, .inl ?_⟩)
  decide +kernel

/-- A flush whose data descriptor names itself as the next one. -/
def loopMem : Mem :=
  (oneSector virtioBlkTFlush 0 0x48200000).storeDesc 0x48001010 ⟨0x48200000, 512, 1, 1⟩

theorem blkDoRequest_loops : ¬ ∃ fuel r,
    blkDoRequest fuel smallBlk 0 (worldOf loopMem (openSd 1024 fun _ _ => 1)) = some r := by
  rintro ⟨fuel, hr⟩
  revert hr
  generalize hw : worldOf loopMem (openSd 1024 fun _ _ => 1) = w
  have ht : requestType smallBlk w.mem 0 = virtioBlkTFlush := by
    rw [← hw]
    decide +kernel
  have hhead : ¬ HeadEnds smallBlk w.mem 0 := by
    rw [← hw]
    unfold HeadEnds
    decide +kernel
  have hfix : (headAhead smallBlk 0 w).next smallBlk w.sd virtioBlkTFlush =
      headAhead smallBlk 0 w := by
    rw [← hw]
    apply Ahead.ext
    · decide +kernel
    · decide +kernel
    · decide +kernel
    · rfl
  have hends : ¬ (headAhead smallBlk 0 w).Ends smallBlk w.sd virtioBlkTFlush := by
    rw [← hw]
    unfold Ahead.Ends
    decide +kernel
  have hB : w.sd.Bounded := by
    rw [← hw]
    exact openSd_bounded _ _
  rw [blkDoRequest_rounds_iff hB, ht]
  rintro (h | ⟨j, -, he⟩)
  · exact hhead h
  · rw [Function.iterate_fixed hfix] at he
    exact hends he

end P4Hyp
