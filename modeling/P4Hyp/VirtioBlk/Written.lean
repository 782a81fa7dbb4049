import P4Hyp.VirtioBlk.Ends

/-!
# What a request is said to have written

The used ring is told the length of every read that was begun, also of one that
the card has cut short.
-/

namespace P4Hyp

/-- What the next store goes over, if it begins at `a` too. -/
def again (a : Word) : List Touch → Nat
  | .store b m :: _ => if b = a then m else 0
  | _ => 0

/-- How many bytes of the guest's buffers, the status byte among them, the accesses
fill.  A store that begins where the one before it began goes over the same bytes. -/
def bytesStored : List Touch → Nat
  | [] => 0
  | .load _ _ :: ts => bytesStored ts
  | .store a n :: ts => n - again a ts + bytesStored ts
  | .status _ _ :: ts => 1 + bytesStored ts

theorem again_append {a : Word} (ts : List Touch) {us : List Touch} (h : again a us = 0) :
    again a (ts ++ us) = again a ts := by
  cases ts with
  | nil => exact h
  | cons t ts => cases t <;> rfl

theorem bytesStored_append (ts : List Touch) {us : List Touch} (h : ∀ a, again a us = 0) :
    bytesStored (ts ++ us) = bytesStored ts + bytesStored us := by
  induction ts with
  | nil => exact (Nat.zero_add _).symm
  | cons t ts ih =>
      cases t with
      | load a n => exact ih
      | store a n =>
          rw [List.cons_append, bytesStored, bytesStored, again_append ts (h a), ih, Nat.add_assoc]
      | status a v =>
          rw [List.cons_append, bytesStored, bytesStored, ih, Nat.add_assoc]

theorem add_chunk_ne {buf len : Word} (h : len ≠ 0) : buf + blkChunk len ≠ buf := by
  intro heq
  have hpos := blkChunk_pos h
  have hlt := (blkChunk len).isLt
  have hadd := congrArg BitVec.toNat heq
  have hbuf := buf.isLt
  rw [BitVec.toNat_add] at hadd
  omega

/-! ## One transfer -/

theorem blkTransfer_takes (sector buf len : Word) (w : World) :
    ∃ ts, (blkTransfer true sector buf len w).2.trace = w.trace ++ ts ∧ bytesStored ts = 0 := by
  apply blkTransfer_induct (P := fun _ _ _ w r => ∃ ts, r.2.trace = w.trace ++ ts ∧
    bytesStored ts = 0)
  · exact fun _ _ w => ⟨[], (List.append_nil _).symm, rfl⟩
  · exact fun _ buf len w w' _ _ hm => ⟨_, hm.trace, rfl⟩
  · rintro _ buf len w w' r _ _ hm ⟨ts, hts, hzero⟩
    refine ⟨.load buf (blkChunk len).toNat :: ts, ?_, hzero⟩
    rw [hts, hm.trace, if_pos rfl, List.append_assoc]
    rfl

/-- A read stores all it was asked for, or less. -/
theorem blkTransfer_fills (sector buf len : Word) (w : World) :
    ∃ ts, (blkTransfer false sector buf len w).2.trace = w.trace ++ ts ∧
      (∀ a, a ≠ buf → again a ts = 0) ∧
      if (blkTransfer false sector buf len w).1 then bytesStored ts = len.toNat
      else bytesStored ts < len.toNat := by
  apply blkTransfer_induct (P := fun _ buf len w r => ∃ ts, r.2.trace = w.trace ++ ts ∧
    (∀ a, a ≠ buf → again a ts = 0) ∧
    if r.1 then bytesStored ts = len.toNat else bytesStored ts < len.toNat)
  · exact fun _ _ w => ⟨[], (List.append_nil _).symm, fun _ _ => rfl, rfl⟩
  · intro _ buf len w w' hl _ hm
    refine ⟨[], by rw [hm.trace]; rfl, fun _ _ => rfl, ?_⟩
    exact Nat.lt_of_lt_of_le (blkChunk_pos hl) (blkChunk_le len)
  · rintro _ buf len w w' r hl _ hm ⟨ts, hts, hagain, hbytes⟩
    have hle := blkChunk_le len
    have hpos := blkChunk_pos hl
    have hrest : (len - blkChunk len).toNat = len.toNat - (blkChunk len).toNat := by
      have := len.isLt
      rw [BitVec.toNat_sub]
      omega
    refine ⟨.store buf (blkChunk len).toNat :: ts, ?_, ?_, ?_⟩
    · rw [hts, hm.trace, if_neg Bool.false_ne_true, List.append_assoc]
      rfl
    · intro a ha
      exact if_neg (Ne.symm ha)
    · rw [bytesStored, hagain buf (Ne.symm (add_chunk_ne hl))]
      split
      · rename_i hok
        rw [if_pos hok] at hbytes
        omega
      · rename_i hok
        rw [if_neg hok] at hbytes
        omega

/-! ## One data descriptor -/

/-- A read that the card refuses, though it is of whole sectors. -/
def CutRead (type len : Word) : Prop := type = virtioBlkTIn ∧ len.toNat % hypBlkSectorSize = 0

/-- What one data descriptor adds to the count, and what it stores. -/
structure Counted (k : Walk) (len : Word) (r : Bool × Word × Word × World) (ts : List Touch) :
    Prop where
  granted : r.1 = true → bytesStored ts = blkStores k.type len ∧
    r.2.2.1 = k.written + BitVec.ofNat 32 (blkStores k.type len)
  cut : r.1 = false → CutRead k.type len → bytesStored ts < len.toNat ∧ r.2.2.1 = k.written + len
  refused : r.1 = false → ¬ CutRead k.type len → bytesStored ts = 0 ∧ r.2.2.1 = k.written

theorem blkData_counted (k : Walk) (buf len : Word) (w : World) :
    ∃ ts, (blkData k buf len w).2.2.2.trace = w.trace ++ ts ∧
      Counted k len (blkData k buf len w) ts := by
  have hmod := mod_sector_iff len
  by_cases hin : k.type = virtioBlkTIn
  · have hst : blkStores k.type len = len.toNat := if_pos (.inl hin)
    by_cases hal : len % BitVec.ofNat 32 hypBlkSectorSize = 0
    · obtain ⟨ts, hts, -, hbytes⟩ := blkTransfer_fills k.sector buf len w
      simp only [blkData, if_pos hin, if_pos hal]
      refine ⟨ts, hts, ?_, ?_, ?_⟩
      · intro hok
        rw [if_pos hok] at hbytes
        rw [hst]
        exact ⟨hbytes, by rw [BitVec.ofNat_toNat, BitVec.setWidth_eq]⟩
      · intro hok _
        rw [if_neg (by rw [hok]; exact Bool.false_ne_true)] at hbytes
        exact ⟨hbytes, rfl⟩
      · exact fun _ hcut => absurd ⟨hin, hmod.mp hal⟩ hcut
    · simp only [blkData, if_pos hin, if_neg hal]
      refine ⟨[], (List.append_nil _).symm, fun h => absurd h Bool.false_ne_true,
        ?_, fun _ _ => ⟨rfl, rfl⟩⟩
      exact fun _ hcut => absurd (hmod.mpr hcut.2) hal
  · have hcut : ¬ CutRead k.type len := fun h => hin h.1
    have hadd : k.written = k.written + BitVec.ofNat 32 0 := (BitVec.add_zero _).symm
    by_cases hout : k.type = virtioBlkTOut
    · have hst : blkStores k.type len = 0 := if_neg (by rw [hout]; decide)
      by_cases hal : len % BitVec.ofNat 32 hypBlkSectorSize = 0
      · obtain ⟨ts, hts, hzero⟩ := blkTransfer_takes k.sector buf len w
        simp only [blkData, if_neg hin, if_pos hout, if_pos hal]
        refine ⟨ts, hts, fun _ => ?_, fun _ h => absurd h hcut, fun _ _ => ⟨hzero, rfl⟩⟩
        rw [hst]
        exact ⟨hzero, hadd⟩
      · simp only [blkData, if_neg hin, if_pos hout, if_neg hal]
        exact ⟨[], (List.append_nil _).symm, fun h => absurd h Bool.false_ne_true,
          fun _ h => absurd h hcut, fun _ _ => ⟨rfl, rfl⟩⟩
    · by_cases hid : k.type = virtioBlkTGetId
      · have hst : blkStores k.type len = len.toNat := if_pos (.inr hid)
        simp only [blkData, if_neg hin, if_neg hout, if_pos hid]
        refine ⟨[.store buf len.toNat, .store buf (min len.toNat blkId.length)], ?_, fun _ => ?_,
          fun h => absurd h.symm Bool.false_ne_true, fun h => absurd h.symm Bool.false_ne_true⟩
        · rw [World.toGuest_trace, World.toGuest_trace, List.append_assoc]
          rfl
        · rw [hst]
          refine ⟨?_, by rw [BitVec.ofNat_toNat, BitVec.setWidth_eq]⟩
          simp only [bytesStored, again, if_true]
          omega
      · have hst : blkStores k.type len = 0 := if_neg (by rintro (h | h); exacts [hin h, hid h])
        simp only [blkData, if_neg hin, if_neg hout, if_neg hid]
        split
        · refine ⟨[], (List.append_nil _).symm, fun _ => ?_, fun _ h => absurd h hcut,
            fun _ _ => ⟨rfl, rfl⟩⟩
          rw [hst]
          exact ⟨rfl, hadd⟩
        · exact ⟨[], (List.append_nil _).symm, fun h => absurd h Bool.false_ne_true,
            fun _ h => absurd h hcut, fun _ _ => ⟨rfl, rfl⟩⟩

/-! ## The rounds of the walk -/

section Rounds

variable (blk : Blk) (sd : Sd) (type : Word)

/-- The card cuts a read of whole sectors short. -/
def Ahead.CutShort (a : Ahead) : Prop :=
  (a.desc blk).flags &&& vringDescFNext ≠ 0 ∧ CutRead type (a.desc blk).len ∧
    ¬ DescGranted sd type a.calls a.sector (a.desc blk).len

/-- What the round stores, unless it is cut short. -/
def Ahead.bytes (a : Ahead) : Nat :=
  if (a.desc blk).flags &&& vringDescFNext = 0 then if gpa (a.desc blk).addr = 0 then 0 else 1
  else if DescGranted sd type a.calls a.sector (a.desc blk).len then blkStores type (a.desc blk).len
  else 0

/-- What `n` rounds store. -/
def Ahead.total : Nat → Ahead → Nat
  | 0, _ => 0
  | n + 1, a => a.bytes blk sd type + total n (a.next blk sd type)

/-- None of the `n` rounds before it ends the walk. -/
def Ahead.Reached (n : Nat) (a : Ahead) : Prop :=
  ∀ i < n, ¬ ((Ahead.next blk sd type)^[i] a).Ends blk sd type

variable {blk sd type} {a : Ahead}

instance (type len : Word) : Decidable (CutRead type len) := inferInstanceAs (Decidable (_ ∧ _))

instance (a : Ahead) : Decidable (a.CutShort blk sd type) := inferInstanceAs (Decidable (_ ∧ _ ∧ _))

theorem Ahead.CutShort.ends (h : a.CutShort blk sd type) : a.Ends blk sd type := .inr h.2.2

theorem Ahead.total_mono {n m : Nat} (h : n ≤ m) :
    a.total blk sd type n ≤ a.total blk sd type m := by
  induction n generalizing a m with
  | zero => exact Nat.zero_le _
  | succ n ih =>
      obtain ⟨m, rfl⟩ : ∃ k, m = k + 1 := ⟨m - 1, by omega⟩
      exact Nat.add_le_add_left (ih (by omega)) _

variable (blk sd type) in
/-- The last round, the `n`th: what the walk has stored and counted when it is over. -/
structure WalkCounts (n : Nat) (a : Ahead) (written : Word) (r : Word × World) (ts : List Touch) :
    Prop where
  whole : ¬ ((Ahead.next blk sd type)^[n] a).CutShort blk sd type →
    bytesStored ts = a.total blk sd type (n + 1) ∧
      r.1 = written + BitVec.ofNat 32 (a.total blk sd type (n + 1))
  cut : ((Ahead.next blk sd type)^[n] a).CutShort blk sd type →
    ∃ part len, part < len ∧ len < 2 ^ 32 ∧ bytesStored ts = a.total blk sd type n + part ∧
      r.1 = written + BitVec.ofNat 32 (a.total blk sd type n + len)

theorem blkFinish_counts (type status written : Word) (ok : Bool) (w : World) :
    ∃ ts, (blkFinish type status ok written w).2.trace = w.trace ++ ts ∧ (∀ a, again a ts = 0) ∧
      bytesStored ts = (if status = 0 then 0 else 1) ∧
      (blkFinish type status ok written w).1 =
        written + BitVec.ofNat 32 (if status = 0 then 0 else 1) := by
  by_cases hs : status = 0
  · refine ⟨[], ?_, fun _ => rfl, by rw [if_pos hs]; rfl, ?_⟩
    · simp only [blkFinish, if_neg (not_not.mpr hs)]
      split <;> exact (List.append_nil _).symm
    · simp only [blkFinish, if_neg (not_not.mpr hs), if_pos hs]
      exact (BitVec.add_zero _).symm
  · let v := if ok then virtioBlkSOk else if virtioBlkTGetId < type then virtioBlkSUnsupp
      else virtioBlkSIoerr
    refine ⟨[.status status v], ?_, fun _ => rfl, by rw [if_neg hs]; rfl, ?_⟩
    · cases ok with
      | false => simp only [blkFinish, if_pos hs]; rfl
      | true => simp only [blkFinish, if_pos hs]; rfl
    · simp only [blkFinish, if_pos hs, if_neg hs]
      rfl

/-- What the walk has read of a data descriptor before it moves the data. -/
def World.atData (w : World) (d : Word) : World :=
  (w.touch [.load (d + 12) 2, .load d 8]).touch [.load (d + 8) 4]

theorem blkWalkStep_atData {queueNum : Word} {k : Walk} {w : World}
    (hf : (w.mem.desc (descAddr k.desc queueNum k.idx)).flags &&& vringDescFNext ≠ 0) :
    blkWalkStep queueNum k w =
      match blkData k (gpa (w.mem.desc (descAddr k.desc queueNum k.idx)).addr)
        (w.mem.desc (descAddr k.desc queueNum k.idx)).len
          (w.atData (descAddr k.desc queueNum k.idx)) with
      | (false, _, written, w') => .inr (blkFinish k.type 0 false written w')
      | (true, sector, written, w') =>
          .inl ({ k with sector, written, idx := (w'.mem.desc (descAddr k.desc queueNum k.idx)).next },
            w'.touch [.load (descAddr k.desc queueNum k.idx + 14) 2]) := by
  simp only [blkWalkStep, if_neg hf]
  rfl

theorem atData_same (w : World) (d : Word) : SameButTrace w (w.atData d) := by
  refine ⟨rfl, rfl, rfl, ?_⟩
  rw [World.atData, World.touch_trace, World.touch_trace, statuses_append, statuses_append]
  simp [statuses]

theorem atData_trace (w : World) (d : Word) (ts : List Touch) : (w.atData d).trace ++ ts =
    w.trace ++ .load (d + 12) 2 :: .load d 8 :: .load (d + 8) 4 :: ts := by
  rw [World.atData, World.touch_trace, World.touch_trace, List.append_assoc, List.append_assoc]
  rfl

/-- The data of the round is moved if and only if the card grants it. -/
theorem WalkAt.data_ok {kw : Walk × World} (h : WalkAt blk sd type kw a) :
    (blkData kw.1 (gpa (a.desc blk).addr) (a.desc blk).len
      (kw.2.atData (descAddr kw.1.desc blk.queueNum kw.1.idx))).1 = true ↔
      DescGranted sd type a.calls a.sector (a.desc blk).len := by
  rw [← h.granted (atData_same _ _)]
  exact (blkData_spec _ _ _ _).ok

/-- The last round of the walk. -/
theorem WalkAt.counts_leave {kw : Walk × World} (h : WalkAt blk sd type kw a) {r : Word × World}
    (hr : blkWalkStep blk.queueNum kw.1 kw.2 = .inr r) :
    a.Ends blk sd type ∧ ∃ ts, r.2.trace = kw.2.trace ++ ts ∧ (∀ b, again b ts = 0) ∧
      WalkCounts blk sd type 0 a kw.1.written r ts := by
  by_cases hf : (a.desc blk).flags &&& vringDescFNext = 0
  · rw [blkWalkStep_status (by rw [h.desc_eq]; exact hf), h.desc_eq] at hr
    obtain rfl := Sum.inr.inj hr
    obtain ⟨ts, hts, hagain, hbytes, hcount⟩ := blkFinish_counts kw.1.type (gpa (a.desc blk).addr)
      kw.1.written true (kw.2.touch [.load (descAddr kw.1.desc blk.queueNum kw.1.idx + 12) 2,
        .load (descAddr kw.1.desc blk.queueNum kw.1.idx) 8])
    have htotal : a.total blk sd type 1 = if gpa (a.desc blk).addr = 0 then 0 else 1 := by
      rw [Ahead.total, Ahead.total, Ahead.bytes, if_pos hf, Nat.add_zero]
    refine ⟨.inl hf, _, hts.trans (List.append_assoc _ _ _), fun _ => rfl,
      ?_, fun hcut => absurd hf hcut.1⟩
    intro _
    rw [htotal]
    exact ⟨hbytes, hcount⟩
  · rw [blkWalkStep_atData (by rw [h.desc_eq]; exact hf), h.desc_eq] at hr
    obtain ⟨ts, hts, hcounted⟩ := blkData_counted kw.1 (gpa (a.desc blk).addr) (a.desc blk).len
      (kw.2.atData (descAddr kw.1.desc blk.queueNum kw.1.idx))
    have hok := h.data_ok
    rcases hd : blkData kw.1 (gpa (a.desc blk).addr) (a.desc blk).len
      (kw.2.atData (descAddr kw.1.desc blk.queueNum kw.1.idx)) with ⟨ok, sector, written, w'⟩
    rw [hd] at hr hts hcounted hok
    cases ok with
    | true => cases hr
    | false =>
        have hrefused : ¬ DescGranted sd type a.calls a.sector (a.desc blk).len :=
          fun hg => absurd (hok.mpr hg) Bool.false_ne_true
        have hr : Sum.inr (blkFinish kw.1.type 0 false written w') = Sum.inr r := hr
        obtain rfl := Sum.inr.inj hr
        obtain ⟨us, hus, hagain, hbytes, hcount⟩ := blkFinish_counts kw.1.type 0 written false w'
        have htotal : a.total blk sd type 1 = 0 := by
          rw [Ahead.total, Ahead.total, Ahead.bytes, if_neg hf, if_neg hrefused]
        have hstored : bytesStored (ts ++ us) = bytesStored ts := by
          rw [bytesStored_append ts hagain, hbytes, if_pos rfl, Nat.add_zero]
        have hwritten : (blkFinish kw.1.type 0 false written w').1 = written := by
          rw [hcount, if_pos rfl]
          exact BitVec.add_zero _
        have htrace := atData_trace kw.2 (descAddr kw.1.desc blk.queueNum kw.1.idx) (ts ++ us)
        rw [← List.append_assoc, ← show w'.trace = _ from hts, ← hus] at htrace
        refine ⟨.inr hrefused, _, htrace, fun _ => rfl, ?_⟩
        · rw [← h.type] at htotal
          refine ⟨fun hwhole => ?_, fun hcut => ?_⟩
          · have hplain : ¬ CutRead kw.1.type (a.desc blk).len := by
              rw [h.type]
              exact fun hcut => hwhole ⟨hf, hcut, hrefused⟩
            obtain ⟨hzero, hsame⟩ := hcounted.refused rfl hplain
            rw [← h.type, htotal]
            refine ⟨hstored.trans hzero, hwritten.trans ?_⟩
            rw [show written = _ from hsame]
            exact (BitVec.add_zero _).symm
          · have hread : CutRead kw.1.type (a.desc blk).len := by
              rw [h.type]
              exact hcut.2.1
            obtain ⟨hless, hadd⟩ := hcounted.cut rfl hread
            refine ⟨bytesStored ts, (a.desc blk).len.toNat, hless, (a.desc blk).len.isLt, ?_, ?_⟩
            · exact hstored.trans (Nat.zero_add _).symm
            · rw [hwritten, show written = _ from hadd, Ahead.total, Nat.zero_add,
                BitVec.ofNat_toNat, BitVec.setWidth_eq]

theorem WalkAt.counts_go {kw kw' : Walk × World} (h : WalkAt blk sd type kw a)
    (hr : blkWalkStep blk.queueNum kw.1 kw.2 = .inl kw') :
    ∃ ts, kw'.2.trace = kw.2.trace ++ ts ∧ (∀ b, again b ts = 0) ∧
      bytesStored ts = a.bytes blk sd type ∧
      kw'.1.written = kw.1.written + BitVec.ofNat 32 (a.bytes blk sd type) := by
  by_cases hf : (a.desc blk).flags &&& vringDescFNext = 0
  · rw [blkWalkStep_status (by rw [h.desc_eq]; exact hf)] at hr
    cases hr
  · rw [blkWalkStep_atData (by rw [h.desc_eq]; exact hf), h.desc_eq] at hr
    obtain ⟨ts, hts, hcounted⟩ := blkData_counted kw.1 (gpa (a.desc blk).addr) (a.desc blk).len
      (kw.2.atData (descAddr kw.1.desc blk.queueNum kw.1.idx))
    have hok := h.data_ok
    rcases hd : blkData kw.1 (gpa (a.desc blk).addr) (a.desc blk).len
      (kw.2.atData (descAddr kw.1.desc blk.queueNum kw.1.idx)) with ⟨ok, sector, written, w'⟩
    rw [hd] at hr hts hcounted hok
    cases ok with
    | false => cases hr
    | true =>
        obtain rfl := Sum.inl.inj hr
        obtain ⟨hbytes, hadd⟩ := hcounted.granted rfl
        have hstores : a.bytes blk sd type = blkStores kw.1.type (a.desc blk).len := by
          rw [Ahead.bytes, if_neg hf, if_pos (hok.mp rfl), h.type]
        let after : Touch := .load (descAddr kw.1.desc blk.queueNum kw.1.idx + 14) 2
        have hlast : bytesStored (ts ++ [after]) = bytesStored ts :=
          bytesStored_append ts fun _ => rfl
        have htrace := atData_trace kw.2 (descAddr kw.1.desc blk.queueNum kw.1.idx) (ts ++ [after])
        rw [← List.append_assoc, ← show w'.trace = _ from hts] at htrace
        refine ⟨_, htrace, fun _ => rfl, ?_⟩
        rw [hstores]
        exact ⟨hlast.trans hbytes, hadd⟩

/-- Over the whole walk, by rounds. -/
theorem WalkAt.counts (hB : sd.Bounded) {fuel : Nat} {kw : Walk × World} {r : Word × World}
    (h : WalkAt blk sd type kw a)
    (hr : loop (fun kw : Walk × World => blkWalkStep blk.queueNum kw.1 kw.2) fuel kw = some r) :
    ∃ n, a.Reached blk sd type n ∧ ((Ahead.next blk sd type)^[n] a).Ends blk sd type ∧
      ∃ ts, r.2.trace = kw.2.trace ++ ts ∧ (∀ b, again b ts = 0) ∧
        WalkCounts blk sd type n a kw.1.written r ts := by
  induction fuel generalizing kw a with
  | zero => cases hr
  | succ fuel ih =>
      by_cases he : a.Ends blk sd type
      · obtain ⟨r', hstep⟩ := h.leave he
        rw [loop_leave hstep] at hr
        obtain rfl := Option.some.inj hr
        obtain ⟨-, hcounts⟩ := h.counts_leave hstep
        exact ⟨0, fun _ hi => absurd hi (Nat.not_lt_zero _), he, hcounts⟩
      · obtain ⟨kw', hstep, hnext⟩ := h.go hB he
        obtain ⟨ts, hts, hagain, hbytes, hadd⟩ := h.counts_go hstep
        rw [loop_again hstep] at hr
        obtain ⟨n, hreached, hends, us, hus, hagain', hcounts⟩ := ih hnext hr
        refine ⟨n + 1, ?_, hends, ts ++ us, ?_, ?_, ?_⟩
        · intro i hi
          cases i with
          | zero => exact he
          | succ i => exact hreached i (by omega)
        · rw [hus, hts, List.append_assoc]
        · exact fun b => (again_append ts (hagain' b)).trans (hagain b)
        · have hsum : ∀ x : Nat, kw'.1.written + BitVec.ofNat 32 x =
              kw.1.written + BitVec.ofNat 32 (a.bytes blk sd type + x) := by
            intro x
            rw [hadd, BitVec.add_assoc, ← BitVec.ofNat_add]
          refine ⟨fun hwhole => ?_, fun hcut => ?_⟩
          · obtain ⟨hs, hr⟩ := hcounts.whole hwhole
            rw [bytesStored_append ts hagain', hbytes, hs, hr, hsum]
            exact ⟨rfl, rfl⟩
          · obtain ⟨part, len, hpart, hlen, hs, hr⟩ := hcounts.cut hcut
            refine ⟨part, len, hpart, hlen, ?_, ?_⟩
            · rw [bytesStored_append ts hagain', hbytes, hs, Ahead.total, Nat.add_assoc]
            · rw [hr, hsum, Ahead.total, Nat.add_assoc]

end Rounds

/-! ## The request -/

section Request

variable {blk : Blk} {head : Half} {w : World}

/-- The reads before the walk are stores of nothing. -/
theorem blkHeader_loads (blk : Blk) (head : Half) (w : World) :
    (∀ kw, blkHeader blk head w = .inl kw →
      kw.1.written = 0 ∧ ∃ ls, kw.2.trace = w.trace ++ ls ∧ bytesStored ls = 0) ∧
    ∀ r, blkHeader blk head w = .inr r →
      r.1 = 0 ∧ ∃ ls, r.2.trace = w.trace ++ ls ∧ bytesStored ls = 0 := by
  simp only [blkHeader]
  split
  · refine ⟨fun kw hkw => (by cases hkw), fun r hr => ?_⟩
    obtain rfl := Sum.inr.inj hr
    exact ⟨rfl, _, rfl, rfl⟩
  · split
    · refine ⟨fun kw hkw => (by cases hkw), fun r hr => ?_⟩
      obtain rfl := Sum.inr.inj hr
      exact ⟨rfl, _, List.append_assoc _ _ _, rfl⟩
    · refine ⟨fun kw hkw => ?_, fun r hr => by cases hr⟩
      obtain rfl := Sum.inl.inj hkw
      exact ⟨rfl, _, List.append_assoc _ _ _, rfl⟩

/-- The count that the used ring is told is what the request stored exactly when the
card cuts none of its reads short, and what it stores can be counted in 32 bits. -/
theorem blkDoRequest_written_iff (hB : w.sd.Bounded) {fuel : Nat} {r : Word × World}
    (h : blkDoRequest fuel blk head w = some r) :
    (∃ ts, r.2.trace = w.trace ++ ts ∧ r.1.toNat = bytesStored ts) ↔ HeadEnds blk w.mem head ∨
      ∀ n, (headAhead blk head w).Reached blk w.sd (requestType blk w.mem head) n →
        ¬ ((Ahead.next blk w.sd (requestType blk w.mem head))^[n] (headAhead blk head w)).CutShort
            blk w.sd (requestType blk w.mem head) ∧
          (headAhead blk head w).total blk w.sd (requestType blk w.mem head) (n + 1) < 2 ^ 32 := by
  obtain ⟨hwalk, hhead⟩ := blkHeader_loads blk head w
  by_cases hends : HeadEnds blk w.mem head
  · refine iff_of_true ?_ (.inl hends)
    cases hr : blkHeader blk head w with
    | inl kw =>
        obtain ⟨r', hr'⟩ := blkDoRequest_head hends
        simp only [blkDoRequest, hr] at hr'
        cases hr' 0
    | inr r' =>
        simp only [blkDoRequest, hr, Option.some.injEq] at h
        obtain ⟨hzero, ls, hls, hnone⟩ := hhead r' hr
        rw [← h]
        exact ⟨ls, hls, by rw [hzero, hnone]; rfl⟩
  · rw [or_iff_right hends]
    obtain ⟨kw, hkw, hat⟩ := blkHeader_ahead hends
    obtain ⟨hzero, ls, hls, hnone⟩ := hwalk kw hkw
    simp only [blkDoRequest, hkw] at h
    obtain ⟨n, hreached, hlast, us, hus, hagain, hcounts⟩ := hat.counts hB h
    generalize requestType blk w.mem head = type at *
    generalize headAhead blk head w = a at *
    have htrace : r.2.trace = w.trace ++ (ls ++ us) := by rw [hus, hls, List.append_assoc]
    have hstored : bytesStored (ls ++ us) = bytesStored us := by
      rw [bytesStored_append ls hagain, hnone, Nat.zero_add]
    have hplus (x : Nat) : ((0 : Word) + BitVec.ofNat 32 x).toNat = x % 2 ^ 32 := by
      rw [BitVec.toNat_add, BitVec.toNat_ofNat]
      simp
    rw [hzero] at hcounts
    constructor
    · rintro ⟨ts, hts, hcount⟩
      obtain rfl : ts = ls ++ us := List.append_cancel_left (hts.symm.trans htrace)
      rw [hstored] at hcount
      have hwhole : ¬ ((Ahead.next blk w.sd type)^[n] a).CutShort blk w.sd type := by
        intro hcut
        obtain ⟨part, len, hpart, hlen, hs, hr⟩ := hcounts.cut hcut
        rw [hs, hr, hplus] at hcount
        omega
      obtain ⟨hs, hr⟩ := hcounts.whole hwhole
      intro m hm
      rcases Nat.lt_trichotomy m n with hlt | rfl | hgt
      · have hmono : a.total blk w.sd type (m + 1) ≤ a.total blk w.sd type (n + 1) :=
          Ahead.total_mono (by omega)
        have hlt32 := r.1.isLt
        exact ⟨fun hcut => hreached m hlt hcut.ends, by omega⟩
      · have hlt32 := r.1.isLt
        exact ⟨hwhole, by omega⟩
      · exact absurd hlast (hm n hgt)
    · intro hall
      obtain ⟨hwhole, hlt⟩ := hall n hreached
      obtain ⟨hs, hr⟩ := hcounts.whole hwhole
      refine ⟨ls ++ us, htrace, ?_⟩
      rw [hstored, hs, hr, hplus, Nat.mod_eq_of_lt hlt]

theorem blkDoRequest_written_oneSector : ∃ r,
    blkDoRequest 4 smallBlk 0 (worldOf (oneSector virtioBlkTIn 0 0x48200000) (openSd 1024 fun _ _ => 1)) =
      some r ∧ ∃ ts, r.2.trace = [] ++ ts ∧ r.1.toNat = bytesStored ts := by
  obtain ⟨r, hr⟩ := Option.isSome_iff_exists.mp (show (blkDoRequest 4 smallBlk 0
    (worldOf (oneSector virtioBlkTIn 0 0x48200000) (openSd 1024 fun _ _ => 1))).isSome = true by
      decide +kernel)
  refine ⟨r, hr, (blkDoRequest_written_iff (openSd_bounded _ _) hr).mpr (.inr fun n hn => ?_)⟩
  match n, hn with
  | 0, _ => exact ⟨by decide +kernel, by decide +kernel⟩
  | 1, _ => exact ⟨by decide +kernel, by decide +kernel⟩
  | n + 2, hn =>
      refine absurd (.inl ?_) (hn 1 (by omega))
      decide +kernel

/-- The card refuses the one sector that is asked for. -/
theorem blkDoRequest_written_cut :
    (blkDoRequest 4 smallBlk 0 (worldOf (oneSector virtioBlkTIn 0 0x48200000) (smallSd false))).map
      (fun r => (r.1, bytesStored r.2.trace)) = some (512, 0) := by
  decide +kernel

end Request

end P4Hyp
