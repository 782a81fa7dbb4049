import P4Hyp.VirtioBlk.Chain

/-!
# The walk over a well-formed chain

Nothing that the walk does to the buffers of a well-formed chain touches its
descriptors, so a fact about a whole request is one about the list of its
buffers, proved by `blkWalk_chain` from what each data descriptor does.
-/

namespace P4Hyp

/-- The values stored into the status byte, in order. -/
def statuses (ts : List Touch) : List (Word × Byte) :=
  ts.filterMap fun t =>
    match t with
    | .status a v => some (a, v)
    | _ => none

theorem statuses_append (ts ts' : List Touch) :
    statuses (ts ++ ts') = statuses ts ++ statuses ts' :=
  List.filterMap_append

theorem statuses_eq_nil {ts : List Touch} (h : ∀ b v, Touch.status b v ∉ ts) :
    statuses ts = [] := by
  unfold statuses
  rw [List.filterMap_eq_nil_iff]
  intro t ht
  cases t with
  | load a n => rfl
  | store a n => rfl
  | status a v => exact absurd ht (h a v)

theorem Quiet.statuses_eq {a : Word} {n : Nat} {w w' : World} (h : Quiet a n w w') :
    statuses w'.trace = statuses w.trace := by
  obtain ⟨ts, hts, hns⟩ := h.trace
  rw [hts, statuses_append, statuses_eq_nil hns, List.append_nil]

/-! ## The descriptors stay as they were -/

theorem Chained.congr {m m' : Mem} {desc qn : Word} {data : List Half} {i status : Half}
    (h : Chained m desc qn i data status)
    (hd : ∀ j ∈ data ++ [status], m'.desc (descAddr desc qn j) = m.desc (descAddr desc qn j)) :
    Chained m' desc qn i data status := by
  induction data generalizing i with
  | nil =>
      refine ⟨h.1, ?_⟩
      rw [hd status (by simp)]
      exact h.2
  | cons j data ih =>
      obtain ⟨hi, hf, hrest⟩ := h
      have hj := hd j (by simp)
      refine ⟨hi, by rw [hj]; exact hf, ?_⟩
      rw [hj]
      exact ih hrest fun x hx => hd x (List.mem_cons_of_mem _ hx)

theorem ClearOf.congr {m m' : Mem} {desc qn type : Word} {data is : List Half}
    (h : ClearOf m desc qn type data is)
    (hd : ∀ j ∈ data, m'.desc (descAddr desc qn j) = m.desc (descAddr desc qn j)) :
    ClearOf m' desc qn type data is := by
  intro j hj i hi
  rw [hd j hj]
  exact h j hj i hi

/-- The buffers that the data descriptors name, with their lengths. -/
def chainBufs (m : Mem) (desc queueNum : Word) (data : List Half) : List (Word × Word) :=
  data.map fun j =>
    (gpa (m.desc (descAddr desc queueNum j)).addr, (m.desc (descAddr desc queueNum j)).len)

theorem chainBufs_congr {m m' : Mem} {desc qn : Word} {data : List Half}
    (hd : ∀ j ∈ data, m'.desc (descAddr desc qn j) = m.desc (descAddr desc qn j)) :
    chainBufs m' desc qn data = chainBufs m desc qn data := by
  unfold chainBufs
  exact List.map_congr_left fun j hj => by rw [hd j hj]

/-! ## The walk -/

/-- Two worlds that differ in their traces alone, by accesses other than stores
of the status byte. -/
structure SameButTrace (w w' : World) : Prop where
  mem : w'.mem = w.mem
  sd : w'.sd = w.sd
  errors : w'.sErrors = w.sErrors
  trace : statuses w'.trace = statuses w.trace

theorem SameButTrace.touch (w : World) {ts : List Touch} (h : statuses ts = []) :
    SameButTrace w (w.touch ts) :=
  ⟨rfl, rfl, rfl, by rw [World.touch_trace, statuses_append, h, List.append_nil]⟩

theorem blkWalkStep_status {qn : Word} {k : Walk} {w : World}
    (hf : (w.mem.desc (descAddr k.desc qn k.idx)).flags &&& vringDescFNext = 0) :
    blkWalkStep qn k w = .inr (blkFinish k.type
      (gpa (w.mem.desc (descAddr k.desc qn k.idx)).addr) true k.written
      (w.touch [.load (descAddr k.desc qn k.idx + 12) 2, .load (descAddr k.desc qn k.idx) 8])) := by
  simp only [blkWalkStep, if_pos hf]

/-- A round that meets a data descriptor, with what `blkData` makes of it. -/
theorem blkWalkStep_data {qn : Word} {k : Walk} {w : World}
    (hf : (w.mem.desc (descAddr k.desc qn k.idx)).flags &&& vringDescFNext ≠ 0) :
    ∃ w₀, SameButTrace w w₀ ∧
      (∀ sector written w', blkData k (gpa (w.mem.desc (descAddr k.desc qn k.idx)).addr)
          (w.mem.desc (descAddr k.desc qn k.idx)).len w₀ = (false, sector, written, w') →
        blkWalkStep qn k w = .inr (blkFinish k.type 0 false written w')) ∧
      (∀ sector written w', blkData k (gpa (w.mem.desc (descAddr k.desc qn k.idx)).addr)
          (w.mem.desc (descAddr k.desc qn k.idx)).len w₀ = (true, sector, written, w') →
        blkWalkStep qn k w = .inl
          ({ k with sector, written, idx := (w'.mem.desc (descAddr k.desc qn k.idx)).next },
            w'.touch [.load (descAddr k.desc qn k.idx + 14) 2])) := by
  refine ⟨(w.touch [.load (descAddr k.desc qn k.idx + 12) 2, .load (descAddr k.desc qn k.idx) 8]).touch
    [.load (descAddr k.desc qn k.idx + 8) 4], ?_, ?_, ?_⟩
  · refine ⟨rfl, rfl, rfl, ?_⟩
    rw [World.touch_trace, World.touch_trace, statuses_append, statuses_append]
    simp [statuses]
  · intro sector written w' hd
    simp only [blkWalkStep, if_neg hf, World.touch_mem, hd]
  · intro sector written w' hd
    simp only [blkWalkStep, if_neg hf, World.touch_mem, hd]

/-- The world of a step's result. -/
def stepWorld {α β : Type*} : (α × World) ⊕ (β × World) → World
  | .inl r => r.2
  | .inr r => r.2

/-- The rule for the walk over a well-formed chain.  `P bufs k w ok w'` says
what a walk that starts at `k` and `w` with the buffers `bufs` still ahead comes
to: `ok` and the state at the end of the walk. -/
theorem blkWalk_chain {qn : Word} {P : List (Word × Word) → Walk → World → Bool → World → Prop}
    (done : ∀ k w w', SameButTrace w w' → P [] k w true w')
    (failed : ∀ buf len bufs k w w₀ sector written w', SameButTrace w w₀ →
      blkData k buf len w₀ = (false, sector, written, w') → P ((buf, len) :: bufs) k w false w')
    (next : ∀ buf len bufs k w w₀ sector written idx w₁ w₂ ok w', SameButTrace w w₀ →
      blkData k buf len w₀ = (true, sector, written, w₁) → SameButTrace w₁ w₂ →
      P bufs { k with sector, written, idx } w₂ ok w' → P ((buf, len) :: bufs) k w ok w')
    {data : List Half} {status : Half} {fuel : Nat} {k : Walk} {w : World}
    (hfuel : data.length < fuel) (hch : Chained w.mem k.desc qn k.idx data status)
    (hcl : ClearOf w.mem k.desc qn k.type data (data ++ [status])) :
    ∃ ok written w',
      loop (fun kw : Walk × World => blkWalkStep qn kw.1 kw.2) fuel (k, w) =
        some (blkFinish k.type
          (if ok then gpa (w.mem.desc (descAddr k.desc qn status)).addr else 0) ok written w') ∧
      P (chainBufs w.mem k.desc qn data) k w ok w' := by
  induction data generalizing fuel k w with
  | nil =>
      obtain ⟨fuel, rfl⟩ : ∃ f, fuel = f + 1 := ⟨fuel - 1, by simp at hfuel; omega⟩
      obtain ⟨hi, hf⟩ := hch
      rw [← hi] at hf ⊢
      refine ⟨true, k.written, _, loop_leave (blkWalkStep_status hf) fuel, ?_⟩
      exact done _ _ _ (SameButTrace.touch w (by simp [statuses]))
  | cons j data ih =>
      obtain ⟨fuel, rfl⟩ : ∃ f, fuel = f + 1 := ⟨fuel - 1, by simp at hfuel; omega⟩
      obtain ⟨hi, hf, hrest⟩ := hch
      obtain ⟨w₀, hw₀, hfail, hnext⟩ := blkWalkStep_data (k := k) (by rw [hi]; exact hf)
      have hbufs : chainBufs w.mem k.desc qn (j :: data) =
          (gpa (w.mem.desc (descAddr k.desc qn j)).addr, (w.mem.desc (descAddr k.desc qn j)).len) ::
            chainBufs w.mem k.desc qn data := rfl
      rw [hi] at hfail hnext
      rcases hd : blkData k (gpa (w.mem.desc (descAddr k.desc qn j)).addr)
        (w.mem.desc (descAddr k.desc qn j)).len w₀ with ⟨ok, sector, written, w'⟩
      cases ok with
      | false =>
          refine ⟨false, written, w', ?_, ?_⟩
          · rw [loop_leave (hfail _ _ _ hd)]
            rfl
          · rw [hbufs]
            exact failed _ _ _ k w w₀ sector written w' hw₀ hd
      | true =>
          -- the transfer has left every descriptor of the chain alone
          have hkeep : ∀ x ∈ (j :: data) ++ [status],
              w'.mem.desc (descAddr k.desc qn x) = w.mem.desc (descAddr k.desc qn x) := by
            intro x hx
            have hq := (blkData_spec k (gpa (w.mem.desc (descAddr k.desc qn j)).addr)
              (w.mem.desc (descAddr k.desc qn j)).len w₀).quiet
            rw [hd] at hq
            rw [← hw₀.mem]
            exact Mem.desc_congr (hq.agreeOn (hcl j (by simp) x hx))
          have hkeepData : ∀ x ∈ data,
              w'.mem.desc (descAddr k.desc qn x) = w.mem.desc (descAddr k.desc qn x) :=
            fun x hx => hkeep x (by simp [hx])
          let idx := (w.mem.desc (descAddr k.desc qn j)).next
          let w₂ := w'.touch [.load (descAddr k.desc qn j + 14) 2]
          have hstep := hnext _ _ _ hd
          rw [hkeep j (by simp)] at hstep
          have hch' : Chained w₂.mem k.desc qn idx data status :=
            hrest.congr fun x hx => hkeep x (List.mem_cons_of_mem _ hx)
          have hcl' : ClearOf w₂.mem k.desc qn k.type data (data ++ [status]) :=
            ClearOf.congr (fun a ha b hb => hcl a (List.mem_cons_of_mem _ ha) b
              (List.mem_cons_of_mem _ hb)) hkeepData
          have hfuel' : data.length < fuel := by
            rw [List.length_cons] at hfuel
            omega
          obtain ⟨ok, written', w'', hloop, hP⟩ :=
            ih (k := { k with sector, written, idx }) (w := w₂) hfuel' hch' hcl'
          refine ⟨ok, written', w'', ?_, ?_⟩
          · rw [loop_again hstep, hloop]
            have hs : w₂.mem.desc (descAddr k.desc qn status) =
                w.mem.desc (descAddr k.desc qn status) := hkeep status (by simp)
            simp only [hs]
          · rw [hbufs]
            refine next _ _ _ k w w₀ sector written idx w' w₂ ok w'' hw₀ hd
              (SameButTrace.touch w' (by simp [statuses])) ?_
            have hb : chainBufs w₂.mem k.desc qn data = chainBufs w.mem k.desc qn data :=
              chainBufs_congr hkeepData
            rw [← hb]
            exact hP

/-- What every walk with the buffers `bufs` ahead comes to: it stores no status on
the way, leaves the error counter alone, and reaches the status descriptor
exactly when every data descriptor succeeds. -/
structure WalkEnd (bufs : List (Word × Word)) (k : Walk) (w : World) (ok : Bool) (w' : World) :
    Prop where
  statuses : statuses w'.trace = statuses w.trace
  errors : w'.sErrors = w.sErrors
  ok : ok = true ↔ AllGranted w.sd k.type w.sd.calls k.sector (bufs.map Prod.snd)

theorem WalkEnd.done {k : Walk} {w w' : World} (h : SameButTrace w w') : WalkEnd [] k w true w' :=
  ⟨h.trace, h.errors, iff_of_true rfl trivial⟩

theorem WalkEnd.failed {buf len : Word} {bufs : List (Word × Word)} {k : Walk} {w w₀ w' : World}
    {sector written : Word} (hw : SameButTrace w w₀)
    (hd : blkData k buf len w₀ = (false, sector, written, w')) :
    WalkEnd ((buf, len) :: bufs) k w false w' := by
  have hs := blkData_spec k buf len w₀
  rw [hd] at hs
  refine ⟨hs.quiet.statuses_eq.trans hw.trace, hs.quiet.errors.trans hw.errors,
    iff_of_false (by simp) ?_⟩
  rintro ⟨hg, _⟩
  rw [← hw.sd] at hg
  exact absurd (hs.ok.mpr hg) (by simp)

theorem WalkEnd.next {buf len : Word} {bufs : List (Word × Word)} {k : Walk} {w w₀ w₁ w₂ w' : World}
    {sector written : Word} {idx : Half} {ok : Bool} (hw : SameButTrace w w₀)
    (hd : blkData k buf len w₀ = (true, sector, written, w₁)) (hw₂ : SameButTrace w₁ w₂)
    (h : WalkEnd bufs { k with sector, written, idx } w₂ ok w') :
    WalkEnd ((buf, len) :: bufs) k w ok w' := by
  have hs := blkData_spec k buf len w₀
  rw [hd] at hs
  refine ⟨h.statuses.trans (hw₂.trace.trans (hs.quiet.statuses_eq.trans hw.trace)),
    h.errors.trans (hw₂.errors.trans (hs.quiet.errors.trans hw.errors)), h.ok.trans ?_⟩
  have hsec : sector = nextSector k.type k.sector len := hs.sector rfl
  have hcalls : w₂.sd.calls = w.sd.calls + dataCalls k.type len := by
    rw [hw₂.sd, ← hw.sd]
    exact hs.calls rfl
  have hg : DescGranted w.sd k.type w.sd.calls k.sector len := by
    rw [← hw.sd]
    exact hs.ok.mp rfl
  show AllGranted w₂.sd k.type w₂.sd.calls sector _ ↔ AllGranted w.sd _ _ _ (len :: _)
  rw [hcalls, hsec, hw₂.sd, allGranted_congr hs.quiet.ready hs.quiet.accepts, hw.sd]
  exact ⟨fun h => ⟨hg, h⟩, fun h => h.2⟩

/-! ## The end of a request -/

theorem blkFinish_null (type : Word) (ok : Bool) (written : Word) (w : World) :
    statuses (blkFinish type 0 ok written w).2.trace = statuses w.trace ∧
      (blkFinish type 0 ok written w).2.mem = w.mem := by
  cases ok with
  | false => exact ⟨rfl, rfl⟩
  | true => exact ⟨rfl, rfl⟩

theorem blkFinish_ok (type : Word) {a : Word} (ha : a ≠ 0) (written : Word) (w : World) :
    statuses (blkFinish type a true written w).2.trace = statuses w.trace ++ [(a, virtioBlkSOk)] ∧
      (blkFinish type a true written w).2.mem = w.mem.store8 a virtioBlkSOk := by
  simp only [blkFinish, if_pos ha, if_true]
  exact ⟨statuses_append _ _, trivial⟩

theorem blkFinish_sd (type a : Word) (ok : Bool) (written : Word) (w : World) :
    (blkFinish type a ok written w).2.sd = w.sd := by
  simp only [blkFinish]
  by_cases ha : a ≠ 0
  · cases ok <;> simp only [if_pos ha, Bool.false_eq_true, if_true, if_false]
  · cases ok <;> simp only [if_neg ha, Bool.false_eq_true, if_true, if_false]

theorem blkFinish_errors (type a : Word) (ok : Bool) (written : Word) (w : World) :
    (blkFinish type a ok written w).2.sErrors = w.sErrors ↔ ok = true := by
  have hne (e : Word) : ¬ e + 1 = e := by simp
  simp only [blkFinish]
  by_cases ha : a ≠ 0
  · cases ok <;> simp only [if_pos ha, Bool.false_eq_true, if_true, if_false, hne]
  · cases ok <;> simp only [if_neg ha, Bool.false_eq_true, if_true, if_false, hne]

/-- Of memory the end of a request changes at most the status byte. -/
theorem blkFinish_mem (type a : Word) (ok : Bool) (written : Word) (w : World) {x : Word}
    (hx : ¬ Covers a 1 x) : (blkFinish type a ok written w).2.mem x = w.mem x := by
  simp only [blkFinish]
  by_cases ha : a ≠ 0
  · cases ok <;> simp only [if_pos ha, Bool.false_eq_true, if_true, if_false] <;>
      exact Mem.fill_outside hx
  · cases ok <;> simp only [if_neg ha, Bool.false_eq_true, if_true, if_false]

/-! ## One step of any walk -/

/-- The bytes that the next step of the walk may store into. -/
def descStores (queueNum : Word) (k : Walk) (m : Mem) : Word × Nat :=
  let d := m.desc (descAddr k.desc queueNum k.idx)
  (gpa d.addr, if d.flags &&& vringDescFNext = 0 then 1 else blkStores k.type d.len)

theorem blkWalkStep_mem {queueNum : Word} {k : Walk} {w : World} {x : Word}
    (hx : ¬ Covers (descStores queueNum k w.mem).1 (descStores queueNum k w.mem).2 x) :
    (stepWorld (blkWalkStep queueNum k w)).mem x = w.mem x := by
  by_cases hf : (w.mem.desc (descAddr k.desc queueNum k.idx)).flags &&& vringDescFNext = 0
  · simp only [descStores, if_pos hf] at hx
    rw [blkWalkStep_status hf]
    exact blkFinish_mem _ _ _ _ _ hx
  · simp only [descStores, if_neg hf] at hx
    obtain ⟨w₀, hw₀, hfail, hnext⟩ := blkWalkStep_data hf
    have hq := (blkData_spec k (gpa (w.mem.desc (descAddr k.desc queueNum k.idx)).addr)
      (w.mem.desc (descAddr k.desc queueNum k.idx)).len w₀).quiet
    rcases hd : blkData k (gpa (w.mem.desc (descAddr k.desc queueNum k.idx)).addr)
      (w.mem.desc (descAddr k.desc queueNum k.idx)).len w₀ with ⟨ok, sector, written, w'⟩
    rw [hd] at hq
    have hm : w'.mem x = w.mem x := by
      rw [← hw₀.mem]
      exact hq.mem x hx
    cases ok with
    | false =>
        rw [hfail _ _ _ hd, stepWorld, (blkFinish_null _ _ _ _).2, hm]
    | true =>
        rw [hnext _ _ _ hd]
        exact hm

theorem blkHeader_mem (blk : Blk) (head : Half) (w : World) :
    (stepWorld (blkHeader blk head w)).mem = w.mem := by
  simp only [blkHeader]
  split
  · rfl
  · split
    · exact (blkFinish_null _ _ _ _).2
    · rfl

/-! ## The whole request -/

/-- The walk that the header at `head` starts. -/
def startWalk (blk : Blk) (m : Mem) (head : Half) : Walk :=
  { desc := blk.descTable, type := requestType blk m head,
    sector := (requestSector blk m head).setWidth 32,
    idx := (m.desc (descAddr blk.descTable blk.queueNum head)).next, written := 0 }

theorem blkHeader_walk {blk : Blk} {head : Half} {w : World}
    (hlen : ¬ (w.mem.desc (descAddr blk.descTable blk.queueNum head)).len < 16)
    (hf : (w.mem.desc (descAddr blk.descTable blk.queueNum head)).flags &&& vringDescFNext ≠ 0) :
    ∃ w₀, SameButTrace w w₀ ∧ blkHeader blk head w = .inl (startWalk blk w.mem head, w₀) := by
  let d := descAddr blk.descTable blk.queueNum head
  let hdr := gpa (w.mem.desc d).addr
  refine ⟨(w.touch [.load (d + 8) 4]).touch
    [.load d 8, .load hdr 4, .load (hdr + 8) 8, .load (d + 14) 2, .load (d + 12) 2], ?_, ?_⟩
  · refine ⟨rfl, rfl, rfl, ?_⟩
    simp only [World.touch_trace, statuses_append]
    simp [statuses]
  · simp only [blkHeader, World.touch_mem, if_neg hlen, if_neg hf]
    rfl

theorem blkHeader_chain {blk : Blk} {head : Half} {w : World} {data : List Half} {status : Half}
    (hch : ChainAt blk w.mem head data status) :
    ∃ w₀, SameButTrace w w₀ ∧ blkHeader blk head w = .inl (startWalk blk w.mem head, w₀) :=
  blkHeader_walk (BitVec.not_lt.mpr hch.header) hch.next

/-- The rule of `blkWalk_chain` for a request: it comes to an end, in a state
that `blkFinish` makes of one that `WalkEnd` and `P` describe. -/
theorem blkDoRequest_chain {P : List (Word × Word) → Walk → World → Bool → World → Prop}
    (done : ∀ k w w', SameButTrace w w' → P [] k w true w')
    (failed : ∀ buf len bufs k w w₀ sector written w', SameButTrace w w₀ →
      blkData k buf len w₀ = (false, sector, written, w') → P ((buf, len) :: bufs) k w false w')
    (next : ∀ buf len bufs k w w₀ sector written idx w₁ w₂ ok w', SameButTrace w w₀ →
      blkData k buf len w₀ = (true, sector, written, w₁) → SameButTrace w₁ w₂ →
      P bufs { k with sector, written, idx } w₂ ok w' → P ((buf, len) :: bufs) k w ok w')
    {blk : Blk} {head : Half} {w : World} {data : List Half} {status : Half} {fuel : Nat}
    (hch : ChainAt blk w.mem head data status) (hfuel : data.length < fuel) :
    ∃ ok written w₀ w', blkDoRequest fuel blk head w = some (blkFinish (requestType blk w.mem head)
        (if ok then descBuf blk w.mem status else 0) ok written w') ∧
      SameButTrace w w₀ ∧
      WalkEnd (chainBufs w.mem blk.descTable blk.queueNum data)
        (startWalk blk w.mem head) w₀ ok w' ∧
      P (chainBufs w.mem blk.descTable blk.queueNum data) (startWalk blk w.mem head) w₀ ok w' := by
  obtain ⟨w₀, hw₀, hhead⟩ := blkHeader_chain hch
  obtain ⟨ok, written, w', hloop, hend, hP⟩ := blkWalk_chain
    (P := fun bufs k w ok w' => WalkEnd bufs k w ok w' ∧ P bufs k w ok w')
    (fun k w w' h => ⟨WalkEnd.done h, done k w w' h⟩)
    (fun buf len bufs k w w₀ sector written w' h hd =>
      ⟨WalkEnd.failed h hd, failed buf len bufs k w w₀ sector written w' h hd⟩)
    (fun buf len bufs k w w₀ sector written idx w₁ w₂ ok w' h hd h₂ hrest =>
      ⟨WalkEnd.next h hd h₂ hrest.1,
        next buf len bufs k w w₀ sector written idx w₁ w₂ ok w' h hd h₂ hrest.2⟩)
    (k := startWalk blk w.mem head) (w := w₀) hfuel (by rw [hw₀.mem]; exact hch.chained)
    (by rw [hw₀.mem]; exact hch.clear)
  rw [hw₀.mem] at hloop hend hP
  refine ⟨ok, written, w₀, w', ?_, hw₀, hend, hP⟩
  simp only [blkDoRequest, hhead]
  exact hloop

end P4Hyp
