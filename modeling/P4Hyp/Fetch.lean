import P4Hyp.Decode
import P4Hyp.VirtioBlk.Confine

/-!
# Where the monitor fetches instructions from

`guest_fetch` dereferences whatever address it is given, so a fetch stays in the
guest window only if its caller sees to it.  `trap_decode` checks nothing;
`hyp_trace_dump` and `hyp_panic` check the first byte of the instruction.
-/

namespace P4Hyp

/-! ## One fetch -/

/-- The halfwords `guest_fetch` dereferences. -/
def guestFetchTouches (mem : Mem) (mepc : Word) : List Touch :=
  let low := (mem.load16 mepc).setWidth 32
  if low &&& 0x3 ≠ 0x3 then [.load mepc 2]
  else if low &&& 0x1f = 0x1f then [.load mepc 2]
  else [.load mepc 2, .load (mepc + 2) 2]

/-- The length of the instruction at `mepc`, 6 standing for every encoding of 48 bits or more. -/
def insnBytes (mem : Mem) (mepc : Word) : Nat :=
  let low := (mem.load16 mepc).setWidth 32
  if low &&& 0x3 ≠ 0x3 then 2
  else if low &&& 0x1f = 0x1f then 6
  else 4

/-- The three lengths, with what is read and what is returned. -/
theorem guestFetch_cases (mem : Mem) (mepc : Word) :
    insnBytes mem mepc = 2 ∧ guestFetchTouches mem mepc = [.load mepc 2] ∨
    insnBytes mem mepc = 6 ∧ guestFetchTouches mem mepc = [.load mepc 2] ∧
      guestFetch mem mepc = none ∨
    insnBytes mem mepc = 4 ∧ guestFetchTouches mem mepc = [.load mepc 2, .load (mepc + 2) 2] ∧
      guestFetch mem mepc ≠ none := by
  unfold insnBytes guestFetchTouches guestFetch
  dsimp only
  by_cases h3 : (mem.load16 mepc).setWidth 32 &&& (0x3 : Word) = 0x3
  · rw [if_neg (not_not_intro h3), if_neg (not_not_intro h3), if_neg (not_not_intro h3)]
    by_cases h1f : (mem.load16 mepc).setWidth 32 &&& (0x1f : Word) = 0x1f
    · rw [if_pos h1f, if_pos h1f, if_pos h1f]
      exact .inr (.inl ⟨rfl, rfl, rfl⟩)
    · rw [if_neg h1f, if_neg h1f, if_neg h1f]
      exact .inr (.inr ⟨rfl, rfl, Option.some_ne_none _⟩)
  · rw [if_pos h3, if_pos h3]
    exact .inl ⟨rfl, rfl⟩

/-- A fetch depends on the halfwords it dereferences and on nothing else. -/
theorem guestFetch_congr {mem mem' : Mem} {mepc : Word} (h : Mem.AgreeOn mem mem' mepc 2)
    (h' : .load (mepc + 2) 2 ∈ guestFetchTouches mem mepc → Mem.AgreeOn mem mem' (mepc + 2) 2) :
    guestFetch mem' mepc = guestFetch mem mepc := by
  unfold guestFetchTouches at h'
  unfold guestFetch
  dsimp only at h' ⊢
  rw [Mem.load16_congr h]
  by_cases h3 : (mem.load16 mepc).setWidth 32 &&& (0x3 : Word) = 0x3
  · rw [if_neg (not_not_intro h3)] at h' ⊢
    rw [if_neg (not_not_intro h3)]
    by_cases h1f : (mem.load16 mepc).setWidth 32 &&& (0x1f : Word) = 0x1f
    · rw [if_pos h1f, if_pos h1f]
    · rw [if_neg h1f] at h' ⊢
      rw [if_neg h1f, Mem.load16_congr (h' (by simp))]
  · rw [if_pos h3, if_pos h3]

/-- What `hyp.h` says of a fetch: it reads in the guest window only, and it fails for an
instruction that does not lie in it. -/
structure FetchConfined (mem : Mem) (mepc : Word) : Prop where
  inside : AllInside (guestFetchTouches mem mepc)
  refused : ¬ InWindow mepc (insnBytes mem mepc) → guestFetch mem mepc = none

/-- The first halfword ends in the window or before it, and so does the second of a 4-byte
instruction. -/
def EndsInWindow (mem : Mem) (mepc : Word) : Prop :=
  mepc.toNat + 2 ≤ 0x4a000000 ∧ (insnBytes mem mepc = 4 → mepc.toNat + 4 ≤ 0x4a000000)

instance (mem : Mem) (mepc : Word) : Decidable (EndsInWindow mem mepc) :=
  inferInstanceAs (Decidable (_ ∧ _))

theorem inWindow_pos {a : Word} {n : Nat} (hn : 0 < n) :
    InWindow a n ↔ 0x48000000 ≤ a.toNat ∧ a.toNat + n ≤ 0x4a000000 := by
  rw [inWindow_iff]
  have hb : linuxBaseAddress.toNat = 0x48000000 := rfl
  have hs : linuxSize.toNat = 0x02000000 := rfl
  omega

/-- The second halfword of an instruction in the window. -/
theorem inWindow_next {a : Word} (h : InWindow a 2) : InWindow (a + 2) 2 ↔ InWindow a 4 := by
  rw [inWindow_pos (by omega)] at h
  rw [inWindow_pos (by omega), inWindow_pos (by omega)]
  have hadd : (a + 2).toNat = a.toNat + 2 := by
    rw [BitVec.toNat_add]
    show (a.toNat + 2) % 2 ^ 32 = _
    omega
  omega

theorem fetchConfined_iff (mem : Mem) (mepc : Word) :
    FetchConfined mem mepc ↔ 0x48000000 ≤ mepc.toNat ∧ EndsInWindow mem mepc := by
  have hin : FetchConfined mem mepc ↔
      InWindow mepc 2 ∧ (insnBytes mem mepc = 4 → InWindow mepc 4) := by
    constructor
    · rintro ⟨hi, -⟩
      obtain ⟨hl, ht⟩ | ⟨hl, ht, -⟩ | ⟨hl, ht, -⟩ := guestFetch_cases mem mepc
      · rw [ht, allInside_cons] at hi
        exact ⟨hi.1, fun h => absurd (hl.symm.trans h) (by decide)⟩
      · rw [ht, allInside_cons] at hi
        exact ⟨hi.1, fun h => absurd (hl.symm.trans h) (by decide)⟩
      · rw [ht, allInside_cons, allInside_cons] at hi
        exact ⟨hi.1, fun _ => (inWindow_next hi.1).mp hi.2.1⟩
    · rintro ⟨h2, h4⟩
      obtain ⟨hl, ht⟩ | ⟨hl, ht, hnone⟩ | ⟨hl, ht, -⟩ := guestFetch_cases mem mepc
      · refine ⟨?_, fun h => absurd (hl ▸ h2) h⟩
        rw [ht]
        exact (allInside_cons _ _).mpr ⟨h2, allInside_nil⟩
      · refine ⟨?_, fun _ => hnone⟩
        rw [ht]
        exact (allInside_cons _ _).mpr ⟨h2, allInside_nil⟩
      · refine ⟨?_, fun h => absurd (hl ▸ h4 hl) h⟩
        rw [ht]
        exact (allInside_cons _ _).mpr
          ⟨h2, (allInside_cons _ _).mpr ⟨(inWindow_next h2).mpr (h4 hl), allInside_nil⟩⟩
  rw [hin, inWindow_pos (by omega), inWindow_pos (by omega)]
  unfold EndsInWindow
  constructor
  · rintro ⟨⟨hlo, h2⟩, h4⟩
    exact ⟨hlo, h2, fun h => (h4 h).2⟩
  · rintro ⟨hlo, h2, h4⟩
    exact ⟨⟨hlo, h2⟩, fun h => ⟨hlo, h4 h⟩⟩

/-! ## The trap history -/

structure TraceEntry where
  cause : Word
  epc : Word
  tval : Word
  priv : Word

def hypTraceLen : Nat := 16
def hypTraceDumps : Word := 4

structure Trace where
  ring : Nat → TraceEntry
  next : Word
  total : Word
  dumps : Word

/-- `hyp_trace_record`. -/
def Trace.record (e : TraceEntry) (t : Trace) : Trace :=
  { t with
    ring := fun i => if i = t.next.toNat then e else t.ring i
    next := (t.next + 1) % 16
    total := t.total + 1 }

/-- The entries a dump prints, oldest first. -/
def Trace.listed (t : Trace) : List TraceEntry :=
  let count := if t.total.toNat < hypTraceLen then t.total.toNat else hypTraceLen
  let start := (t.next.toNat + hypTraceLen - count) % hypTraceLen
  (List.range count).map fun n => t.ring ((start + n) % hypTraceLen)

/-- A history that was only written by `record`. -/
def Trace.Recorded (t : Trace) : Prop := t.next.toNat = t.total.toNat % 16

def Trace.boot : Trace := ⟨fun _ => ⟨0, 0, 0, 0⟩, 0, 0, 0⟩

theorem Trace.record_recorded {t : Trace} (h : t.Recorded) (e : TraceEntry) :
    (t.record e).Recorded := by
  unfold Recorded at h ⊢
  show ((t.next + 1) % 16).toNat = (t.total + 1).toNat % 16
  rw [BitVec.toNat_umod, BitVec.toNat_add, BitVec.toNat_add, h]
  show (t.total.toNat % 16 + 1) % 2 ^ 32 % 16 = (t.total.toNat + 1) % 2 ^ 32 % 16
  omega

/-- The list a dump prints, by position. -/
theorem Trace.listed_length (t : Trace) : t.listed.length = min t.total.toNat 16 := by
  unfold listed
  dsimp only
  rw [List.length_map, List.length_range]
  show (if t.total.toNat < 16 then _ else 16) = _
  split <;> omega

theorem Trace.listed_getElem {t : Trace} (h : t.Recorded) {n : Nat} (hn : n < t.listed.length) :
    t.listed[n] = t.ring ((t.total.toNat - min t.total.toNat 16 + n) % 16) := by
  have hlen := t.listed_length
  unfold Recorded at h
  unfold listed at hlen hn ⊢
  dsimp only at hlen hn ⊢
  rw [List.length_map, List.length_range] at hlen
  rw [List.getElem_map, List.getElem_range, h, hlen]
  congr 1
  show (((t.total.toNat % 16 + 16 - min t.total.toNat 16) % 16 + n) % 16) = _
  omega

/-- Recording appends to the list, and drops the oldest of sixteen entries. -/
theorem Trace.listed_record {t : Trace} (h : t.Recorded) (hlt : t.total.toNat + 1 < 2 ^ 32)
    (e : TraceEntry) : (t.record e).listed = (t.listed ++ [e]).drop (t.listed.length + 1 - 16) := by
  have htotal : (t.record e).total.toNat = t.total.toNat + 1 := by
    show (t.total + 1).toNat = _
    rw [BitVec.toNat_add]
    exact Nat.mod_eq_of_lt hlt
  apply List.ext_getElem
  · rw [List.length_drop, List.length_append, listed_length, listed_length, htotal]
    show _ = min t.total.toNat 16 + 1 - _
    omega
  · intro n hn hn'
    rw [listed_getElem (record_recorded h e) hn, htotal, List.getElem_drop]
    rw [listed_length, htotal] at hn
    show (if _ = t.next.toNat then e else t.ring _) = _
    unfold Recorded at h
    by_cases hlast : t.listed.length + 1 - 16 + n < t.listed.length
    · -- an older entry: the new one has not overwritten it
      rw [List.getElem_append_left hlast, listed_getElem h hlast]
      rw [listed_length] at hlast ⊢
      rw [if_neg (by omega)]
      congr 1
      omega
    · rw [List.getElem_append_right (Nat.le_of_not_lt hlast), List.getElem_singleton]
      rw [listed_length] at hlast
      rw [if_pos (by omega)]

/-- After any run of traps that does not wrap the counter, a dump lists the last sixteen. -/
theorem Trace.listed_run (es : List TraceEntry) (hlt : es.length < 2 ^ 32) :
    (es.foldl (fun t e => t.record e) boot).Recorded ∧
    (es.foldl (fun t e => t.record e) boot).total.toNat = es.length ∧
    (es.foldl (fun t e => t.record e) boot).listed = es.drop (es.length - 16) := by
  induction es using List.reverseRecOn with
  | nil => exact ⟨rfl, rfl, rfl⟩
  | append_singleton es e ih =>
      rw [List.length_append] at hlt ⊢
      change es.length + 1 < 2 ^ 32 at hlt
      obtain ⟨hrec, htotal, hlist⟩ := ih (by omega)
      rw [List.foldl_append]
      refine ⟨record_recorded hrec e, ?_, ?_⟩
      · show (BitVec.toNat (_ + 1)) = es.length + 1
        rw [BitVec.toNat_add, htotal]
        exact Nat.mod_eq_of_lt hlt
      · show (Trace.record e _).listed = _
        rw [listed_record hrec (by omega), hlist, List.length_drop]
        show _ = List.drop (es.length + 1 - 16) _
        by_cases h16 : es.length < 16
        · rw [show es.length - 16 = 0 by omega, show es.length - 0 + 1 - 16 = 0 by omega,
            show es.length + 1 - 16 = 0 by omega]
          rfl
        · rw [show es.length + 1 - 16 = (es.length - 16) + 1 by omega,
            show es.length - (es.length - 16) + 1 - 16 = 1 by omega, ← List.drop_drop,
            List.drop_append_of_le_length (Nat.sub_le _ _)]

/-- The callers' own check of an address. -/
def epcChecked (epc : Word) : Bool :=
  linuxBaseAddress ≤ epc ∧ epc < linuxBaseAddress + linuxSize

/-- The encoding and length of the instruction at an address that passes the check, 0 for
any other. -/
def checkedFetch (mem : Mem) (epc : Word) : Word × Word :=
  if epcChecked epc then (guestFetch mem epc).getD (0, 0) else (0, 0)

/-- A line of the dump: the entry, its instruction, and whether it is an access fault
of an instruction that does not access memory. -/
structure TraceLine where
  entry : TraceEntry
  encoding : Word
  length : Word
  notMem : Bool

def traceLine (mem : Mem) (entry : TraceEntry) : TraceLine :=
  let (encoding, length) := checkedFetch mem entry.epc
  let q := encoding &&& 0x3
  let f := (encoding >>> 13) &&& 0x7
  let isMem : Bool :=
    if length = 4 then encoding &&& 0x5f = 0x03
    else if length = 2 then q = 0 ∨ q = 2 ∧ (f = 2 ∨ f = 6)
    else false
  ⟨entry, encoding, length, !isMem && (entry.cause = 5 ∨ entry.cause = 7)⟩

/-- `hyp_trace_dump`: the lines it prints, and the history after it. -/
def hypTraceDump (mem : Mem) (t : Trace) : List TraceLine × Trace :=
  if t.dumps ≥ hypTraceDumps then ([], t)
  else (t.listed.map (traceLine mem), { t with dumps := t.dumps + 1 })

/-- `hyp_panic`, up to its loop: the instruction it prints, and the dump. -/
def hypPanic (mem : Mem) (frame : RvExcFrame) (t : Trace) :
    (Word × Word) × List TraceLine × Trace :=
  (checkedFetch mem frame.mepc, hypTraceDump mem { t with dumps := 0 })

/-! ## The addresses fetched from -/

/-- A call of a function that fetches guest instructions, with the state it reads. -/
inductive FetchCaller
  | trapDecode (trap : GuestTrap)
  | traceDump (t : Trace)
  | panic (frame : RvExcFrame) (t : Trace)

def checkedFetches (epc : Word) : List Word := if epcChecked epc then [epc] else []

def traceDumpFetches (t : Trace) : List Word :=
  if t.dumps ≥ hypTraceDumps then [] else t.listed.flatMap fun e => checkedFetches e.epc

/-- The addresses a call hands to `guest_fetch`. -/
def FetchCaller.fetches : FetchCaller → List Word
  | trapDecode trap => if trap.cause = 2 then [] else [trap.frame.mepc]
  | traceDump t => traceDumpFetches t
  | panic frame t => checkedFetches frame.mepc ++ traceDumpFetches { t with dumps := 0 }

/-- Every fetch of the call is as `hyp.h` promises. -/
def FetchCaller.Confined (mem : Mem) (c : FetchCaller) : Prop :=
  ∀ mepc ∈ c.fetches, FetchConfined mem mepc

/-- No checked address is that of an instruction across the window's end. -/
def CheckedEnds (mem : Mem) (epc : Word) : Prop :=
  0x48000000 ≤ epc.toNat → epc.toNat < 0x4a000000 → EndsInWindow mem epc

def TraceEnds (mem : Mem) (t : Trace) : Prop :=
  t.dumps < hypTraceDumps → ∀ e ∈ t.listed, CheckedEnds mem e.epc

/-- The instructions a call comes across end in the window, and the one `trap_decode` is for
starts in it. -/
def FetchCaller.EndsInside (mem : Mem) : FetchCaller → Prop
  | trapDecode trap =>
      trap.cause ≠ 2 → 0x48000000 ≤ trap.frame.mepc.toNat ∧ EndsInWindow mem trap.frame.mepc
  | traceDump t => TraceEnds mem t
  | panic frame t => CheckedEnds mem frame.mepc ∧ ∀ e ∈ t.listed, CheckedEnds mem e.epc

/-- `trap_decode` sees the memory only through its fetches. -/
theorem trapDecode_congr {mem mem' : Mem} {trap : GuestTrap}
    (h : ∀ a ∈ (FetchCaller.trapDecode trap).fetches, guestFetch mem' a = guestFetch mem a) :
    trapDecode mem' trap = trapDecode mem trap := by
  unfold trapDecode
  by_cases hc : trap.cause = 2
  · rw [if_pos hc, if_pos hc]
  · have hf : guestFetch mem' trap.frame.mepc = guestFetch mem trap.frame.mepc := by
      apply h
      show _ ∈ (if trap.cause = 2 then [] else [trap.frame.mepc])
      rw [if_neg hc]
      exact List.mem_singleton_self _
    rw [if_neg hc, if_neg hc, hf]

theorem checkedFetch_congr {mem mem' : Mem} {epc : Word}
    (h : ∀ a ∈ checkedFetches epc, guestFetch mem' a = guestFetch mem a) :
    checkedFetch mem' epc = checkedFetch mem epc := by
  unfold checkedFetches at h
  unfold checkedFetch
  by_cases hc : epcChecked epc = true
  · rw [if_pos hc] at h
    rw [if_pos hc, if_pos hc, h epc (List.mem_singleton_self _)]
  · rw [if_neg hc, if_neg hc]

/-- A dump sees the memory only through its fetches. -/
theorem hypTraceDump_congr {mem mem' : Mem} {t : Trace}
    (h : ∀ a ∈ (FetchCaller.traceDump t).fetches, guestFetch mem' a = guestFetch mem a) :
    hypTraceDump mem' t = hypTraceDump mem t := by
  change ∀ a ∈ traceDumpFetches t, _ at h
  unfold traceDumpFetches at h
  unfold hypTraceDump
  by_cases hd : t.dumps ≥ hypTraceDumps
  · rw [if_pos hd, if_pos hd]
  · rw [if_neg hd] at h
    rw [if_neg hd, if_neg hd]
    congr 1
    refine List.map_congr_left fun e he => ?_
    have hf : checkedFetch mem' e.epc = checkedFetch mem e.epc :=
      checkedFetch_congr fun a ha => h a (List.mem_flatMap.mpr ⟨e, he, ha⟩)
    unfold traceLine
    rw [hf]

/-- A panic sees the memory only through its fetches. -/
theorem hypPanic_congr {mem mem' : Mem} {frame : RvExcFrame} {t : Trace}
    (h : ∀ a ∈ (FetchCaller.panic frame t).fetches, guestFetch mem' a = guestFetch mem a) :
    hypPanic mem' frame t = hypPanic mem frame t := by
  unfold hypPanic
  rw [checkedFetch_congr fun a ha => h a (List.mem_append_left _ ha),
    hypTraceDump_congr fun a ha => h a (List.mem_append_right _ ha)]

theorem epcChecked_iff (epc : Word) :
    epcChecked epc = true ↔ 0x48000000 ≤ epc.toNat ∧ epc.toNat < 0x4a000000 := by
  unfold epcChecked
  rw [decide_eq_true_eq, BitVec.le_def, BitVec.lt_def]
  rfl

theorem checkedFetches_confined {mem : Mem} (epc : Word) :
    (∀ a ∈ checkedFetches epc, FetchConfined mem a) ↔ CheckedEnds mem epc := by
  unfold checkedFetches CheckedEnds
  by_cases h : epcChecked epc = true
  · rw [if_pos h, List.forall_mem_singleton, fetchConfined_iff]
    obtain ⟨hlo, hhi⟩ := (epcChecked_iff epc).mp h
    exact ⟨fun hc _ _ => hc.2, fun he => ⟨hlo, he hlo hhi⟩⟩
  · rw [if_neg h]
    rw [epcChecked_iff] at h
    exact ⟨fun _ hlo hhi => absurd ⟨hlo, hhi⟩ h, fun _ a ha => absurd ha List.not_mem_nil⟩

theorem traceDumpFetches_confined {mem : Mem} (t : Trace) :
    (∀ a ∈ traceDumpFetches t, FetchConfined mem a) ↔ TraceEnds mem t := by
  unfold traceDumpFetches TraceEnds
  by_cases h : t.dumps ≥ hypTraceDumps
  · rw [if_pos h]
    exact ⟨fun _ hlt => absurd hlt (BitVec.not_lt.mpr h), fun _ a ha => absurd ha List.not_mem_nil⟩
  · rw [if_neg h]
    simp only [List.mem_flatMap, forall_exists_index, and_imp]
    constructor
    · intro hc _ e he
      exact (checkedFetches_confined e.epc).mp fun a ha => hc a e he ha
    · intro he a e hm ha
      exact (checkedFetches_confined e.epc).mpr (he (BitVec.not_le.mp h) e hm) a ha

theorem Trace.dumps_run (es : List TraceEntry) (t : Trace) :
    (es.foldl (fun t e => t.record e) t).dumps = t.dumps := by
  induction es generalizing t with
  | nil => rfl
  | cons e es ih => exact ih (t.record e)

/-- After any run of traps that does not wrap the counter, a dump stays in the window exactly
when none of the last sixteen reaches over its end. -/
theorem traceDump_confined_run {mem : Mem} (es : List TraceEntry) (hlt : es.length < 2 ^ 32) :
    (FetchCaller.traceDump (es.foldl (fun t e => t.record e) Trace.boot)).Confined mem ↔
      ∀ e ∈ es.drop (es.length - 16), CheckedEnds mem e.epc := by
  obtain ⟨-, -, hlist⟩ := Trace.listed_run es hlt
  have hdumps : (es.foldl (fun t e => t.record e) Trace.boot).dumps < hypTraceDumps := by
    rw [Trace.dumps_run]
    decide
  refine (traceDumpFetches_confined _).trans ?_
  unfold TraceEnds
  rw [hlist]
  exact ⟨fun h => h hdumps, fun h _ => h⟩

/-- The fetches of a call stay in the guest window, and fail for what does not lie in it,
exactly when no instruction it comes across reaches over the window's end. -/
theorem fetches_confined_iff (mem : Mem) (c : FetchCaller) : c.Confined mem ↔ c.EndsInside mem := by
  cases c with
  | trapDecode trap =>
      show (∀ a ∈ (if trap.cause = 2 then [] else [trap.frame.mepc]), _) ↔ (trap.cause ≠ 2 → _)
      by_cases h : trap.cause = 2
      · rw [if_pos h]
        exact ⟨fun _ hne => absurd h hne, fun _ a ha => absurd ha List.not_mem_nil⟩
      · rw [if_neg h, List.forall_mem_singleton, fetchConfined_iff]
        exact ⟨fun hc _ => hc, fun hc => hc h⟩
  | traceDump t => exact traceDumpFetches_confined t
  | panic frame t =>
      show (∀ a ∈ checkedFetches frame.mepc ++ traceDumpFetches { t with dumps := 0 }, _) ↔ _
      rw [List.forall_mem_append, checkedFetches_confined, traceDumpFetches_confined]
      exact and_congr_right fun _ => ⟨fun h => h (show (0 : Word) < 4 by decide), fun h _ => h⟩

/-- The first halfword of a 4-byte instruction in the window's last two bytes. -/
def cutInsn : Mem := fun a => if a = 0x49fffffe then 0x03 else 0

/-- A panic at an instruction that starts in the window's last two bytes: its second
halfword is read from past the window, and the fetch succeeds. -/
theorem panic_fetch_leaves_window :
    ¬ (FetchCaller.panic ⟨0x49fffffe, fun _ => 0, 1, 0x4a000000⟩
        ⟨fun _ => ⟨0, 0, 0, 0⟩, 0, 0, 0⟩).Confined cutInsn := by
  intro h
  have hin := (h 0x49fffffe (by decide)).inside (.load 0x4a000000 2) (by decide)
  exact absurd hin (by decide)

end P4Hyp
