import P4Hyp.Lib.Pattern
import P4Hyp.Lib.Scan

/-!
# Mouse reports in the console's input

The terminal sends its mouse reports, `ESC [ < button ; col ; row M`, in the stream
of the keys.  They are taken out of it, and what may be the start of one is held
at the end of a read.
-/

namespace P4Hyp

def escByte : Byte := 0x1b

/-- `[\d;]`. -/
def isParam (c : Byte) : Bool := isDigit c || c == 0x3b

structure MouseEvent where
  button : Nat
  col : Nat
  row : Nat
  press : Bool
deriving DecidableEq

/-! ## `MOUSE_RE` -/

/-- `([Mm])`. -/
def pressOrRelease : List Byte → Option (Bool × List Byte)
  | [] => none
  | c :: s => if c = 0x4d then some (true, s) else if c = 0x6d then some (false, s) else none

/-- `MOUSE_RE.match`, with the rest of the data. -/
def mouseRe (s : List Byte) : Option (MouseEvent × List Byte) :=
  (literal [escByte, 0x5b, 0x3c] s).bind fun s =>
  (digits s).bind fun b =>
  (literal [0x3b] b.2).bind fun s =>
  (digits s).bind fun c =>
  (literal [0x3b] c.2).bind fun s =>
  (digits s).bind fun r =>
  (pressOrRelease r.2).map fun p =>
    ({ button := decimal b.1, col := decimal c.1, row := decimal r.1, press := p.1 }, p.2)

/-- `$` matches at the end, and before a line feed there. -/
def atEnd (s : List Byte) : Bool := s == [] || s == [0x0a]

/-- `(<[\d;]*)?$`, the optional part taken. -/
def partialParams : List Byte → Bool
  | [] => false
  | c :: s => c == 0x3c && atEnd (s.dropWhile isParam)

/-- `(\[(<[\d;]*)?)?$`, the optional part taken. -/
def partialBracket : List Byte → Bool
  | [] => false
  | c :: s => c == 0x5b && (atEnd s || partialParams s)

/-- `MOUSE_PARTIAL.match`. -/
def mousePartial : List Byte → Bool
  | [] => false
  | c :: s => c == escByte && (atEnd s || partialBracket s)

/-! ## `split_mouse` -/

inductive Input
  | event (ev : MouseEvent)
  | key (b : Byte)
deriving DecidableEq

/-- What may still become a report is held at the end of a read. -/
def HeldEsc (rest : List Byte) : Prop := rest.length ≤ 16 ∧ mousePartial rest = true

instance (rest : List Byte) : Decidable (HeldEsc rest) := inferInstanceAs (Decidable (_ ∧ _))

/-- One round of the loop of `split_mouse`; `none` where the rest is the tail. -/
def nextInput (b : Byte) (bs : List Byte) : Option (Input × List Byte) :=
  if b ≠ escByte then some (.key b, bs)
  else
    match mouseRe (b :: bs) with
    | some (ev, rest) => some (.event ev, rest)
    | none => if HeldEsc (b :: bs) then none else some (.key b, bs)

/-! ## Reports -/

/-- The text of a report. -/
structure Report where
  button : List Byte
  col : List Byte
  row : List Byte
  press : Bool
  ok : ∀ ds ∈ [button, col, row], ds ≠ [] ∧ ∀ c ∈ ds, isDigit c = true

namespace Report

/-- The parameters. -/
def params (r : Report) : List Byte := r.button ++ 0x3b :: (r.col ++ 0x3b :: r.row)

def final (r : Report) : Byte := if r.press then 0x4d else 0x6d

def bytes (r : Report) : List Byte := escByte :: 0x5b :: 0x3c :: (r.params ++ [r.final])

def event (r : Report) : MouseEvent :=
  { button := decimal r.button, col := decimal r.col, row := decimal r.row, press := r.press }

theorem isParam_params (r : Report) : ∀ c ∈ r.params, isParam c = true := by
  have hdigit : ∀ ds ∈ [r.button, r.col, r.row], ∀ c ∈ ds, isParam c = true := by
    intro ds hds c hc
    rw [isParam, (r.ok ds hds).2 c hc, Bool.true_or]
  intro c hc
  simp only [params, List.mem_append, List.mem_cons] at hc
  rcases hc with hc | rfl | hc | rfl | hc
  · exact hdigit r.button (by simp) c hc
  · rfl
  · exact hdigit r.col (by simp) c hc
  · rfl
  · exact hdigit r.row (by simp) c hc

/-- A report has its only escape in front. -/
theorem esc_notMem (r : Report) : escByte ∉ r.bytes.tail := by
  have hparams : escByte ∉ r.params := by
    intro h
    have := r.isParam_params escByte h
    revert this
    decide
  have hfinal : escByte ≠ r.final := by
    unfold final
    cases r.press <;> decide
  simp only [bytes, List.tail_cons, List.mem_cons, List.mem_append, List.not_mem_nil, or_false]
  rintro (h | h | h | h)
  · exact absurd h (by decide)
  · exact absurd h (by decide)
  · exact hparams h
  · exact hfinal h

end Report

section Pattern

variable {s rest p : List Byte} {c : Byte}

theorem pressOrRelease_eq_some {press : Bool} :
    pressOrRelease s = some (press, rest) ↔ s = (if press then 0x4d else 0x6d) :: rest := by
  constructor
  · intro h
    cases s with
    | nil => cases h
    | cons c s =>
        simp only [pressOrRelease] at h
        split at h
        · rename_i hc
          obtain ⟨rfl, rfl⟩ := Prod.mk.inj (Option.some.inj h)
          rw [hc]
          rfl
        · split at h
          · rename_i hc
            obtain ⟨rfl, rfl⟩ := Prod.mk.inj (Option.some.inj h)
            rw [hc]
            rfl
          · cases h
  · rintro rfl
    cases press <;> rfl

/-- What `MOUSE_RE` matches. -/
theorem mouseRe_eq_some {ev : MouseEvent} :
    mouseRe s = some (ev, rest) ↔ ∃ r : Report, s = r.bytes ++ rest ∧ ev = r.event := by
  constructor
  · intro h
    unfold mouseRe at h
    obtain ⟨s₁, h₁, h⟩ := Option.bind_eq_some_iff.mp h
    obtain ⟨⟨b, s₂⟩, hb, h⟩ := Option.bind_eq_some_iff.mp h
    obtain ⟨s₃, h₃, h⟩ := Option.bind_eq_some_iff.mp h
    obtain ⟨⟨c, s₄⟩, hc, h⟩ := Option.bind_eq_some_iff.mp h
    obtain ⟨s₅, h₅, h⟩ := Option.bind_eq_some_iff.mp h
    obtain ⟨⟨r, s₆⟩, hr, h⟩ := Option.bind_eq_some_iff.mp h
    obtain ⟨⟨press, s₇⟩, hp, h⟩ := Option.map_eq_some_iff.mp h
    obtain ⟨rfl, rfl⟩ := Prod.mk.inj h
    obtain rfl := literal_eq_some.mp h₁
    obtain ⟨hbok, rfl⟩ := digits_some hb
    obtain rfl := literal_eq_some.mp h₃
    obtain ⟨hcok, rfl⟩ := digits_some hc
    obtain rfl := literal_eq_some.mp h₅
    obtain ⟨hrok, rfl⟩ := digits_some hr
    obtain rfl := pressOrRelease_eq_some.mp hp
    refine ⟨⟨b, c, r, press, ?_⟩, ?_, rfl⟩
    · intro ds hds
      simp only [List.mem_cons, List.not_mem_nil, or_false] at hds
      rcases hds with rfl | rfl | rfl
      · exact hbok
      · exact hcok
      · exact hrok
    · simp [Report.bytes, Report.params, Report.final]
  · rintro ⟨r, rfl, rfl⟩
    have hb := r.ok r.button (by simp)
    have hc := r.ok r.col (by simp)
    have hr := r.ok r.row (by simp)
    have hfinal : isDigit r.final = false := by
      unfold Report.final
      cases r.press <;> rfl
    have hbytes : r.bytes ++ rest = [escByte, 0x5b, 0x3c] ++ (r.button ++ 0x3b ::
        (r.col ++ 0x3b :: (r.row ++ r.final :: rest))) := by
      simp [Report.bytes, Report.params]
    have hsemi (t : List Byte) : literal [0x3b] (0x3b :: t) = some t := literal_eq_some.mpr rfl
    have hpress : pressOrRelease (r.final :: rest) = some (r.press, rest) :=
      pressOrRelease_eq_some.mpr rfl
    rw [hbytes, mouseRe, literal_eq_some.mpr rfl, Option.bind_some,
      digits_append hb.1 hb.2 rfl, Option.bind_some, hsemi, Option.bind_some,
      digits_append hc.1 hc.2 rfl, Option.bind_some, hsemi, Option.bind_some,
      digits_append hr.1 hr.2 hfinal, Option.bind_some, hpress]
    rfl

/-- What `MOUSE_RE` does not match. -/
theorem mouseRe_eq_none : mouseRe s = none ↔ ∀ r : Report, ¬ r.bytes <+: s := by
  constructor
  · rintro h r ⟨t, rfl⟩
    rw [mouseRe_eq_some.mpr ⟨r, rfl, rfl⟩] at h
    cases h
  · intro h
    cases hm : mouseRe s with
    | none => rfl
    | some p =>
        obtain ⟨r, hr, -⟩ := mouseRe_eq_some.mp (show mouseRe s = some (p.1, p.2) from hm)
        exact absurd ⟨p.2, hr.symm⟩ (h r)

/-! ## Partial reports -/

theorem atEnd_initial (h : atEnd s = true) (hp : p <+: s) : atEnd p = true := by
  obtain rfl | rfl : s = [] ∨ s = [0x0a] := by simpa [atEnd] using h
  · rw [List.prefix_nil.mp hp]
    rfl
  · rcases List.prefix_cons_iff.mp hp with rfl | ⟨t, rfl, ht⟩
    · rfl
    · rw [List.prefix_nil.mp ht]
      rfl

theorem dropWhile_prefix (f : Byte → Bool) (hp : p <+: s) :
    p.dropWhile f = [] ∨ p.dropWhile f <+: s.dropWhile f := by
  obtain ⟨t, rfl⟩ := hp
  rw [List.dropWhile_append]
  split
  · rename_i he
    exact .inl (List.isEmpty_iff.mp he)
  · exact .inr (List.prefix_append _ t)

theorem partialParams_initial (h : partialParams s = true) (hp : p <+: s) (hne : p ≠ []) :
    partialParams p = true := by
  cases p with
  | nil => exact absurd rfl hne
  | cons c p =>
      cases s with
      | nil => cases h
      | cons d s =>
          obtain ⟨rfl, hps⟩ := List.cons_prefix_cons.mp hp
          simp only [partialParams, Bool.and_eq_true] at h ⊢
          refine ⟨h.1, ?_⟩
          rcases dropWhile_prefix isParam hps with he | he
          · rw [he]
            rfl
          · exact atEnd_initial h.2 he

theorem partialBracket_initial (h : partialBracket s = true) (hp : p <+: s) (hne : p ≠ []) :
    partialBracket p = true := by
  cases p with
  | nil => exact absurd rfl hne
  | cons c p =>
      cases s with
      | nil => cases h
      | cons d s =>
          obtain ⟨rfl, hps⟩ := List.cons_prefix_cons.mp hp
          simp only [partialBracket, Bool.and_eq_true, Bool.or_eq_true] at h ⊢
          refine ⟨h.1, ?_⟩
          by_cases hnil : p = []
          · rw [hnil]
            exact .inl rfl
          · exact h.2.imp (atEnd_initial · hps) (partialParams_initial · hps hnil)

theorem mousePartial_prefix (h : mousePartial s = true) (hp : p <+: s) (hne : p ≠ []) :
    mousePartial p = true := by
  cases p with
  | nil => exact absurd rfl hne
  | cons c p =>
      cases s with
      | nil => cases h
      | cons d s =>
          obtain ⟨rfl, hps⟩ := List.cons_prefix_cons.mp hp
          simp only [mousePartial, Bool.and_eq_true, Bool.or_eq_true] at h ⊢
          refine ⟨h.1, ?_⟩
          by_cases hnil : p = []
          · rw [hnil]
            exact .inl rfl
          · exact h.2.imp (atEnd_initial · hps) (partialBracket_initial · hps hnil)

/-- A partial report has its only escape in front. -/
theorem mousePartial_esc (h : mousePartial (c :: s) = true) : c = escByte ∧ escByte ∉ s := by
  have hend (t : List Byte) (ht : atEnd t = true) : escByte ∉ t := by
    obtain rfl | rfl : t = [] ∨ t = [0x0a] := by simpa [atEnd] using ht
    · exact List.not_mem_nil
    · decide
  have hparams (t : List Byte) (ht : partialParams t = true) : escByte ∉ t := by
    cases t with
    | nil => exact List.not_mem_nil
    | cons d t =>
        obtain ⟨hd, ht⟩ := Bool.and_eq_true_iff.mp ht
        rw [← List.takeWhile_append_dropWhile (p := isParam) (l := t)]
        simp only [List.mem_cons, List.mem_append]
        rintro (rfl | hm | hm)
        · revert hd
          decide
        · have := List.all_eq_true.mp List.all_takeWhile _ hm
          revert this
          decide
        · exact hend _ ht hm
  have hbracket (t : List Byte) (ht : partialBracket t = true) : escByte ∉ t := by
    cases t with
    | nil => exact List.not_mem_nil
    | cons d t =>
        simp only [partialBracket, Bool.and_eq_true, Bool.or_eq_true] at ht
        rw [List.mem_cons]
        rintro (rfl | hm)
        · exact absurd ht.1 (by decide)
        · rcases ht.2 with ht | ht
          · exact hend t ht hm
          · exact hparams t ht hm
  simp only [mousePartial, Bool.and_eq_true, Bool.or_eq_true, beq_iff_eq] at h
  refine ⟨h.1, ?_⟩
  rcases h.2 with ht | ht
  · exact hend s ht
  · exact hbracket s ht

/-- A whole report is not partial: `$` has its last letter before it. -/
theorem mousePartial_bytes (r : Report) : mousePartial r.bytes = false := by
  have hdrop : (r.params ++ [r.final]).dropWhile isParam = [r.final] := by
    rw [List.dropWhile_append_of_pos r.isParam_params]
    unfold Report.final
    cases r.press <;> rfl
  have hfinal : r.final ≠ 10#8 := by
    unfold Report.final
    cases r.press <;> decide
  simp [Report.bytes, mousePartial, partialBracket, partialParams, hdrop, hfinal, atEnd]

/-- The start of a report is partial as long as its last letter is missing. -/
theorem mousePartial_report (r : Report) (hp : p <+: r.bytes) (hne : p ≠ [])
    (hlt : p.length < r.bytes.length) : mousePartial p = true := by
  have hdrop : r.params.dropWhile isParam = [] :=
    List.dropWhile_eq_nil_iff.mpr r.isParam_params
  have hfull : mousePartial (escByte :: 0x5b :: 0x3c :: r.params) = true := by
    simp [mousePartial, partialBracket, partialParams, hdrop, atEnd]
  apply mousePartial_prefix hfull ?_ hne
  have hbytes : r.bytes = (escByte :: 0x5b :: 0x3c :: r.params) ++ [r.final] := rfl
  rw [hbytes] at hp hlt
  apply List.prefix_of_prefix_length_le hp (List.prefix_append _ _)
  rw [List.length_append, List.length_singleton] at hlt
  omega

end Pattern

/-! ## The rounds of `split_mouse` -/

section Next

variable {b : Byte} {bs rest : List Byte} {input : Input}

theorem nextInput_report (r : Report) (h : b :: bs = r.bytes ++ rest) :
    nextInput b bs = some (.event r.event, rest) := by
  have hb : b = escByte := (List.cons.inj h).1
  rw [nextInput, if_neg (not_not_intro hb), h, mouseRe_eq_some.mpr ⟨r, rfl, rfl⟩]

theorem nextInput_key
    (h : b ≠ escByte ∨ (∀ r : Report, ¬ r.bytes <+: b :: bs) ∧ ¬ HeldEsc (b :: bs)) :
    nextInput b bs = some (.key b, bs) := by
  by_cases hb : b = escByte
  · obtain ⟨hre, hheld⟩ := h.resolve_left (not_not_intro hb)
    rw [nextInput, if_neg (not_not_intro hb), mouseRe_eq_none.mpr hre]
    exact if_neg hheld
  · exact if_pos hb

theorem nextInput_cases (h : nextInput b bs = some (input, rest)) :
    (∃ r : Report, input = .event r.event ∧ b :: bs = r.bytes ++ rest) ∨
      input = .key b ∧ rest = bs ∧
        (b ≠ escByte ∨ (∀ r : Report, ¬ r.bytes <+: b :: bs) ∧ ¬ HeldEsc (b :: bs)) := by
  unfold nextInput at h
  split at h
  · rename_i hb
    obtain ⟨rfl, rfl⟩ := Prod.mk.inj (Option.some.inj h)
    exact .inr ⟨rfl, rfl, .inl hb⟩
  · split at h
    · rename_i hm
      obtain ⟨rfl, rfl⟩ := Prod.mk.inj (Option.some.inj h)
      obtain ⟨r, hr, rfl⟩ := mouseRe_eq_some.mp hm
      exact .inl ⟨r, rfl, hr⟩
    · rename_i hm
      split at h
      · cases h
      · rename_i hheld
        obtain ⟨rfl, rfl⟩ := Prod.mk.inj (Option.some.inj h)
        exact .inr ⟨rfl, rfl, .inr ⟨mouseRe_eq_none.mp hm, hheld⟩⟩

theorem nextInput_none (h : nextInput b bs = none) : HeldEsc (b :: bs) := by
  unfold nextInput at h
  split at h
  · cases h
  · split at h
    · cases h
    · split at h
      · assumption
      · cases h

/-- What is held is no report yet. -/
theorem nextInput_held (h : HeldEsc (b :: bs)) : nextInput b bs = none := by
  obtain ⟨rfl, hesc⟩ := mousePartial_esc h.2
  have hre : mouseRe (escByte :: bs) = none := by
    apply mouseRe_eq_none.mpr
    intro r hr
    have hpart := mousePartial_prefix h.2 hr (List.cons_ne_nil _ _)
    rw [mousePartial_bytes] at hpart
    cases hpart
  rw [nextInput, if_neg (not_not_intro rfl), hre]
  exact if_pos h

end Next

def mouseScanner : Scanner Byte Input where
  next := nextInput
  suffix b bs input rest h := by
    rcases nextInput_cases h with ⟨r, -, hr⟩ | ⟨-, rfl, -⟩
    · exact ⟨_, (List.cons.inj hr).2.symm⟩
    · exact List.suffix_refl _

/-- No report in the stream is longer than 16 bytes. -/
def ReportsFit (stream : List Byte) : Prop :=
  ∀ t, t <:+ stream → ∀ r : Report, r.bytes <+: t → r.bytes.length ≤ 16

theorem ReportsFit.suffix {s t : List Byte} (h : ReportsFit s) (ht : t <:+ s) : ReportsFit t :=
  fun u hu r hr => h u (hu.trans ht) r hr

/-- Where the reports fit, a round is not changed by what arrives later. -/
theorem mouseScanner_stable : mouseScanner.Stable ReportsFit := by
  intro b bs input rest ys hfit h
  rcases nextInput_cases h with ⟨r, rfl, hr⟩ | ⟨rfl, rfl, hno⟩
  · apply nextInput_report r
    rw [← List.cons_append, hr, List.append_assoc]
  · apply nextInput_key
    refine hno.imp_right fun hno => ⟨fun r hr => ?_, fun hheld => ?_⟩
    · have hlong : b :: rest <+: b :: (rest ++ ys) := List.prefix_append (b :: rest) ys
      have hlt : (b :: rest).length < r.bytes.length := by
        by_contra hge
        exact hno.1 r (List.prefix_of_prefix_length_le hr hlong (Nat.le_of_not_lt hge))
      -- the report would be partial already, and short enough to be held
      have hpre : b :: rest <+: r.bytes :=
        List.prefix_of_prefix_length_le hlong hr (Nat.le_of_lt hlt)
      have hle : r.bytes.length ≤ 16 := hfit _ (List.suffix_refl _) r hr
      apply hno.2
      exact ⟨by omega, mousePartial_report r hpre (List.cons_ne_nil b rest) hlt⟩
    · apply hno.2
      refine ⟨?_, mousePartial_prefix hheld.2 (List.prefix_append (b :: rest) ys)
        (List.cons_ne_nil b rest)⟩
      have := hheld.1
      rw [List.length_cons, List.length_append] at this
      rw [List.length_cons]
      omega

def Input.events : Input → List MouseEvent
  | .event ev => [ev]
  | .key _ => []

def Input.keys : Input → List Byte
  | .event _ => []
  | .key b => [b]

structure SplitMouse where
  keys : List Byte
  events : List MouseEvent
  tail : List Byte

def SplitMouse.of (r : List Input × List Byte) : SplitMouse :=
  { keys := r.1.flatMap Input.keys, events := r.1.flatMap Input.events, tail := r.2 }

def splitMouse (data : List Byte) : SplitMouse := .of (mouseScanner.drain data)

section Split

variable {s data : List Byte} {b : Byte}

theorem drain_report (r : Report) (rest : List Byte) : mouseScanner.drain (r.bytes ++ rest) =
    (.event r.event :: (mouseScanner.drain rest).1, (mouseScanner.drain rest).2) :=
  Scanner.drain_token (nextInput_report r rfl)

/-- The tail of a read can be put in front of the next one. -/
theorem splitMouse_append {xs ys : List Byte} (hfit : ReportsFit (xs ++ ys)) :
    splitMouse (xs ++ ys) =
      { keys := (splitMouse xs).keys ++ (splitMouse ((splitMouse xs).tail ++ ys)).keys,
        events := (splitMouse xs).events ++ (splitMouse ((splitMouse xs).tail ++ ys)).events,
        tail := (splitMouse ((splitMouse xs).tail ++ ys)).tail } := by
  unfold splitMouse
  rw [Scanner.drain_append mouseScanner_stable (fun _ _ ht hs => hs.suffix ht) hfit]
  simp [SplitMouse.of]

/-- A key that is no escape is passed on. -/
theorem splitMouse_key (hb : b ≠ escByte) (s : List Byte) :
    splitMouse (b :: s) = { splitMouse s with keys := b :: (splitMouse s).keys } := by
  unfold splitMouse
  rw [Scanner.drain_token (nextInput_key (.inl hb))]
  rfl

theorem splitMouse_tail (data : List Byte) :
    (splitMouse data).tail = [] ∨ HeldEsc (splitMouse data).tail := by
  unfold splitMouse
  induction data using mouseScanner.induction with
  | nil => exact .inl rfl
  | hold b bs h =>
      rw [Scanner.drain_hold h]
      exact .inr (nextInput_none h)
  | token b bs input rest h ih =>
      rw [Scanner.drain_token h]
      exact ih

/-- The stream `s` is made of the keys `ks` with whole reports between them. -/
inductive Keyed : List Byte → List Byte → Prop
  | done : Keyed [] []
  | report {s ks : List Byte} (r : Report) : Keyed s ks → Keyed (r.bytes ++ s) ks
  | key {b : Byte} {s ks : List Byte} : (∀ r : Report, ¬ r.bytes <+: b :: s) → Keyed s ks →
      Keyed (b :: s) (b :: ks)

/-- Everything but the tail is keys and reports. -/
theorem keyed_splitMouse (data : List Byte) :
    ∃ s, data = s ++ (splitMouse data).tail ∧ Keyed s (splitMouse data).keys := by
  unfold splitMouse
  induction data using mouseScanner.induction with
  | nil => exact ⟨[], rfl, .done⟩
  | hold b bs h =>
      rw [Scanner.drain_hold h]
      exact ⟨[], rfl, .done⟩
  | token b bs input rest h ih =>
      rw [Scanner.drain_token h]
      obtain ⟨s, hs, hk⟩ := ih
      rcases nextInput_cases h with ⟨r, rfl, hr⟩ | ⟨rfl, rfl, hno⟩
      · refine ⟨r.bytes ++ s, ?_, .report r hk⟩
        rw [hr, List.append_assoc]
        exact congrArg (r.bytes ++ ·) hs
      · refine ⟨b :: s, congrArg (b :: ·) hs, .key (fun r hr => ?_) hk⟩
        have hlong : r.bytes <+: b :: rest := by
          apply hr.trans
          rw [hs]
          exact List.prefix_append (b :: s) _
        rcases hno with hb | hno
        · obtain ⟨t, ht⟩ := hr
          exact hb (List.cons.inj ht).1.symm
        · exact hno.1 r hlong

/-- A read is cut into keys and tail in one way. -/
theorem splitMouse_keyed {p ks : List Byte} (hk : Keyed s ks) (hp : HeldEsc p) :
    (splitMouse (s ++ p)).keys = ks ∧ (splitMouse (s ++ p)).tail = p := by
  obtain ⟨c, p, rfl⟩ : ∃ c t, p = c :: t := by
    cases p with
    | nil => exact absurd hp.2 (by decide)
    | cons c p => exact ⟨c, p, rfl⟩
  obtain ⟨rfl, hesc⟩ := mousePartial_esc hp.2
  unfold splitMouse
  induction hk with
  | done =>
      rw [List.nil_append, Scanner.drain_hold (nextInput_held hp)]
      exact ⟨rfl, rfl⟩
  | @report s ks r hk ih =>
      rw [List.append_assoc, drain_report]
      exact ih
  | @key b s ks hno hk ih =>
      have hlong : b :: s <+: b :: (s ++ escByte :: p) := List.prefix_append (b :: s) _
      have hkey : nextInput b (s ++ escByte :: p) = some (.key b, s ++ escByte :: p) := by
        apply nextInput_key
        refine .inr ⟨fun r hr => ?_, fun hheld => ?_⟩
        · rcases List.prefix_or_prefix_of_prefix hr hlong with hle | ⟨t, ht⟩
          · exact hno r hle
          · -- the report would reach past an escape
            cases t with
            | nil =>
                rw [List.append_nil] at ht
                exact hno r (ht ▸ List.prefix_refl _)
            | cons d t =>
                apply r.esc_notMem
                rw [← ht] at hr ⊢
                have hd : d = escByte := by
                  obtain ⟨u, hu⟩ := hr
                  rw [← List.cons_append, List.append_assoc] at hu
                  exact (List.cons.inj (List.append_cancel_left hu)).1
                simp [hd]
        · exact (mousePartial_esc hheld.2).2 (by simp)
      rw [List.cons_append, Scanner.drain_token hkey]
      exact ⟨congrArg (b :: ·) ih.1, ih.2⟩

end Split

end P4Hyp
