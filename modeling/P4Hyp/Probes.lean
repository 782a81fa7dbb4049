import P4Hyp.Lib.Memory
import P4Hyp.Lib.Scan

/-!
# Size probes in the guest's output

The frame answers the guest's cursor and area reports itself, so their requests
are taken out of the stream on its way to the screen.  A request that a read has
cut is carried to the next one.
-/

namespace P4Hyp

/-- `ESC [ 6 n`. -/
def answerCpr : List Byte := [0x1b, 0x5b, 0x36, 0x6e]

/-- `ESC [ 1 8 t`. -/
def answerArea : List Byte := [0x1b, 0x5b, 0x31, 0x38, 0x74]

def probes : List (List Byte) := [answerCpr, answerArea]

/-- The probe that `rest` starts with. -/
def findProbe (rest : List Byte) : Option (List Byte) := probes.find? (·.isPrefixOf rest)

/-- What the loop of `split_probes` takes off its buffer. -/
inductive Piece
  | probe
  | byte (b : Byte)
deriving DecidableEq

/-- One round of the loop, at the byte `b`; `none` where it carries the rest. -/
def nextPiece (b : Byte) (bs : List Byte) : Option (Piece × List Byte) :=
  if b ≠ 0x1b then some (.byte b, bs)
  else
    match findProbe (b :: bs) with
    | some hit => some (.probe, (b :: bs).drop hit.length)
    | none =>
        if probes.any ((b :: bs).isPrefixOf ·) then none
        else some (.byte b, bs)

/-! ## The two probes -/

/-- Neither probe is part of the other, and each has its only escape in front. -/
theorem probes_shape : ∀ p ∈ probes, (∀ q ∈ probes, p <+: q → p = q) ∧ p.head? = some 0x1b ∧
    0x1b ∉ p.tail := by
  decide

theorem probe_inj {p q : List Byte} {s : List Byte} (hp : p ∈ probes) (hq : q ∈ probes)
    (hps : p <+: s) (hqs : q <+: s) : p = q := by
  rcases List.prefix_or_prefix_of_prefix hps hqs with hle | hle
  · exact (probes_shape p hp).1 q hq hle
  · exact ((probes_shape q hq).1 p hp hle).symm

theorem findProbe_eq_some {rest hit : List Byte} :
    findProbe rest = some hit ↔ hit ∈ probes ∧ hit <+: rest := by
  have hof : ∀ hit, findProbe rest = some hit → hit ∈ probes ∧ hit <+: rest := by
    intro hit h
    have hpre := List.find?_some (p := fun p : List Byte => p.isPrefixOf rest) h
    exact ⟨List.mem_of_find?_eq_some h, List.isPrefixOf_iff_prefix.mp hpre⟩
  constructor
  · exact hof hit
  · rintro ⟨hmem, hpre⟩
    cases h : findProbe rest with
    | none =>
        have hno := List.find?_eq_none.mp h hit hmem
        exact absurd (List.isPrefixOf_iff_prefix.mpr hpre) hno
    | some hit' =>
        obtain ⟨hmem', hpre'⟩ := hof hit' h
        rw [probe_inj hmem hmem' hpre hpre']

theorem findProbe_eq_none {rest : List Byte} :
    findProbe rest = none ↔ ∀ p ∈ probes, ¬ p <+: rest := by
  unfold findProbe
  simp only [List.find?_eq_none, List.isPrefixOf_iff_prefix]

section Next

variable {b : Byte} {bs rest ys : List Byte} {piece : Piece}

/-- What a round of the loop does. -/
theorem nextPiece_cases (h : nextPiece b bs = some (piece, rest)) :
    (∃ hit ∈ probes, piece = .probe ∧ b :: bs = hit ++ rest) ∨
      piece = .byte b ∧ rest = bs ∧
        (b ≠ 0x1b ∨ ∀ p ∈ probes, ¬ p <+: b :: bs ∧ ¬ b :: bs <+: p) := by
  unfold nextPiece at h
  split at h
  · rename_i hb
    obtain ⟨rfl, rfl⟩ := Prod.mk.inj (Option.some.inj h)
    exact .inr ⟨rfl, rfl, .inl hb⟩
  · split at h
    · rename_i hit hf
      obtain ⟨rfl, rfl⟩ := Prod.mk.inj (Option.some.inj h)
      obtain ⟨hmem, t, ht⟩ := findProbe_eq_some.mp hf
      rw [← ht, List.drop_left]
      exact .inl ⟨hit, hmem, rfl, rfl⟩
    · rename_i hf
      split at h
      · cases h
      · rename_i hany
        obtain ⟨rfl, rfl⟩ := Prod.mk.inj (Option.some.inj h)
        refine .inr ⟨rfl, rfl, .inr fun p hp => ⟨findProbe_eq_none.mp hf p hp, fun hpre => hany ?_⟩⟩
        exact List.any_eq_true.mpr ⟨p, hp, List.isPrefixOf_iff_prefix.mpr hpre⟩

/-- The loop carries a proper prefix of a probe. -/
theorem nextPiece_none (h : nextPiece b bs = none) :
    (∃ p ∈ probes, b :: bs <+: p ∧ b :: bs ≠ p) ∧ findProbe (b :: bs) = none := by
  unfold nextPiece at h
  split at h
  · cases h
  · split at h
    · cases h
    · rename_i hf
      split at h
      · rename_i hany
        obtain ⟨p, hp, hpre⟩ := List.any_eq_true.mp hany
        refine ⟨⟨p, hp, List.isPrefixOf_iff_prefix.mp hpre, fun he => ?_⟩, hf⟩
        apply findProbe_eq_none.mp hf p hp
        rw [he]
      · cases h

theorem nextPiece_probe {hit : List Byte} (hmem : hit ∈ probes) (h : b :: bs = hit ++ rest) :
    nextPiece b bs = some (.probe, rest) := by
  have hf : findProbe (b :: bs) = some hit := findProbe_eq_some.mpr ⟨hmem, rest, h.symm⟩
  have hb : b = 0x1b := by
    obtain ⟨-, hhead, -⟩ := probes_shape hit hmem
    cases hit with
    | nil => cases hhead
    | cons c cs => exact (List.cons.inj h).1.trans (Option.some.inj hhead)
  rw [nextPiece, if_neg (not_not_intro hb), hf, h]
  simp

theorem nextPiece_byte
    (h : b ≠ 0x1b ∨ ∀ p ∈ probes, ¬ p <+: b :: bs ∧ ¬ b :: bs <+: p) :
    nextPiece b bs = some (.byte b, bs) := by
  by_cases hb : b = 0x1b
  · have hno := h.resolve_left (not_not_intro hb)
    have hf : findProbe (b :: bs) = none := findProbe_eq_none.mpr fun p hp => (hno p hp).1
    have hany : ¬ probes.any ((b :: bs).isPrefixOf ·) = true := by
      intro ha
      obtain ⟨p, hp, hpre⟩ := List.any_eq_true.mp ha
      exact (hno p hp).2 (List.isPrefixOf_iff_prefix.mp hpre)
    rw [nextPiece, if_neg (not_not_intro hb), hf]
    exact if_neg hany
  · exact if_pos hb

end Next

def probeScanner : Scanner Byte Piece where
  next := nextPiece
  suffix b bs piece rest h := by
    rcases nextPiece_cases h with ⟨hit, hmem, -, happ⟩ | ⟨-, rfl, -⟩
    · obtain ⟨-, hhead, -⟩ := probes_shape hit hmem
      cases hit with
      | nil => cases hhead
      | cons c cs => exact ⟨cs, (List.cons.inj happ).2.symm⟩
    · exact List.suffix_refl _

/-- A round is not changed by what arrives later. -/
theorem probeScanner_stable : probeScanner.Stable fun _ => True := by
  intro b bs piece rest ys _ h
  rcases nextPiece_cases h with ⟨hit, hmem, rfl, happ⟩ | ⟨rfl, rfl, hno⟩
  · apply nextPiece_probe hmem
    rw [← List.cons_append, happ, List.append_assoc]
  · apply nextPiece_byte
    refine hno.imp_right fun hno p hp => ?_
    have hlong : b :: rest <+: b :: (rest ++ ys) := List.prefix_append (b :: rest) ys
    refine ⟨fun hpre => ?_, fun hpre => (hno p hp).2 (hlong.trans hpre)⟩
    rcases List.prefix_or_prefix_of_prefix hpre hlong with hle | hle
    · exact (hno p hp).1 hle
    · exact (hno p hp).2 hle

/-! ## `split_probes` -/

def Piece.clean : Piece → List Byte
  | .probe => []
  | .byte b => [b]

structure Split where
  clean : List Byte
  probes : Nat
  carry : List Byte

/-- What the pieces of a buffer come to. -/
def Split.of (r : List Piece × List Byte) : Split :=
  { clean := r.1.flatMap Piece.clean, probes := r.1.count .probe, carry := r.2 }

theorem Split.of_probe (pieces : List Piece) (carry : List Byte) :
    Split.of (.probe :: pieces, carry) =
      { Split.of (pieces, carry) with probes := (Split.of (pieces, carry)).probes + 1 } := by
  unfold Split.of
  rw [List.count_cons_self]
  rfl

theorem Split.of_byte (b : Byte) (pieces : List Piece) (carry : List Byte) :
    Split.of (.byte b :: pieces, carry) =
      { Split.of (pieces, carry) with clean := b :: (Split.of (pieces, carry)).clean } := by
  unfold Split.of
  rw [List.count_cons_of_ne (by decide +revert)]
  rfl

def splitProbes (carry data : List Byte) : Split := .of (probeScanner.drain (carry ++ data))

/-- All the reads of a stream, with what they have given together. -/
def splitReads (reads : List (List Byte)) : Split :=
  reads.foldl (fun s data =>
    let r := splitProbes s.carry data
    { clean := s.clean ++ r.clean, probes := s.probes + r.probes, carry := r.carry })
    { clean := [], probes := 0, carry := [] }

/-- One pass from left to right that removes every probe it meets from `stream`:
`clean` is left, and `n` probes were met. -/
inductive Removes : List Byte → List Byte → Nat → Prop
  | done : Removes [] [] 0
  | probe {p stream clean : List Byte} {n : Nat} :
      p ∈ probes → Removes stream clean n → Removes (p ++ stream) clean (n + 1)
  | byte {b : Byte} {stream clean : List Byte} {n : Nat} :
      (∀ p ∈ probes, ¬ p <+: b :: stream) → Removes stream clean n →
        Removes (b :: stream) (b :: clean) n

section Pass

variable {stream : List Byte}

/-- A pass over bytes of which none starts a probe. -/
theorem removes_plain {s : List Byte} (h : ∀ t, t <:+ s → ∀ p ∈ probes, ¬ p <+: t) :
    Removes s s 0 := by
  induction s with
  | nil => exact .done
  | cons b s ih =>
      apply Removes.byte (h _ (List.suffix_refl _))
      exact ih fun t ht => h t (ht.trans (List.suffix_cons b s))

/-- What is carried holds no probe. -/
theorem carry_plain {b : Byte} {bs : List Byte} (h : nextPiece b bs = none) :
    ∀ t, t <:+ b :: bs → ∀ p ∈ probes, ¬ p <+: t := by
  obtain ⟨⟨q, hq, hpre, -⟩, hf⟩ := nextPiece_none h
  intro t ht p hp hpt
  rcases List.suffix_cons_iff.mp ht with rfl | ht
  · exact findProbe_eq_none.mp hf p hp hpt
  · -- beyond its first byte the carry has no escape
    obtain ⟨-, hhead, -⟩ := probes_shape p hp
    obtain ⟨-, -, htail⟩ := probes_shape q hq
    have hbs : bs <+: q.tail := by
      cases q with
      | nil => exact absurd (List.prefix_nil.mp hpre) (List.cons_ne_nil b bs)
      | cons c q => exact (List.cons_prefix_cons.mp hpre).2
    apply htail
    apply hbs.subset
    apply ht.subset
    apply hpt.subset
    exact List.mem_of_mem_head? hhead

/-- The loop over a whole stream is a pass of which the carry is the end. -/
theorem removes_drain (stream : List Byte) :
    Removes stream ((Split.of (probeScanner.drain stream)).clean ++
      (Split.of (probeScanner.drain stream)).carry)
      (Split.of (probeScanner.drain stream)).probes := by
  induction stream using probeScanner.induction with
  | nil =>
      rw [Scanner.drain_nil]
      exact .done
  | hold b bs h =>
      rw [Scanner.drain_hold h]
      exact removes_plain (carry_plain h)
  | token b bs piece rest h ih =>
      rw [Scanner.drain_token h]
      rcases nextPiece_cases h with ⟨hit, hmem, rfl, happ⟩ | ⟨rfl, rfl, hno⟩
      · rw [happ, Split.of_probe]
        exact .probe hmem ih
      · rw [Split.of_byte]
        refine .byte (fun p hp hpre => ?_) ih
        rcases hno with hb | hno
        · obtain ⟨-, hhead, -⟩ := probes_shape p hp
          obtain ⟨t, ht⟩ := hpre
          cases p with
          | nil => cases hhead
          | cons c p => exact hb ((List.cons.inj ht).1.symm.trans (Option.some.inj hhead))
        · exact (hno p hp).1 hpre

theorem carry_prefix (stream : List Byte) : ∃ p ∈ probes,
    (probeScanner.drain stream).2 <+: p ∧ (probeScanner.drain stream).2 ≠ p := by
  induction stream using probeScanner.induction with
  | nil =>
      rw [Scanner.drain_nil]
      exact ⟨answerCpr, by decide⟩
  | hold b bs h =>
      rw [Scanner.drain_hold h]
      exact (nextPiece_none h).1
  | token b bs piece rest h ih =>
      rw [Scanner.drain_token h]
      exact ih

/-- There is one such pass. -/
theorem Removes.unique {c₁ c₂ : List Byte} {n₁ n₂ : Nat} (h₁ : Removes stream c₁ n₁)
    (h₂ : Removes stream c₂ n₂) : c₁ = c₂ ∧ n₁ = n₂ := by
  induction h₁ generalizing c₂ n₂ with
  | done =>
      generalize hs : ([] : List Byte) = s at h₂
      cases h₂ with
      | done => exact ⟨rfl, rfl⟩
      | probe hq _ =>
          obtain ⟨-, hhead, -⟩ := probes_shape _ hq
          rw [(List.append_eq_nil_iff.mp hs.symm).1] at hhead
          cases hhead
      | byte _ _ => cases hs
  | @probe p stream clean n hp _ ih =>
      generalize hs : p ++ stream = s at h₂
      cases h₂ with
      | done =>
          obtain ⟨-, hhead, -⟩ := probes_shape _ hp
          rw [(List.append_eq_nil_iff.mp hs).1] at hhead
          cases hhead
      | @probe q stream' _ _ hq h₂ =>
          obtain rfl : p = q := probe_inj hp hq (List.prefix_append p stream) ⟨stream', hs.symm⟩
          obtain rfl := List.append_cancel_left hs
          obtain ⟨rfl, rfl⟩ := ih h₂
          exact ⟨rfl, rfl⟩
      | byte hno _ => exact absurd ⟨stream, hs⟩ (hno p hp)
  | @byte b stream clean n hno _ ih =>
      generalize hs : b :: stream = s at h₂
      cases h₂ with
      | done => cases hs
      | @probe q stream' _ _ hq _ => exact absurd ⟨stream', hs.symm⟩ (hno q hq)
      | byte _ h₂ =>
          obtain ⟨rfl, rfl⟩ := List.cons.inj hs
          obtain ⟨rfl, rfl⟩ := ih h₂
          exact ⟨rfl, rfl⟩

theorem splitReads_snoc (reads : List (List Byte)) (data : List Byte) :
    splitReads (reads ++ [data]) =
      { clean := (splitReads reads).clean ++ (splitProbes (splitReads reads).carry data).clean,
        probes := (splitReads reads).probes + (splitProbes (splitReads reads).carry data).probes,
        carry := (splitProbes (splitReads reads).carry data).carry } := by
  unfold splitReads
  rw [List.foldl_append]
  rfl

/-- However the stream is cut, the reads come to one loop over all of it. -/
theorem splitReads_eq (reads : List (List Byte)) :
    splitReads reads = .of (probeScanner.drain reads.flatten) := by
  induction reads using List.reverseRecOn with
  | nil =>
      show _ = Split.of (probeScanner.drain [])
      rw [Scanner.drain_nil]
      rfl
  | append_singleton reads data ih =>
      rw [splitReads_snoc, ih, List.flatten_append,
        Scanner.drain_append probeScanner_stable (fun _ _ _ _ => trivial) trivial]
      simp [splitProbes, Split.of]

end Pass

/-- What the reads have given, with what they carry, is the stream without its
probes, each counted once; and the carry is a proper prefix of a probe. -/
theorem splitReads_removes (reads : List (List Byte)) :
    (∀ clean n, Removes reads.flatten clean n ↔
      clean = (splitReads reads).clean ++ (splitReads reads).carry ∧
        n = (splitReads reads).probes) ∧
    ∃ p ∈ probes, (splitReads reads).carry <+: p ∧ (splitReads reads).carry ≠ p := by
  rw [splitReads_eq]
  constructor
  · intro clean n
    have hpass := removes_drain reads.flatten
    constructor
    · exact fun h => h.unique hpass
    · rintro ⟨rfl, rfl⟩
      exact hpass
  · exact carry_prefix reads.flatten

example : (splitReads [[0x61, 0x1b], [0x5b, 0x36, 0x6e, 0x1b, 0x5b, 0x36], [0x58]]).clean =
    [0x61, 0x1b, 0x5b, 0x36, 0x58] := by
  decide

end P4Hyp
