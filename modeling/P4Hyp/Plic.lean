import P4Hyp.Lib.Memory

/-!
# The emulated PLIC

One context, sources 1 to 31.  A source is forwarded while its pending bit is
set and it is not in service, so the two bits together stand for the level of
its line.
-/

namespace P4Hyp

def plicUartSource : Nat := 10
def plicVirtioBlkSource : Nat := 11
def plicMaxSource : Nat := 31

/-- `1u << n`. -/
def bit (n : Nat) : Word := 1#32 <<< n

structure Plic where
  priority : Nat → Word
  /-- Context 0, sources 0 to 31. -/
  enable : Word
  pending : Word
  /-- In service: not claimable again until completed. -/
  claimed : Word
  threshold : Word

/-- All of `plic` starts out as zero. -/
def Plic.reset : Plic :=
  { priority := fun _ => 0, enable := 0, pending := 0, claimed := 0, threshold := 0 }

/-- One round of the loop of `plic_peek`. -/
def plicPeekStep (p : Plic) (best : Nat × Word) (n : Nat) : Nat × Word :=
  if p.pending &&& bit n = 0 then best
  else if p.enable &&& bit n = 0 then best
  else if p.claimed &&& bit n ≠ 0 then best
  else if p.priority n ≤ best.2 then best
  else (n, p.priority n)

/-- The claimable source of highest priority, 0 if there is none. -/
def plicPeek (p : Plic) : Nat :=
  ((List.range' 1 plicMaxSource).foldl (plicPeekStep p) (0, p.threshold)).1

def meipPending (p : Plic) : Bool := plicPeek p != 0

def plicSetPending (source : Nat) (asserted : Bool) (p : Plic) : Plic :=
  if asserted then { p with pending := p.pending ||| bit source }
  else { p with pending := p.pending &&& ~~~bit source }

def plicRead (offset : Word) (p : Plic) : Word × Plic :=
  if offset < 0x1000 then
    let n := offset.toNat / 4
    (if n ≤ plicMaxSource then p.priority n else 0, p)
  else if 0x1000 ≤ offset ∧ offset < 0x2000 then (if offset = 0x1000 then p.pending else 0, p)
  else if 0x2000 ≤ offset ∧ offset < 0x200000 then (if offset = 0x2000 then p.enable else 0, p)
  else if 0x200000 ≤ offset ∧ offset < 0x201000 then
    if offset = 0x200000 then (p.threshold, p)
    else if offset = 0x200004 then
      -- claim
      let source := plicPeek p
      let p' := if source ≠ 0 then
          { p with pending := p.pending &&& ~~~bit source, claimed := p.claimed ||| bit source }
        else p
      (BitVec.ofNat 32 source, p')
    else (0, p)
  else (0, p)

/-- The complete register.  Only the UART's line is recomputed from its device. -/
def plicComplete (reeval : Plic → Plic) (value : Word) (p : Plic) : Plic :=
  let source := value.toNat
  if source ≠ 0 ∧ source ≤ plicMaxSource ∧ p.claimed &&& bit source ≠ 0 then
    let p := { p with claimed := p.claimed &&& ~~~bit source }
    if source = plicUartSource then reeval p else p
  else p

/-- `reeval` is `v16550_reeval`. -/
def plicWrite (reeval : Plic → Plic) (offset value : Word) (p : Plic) : Plic :=
  if offset < 0x1000 then
    let n := offset.toNat / 4
    if n ≤ plicMaxSource then
      { p with priority := fun i => if i = n then value else p.priority i }
    else p
  else if 0x2000 ≤ offset ∧ offset < 0x200000 then
    if offset = 0x2000 then { p with enable := value } else p
  else if 0x200000 ≤ offset ∧ offset < 0x201000 then
    if offset = 0x200000 then { p with threshold := value }
    else if offset = 0x200004 then plicComplete reeval value p
    else p
  else p

/-! ## Single bits -/

theorem getLsbD_bit {n m : Nat} (hm : m < 32) : (bit n).getLsbD m = decide (m = n) := by
  unfold bit
  rw [BitVec.getLsbD_shiftLeft]
  by_cases hmn : m < n
  · simp [hmn, Nat.ne_of_lt hmn]
  · by_cases he : m = n
    · subst he
      simp [hm]
    · simp [hm, hmn, he]
      omega

theorem and_bit_eq_zero {x : Word} {n : Nat} (hn : n < 32) :
    x &&& bit n = 0 ↔ x.getLsbD n = false := by
  constructor
  · intro h
    have := congrArg (BitVec.getLsbD · n) h
    simpa [getLsbD_bit hn] using this
  · intro h
    apply BitVec.eq_of_getLsbD_eq
    intro i hi
    rw [BitVec.getLsbD_and, getLsbD_bit hi]
    by_cases he : i = n
    · subst he
      simp [h]
    · simp [he]

theorem and_bit_ne_zero {x : Word} {n : Nat} (hn : n < 32) :
    x &&& bit n ≠ 0 ↔ x.getLsbD n = true := by
  rw [Ne, and_bit_eq_zero hn, Bool.not_eq_false]

theorem getLsbD_or_bit {x : Word} {n m : Nat} (hm : m < 32) :
    (x ||| bit n).getLsbD m = (x.getLsbD m || decide (m = n)) := by
  rw [BitVec.getLsbD_or, getLsbD_bit hm]

theorem getLsbD_and_not_bit {x : Word} {n m : Nat} (hm : m < 32) :
    (x &&& ~~~bit n).getLsbD m = (x.getLsbD m && !decide (m = n)) := by
  rw [BitVec.getLsbD_and, BitVec.getLsbD_not, getLsbD_bit hm]
  simp [hm]

/-! ## What each operation does to a source -/

namespace Plic

def isPending (p : Plic) (n : Nat) : Bool := p.pending.getLsbD n

def inService (p : Plic) (n : Nat) : Bool := p.claimed.getLsbD n

/-- The source would be forwarded if it were pending. -/
def Forwards (p : Plic) (n : Nat) : Prop :=
  p.enable &&& bit n ≠ 0 ∧ p.claimed &&& bit n = 0 ∧ p.threshold < p.priority n

instance (p : Plic) (n : Nat) : Decidable (p.Forwards n) := inferInstanceAs (Decidable (_ ∧ _ ∧ _))

end Plic

section Source

variable {n m : Nat} {p : Plic}

theorem isPending_plicSetPending (hm : m < 32) (asserted : Bool) :
    (plicSetPending n asserted p).isPending m =
      if m = n then asserted else p.isPending m := by
  cases asserted with
  | false =>
      show (p.pending &&& ~~~bit n).getLsbD m = _
      rw [getLsbD_and_not_bit hm]
      by_cases he : m = n <;> simp [he, Plic.isPending]
  | true =>
      show (p.pending ||| bit n).getLsbD m = _
      rw [getLsbD_or_bit hm]
      by_cases he : m = n <;> simp [he, Plic.isPending]

theorem inService_plicSetPending (asserted : Bool) :
    (plicSetPending n asserted p).inService m = p.inService m := by
  cases asserted <;> rfl

/-- The loop of `plic_peek` returns 0, or a source that is pending, enabled, not
in service and above the threshold. -/
theorem plicPeek_claimable (p : Plic) : plicPeek p = 0 ∨
    1 ≤ plicPeek p ∧ plicPeek p ≤ plicMaxSource ∧ p.pending &&& bit (plicPeek p) ≠ 0 ∧
      p.enable &&& bit (plicPeek p) ≠ 0 ∧ p.claimed &&& bit (plicPeek p) = 0 ∧
      p.threshold < p.priority (plicPeek p) := by
  have hstep : ∀ (l : List Nat) (best : Nat × Word), (∀ n ∈ l, 1 ≤ n ∧ n ≤ plicMaxSource) →
      p.threshold ≤ best.2 →
      (best.1 = 0 ∨ 1 ≤ best.1 ∧ best.1 ≤ plicMaxSource ∧ p.pending &&& bit best.1 ≠ 0 ∧
        p.enable &&& bit best.1 ≠ 0 ∧ p.claimed &&& bit best.1 = 0 ∧
        p.threshold < p.priority best.1) →
      let r := (l.foldl (plicPeekStep p) best).1
      r = 0 ∨ 1 ≤ r ∧ r ≤ plicMaxSource ∧ p.pending &&& bit r ≠ 0 ∧ p.enable &&& bit r ≠ 0 ∧
        p.claimed &&& bit r = 0 ∧ p.threshold < p.priority r := by
    intro l
    induction l with
    | nil =>
        intro best _ _ hbest
        exact hbest
    | cons n l ih =>
        intro best hl hle hbest
        rw [List.foldl_cons]
        have hl' : ∀ n ∈ l, 1 ≤ n ∧ n ≤ plicMaxSource :=
          fun k hk => hl k (List.mem_cons_of_mem _ hk)
        unfold plicPeekStep
        split
        · exact ih best hl' hle hbest
        · split
          · exact ih best hl' hle hbest
          · split
            · exact ih best hl' hle hbest
            · split
              · exact ih best hl' hle hbest
              · rename_i hp he hc hpr
                have hgt : best.2 < p.priority n := BitVec.not_le.mp hpr
                have hth : p.threshold < p.priority n := by
                  rw [BitVec.le_def] at hle
                  rw [BitVec.lt_def] at hgt ⊢
                  omega
                exact ih (n, p.priority n) hl' (BitVec.le_of_lt hth)
                  (.inr ⟨(hl n (by simp)).1, (hl n (by simp)).2, hp, he, Decidable.not_not.mp hc,
                    hth⟩)
  refine hstep _ _ (fun n hn => ?_) (BitVec.le_refl _) (.inl rfl)
  rw [List.mem_range'_1] at hn
  unfold plicMaxSource at hn ⊢
  omega

theorem plicPeek_found (l : List Nat) (best : Nat × Word) (hl : ∀ n ∈ l, n ≠ 0) (h : best.1 ≠ 0) :
    (l.foldl (plicPeekStep p) best).1 ≠ 0 := by
  induction l generalizing best with
  | nil => exact h
  | cons n l ih =>
      rw [List.foldl_cons]
      refine ih _ (fun k hk => hl k (List.mem_cons_of_mem _ hk)) ?_
      unfold plicPeekStep
      repeat' split
      all_goals first | exact h | exact hl n List.mem_cons_self

/-- A claimable source is seen. -/
theorem plicPeek_ne_zero (hn : 1 ≤ n ∧ n ≤ plicMaxSource) (hp : p.isPending n = true)
    (hf : p.Forwards n) : plicPeek p ≠ 0 := by
  obtain ⟨he, hc, hpr⟩ := hf
  have hlt : n < 32 := Nat.lt_succ_of_le hn.2
  have hstep : ∀ l : List Nat, (∀ k ∈ l, k ≠ 0) → n ∈ l →
      (l.foldl (plicPeekStep p) (0, p.threshold)).1 ≠ 0 := by
    intro l
    induction l with
    | nil => exact fun _ hmem => absurd hmem List.not_mem_nil
    | cons k l ih =>
        intro hl hmem
        have hl' : ∀ j ∈ l, j ≠ 0 := fun j hj => hl j (List.mem_cons_of_mem _ hj)
        rw [List.foldl_cons]
        by_cases hk : (plicPeekStep p (0, p.threshold) k).1 = 0
        · -- the round has changed nothing, and so was not that of `n`
          have hsame : plicPeekStep p (0, p.threshold) k = (0, p.threshold) := by
            have hk0 := hl k List.mem_cons_self
            revert hk
            unfold plicPeekStep
            repeat' split
            all_goals first | exact fun _ => rfl | exact fun h => absurd h hk0
          have hne : n ≠ k := by
            rintro rfl
            have hround : plicPeekStep p (0, p.threshold) n = (n, p.priority n) := by
              rw [plicPeekStep, if_neg ((and_bit_ne_zero hlt).mpr hp), if_neg he,
                if_neg (not_not_intro hc), if_neg (BitVec.not_le.mpr hpr)]
            rw [hround] at hk
            exact hl n List.mem_cons_self hk
          rw [hsame]
          exact ih hl' ((List.mem_cons.mp hmem).resolve_left hne)
        · exact plicPeek_found l _ hl' hk
  refine hstep _ (fun k hk => ?_) ?_
  · rw [List.mem_range'_1] at hk
    omega
  · rw [List.mem_range'_1]
    unfold plicMaxSource at hn ⊢
    omega

/-- MEIP is up exactly when some source is pending and forwarded. -/
theorem meipPending_iff (p : Plic) : meipPending p = true ↔
    ∃ n, (1 ≤ n ∧ n ≤ plicMaxSource) ∧ p.isPending n = true ∧ p.Forwards n := by
  unfold meipPending
  rw [bne_iff_ne]
  constructor
  · intro h
    obtain ⟨h1, hle, hp, he, hc, hpr⟩ := (plicPeek_claimable p).resolve_left h
    exact ⟨plicPeek p, ⟨h1, hle⟩, (and_bit_ne_zero (Nat.lt_succ_of_le hle)).mp hp, he, hc, hpr⟩
  · rintro ⟨n, hn, hp, hf⟩
    exact plicPeek_ne_zero hn hp hf

/-- A read claims at most one source, which then is in service and no longer
pending. -/
theorem plicRead_cases (offset : Word) (p : Plic) :
    (plicRead offset p).2 = p ∨
      offset = 0x200004 ∧ plicPeek p ≠ 0 ∧ (plicRead offset p).2 =
        { p with pending := p.pending &&& ~~~bit (plicPeek p),
                 claimed := p.claimed ||| bit (plicPeek p) } := by
  by_cases ho : offset = 0x200004
  · by_cases hs : plicPeek p = 0
    · left
      subst ho
      simp [plicRead, hs]
    · right
      subst ho
      simp [plicRead, hs]
  · left
    unfold plicRead
    simp only [if_neg ho]
    split
    · rfl
    · split
      · rfl
      · split
        · rfl
        · split
          · split <;> rfl
          · rfl

end Source

end P4Hyp
