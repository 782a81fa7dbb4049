import P4Hyp.Plic

/-!
# The order of the claims

Reads of the claim register with nothing else between them hand out the sources
that qualify, the most urgent first, and then 0.
-/

namespace P4Hyp

namespace Plic

/-- The source is one that a claim can return. -/
def Eligible (p : Plic) (n : Nat) : Prop :=
  (1 ≤ n ∧ n ≤ plicMaxSource) ∧ p.isPending n = true ∧ p.Forwards n

instance (p : Plic) (n : Nat) : Decidable (p.Eligible n) :=
  inferInstanceAs (Decidable (_ ∧ _ ∧ _))

/-- `n` is more urgent than `m`. -/
def Before (p : Plic) (n m : Nat) : Prop :=
  p.priority m < p.priority n ∨ p.priority m = p.priority n ∧ n < m

instance (p : Plic) (n m : Nat) : Decidable (p.Before n m) := inferInstanceAs (Decidable (_ ∨ _))

/-- What the loop of `plic_peek` has found among the sources below `n`. -/
def Best (p : Plic) (n : Nat) (best : Nat × Word) : Prop :=
  (best = (0, p.threshold) ∧ ∀ m < n, ¬ p.Eligible m) ∨
    (best.1 < n ∧ p.Eligible best.1 ∧ best.2 = p.priority best.1 ∧
      ∀ m < n, p.Eligible m → m ≠ best.1 → p.Before best.1 m)

end Plic

section Peek

variable {p : Plic} {n : Nat} {best : Nat × Word}

theorem plicPeekStep_eq (hn : 1 ≤ n ∧ n ≤ plicMaxSource) : plicPeekStep p best n =
    if p.isPending n = true ∧ p.enable &&& bit n ≠ 0 ∧ p.claimed &&& bit n = 0 ∧
      best.2 < p.priority n then (n, p.priority n) else best := by
  have hlt : n < 32 := Nat.lt_succ_of_le hn.2
  unfold plicPeekStep
  by_cases hp : p.pending &&& bit n = 0
  · have hp' : ¬ p.isPending n = true := Bool.eq_false_iff.mp ((and_bit_eq_zero hlt).mp hp)
    rw [if_pos hp, if_neg fun h => hp' h.1]
  · have hp' : p.isPending n = true := (and_bit_ne_zero hlt).mp hp
    rw [if_neg hp]
    by_cases he : p.enable &&& bit n = 0
    · rw [if_pos he, if_neg fun h => h.2.1 he]
    · rw [if_neg he]
      by_cases hc : p.claimed &&& bit n = 0
      · rw [if_neg (not_not_intro hc)]
        by_cases hpr : p.priority n ≤ best.2
        · rw [if_pos hpr, if_neg fun h => BitVec.not_lt.mpr hpr h.2.2.2]
        · rw [if_neg hpr, if_pos ⟨hp', he, hc, BitVec.not_le.mp hpr⟩]
      · rw [if_pos hc, if_neg fun h => hc h.2.2.1]

theorem best_step (hn : 1 ≤ n ∧ n ≤ plicMaxSource) (h : p.Best n best) :
    p.Best (n + 1) (plicPeekStep p best n) := by
  rw [plicPeekStep_eq hn]
  split
  · rename_i hc
    obtain ⟨hp, he, hs, hgt⟩ := hc
    right
    rcases h with ⟨rfl, hnone⟩ | ⟨hlt, hel, hpr, hbest⟩
    · refine ⟨Nat.lt_succ_self n, ⟨hn, hp, he, hs, hgt⟩, rfl, fun m hm hm' hne => ?_⟩
      exact absurd hm' (hnone m (Nat.lt_of_le_of_ne (Nat.le_of_lt_succ hm) hne))
    · have hth : p.threshold < p.priority n := by
        have := hel.2.2.2.2
        rw [← hpr] at this
        exact BitVec.lt_trans this hgt
      refine ⟨Nat.lt_succ_self n, ⟨hn, hp, he, hs, hth⟩, rfl, fun m hm hm' hne => .inl ?_⟩
      have hmn : m < n := Nat.lt_of_le_of_ne (Nat.le_of_lt_succ hm) hne
      by_cases hmb : m = best.1
      · rw [hmb, ← hpr]
        exact hgt
      · rw [hpr] at hgt
        rcases hbest m hmn hm' hmb with hlt' | ⟨heq, -⟩
        · exact BitVec.lt_trans hlt' hgt
        · rw [heq]
          exact hgt
  · rename_i hc
    rcases h with ⟨rfl, hnone⟩ | ⟨hlt, hel, hpr, hbest⟩
    · refine .inl ⟨rfl, fun m hm hm' => ?_⟩
      rcases Nat.lt_succ_iff_lt_or_eq.mp hm with hlt | rfl
      · exact hnone m hlt hm'
      · exact hc ⟨hm'.2.1, hm'.2.2⟩
    · refine .inr ⟨Nat.lt_succ_of_lt hlt, hel, hpr, fun m hm hm' hne => ?_⟩
      rcases Nat.lt_succ_iff_lt_or_eq.mp hm with hlt' | rfl
      · exact hbest m hlt' hm' hne
      · -- the round of an eligible source that is not above the best one: a tie
        -- goes to the lower id
        have hle : p.priority m ≤ best.2 :=
          BitVec.not_lt.mp fun hgt => hc ⟨hm'.2.1, hm'.2.2.1, hm'.2.2.2.1, hgt⟩
        rw [hpr] at hle
        by_cases heq : p.priority m = p.priority best.1
        · exact .inr ⟨heq, hlt⟩
        · exact .inl (BitVec.lt_of_le_ne hle heq)

theorem best_range' (len : Nat) (hn : 1 ≤ n) (hlen : n + len ≤ plicMaxSource + 1)
    (h : p.Best n best) : p.Best (n + len) ((List.range' n len).foldl (plicPeekStep p) best) := by
  induction len generalizing n best with
  | zero => exact h
  | succ len ih =>
      have hle : n ≤ plicMaxSource := by omega
      have hrest := ih (Nat.le_succ_of_le hn) (by omega) (best_step ⟨hn, hle⟩ h)
      rw [List.range'_succ, List.foldl_cons]
      rw [show n + (len + 1) = n + 1 + len by omega]
      exact hrest

/-- `plic_peek` finds the most urgent eligible source. -/
theorem plicPeek_best (p : Plic) : (plicPeek p = 0 ∧ ∀ m, ¬ p.Eligible m) ∨
    (p.Eligible (plicPeek p) ∧
      ∀ m, p.Eligible m → m ≠ plicPeek p → p.Before (plicPeek p) m) := by
  have hbelow (m : Nat) (hm : p.Eligible m) : m < 1 + plicMaxSource := by
    have := hm.1.2
    omega
  have hstart : p.Best 1 (0, p.threshold) := by
    refine .inl ⟨rfl, fun m hm hm' => ?_⟩
    have := hm'.1.1
    omega
  rcases best_range' plicMaxSource (Nat.le_refl 1) (by omega) hstart with
    ⟨he, hnone⟩ | ⟨-, hel, -, hbest⟩
  · refine .inl ⟨?_, fun m hm => hnone m (hbelow m hm) hm⟩
    rw [plicPeek, he]
  · exact .inr ⟨hel, fun m hm hne => hbest m (hbelow m hm) hm hne⟩

end Peek

/-! ## Claims one after another -/

/-- The values that reads of the claim register return. -/
def claimReads : Nat → Plic → List Word
  | 0, _ => []
  | k + 1, p => (plicRead 0x200004 p).1 :: claimReads k (plicRead 0x200004 p).2

/-- The PLIC after a claim that returns `n`. -/
def Plic.claim (p : Plic) (n : Nat) : Plic :=
  { p with pending := p.pending &&& ~~~bit n, claimed := p.claimed ||| bit n }

section Reads

variable {p : Plic} {n m : Nat}

theorem plicRead_claim_zero (h : plicPeek p = 0) : plicRead 0x200004 p = (0, p) := by
  simp [plicRead, h]

theorem plicRead_claim_source (h : plicPeek p ≠ 0) :
    plicRead 0x200004 p = (BitVec.ofNat 32 (plicPeek p), p.claim (plicPeek p)) := by
  simp [plicRead, h, Plic.claim]

/-- A claim takes its source out, and no other. -/
theorem eligible_claim : (p.claim n).Eligible m ↔ p.Eligible m ∧ m ≠ n := by
  by_cases hm : 1 ≤ m ∧ m ≤ plicMaxSource
  · have hlt : m < 32 := Nat.lt_succ_of_le hm.2
    have hpend : (p.claim n).isPending m = (p.isPending m && !decide (m = n)) :=
      getLsbD_and_not_bit hlt
    have hserv : (p.claim n).claimed &&& bit m = 0 ↔ p.claimed &&& bit m = 0 ∧ m ≠ n := by
      rw [and_bit_eq_zero hlt, and_bit_eq_zero hlt, Plic.claim, getLsbD_or_bit hlt]
      simp
    unfold Plic.Eligible Plic.Forwards
    rw [hpend, hserv, Bool.and_eq_true, Bool.not_eq_true', decide_eq_false_iff_not]
    constructor
    · rintro ⟨h, ⟨hp, hne⟩, he, ⟨hc, -⟩, ht⟩
      exact ⟨⟨h, hp, he, hc, ht⟩, hne⟩
    · rintro ⟨⟨h, hp, he, hc, ht⟩, hne⟩
      exact ⟨h, ⟨hp, hne⟩, he, ⟨hc, hne⟩, ht⟩
  · exact iff_of_false (fun h => hm h.1) fun h => hm h.1.1

/-- How many sources are still to be handed out. -/
def Plic.waiting (p : Plic) : Nat := ((List.range' 1 plicMaxSource).filter (p.Eligible ·)).length

theorem waiting_claim (h : p.Eligible n) : (p.claim n).waiting < p.waiting := by
  have hsub : ∀ l : List Nat, n ∈ l → (l.filter ((p.claim n).Eligible ·)).length <
      (l.filter (p.Eligible ·)).length := by
    intro l hmem
    have hfilter : l.filter ((p.claim n).Eligible ·) =
        (l.filter (p.Eligible ·)).filter (· ≠ n) := by
      rw [List.filter_filter]
      apply List.filter_congr
      intro m _
      simp [eligible_claim, and_comm]
    rw [hfilter]
    apply List.length_filter_lt_length_iff_exists.mpr
    exact ⟨n, List.mem_filter.mpr ⟨hmem, decide_eq_true h⟩, by simp⟩
  apply hsub
  rw [List.mem_range'_1]
  have := h.1
  omega

/-- Claims until 0 hand out every eligible source once, the most urgent first, and
then return 0. -/
theorem claimReads_order (p : Plic) : ∃ sources : List Nat,
    (∀ n, n ∈ sources ↔ p.Eligible n) ∧ sources.Pairwise p.Before ∧
      ∀ k, claimReads (sources.length + k) p =
        sources.map (BitVec.ofNat 32) ++ List.replicate k 0 := by
  induction hw : p.waiting using Nat.strongRecOn generalizing p with
  | ind w ih =>
      rcases plicPeek_best p with ⟨h0, hnone⟩ | ⟨hel, hbest⟩
      · refine ⟨[], fun n => iff_of_false List.not_mem_nil (hnone n), .nil, fun k => ?_⟩
        rw [List.length_nil, Nat.zero_add, List.map_nil, List.nil_append]
        induction k with
        | zero => rfl
        | succ k ihk => rw [claimReads, plicRead_claim_zero h0, ihk, List.replicate_succ]
      · have hne : plicPeek p ≠ 0 := Nat.ne_of_gt hel.1.1
        have hlt := waiting_claim hel
        rw [hw] at hlt
        obtain ⟨rest, hmem, horder, hreads⟩ := ih _ hlt (p.claim (plicPeek p)) rfl
        refine ⟨plicPeek p :: rest, fun n => ?_, ?_, fun k => ?_⟩
        · rw [List.mem_cons, hmem, eligible_claim]
          constructor
          · rintro (rfl | h)
            · exact hel
            · exact h.1
          · intro h
            by_cases hn : n = plicPeek p
            · exact .inl hn
            · exact .inr ⟨h, hn⟩
        · refine .cons (fun m hm => ?_) horder
          obtain ⟨hm', hmn⟩ := eligible_claim.mp ((hmem m).mp hm)
          exact hbest m hm' hmn
        · rw [List.length_cons, Nat.succ_add, claimReads, plicRead_claim_source hne, hreads k,
            List.map_cons, List.cons_append]

end Reads

end P4Hyp
