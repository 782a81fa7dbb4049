import P4Hyp.Lib.Rv32
import Mathlib.Tactic.IntervalCases

/-!
# The instruction field encoders

Lua's integers have 32 bits here, and its shifts are logical.
-/

namespace P4Hyp.Mkflt

def putU (w v : Word) : Word := (w &&& 0xfff) ||| ((v &&& 0xfffff) <<< 12)

def putI (w v : Word) : Word := (w &&& 0xfffff) ||| ((v &&& 0xfff) <<< 20)

def putS (w v : Word) : Word :=
  (w &&& 0x1fff07f) ||| (((v >>> 5) &&& 0x7f) <<< 25) ||| ((v &&& 0x1f) <<< 7)

def putB (w v : Word) : Word :=
  (w &&& 0x1fff07f) ||| (((v >>> 12) &&& 0x1) <<< 31) ||| (((v >>> 5) &&& 0x3f) <<< 25) |||
    (((v >>> 1) &&& 0xf) <<< 8) ||| (((v >>> 11) &&& 0x1) <<< 7)

def putJ (w v : Word) : Word :=
  (w &&& 0xfff) ||| (((v >>> 20) &&& 0x1) <<< 31) ||| (((v >>> 1) &&& 0x3ff) <<< 21) |||
    (((v >>> 11) &&& 0x1) <<< 20) ||| (((v >>> 12) &&& 0xff) <<< 12)

def hi20 (v : Word) : Word := (v + 0x800) >>> 12

/-- The part of `v` that `hi20` leaves to the other instruction. -/
def lo12 (v : Word) : Word := v - (hi20 v <<< 12)

/-! ## Bit by bit -/

section Bits

variable (w v : Word) (i : Nat)

theorem getLsbD_putU : (putU w v).getLsbD i =
    if 12 ≤ i ∧ i < 32 then v.getLsbD (i - 12) else w.getLsbD i := by
  by_cases hi : i < 32
  · interval_cases i <;>
      simp only [putU, BitVec.getLsbD_or, BitVec.getLsbD_and, BitVec.getLsbD_shiftLeft] <;> simp
  · rw [if_neg (by omega), BitVec.getLsbD_of_ge _ _ (by omega), BitVec.getLsbD_of_ge _ _ (by omega)]

theorem getLsbD_putI : (putI w v).getLsbD i =
    if 20 ≤ i ∧ i < 32 then v.getLsbD (i - 20) else w.getLsbD i := by
  by_cases hi : i < 32
  · interval_cases i <;>
      simp only [putI, BitVec.getLsbD_or, BitVec.getLsbD_and, BitVec.getLsbD_shiftLeft] <;> simp
  · rw [if_neg (by omega), BitVec.getLsbD_of_ge _ _ (by omega), BitVec.getLsbD_of_ge _ _ (by omega)]

theorem getLsbD_putS : (putS w v).getLsbD i =
    if 7 ≤ i ∧ i < 12 then v.getLsbD (i - 7) else if 25 ≤ i ∧ i < 32 then v.getLsbD (i - 20)
    else w.getLsbD i := by
  by_cases hi : i < 32
  · interval_cases i <;>
      simp only [putS, BitVec.getLsbD_or, BitVec.getLsbD_and, BitVec.getLsbD_shiftLeft,
        BitVec.getLsbD_ushiftRight] <;> simp
  · rw [if_neg (by omega), if_neg (by omega), BitVec.getLsbD_of_ge _ _ (by omega),
      BitVec.getLsbD_of_ge _ _ (by omega)]

theorem getLsbD_putB : (putB w v).getLsbD i =
    if i = 7 then v.getLsbD 11 else if 8 ≤ i ∧ i < 12 then v.getLsbD (i - 7)
    else if 25 ≤ i ∧ i < 31 then v.getLsbD (i - 20) else if i = 31 then v.getLsbD 12
    else w.getLsbD i := by
  by_cases hi : i < 32
  · interval_cases i <;>
      simp only [putB, BitVec.getLsbD_or, BitVec.getLsbD_and, BitVec.getLsbD_shiftLeft,
        BitVec.getLsbD_ushiftRight] <;> simp
  · rw [if_neg (by omega), if_neg (by omega), if_neg (by omega), if_neg (by omega),
      BitVec.getLsbD_of_ge _ _ (by omega), BitVec.getLsbD_of_ge _ _ (by omega)]

theorem getLsbD_putJ : (putJ w v).getLsbD i =
    if 12 ≤ i ∧ i < 20 then v.getLsbD i else if i = 20 then v.getLsbD 11
    else if 21 ≤ i ∧ i < 31 then v.getLsbD (i - 20) else if i = 31 then v.getLsbD 20
    else w.getLsbD i := by
  by_cases hi : i < 32
  · interval_cases i <;>
      simp only [putJ, BitVec.getLsbD_or, BitVec.getLsbD_and, BitVec.getLsbD_shiftLeft,
        BitVec.getLsbD_ushiftRight] <;> simp
  · rw [if_neg (by omega), if_neg (by omega), if_neg (by omega), if_neg (by omega),
      BitVec.getLsbD_of_ge _ _ (by omega), BitVec.getLsbD_of_ge _ _ (by omega)]

end Bits

/-! ## The immediate put in -/

section Put

variable (w v : Word)

theorem immU_putU : Rv32.immU (putU w v) = v <<< 12 := by
  unfold Rv32.immU
  apply BitVec.eq_of_getLsbD_eq
  intro i hi
  rw [BitVec.getLsbD_append, BitVec.getLsbD_extractLsb', BitVec.getLsbD_shiftLeft]
  by_cases h : i < 12
  · simp [h]
  · rw [if_neg h, getLsbD_putU, if_pos (by omega), decide_eq_true (show i - 12 < 20 by omega),
      decide_eq_true hi, decide_eq_false h]
    simp only [Bool.true_and, Bool.not_false]
    congr 1
    omega

theorem immI_putI : Rv32.immI (putI w v) = (v.extractLsb' 0 12).signExtend 32 := by
  unfold Rv32.immI
  congr 1
  apply BitVec.eq_of_getLsbD_eq
  intro i hi
  interval_cases i <;> simp only [BitVec.getLsbD_extractLsb', getLsbD_putI] <;> rfl

theorem immS_putS : Rv32.immS (putS w v) = (v.extractLsb' 0 12).signExtend 32 := by
  unfold Rv32.immS
  congr 1
  apply BitVec.eq_of_getLsbD_eq
  intro i hi
  interval_cases i <;>
    simp only [BitVec.getLsbD_append, BitVec.getLsbD_extractLsb', getLsbD_putS] <;> rfl

theorem immB_putB : Rv32.immB (putB w v) = (v.extractLsb' 1 12 ++ 0#1).signExtend 32 := by
  unfold Rv32.immB
  congr 1
  apply BitVec.eq_of_getLsbD_eq
  intro i hi
  interval_cases i <;>
    simp only [BitVec.getLsbD_append, BitVec.getLsbD_extractLsb', getLsbD_putB] <;> rfl

theorem immJ_putJ : Rv32.immJ (putJ w v) = (v.extractLsb' 1 20 ++ 0#1).signExtend 32 := by
  unfold Rv32.immJ
  congr 1
  apply BitVec.eq_of_getLsbD_eq
  intro i hi
  interval_cases i <;>
    simp only [BitVec.getLsbD_append, BitVec.getLsbD_extractLsb', getLsbD_putJ] <;> rfl

/-! ### The bits that stay -/

/-- The fields of an instruction outside its immediate, by its format. -/
def keepsU : Word := 0xfff
def keepsI : Word := 0xfffff
def keepsS : Word := 0x1fff07f

theorem putU_keeps : putU w v &&& keepsU = w &&& keepsU := by
  apply BitVec.eq_of_getLsbD_eq
  intro i hi
  rw [BitVec.getLsbD_and, BitVec.getLsbD_and, getLsbD_putU]
  interval_cases i <;> simp [keepsU]

theorem putI_keeps : putI w v &&& keepsI = w &&& keepsI := by
  apply BitVec.eq_of_getLsbD_eq
  intro i hi
  rw [BitVec.getLsbD_and, BitVec.getLsbD_and, getLsbD_putI]
  interval_cases i <;> simp [keepsI]

theorem putS_keeps : putS w v &&& keepsS = w &&& keepsS := by
  apply BitVec.eq_of_getLsbD_eq
  intro i hi
  rw [BitVec.getLsbD_and, BitVec.getLsbD_and, getLsbD_putS]
  interval_cases i <;> simp [keepsS]

theorem putB_keeps : putB w v &&& keepsS = w &&& keepsS := by
  apply BitVec.eq_of_getLsbD_eq
  intro i hi
  rw [BitVec.getLsbD_and, BitVec.getLsbD_and, getLsbD_putB]
  interval_cases i <;> simp [keepsS]

theorem putJ_keeps : putJ w v &&& keepsU = w &&& keepsU := by
  apply BitVec.eq_of_getLsbD_eq
  intro i hi
  rw [BitVec.getLsbD_and, BitVec.getLsbD_and, getLsbD_putJ]
  interval_cases i <;> simp [keepsU]

end Put

/-! ## The pair, and the displacements -/

section Values

variable {v : Word}

theorem hi20_add_lo12 (v : Word) : hi20 v <<< 12 + lo12 v = v := by
  unfold lo12
  rw [BitVec.add_comm, BitVec.sub_add_cancel]

theorem hi20_toNat (v : Word) :
    (hi20 v <<< 12).toNat = (v + 0x800).toNat - (v + 0x800).toNat % 2 ^ 12 := by
  unfold hi20
  have := (v + 0x800).isLt
  rw [BitVec.toNat_shiftLeft, BitVec.toNat_ushiftRight, Nat.shiftRight_eq_div_pow,
    Nat.shiftLeft_eq]
  omega

theorem hi20_low (v : Word) : (hi20 v <<< 12).toNat % 2 ^ 12 = 0 := by
  rw [hi20_toNat]
  omega

/-- The rounding leaves a part that twelve bits hold with its sign. -/
theorem lo12_toNat (v : Word) :
    (lo12 v).toNat = ((v + 0x800).toNat % 2 ^ 12 + (2 ^ 32 - 2 ^ 11)) % 2 ^ 32 := by
  have hv := v.isLt
  unfold lo12
  rw [BitVec.toNat_sub, hi20_toNat, BitVec.toNat_add, show (0x800 : Word).toNat = 2 ^ 11 from rfl]
  omega

theorem signExtend_lo12 (v : Word) : ((lo12 v).extractLsb' 0 12).signExtend 32 = lo12 v := by
  apply BitVec.eq_of_toNat_eq
  rw [Rv32.toNat_signExtend_eq _ (by decide), toNat_extract_eq, lo12_toNat]
  generalize (v + 0x800).toNat = x
  have hx : x % 2 ^ 12 < 2 ^ 12 := Nat.mod_lt _ (by decide)
  generalize x % 2 ^ 12 = r at hx
  by_cases hr : r < 2 ^ 11
  · have hmod : (r + (2 ^ 32 - 2 ^ 11)) % 2 ^ 32 = r + (2 ^ 32 - 2 ^ 11) :=
      Nat.mod_eq_of_lt (by omega)
    rw [hmod]
    have hlow : (r + (2 ^ 32 - 2 ^ 11)) / 2 ^ 0 % 2 ^ 12 = r + 2 ^ 11 := by omega
    rw [hlow, if_pos (by omega)]
    omega
  · have hmod : (r + (2 ^ 32 - 2 ^ 11)) % 2 ^ 32 = r - 2 ^ 11 := by omega
    rw [hmod]
    have hlow : (r - 2 ^ 11) / 2 ^ 0 % 2 ^ 12 = r - 2 ^ 11 := by omega
    rw [hlow, if_neg (by omega), Nat.add_zero]

/-- Somewhere else, at an even distance from where it was, `v` has another lower half. -/
theorem exists_lo12_ne (site v : Word) :
    ∃ L : Word, (L + site).toNat % 2 = 0 ∧ lo12 (L + v) ≠ lo12 v := by
  have hlow : ∀ L : Word, lo12 (L + v) = lo12 v → L.toNat % 2 ^ 12 = 0 := by
    intro L h
    have hsum := congrArg BitVec.toNat (hi20_add_lo12 (L + v))
    have hv := congrArg BitVec.toNat (hi20_add_lo12 v)
    have hup : (hi20 (L + v) <<< 12).toNat % 2 ^ 12 = 0 := hi20_low _
    have hup' : (hi20 v <<< 12).toNat % 2 ^ 12 = 0 := hi20_low _
    rw [h, BitVec.toNat_add, BitVec.toNat_add L] at hsum
    rw [BitVec.toNat_add] at hv
    omega
  rcases Nat.mod_two_eq_zero_or_one site.toNat with hsite | hsite
  · exact ⟨2, by rw [BitVec.toNat_add]; simp; omega, fun h => by simpa using hlow _ h⟩
  · exact ⟨1, by rw [BitVec.toNat_add]; simp; omega, fun h => by simpa using hlow _ h⟩

/-- And another upper half. -/
theorem exists_hi20_ne (site v : Word) :
    ∃ L : Word, (L + site).toNat % 2 = 0 ∧ hi20 (L + v) <<< 12 ≠ hi20 v <<< 12 := by
  have hhigh : ∀ L : Word, hi20 (L + v) <<< 12 = hi20 v <<< 12 →
      L.toNat < 2 ^ 12 ∨ 2 ^ 32 - 2 ^ 12 < L.toNat := by
    intro L h
    have hh := congrArg BitVec.toNat h
    rw [hi20_toNat, hi20_toNat, BitVec.add_assoc, BitVec.toNat_add L] at hh
    have := L.isLt
    have := (v + 0x800).isLt
    omega
  rcases Nat.mod_two_eq_zero_or_one site.toNat with hsite | hsite
  · exact ⟨0x80000000, by rw [BitVec.toNat_add]; simp; omega, fun h => by simpa using hhigh _ h⟩
  · exact ⟨0x80000001, by rw [BitVec.toNat_add]; simp; omega, fun h => by simpa using hhigh _ h⟩

/-- `n` signed bits hold the value. -/
def InRange (v : Word) (n : Nat) : Prop := -2 ^ (n - 1) ≤ v.toInt ∧ v.toInt < 2 ^ (n - 1)

theorem inRange_toNat {n : Nat} (hn : n < 31) :
    InRange v (n + 1) ↔ v.toNat < 2 ^ n ∨ 2 ^ 32 - 2 ^ n ≤ v.toNat := by
  have hpow : 2 ^ n < 2 ^ 31 := Nat.pow_lt_pow_right (by decide) hn
  have hlt := v.isLt
  unfold InRange
  rw [Nat.add_sub_cancel, BitVec.toInt_eq_toNat_cond]
  have hcast : ((2 ^ n : Nat) : Int) = (2 : Int) ^ n := by push_cast; rfl
  rw [← hcast]
  split <;> omega

/-- The displacement that comes back from the field: bit 0 is not in it. -/
theorem signExtend_displacement {n : Nat} (hn1 : 1 ≤ n) (hn : n < 31) (h : InRange v (n + 1)) :
    ((v.extractLsb' 1 n ++ 0#1).signExtend 32).toNat = v.toNat - v.toNat % 2 := by
  have hlt := v.isLt
  have hpow : 2 ^ n < 2 ^ 31 := Nat.pow_lt_pow_right (by decide) hn
  have hdouble : 2 ^ (n + 1) = 2 * 2 ^ n := by rw [Nat.pow_succ, Nat.mul_comm]
  have hhalf : 2 ^ n = 2 * 2 ^ (n - 1) := by
    rw [← Nat.pow_succ', Nat.succ_eq_add_one, Nat.sub_add_cancel hn1]
  have hsplit : 2 ^ n * (2 ^ (31 - n) - 1) = 2 ^ 31 - 2 ^ n := by
    rw [Nat.mul_sub, ← Nat.pow_add, Nat.add_sub_cancel' (by omega), Nat.mul_one]
  rw [inRange_toNat hn] at h
  rw [Rv32.toNat_signExtend_eq _ (by omega), toNat_append_eq, toNat_extract_eq, hdouble,
    show (0#1).toNat = 0 from rfl]
  rcases h with h | h
  · have hsmall : v.toNat / 2 ^ 1 % 2 ^ n = v.toNat / 2 := Nat.mod_eq_of_lt (by omega)
    rw [hsmall, if_neg (by omega)]
    omega
  · have hlarge : v.toNat / 2 ^ 1 % 2 ^ n = 2 ^ (n - 1) + (v.toNat - (2 ^ 32 - 2 ^ n)) / 2 := by
      have hsum : v.toNat / 2 ^ 1 =
          2 ^ n * (2 ^ (31 - n) - 1) + (2 ^ (n - 1) + (v.toNat - (2 ^ 32 - 2 ^ n)) / 2) := by
        rw [hsplit]
        omega
      rw [hsum, Nat.mul_add_mod, Nat.mod_eq_of_lt (by omega)]
    rw [hlarge, if_pos (by omega)]
    omega

/-- A transfer goes where it should exactly when the displacement is even. -/
theorem displacement_eq_iff {n : Nat} (hn1 : 1 ≤ n) (hn : n < 31) (h : InRange v (n + 1))
    (pc : Word) :
    pc + (v.extractLsb' 1 n ++ 0#1).signExtend 32 = pc + v ↔ v.toNat % 2 = 0 := by
  rw [BitVec.add_right_inj, ← BitVec.toNat_inj, signExtend_displacement hn1 hn h]
  omega

/-- `jalr` clears bit 0. -/
theorem clearBit0_eq_iff (a : Word) : a &&& ~~~1 = a ↔ a.toNat % 2 = 0 := by
  have hbit : a.getLsbD 0 = decide (a.toNat % 2 = 1) := by
    rw [BitVec.getLsbD, Nat.testBit_zero]
  constructor
  · intro h
    have h0 : (a &&& ~~~1).getLsbD 0 = a.getLsbD 0 := by rw [h]
    rw [hbit] at h0
    simp at h0
    omega
  · intro h
    apply BitVec.eq_of_getLsbD_eq
    intro i hi
    by_cases h0 : i = 0
    · subst h0
      rw [BitVec.getLsbD_and, hbit, decide_eq_false (by omega), Bool.false_and]
    · have hone : (1 : Word).getLsbD i = false := by
        interval_cases i <;> simp_all
      rw [BitVec.getLsbD_and, BitVec.getLsbD_not, hone, decide_eq_true hi]
      simp

end Values

/-! ## The instructions put together -/

section Instructions

variable (pc w w' v : Word)

theorem plusI_auipc : Rv32.plusI (Rv32.auipc pc (putU w (hi20 v))) (putI w' (lo12 v)) = pc + v := by
  rw [Rv32.plusI, Rv32.auipc, immU_putU, immI_putI, signExtend_lo12, BitVec.add_assoc,
    hi20_add_lo12]

theorem plusS_auipc : Rv32.plusS (Rv32.auipc pc (putU w (hi20 v))) (putS w' (lo12 v)) = pc + v := by
  rw [Rv32.plusS, Rv32.auipc, immU_putU, immS_putS, signExtend_lo12, BitVec.add_assoc,
    hi20_add_lo12]

/-- A call goes to the address that its pair forms, bit 0 aside. -/
theorem jalr_auipc_eq_iff :
    Rv32.jalr (Rv32.auipc pc (putU w (hi20 v))) (putI w' (lo12 v)) = pc + v ↔
      (pc + v).toNat % 2 = 0 := by
  have hsum := plusI_auipc pc w w' v
  rw [Rv32.plusI] at hsum
  rw [Rv32.jalr, hsum]
  exact clearBit0_eq_iff _

variable {v}

theorem branch_putB_eq_iff (h : InRange v 13) :
    Rv32.branch pc (putB w v) = pc + v ↔ v.toNat % 2 = 0 := by
  rw [Rv32.branch, immB_putB]
  exact displacement_eq_iff (n := 12) (by decide) (by decide) h pc

theorem jal_putJ_eq_iff (h : InRange v 21) :
    Rv32.jal pc (putJ w v) = pc + v ↔ v.toNat % 2 = 0 := by
  rw [Rv32.jal, immJ_putJ]
  exact displacement_eq_iff (n := 20) (by decide) (by decide) h pc

end Instructions

end P4Hyp.Mkflt
