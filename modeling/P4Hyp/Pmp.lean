import P4Hyp.Lib.Napot
import P4Hyp.VirtioBlk.Confine

/-!
# The guest's PMP entry

What a user-mode access is checked against is the range the PMP unit decodes from
the entry's address register.  The register is written by a macro of the vendor's
headers, which shifts the address it is given right by two.
-/

namespace P4Hyp

/-- The registers of the PMP unit, by entry. -/
structure Pmp where
  addr : Nat → Word
  cfg : Nat → Byte

def pmpR : Byte := 0x01
def pmpW : Byte := 0x02
def pmpX : Byte := 0x04
def pmpNapot : Byte := 0x18
def pmpL : Byte := 0x80

inductive EspErr
  | ok
  | fail
  | invalidArg
  | invalidState
  deriving DecidableEq

/-- What the guest may do in its window. -/
def pmpRwx : Byte := pmpNapot ||| pmpR ||| pmpW ||| pmpX

/-- `pmp_set_rwx_region`, with `PMP_RESET_AND_ENTRY_SET` for the write of the entry. -/
def pmpSetRwxRegion (set : Nat → Word → Byte → Pmp → Pmp) (entry : Nat)
    (base size : Word) (p : Pmp) :
    EspErr × Pmp :=
  if size < 8 ∨ size &&& (size - 1) ≠ 0 ∨ base &&& (size - 1) ≠ 0 then (.invalidArg, p)
  else if p.cfg entry &&& pmpL ≠ 0 then (.invalidState, p)
  else
    let addr := base ||| (size - 1) >>> 1
    let p' := set entry addr pmpRwx p
    if p'.cfg entry ≠ pmpRwx then (.fail, p') else (.ok, p')

/-- The entry's range, decoded from its address register. -/
def Pmp.Matches (p : Pmp) (entry x : Nat) : Prop := Napot.Matches (p.addr entry).toNat x

instance (p : Pmp) (entry x : Nat) : Decidable (p.Matches entry x) :=
  inferInstanceAs (Decidable (Napot.Matches _ _))

/-- A size that is a power of two of at least 8, and a base that is a multiple of it. -/
structure NaturallyAligned (base size : Word) : Prop where
  eight : 8 ≤ size.toNat
  pow : ∃ k, size.toNat = 2 ^ k
  dvd : size.toNat ∣ base.toNat

theorem toNat_sub_one {size : Word} (h : 1 ≤ size.toNat) : (size - 1).toNat = size.toNat - 1 :=
  BitVec.toNat_sub_of_le (by rw [BitVec.le_def]; exact h)

theorem and_sub_one_iff_pow {size : Word} (h : 1 ≤ size.toNat) :
    size &&& (size - 1) = 0 ↔ ∃ k, size.toNat = 2 ^ k := by
  rw [← BitVec.toNat_inj, BitVec.toNat_and, toNat_sub_one h]
  exact Nat.and_sub_one_eq_zero_iff_isPowerOfTwo (by omega)

theorem and_sub_one_iff_dvd {base size : Word} {k : Nat} (hk : size.toNat = 2 ^ k) :
    base &&& (size - 1) = 0 ↔ size.toNat ∣ base.toNat := by
  rw [← BitVec.toNat_inj, BitVec.toNat_and, toNat_sub_one (hk ▸ Nat.two_pow_pos k), hk,
    Nat.and_two_pow_sub_one_eq_mod]
  exact Nat.dvd_iff_mod_eq_zero.symm

/-- The argument checks are those of a naturally aligned region. -/
theorem checks_iff (base size : Word) :
    ¬ (size < 8 ∨ size &&& (size - 1) ≠ 0 ∨ base &&& (size - 1) ≠ 0) ↔
      NaturallyAligned base size := by
  rw [not_or, not_or, not_not, not_not, BitVec.not_lt, BitVec.le_def]
  change 8 ≤ size.toNat ∧ _ ↔ _
  constructor
  · rintro ⟨h8, hpow, hand⟩
    obtain ⟨k, hk⟩ := (and_sub_one_iff_pow (by omega)).mp hpow
    exact ⟨h8, ⟨k, hk⟩, (and_sub_one_iff_dvd hk).mp hand⟩
  · rintro ⟨h8, ⟨k, hk⟩, hdvd⟩
    exact ⟨h8, (and_sub_one_iff_pow (by omega)).mpr ⟨k, hk⟩, (and_sub_one_iff_dvd hk).mpr hdvd⟩

/-- The address register of a naturally aligned region. -/
theorem region_addr {base size : Word} (h : NaturallyAligned base size) :
    ∃ k y, size.toNat = 2 ^ (k + 3) ∧ base.toNat = 2 ^ (k + 3) * y ∧
      ((base ||| (size - 1) >>> 1) >>> 2).toNat = Napot.encode k y := by
  obtain ⟨h8, ⟨j, hj⟩, ⟨y, hy⟩⟩ := h
  have h3 : 3 ≤ j := (Nat.pow_le_pow_iff_right (by omega)).mp (show 2 ^ 3 ≤ 2 ^ j by omega)
  obtain ⟨k, rfl⟩ := Nat.exists_eq_add_of_le' h3
  rw [hj] at hy
  refine ⟨k, y, hj, hy, ?_⟩
  have hhalf : ((size - 1) >>> 1).toNat = 2 ^ (k + 2) - 1 := by
    rw [BitVec.toNat_ushiftRight, toNat_sub_one (by omega), hj, Nat.shiftRight_eq_div_pow,
      Nat.pow_succ 2 (k + 2)]
    omega
  rw [BitVec.toNat_ushiftRight, BitVec.toNat_or, hhalf, hy, Nat.shiftRight_eq_div_pow]
  exact Napot.base_or_div k y

/-- The entry is programmed for naturally aligned regions only, and with exactly the region
it is asked for. -/
theorem pmpSetRwxRegion_region (set : Nat → Word → Byte → Pmp → Pmp)
    (hset : ∀ e a c p, (set e a c p).addr e = a >>> 2) (entry : Nat) (base size : Word) (p : Pmp)
    (hlock : p.cfg entry &&& pmpL = 0) :
    (NaturallyAligned base size →
      (pmpSetRwxRegion set entry base size p).2 = set entry (base ||| (size - 1) >>> 1) pmpRwx p ∧
      (∀ x, (pmpSetRwxRegion set entry base size p).2.Matches entry x ↔
        base.toNat ≤ x ∧ x < base.toNat + size.toNat) ∧
      ((pmpSetRwxRegion set entry base size p).1 = .ok ↔
        (pmpSetRwxRegion set entry base size p).2.cfg entry = pmpRwx)) ∧
    (¬ NaturallyAligned base size →
      (pmpSetRwxRegion set entry base size p).1 ≠ .ok ∧
        (pmpSetRwxRegion set entry base size p).2 = p) := by
  constructor
  · intro h
    have hset2 : (pmpSetRwxRegion set entry base size p).2 =
        set entry (base ||| (size - 1) >>> 1) pmpRwx p := by
      unfold pmpSetRwxRegion
      rw [if_neg ((checks_iff base size).mpr h), if_neg (not_not_intro hlock)]
      dsimp only
      split <;> rfl
    refine ⟨hset2, ?_, ?_⟩
    · intro x
      obtain ⟨k, y, hsize, hbase, haddr⟩ := region_addr h
      rw [hset2, Pmp.Matches, hset, haddr, Napot.matches_encode, hbase, hsize, Nat.mul_succ]
    · unfold pmpSetRwxRegion
      rw [if_neg ((checks_iff base size).mpr h), if_neg (not_not_intro hlock)]
      dsimp only
      split
      · rename_i hcfg
        exact ⟨fun hok => absurd hok EspErr.noConfusion, fun hc => absurd hc hcfg⟩
      · rename_i hcfg
        exact ⟨fun _ => not_not.mp hcfg, fun _ => rfl⟩
  · intro h
    rw [← checks_iff, not_not] at h
    unfold pmpSetRwxRegion
    rw [if_pos h]
    exact ⟨EspErr.noConfusion, rfl⟩

/-- The macro on a unit that takes every value. -/
def plainSet (e : Nat) (a : Word) (c : Byte) (p : Pmp) : Pmp :=
  ⟨fun i => if i = e then a >>> 2 else p.addr i, fun i => if i = e then c else p.cfg i⟩

/-- The call at boot gives the guest its window. -/
theorem pmpSetRwxRegion_region_window :
    (pmpSetRwxRegion plainSet 0 linuxBaseAddress linuxSize ⟨fun _ => 0, fun _ => 0⟩).1 = .ok ∧
    ∀ x, (pmpSetRwxRegion plainSet 0 linuxBaseAddress linuxSize ⟨fun _ => 0, fun _ => 0⟩).2.Matches 0 x ↔
      0x48000000 ≤ x ∧ x < 0x4a000000 := by
  have haligned : NaturallyAligned linuxBaseAddress linuxSize :=
    ⟨by decide, ⟨25, by decide⟩, by decide⟩
  obtain ⟨-, hmatch, hok⟩ := (pmpSetRwxRegion_region plainSet (fun _ _ _ _ => if_pos rfl) 0
    linuxBaseAddress linuxSize ⟨fun _ => 0, fun _ => 0⟩ (by decide)).1 haligned
  exact ⟨hok.mpr (by decide), hmatch⟩

end P4Hyp
