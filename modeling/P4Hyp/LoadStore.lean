import P4Hyp.Core
import P4Hyp.Lib.Rv32
import P4Hyp.VirtioBlk.Chain

/-!
# Loads and stores in the device windows

The instructions that can access a device, by their encodings, and what each of
them does.
-/

namespace P4Hyp

inductive Load
  | lb
  | lh
  | lw
  | lbu
  | lhu

inductive Store
  | sb
  | sh
  | sw

def Load.funct3 : Load → BitVec 3
  | lb => 0
  | lh => 1
  | lw => 2
  | lbu => 4
  | lhu => 5

def Load.access : Load → Access
  | lb => .lb
  | lh => .lh
  | lw => .lw
  | lbu => .lbu
  | lhu => .lhu

def Store.funct3 : Store → BitVec 3
  | sb => 0
  | sh => 1
  | sw => 2

def Store.access : Store → Access
  | sb => .sb
  | sh => .sh
  | sw => .sw

/-- The immediates of the compressed forms are bits 6 to 2 of the offset. -/
inductive MemInsn
  | load (op : Load) (rd rs1 : BitVec 5) (imm : BitVec 12)
  | store (op : Store) (rs2 rs1 : BitVec 5) (imm : BitVec 12)
  | cLw (rd rs1 : BitVec 3) (uimm : BitVec 5)
  | cSw (rs2 rs1 : BitVec 3) (uimm : BitVec 5)

namespace MemInsn

/-- The instruction that a compressed one abbreviates. -/
def expand : MemInsn → MemInsn
  | cLw rd rs1 uimm => load .lw (0b01#2 ++ rd) (0b01#2 ++ rs1) (0b00000#5 ++ uimm ++ 0b00#2)
  | cSw rs2 rs1 uimm => store .sw (0b01#2 ++ rs2) (0b01#2 ++ rs1) (0b00000#5 ++ uimm ++ 0b00#2)
  | i => i

def length : MemInsn → Word
  | load .. | store .. => 4
  | cLw .. | cSw .. => 2

def compressed (funct3 rs1 rx : BitVec 3) (uimm : BitVec 5) : Half :=
  funct3 ++ uimm.extractLsb' 1 3 ++ rs1 ++ uimm.extractLsb' 0 1 ++ uimm.extractLsb' 4 1 ++
    rx ++ 0b00#2

/-- The instruction is the one at `pc`. -/
def At (mem : Mem) (pc : Word) : MemInsn → Prop
  | load op rd rs1 imm =>
      mem.load16 (pc + 2) ++ mem.load16 pc = Rv32.iType imm rs1 op.funct3 rd 0x03
  | store op rs2 rs1 imm =>
      mem.load16 (pc + 2) ++ mem.load16 pc = Rv32.sType imm rs2 rs1 op.funct3 0x23
  | cLw rd rs1 uimm => mem.load16 pc = compressed 0b010 rs1 rd uimm
  | cSw rs2 rs1 uimm => mem.load16 pc = compressed 0b110 rs1 rs2 uimm

/-- What an instruction does: one operation of the device, and the register that a
load writes. -/
def perform (sd : Sd) (device : MmioDevice) (offset : Word) (frame : RvExcFrame) (m : Monitor) :
    MemInsn → RvExcFrame × Monitor
  | load op rd _ _ =>
      let (v, m) := device.read sd offset op.access.width m
      ({ frame with x := fun i =>
          if rd.toNat ≠ 0 ∧ i = rd.toNat then op.access.extend v else frame.x i }, m)
  | store op rs2 _ _ =>
      (frame, device.write sd offset (if rs2 = 0 then 0 else frame.x rs2.toNat) op.access.width m)
  | cLw rd _ _ =>
      let (v, m) := device.read sd offset 4 m
      ({ frame with x := fun i => if i = 8 + rd.toNat then v else frame.x i }, m)
  | cSw rs2 _ _ => (frame, device.write sd offset (frame.x (8 + rs2.toNat)) 4 m)

/-- The 32 bits that `trap_decode` leaves. -/
def word : MemInsn → Word
  | load op rd rs1 imm => Rv32.iType imm rs1 op.funct3 rd 0x03
  | store op rs2 rs1 imm => Rv32.sType imm rs2 rs1 op.funct3 0x23
  | cLw rd rs1 uimm =>
      Rv32.iType (0b00000#5 ++ uimm ++ 0b00#2) (0b01#2 ++ rs1) 2 (0b01#2 ++ rd) 0x03
  | cSw rs2 rs1 uimm =>
      Rv32.sType (0b00000#5 ++ uimm ++ 0b00#2) (0b01#2 ++ rs2) (0b01#2 ++ rs1) 2 0x23

theorem length_ne_zero (i : MemInsn) : i.length ≠ 0 := by
  cases i with
  | load op rd rs1 imm => exact (by decide : (4 : Word) ≠ 0)
  | store op rs2 rs1 imm => exact (by decide : (4 : Word) ≠ 0)
  | cLw rd rs1 uimm => exact (by decide : (2 : Word) ≠ 0)
  | cSw rs2 rs1 uimm => exact (by decide : (2 : Word) ≠ 0)

end MemInsn

/-- The address is in the device's window. -/
def MmioDevice.Owns (device : MmioDevice) (address : Word) : Prop :=
  Covers device.base device.size.toNat address

instance (device : MmioDevice) (address : Word) : Decidable (device.Owns address) :=
  inferInstanceAs (Decidable (Covers _ _ _))

/-! ## Fetch and decode -/

theorem and_low (x : Word) (k : Nat) (hk : k < 32) :
    (x &&& BitVec.ofNat 32 (2 ^ k - 1)).toNat = x.toNat % 2 ^ k := by
  have hlt : 2 ^ k - 1 < 2 ^ 32 := by
    have := Nat.pow_lt_pow_right (show 1 < 2 by omega) hk
    omega
  rw [BitVec.toNat_and, BitVec.toNat_ofNat, Nat.mod_eq_of_lt hlt, Nat.and_two_pow_sub_one_eq_mod]

section Decode

variable {mem : Mem} {pc w : Word}

theorem half_toNat (h : Half) : (h.setWidth 32).toNat = h.toNat := by
  rw [BitVec.toNat_setWidth]
  have := h.isLt
  omega

theorem setWidth_append_eq {v w : Nat} (x : BitVec v) (y : BitVec w) (h : v + w ≤ 32) :
    (x ++ y).setWidth 32 = x.setWidth 32 <<< w ||| y.setWidth 32 := by
  apply BitVec.eq_of_toNat_eq
  have hlt : x.toNat <<< w < 2 ^ 32 := by
    rw [Nat.shiftLeft_eq]
    calc x.toNat * 2 ^ w < 2 ^ v * 2 ^ w := Nat.mul_lt_mul_of_pos_right x.isLt (Nat.two_pow_pos w)
      _ = 2 ^ (v + w) := (Nat.pow_add 2 v w).symm
      _ ≤ 2 ^ 32 := Nat.pow_le_pow_right (by decide) h
  rw [BitVec.toNat_setWidth_of_le h, BitVec.toNat_append, BitVec.toNat_or, BitVec.toNat_shiftLeft,
    BitVec.toNat_setWidth_of_le (by omega), BitVec.toNat_setWidth_of_le (by omega),
      Nat.mod_eq_of_lt hlt]

theorem or_shift_half (lo hi : Half) : lo.setWidth 32 ||| hi.setWidth 32 <<< 16 = hi ++ lo := by
  rw [BitVec.or_comm, ← setWidth_append_eq hi lo (by decide)]
  exact BitVec.setWidth_eq (hi ++ lo)

/-- A mask of low bits takes out a field. -/
theorem shift_and_half (c : Half) (k n : Nat) (hn : n < 32) :
    c.setWidth 32 >>> k &&& BitVec.ofNat 32 (2 ^ n - 1) = (c.extractLsb' k n).setWidth 32 := by
  apply BitVec.eq_of_toNat_eq
  rw [and_low _ n hn, BitVec.toNat_ushiftRight, Nat.shiftRight_eq_div_pow, half_toNat,
    BitVec.toNat_setWidth_of_le (by omega), toNat_extract_eq]

/-- `guest_fetch`, by the two lowest and the five lowest bits. -/
theorem guestFetch_eq : guestFetch mem pc =
    if (mem.load16 pc).toNat % 4 ≠ 3 then some ((mem.load16 pc).setWidth 32, 2)
    else if (mem.load16 pc).toNat % 32 = 31 then none
    else some (mem.load16 (pc + 2) ++ mem.load16 pc, 4) := by
  have hlow := half_toNat (mem.load16 pc)
  have h2 : (mem.load16 pc).setWidth 32 &&& 0x3 = 0x3 ↔ (mem.load16 pc).toNat % 4 = 3 := by
    rw [← BitVec.toNat_inj, show (0x3 : Word) = BitVec.ofNat 32 (2 ^ 2 - 1) from rfl,
      and_low _ 2 (by omega), hlow]
    rfl
  have h5 : (mem.load16 pc).setWidth 32 &&& 0x1f = 0x1f ↔ (mem.load16 pc).toNat % 32 = 31 := by
    rw [← BitVec.toNat_inj, show (0x1f : Word) = BitVec.ofNat 32 (2 ^ 5 - 1) from rfl,
      and_low _ 5 (by omega), hlow]
    rfl
  simp only [guestFetch, ne_eq, h2, h5, or_shift_half]

/-- The mask accepts the opcodes of loads and of stores. -/
theorem opcode_iff : w &&& 0x5f = 0x03 ↔ w.toNat % 128 = 0x03 ∨ w.toNat % 128 = 0x23 := by
  have hmask : ∀ o : BitVec 7, o &&& 0x5f = 0x03 ↔ o = 0x03 ∨ o = 0x23 := by decide
  have hseven : w &&& 0x5f = 0x03 ↔ w.setWidth 7 &&& 0x5f = 0x03 := by
    constructor
    · intro h
      rw [show (0x5f : BitVec 7) = (0x5f : Word).setWidth 7 from rfl, ← BitVec.setWidth_and, h]
      rfl
    · intro h
      have hlow : (w &&& 0x5f).setWidth 7 = 0x03 := by
        rw [BitVec.setWidth_and]
        exact h
      apply BitVec.eq_of_toNat_eq
      have hsmall : (w &&& 0x5f).toNat < 128 := by
        rw [BitVec.toNat_and]
        exact Nat.lt_of_le_of_lt Nat.and_le_right (by decide)
      have := congrArg BitVec.toNat hlow
      rw [BitVec.toNat_setWidth, Nat.mod_eq_of_lt hsmall] at this
      exact this
  rw [hseven, hmask, ← BitVec.toNat_inj, ← BitVec.toNat_inj, BitVec.toNat_setWidth]
  rfl

theorem field_eq (x : Word) (lo n : Nat) : field x lo n = x.toNat / 2 ^ lo % 2 ^ n :=
  toNat_extract_eq x lo n

theorem decodeAccess_eq : decodeAccess w =
    if w.toNat % 128 = 0x03 then Access.ofKey (w.toNat / 2 ^ 12 % 2 ^ 3)
    else if w.toNat % 128 = 0x23 then Access.ofKey (w.toNat / 2 ^ 12 % 2 ^ 3 + 8)
    else none := by
  unfold decodeAccess
  simp only [ne_eq, opcode_iff, field_eq]
  by_cases hl : w.toNat % 128 = 0x03
  · have hbit : w.toNat / 2 ^ 5 % 2 ^ 1 = 0 := by omega
    rw [if_neg (not_not_intro (.inl hl)), if_pos hl, hbit]
    rfl
  · by_cases hs : w.toNat % 128 = 0x23
    · have hbit : w.toNat / 2 ^ 5 % 2 ^ 1 = 1 := by omega
      rw [if_neg (not_not_intro (.inr hs)), if_neg hl, if_pos hs, hbit]
    · rw [if_pos (not_or.mpr ⟨hl, hs⟩), if_neg hl, if_neg hs]

/-! ### Compressed instructions -/

theorem extract_append (a b c : BitVec 3) (d e : BitVec 1) (f : BitVec 3) (g : BitVec 2) :
    let x := a ++ b ++ c ++ d ++ e ++ f ++ g
    x.extractLsb' 13 3 = a ∧ x.extractLsb' 10 3 = b ∧ x.extractLsb' 7 3 = c ∧
      x.extractLsb' 6 1 = d ∧
      x.extractLsb' 5 1 = e ∧ x.extractLsb' 2 3 = f ∧ x.extractLsb' 0 2 = g := by
  simp (disch := decide) only [BitVec.extractLsb'_append_eq_of_le,
    BitVec.extractLsb'_append_eq_of_add_le, Nat.reduceSub, BitVec.extractLsb'_eq_self, and_self]

theorem compressed_fields {c : Half} {funct3 rs1 rx : BitVec 3} {uimm : BitVec 5}
    (h : c = MemInsn.compressed funct3 rs1 rx uimm) :
    c.extractLsb' 13 3 = funct3 ∧ c.extractLsb' 10 3 = uimm.extractLsb' 1 3 ∧
      c.extractLsb' 7 3 = rs1 ∧
      c.extractLsb' 6 1 = uimm.extractLsb' 0 1 ∧ c.extractLsb' 5 1 = uimm.extractLsb' 4 1 ∧
      c.extractLsb' 2 3 = rx ∧ c.extractLsb' 0 2 = 0b00 := by
  subst h
  exact extract_append funct3 (uimm.extractLsb' 1 3) rs1 (uimm.extractLsb' 0 1)
    (uimm.extractLsb' 4 1) rx 0b00

theorem append_extract (c : Half) : c.extractLsb' 13 3 ++ c.extractLsb' 10 3 ++ c.extractLsb' 7 3 ++
    c.extractLsb' 6 1 ++ c.extractLsb' 5 1 ++ c.extractLsb' 2 3 ++ c.extractLsb' 0 2 = c := by
  rw [BitVec.extractLsb'_append_extractLsb'_eq_extractLsb' (show 13 = 10 + 3 from rfl),
    BitVec.extractLsb'_append_extractLsb'_eq_extractLsb' (show 10 = 7 + 3 from rfl),
    BitVec.extractLsb'_append_extractLsb'_eq_extractLsb' (show 7 = 6 + 1 from rfl),
    BitVec.extractLsb'_append_extractLsb'_eq_extractLsb' (show 6 = 5 + 1 from rfl),
    BitVec.extractLsb'_append_extractLsb'_eq_extractLsb' (show 5 = 2 + 3 from rfl),
    BitVec.extractLsb'_append_extractLsb'_eq_extractLsb' (show 2 = 0 + 2 from rfl)]
  exact BitVec.extractLsb'_eq_self

/-- The form of a compressed load or store is all that the last two bits ask for. -/
theorem exists_fields {c : Half} (h : c.extractLsb' 0 2 = 0b00) :
    ∃ funct3 rs1 rx uimm, c = MemInsn.compressed funct3 rs1 rx uimm := by
  refine ⟨c.extractLsb' 13 3, c.extractLsb' 7 3, c.extractLsb' 2 3,
    c.extractLsb' 5 1 ++ c.extractLsb' 10 3 ++ c.extractLsb' 6 1, ?_⟩
  have huimm (top lo : BitVec 1) (hi : BitVec 3) : (top ++ hi ++ lo).extractLsb' 1 3 = hi ∧
      (top ++ hi ++ lo).extractLsb' 0 1 = lo ∧ (top ++ hi ++ lo).extractLsb' 4 1 = top := by
    simp (disch := decide) only [BitVec.extractLsb'_append_eq_of_le,
      BitVec.extractLsb'_append_eq_of_add_le, Nat.reduceSub, BitVec.extractLsb'_eq_self, and_self]
  obtain ⟨hhi, hlo, htop⟩ := huimm (c.extractLsb' 5 1) (c.extractLsb' 6 1) (c.extractLsb' 10 3)
  rw [MemInsn.compressed, hhi, hlo, htop, show 0b00#2 = c.extractLsb' 0 2 from h.symm]
  exact (append_extract c).symm

/-- The three parts of the offset, each where `rvc_expand` puts it. -/
theorem offset_compressed : ∀ uimm : BitVec 5,
    (uimm.extractLsb' 1 3).setWidth 32 <<< 3 ||| (uimm.extractLsb' 0 1).setWidth 32 <<< 2 |||
        (uimm.extractLsb' 4 1).setWidth 32 <<< 6 = (0b00000#5 ++ uimm ++ 0b00#2).setWidth 32 := by
  decide

/-- The two parts of the offset in a store. -/
theorem offset_parts : ∀ uimm : BitVec 5,
    let imm := 0b00000#5 ++ uimm ++ 0b00#2
    imm.setWidth 32 >>> 5 = (imm.extractLsb' 5 7).setWidth 32 ∧
      imm.setWidth 32 &&& 0x1f = (imm.extractLsb' 0 5).setWidth 32 := by
  decide

theorem register_compressed :
    ∀ r : BitVec 3, (8 : Word) + r.setWidth 32 = (0b01#2 ++ r).setWidth 32 := by
  decide

theorem funct3_compressed : ∀ funct3 : BitVec 3,
    (funct3.setWidth 32 = 0x2#32 ↔ funct3 = 0b010) ∧
      (funct3.setWidth 32 = 0x6#32 ↔ funct3 = 0b110) := by
  decide

theorem load_word (imm : BitVec 12) (rs1 rd : BitVec 5) :
    imm.setWidth 32 <<< 20 ||| rs1.setWidth 32 <<< 15 ||| 0x2 <<< 12 ||| rd.setWidth
      32 <<< 7 ||| 0x03 = Rv32.iType imm rs1 2 rd 0x03 := by
  symm
  calc Rv32.iType imm rs1 2 rd 0x03 = (imm ++ rs1 ++ 2#3 ++ rd ++ 0x03#7).setWidth 32 :=
        (BitVec.setWidth_eq _).symm
    _ = _ := by
        rw [setWidth_append_eq _ _ (by decide), setWidth_append_eq _ _ (by decide),
          setWidth_append_eq _ _ (by decide), setWidth_append_eq _ _ (by decide)]
        simp only [BitVec.shiftLeft_or_distrib, ← BitVec.shiftLeft_add]
        rfl

theorem store_word (imm : BitVec 12) (rs2 rs1 : BitVec 5) :
    (imm.extractLsb' 5 7).setWidth 32 <<< 25 ||| rs2.setWidth 32 <<< 20 ||| rs1.setWidth
        32 <<< 15 ||| 0x2 <<< 12 ||| (imm.extractLsb' 0 5).setWidth 32 <<< 7 ||| 0x23 =
      Rv32.sType imm rs2 rs1 2 0x23 := by
  symm
  calc Rv32.sType imm rs2 rs1 2 0x23 =
        (imm.extractLsb' 5 7 ++ rs2 ++ rs1 ++ 2#3 ++ imm.extractLsb' 0 5 ++ 0x23#7).setWidth 32 :=
        (BitVec.setWidth_eq _).symm
    _ = _ := by
        rw [setWidth_append_eq _ _ (by decide), setWidth_append_eq _ _ (by decide),
          setWidth_append_eq _ _ (by decide), setWidth_append_eq _ _ (by decide),
          setWidth_append_eq _ _ (by decide)]
        simp only [BitVec.shiftLeft_or_distrib, ← BitVec.shiftLeft_add]
        rfl

theorem rvcExpand_of_fields {c funct3 rs1 rx off : Word} (hq : c &&& 0x3 = 0x0)
    (hfunct3 : c >>> 13 &&& 0x7 = funct3) (hrs1 : 8 + (c >>> 7 &&& 0x7) = rs1)
    (hrx : 8 + (c >>> 2 &&& 0x7) = rx)
    (hoff : (c >>> 10 &&& 0x7) <<< 3 ||| (c >>> 6 &&& 0x1) <<< 2 ||| (c >>> 5 &&& 0x1) <<< 6 =
      off) :
    rvcExpand c =
      if funct3 = 0x2 then off <<< 20 ||| rs1 <<< 15 ||| 0x2 <<< 12 ||| rx <<< 7 ||| 0x03
      else if funct3 = 0x6 then (off >>> 5) <<< 25 ||| rx <<< 20 ||| rs1 <<< 15 ||| 0x2 <<< 12 |||
        (off &&& 0x1f) <<< 7 ||| 0x23
      else 0 := by
  subst hfunct3 hrs1 hrx hoff
  rw [rvcExpand, if_neg (not_not_intro hq)]

theorem rvcExpand_compressed {c : Half} {funct3 rs1 rx : BitVec 3} {uimm : BitVec 5}
    (h : c = MemInsn.compressed funct3 rs1 rx uimm) :
    rvcExpand (c.setWidth 32) =
      if funct3 = 0b010 then (MemInsn.cLw rx rs1 uimm).word
      else if funct3 = 0b110 then (MemInsn.cSw rx rs1 uimm).word
      else 0 := by
  obtain ⟨hfunct3, hhi, hrs1, hlo, htop, hrx, hq⟩ := compressed_fields h
  have hlow : c.setWidth 32 &&& 0x3 = 0x0 := by
    rw [← BitVec.ushiftRight_zero (c.setWidth 32)]
    exact (shift_and_half c 0 2 (by decide)).trans (congrArg _ hq)
  have hkind : c.setWidth 32 >>> 13 &&& 0x7 = funct3.setWidth 32 :=
    (shift_and_half c 13 3 (by decide)).trans (congrArg _ hfunct3)
  have hregister {k : Nat} {r : BitVec 3} (hr : c.extractLsb' k 3 = r) :
      8 + (c.setWidth 32 >>> k &&& 0x7) = (0b01#2 ++ r).setWidth 32 := by
    rw [show c.setWidth 32 >>> k &&& 0x7 = _ from shift_and_half c k 3 (by decide), hr]
    exact register_compressed r
  have hoff : (c.setWidth 32 >>> 10 &&& 0x7) <<< 3 ||| (c.setWidth 32 >>> 6 &&& 0x1) <<< 2 |||
      (c.setWidth 32 >>> 5 &&& 0x1) <<< 6 = (0b00000#5 ++ uimm ++ 0b00#2).setWidth 32 := by
    rw [show c.setWidth 32 >>> 10 &&& 0x7 = _ from shift_and_half c 10 3 (by decide),
      show c.setWidth 32 >>> 6 &&& 0x1 = _ from shift_and_half c 6 1 (by decide),
      show c.setWidth 32 >>> 5 &&& 0x1 = _ from shift_and_half c 5 1 (by decide), hhi, hlo, htop]
    exact offset_compressed uimm
  obtain ⟨hupper, hlower⟩ := offset_parts uimm
  rw [rvcExpand_of_fields hlow hkind (hregister hrs1) (hregister hrx) hoff, hupper,
    hlower, load_word, store_word]
  obtain ⟨hload, hstore⟩ := funct3_compressed funct3
  exact if_congr hload rfl (if_congr hstore rfl rfl)

/-- `trap_decode` finds the instruction at `mepc`. -/
theorem trapDecode_at {i : MemInsn} {trap : GuestTrap} (hi : i.At mem trap.frame.mepc)
    (hc : trap.cause ≠ 2) :
    trapDecode mem trap = some { trap with encoding := i.word, length := i.length } := by
  have hword (hw : mem.load16 (trap.frame.mepc + 2) ++ mem.load16 trap.frame.mepc = i.word)
      (hl : i.length = 4) (ho : i.word.toNat % 32 = 3) :
      trapDecode mem trap = some { trap with encoding := i.word, length := i.length } := by
    have hlow : (mem.load16 trap.frame.mepc).toNat % 32 = 3 := by
      have := congrArg BitVec.toNat hw
      rw [toNat_append_eq] at this
      omega
    rw [trapDecode, if_neg hc, guestFetch_eq, if_neg (by omega), if_neg (by omega), hw, hl]
    rfl
  have hhalf (hw : rvcExpand ((mem.load16 trap.frame.mepc).setWidth 32) = i.word)
      (hl : i.length = 2) (ho : i.word.toNat % 32 = 3)
      (hq : (mem.load16 trap.frame.mepc).toNat % 4 = 0) :
      trapDecode mem trap = some { trap with encoding := i.word, length := i.length } := by
    have hne : i.word ≠ 0 := by
      intro h0
      rw [h0] at ho
      cases ho
    rw [trapDecode, if_neg hc, guestFetch_eq, if_pos (by omega), hl]
    simp only [if_true, hw, if_neg hne]
  have hquarter {funct3 rs1 rx : BitVec 3} {uimm : BitVec 5}
      (h : mem.load16 trap.frame.mepc = MemInsn.compressed funct3 rs1 rx uimm) :
      (mem.load16 trap.frame.mepc).toNat % 4 = 0 := by
    obtain ⟨-, -, -, -, -, -, hq⟩ := compressed_fields h
    have := congrArg BitVec.toNat hq
    rw [toNat_extract_eq, Nat.pow_zero, Nat.div_one] at this
    exact this
  cases i with
  | load op rd rs1 imm =>
      apply hword hi rfl
      rw [MemInsn.word, Rv32.iType_toNat, show (0x03 : BitVec 7).toNat = 0x03 from rfl]
      omega
  | store op rs2 rs1 imm =>
      apply hword hi rfl
      rw [MemInsn.word, Rv32.sType_toNat, show (0x23 : BitVec 7).toNat = 0x23 from rfl]
      omega
  | cLw rd rs1 uimm =>
      apply hhalf (rvcExpand_compressed hi) rfl ?_ (hquarter hi)
      rw [MemInsn.word, Rv32.iType_toNat, show (0x03 : BitVec 7).toNat = 0x03 from rfl]
      omega
  | cSw rs2 rs1 uimm =>
      apply hhalf (rvcExpand_compressed hi) rfl ?_ (hquarter hi)
      rw [MemInsn.word, Rv32.sType_toNat, show (0x23 : BitVec 7).toNat = 0x23 from rfl]
      omega

theorem decodeAccess_load (op : Load) (rd rs1 : BitVec 5) (imm : BitVec 12) :
    decodeAccess (Rv32.iType imm rs1 op.funct3 rd 0x03) = some op.access ∧
      field (Rv32.iType imm rs1 op.funct3 rd 0x03) 7 5 = rd.toNat := by
  have hw := Rv32.iType_toNat imm rs1 op.funct3 rd 0x03
  rw [show (0x03 : BitVec 7).toNat = 3 from rfl] at hw
  have h3 := op.funct3.isLt
  have hop : (Rv32.iType imm rs1 op.funct3 rd 0x03).toNat % 128 = 3 := by omega
  have hf : (Rv32.iType imm rs1 op.funct3 rd 0x03).toNat / 2 ^ 12 % 2 ^ 3 = op.funct3.toNat := by
    omega
  constructor
  · rw [decodeAccess_eq, if_pos hop, hf]
    cases op <;> rfl
  · rw [field_eq]
    omega

theorem decodeAccess_store (op : Store) (rs2 rs1 : BitVec 5) (imm : BitVec 12) :
    decodeAccess (Rv32.sType imm rs2 rs1 op.funct3 0x23) = some op.access ∧
      field (Rv32.sType imm rs2 rs1 op.funct3 0x23) 20 5 = rs2.toNat := by
  have hw := Rv32.sType_toNat imm rs2 rs1 op.funct3 0x23
  rw [show (0x23 : BitVec 7).toNat = 0x23 from rfl] at hw
  have h3 := op.funct3.isLt
  have himm : imm.toNat % 2 ^ 5 < 2 ^ 5 := Nat.mod_lt _ (by decide)
  have hop : (Rv32.sType imm rs2 rs1 op.funct3 0x23).toNat % 128 = 0x23 := by omega
  have hf : (Rv32.sType imm rs2 rs1 op.funct3 0x23).toNat / 2 ^ 12 % 2 ^ 3 = op.funct3.toNat := by
    omega
  constructor
  · rw [decodeAccess_eq, if_neg (by omega), if_pos hop, hf]
    cases op <;> rfl
  · have hhigh : (Rv32.sType imm rs2 rs1 op.funct3 0x23).toNat / 2 ^ 20 =
        imm.toNat / 2 ^ 5 * 2 ^ 5 + rs2.toNat := by omega
    have h2 := rs2.isLt
    rw [field_eq, hhigh]
    omega

theorem load_of_key {a : Access} (h : Access.ofKey (w.toNat / 2 ^ 12 % 2 ^ 3) = some a) :
    ∃ op : Load, w.toNat / 2 ^ 12 % 2 ^ 3 = op.funct3.toNat := by
  have hlt : w.toNat / 2 ^ 12 % 2 ^ 3 < 2 ^ 3 := Nat.mod_lt _ (by decide)
  generalize w.toNat / 2 ^ 12 % 2 ^ 3 = k at h hlt ⊢
  match k, hlt with
  | 0, _ => exact ⟨.lb, rfl⟩
  | 1, _ => exact ⟨.lh, rfl⟩
  | 2, _ => exact ⟨.lw, rfl⟩
  | 3, _ => cases h
  | 4, _ => exact ⟨.lbu, rfl⟩
  | 5, _ => exact ⟨.lhu, rfl⟩
  | 6, _ => cases h
  | 7, _ => cases h

theorem store_of_key {a : Access} (h : Access.ofKey (w.toNat / 2 ^ 12 % 2 ^ 3 + 8) = some a) :
    ∃ op : Store, w.toNat / 2 ^ 12 % 2 ^ 3 = op.funct3.toNat := by
  have hlt : w.toNat / 2 ^ 12 % 2 ^ 3 < 2 ^ 3 := Nat.mod_lt _ (by decide)
  generalize w.toNat / 2 ^ 12 % 2 ^ 3 = k at h hlt ⊢
  match k, hlt with
  | 0, _ => exact ⟨.sb, rfl⟩
  | 1, _ => exact ⟨.sh, rfl⟩
  | 2, _ => exact ⟨.sw, rfl⟩
  | 3, _ => cases h
  | 4, _ => cases h
  | 5, _ => cases h
  | 6, _ => cases h
  | 7, _ => cases h

/-- Whatever 32 bits the switch accepts are a load or a store. -/
theorem exists_word {a : Access} (h : decodeAccess w = some a) :
    (∃ op rd rs1 imm, w = Rv32.iType imm rs1 (Load.funct3 op) rd 0x03) ∨
      ∃ op rs2 rs1 imm, w = Rv32.sType imm rs2 rs1 (Store.funct3 op) 0x23 := by
  rw [decodeAccess_eq] at h
  have hlt := w.isLt
  split at h
  · rename_i hop
    obtain ⟨op, hf⟩ := load_of_key h
    refine .inl ⟨op, w.extractLsb' 7 5, w.extractLsb' 15 5, w.extractLsb' 20 12, ?_⟩
    apply BitVec.eq_of_toNat_eq
    rw [Rv32.iType_toNat, ← hf, toNat_extract_eq, toNat_extract_eq, toNat_extract_eq,
      show (0x03 : BitVec 7).toNat = 3 from rfl]
    omega
  · split at h
    · rename_i hop
      obtain ⟨op, hf⟩ := store_of_key h
      refine .inr ⟨op, w.extractLsb' 20 5, w.extractLsb' 15 5,
        w.extractLsb' 25 7 ++ w.extractLsb' 7 5, ?_⟩
      apply BitVec.eq_of_toNat_eq
      rw [Rv32.sType_toNat, ← hf, toNat_append_eq, toNat_extract_eq, toNat_extract_eq,
        toNat_extract_eq, toNat_extract_eq, show (0x23 : BitVec 7).toNat = 0x23 from rfl]
      omega
    · cases h

/-- What `rvc_expand` accepts is a `c.lw` or a `c.sw`. -/
theorem exists_compressed {c : Half} (h : rvcExpand (c.setWidth 32) ≠ 0) :
    (∃ rd rs1 uimm, c = MemInsn.compressed 0b010 rs1 rd uimm) ∨
      ∃ rs2 rs1 uimm, c = MemInsn.compressed 0b110 rs1 rs2 uimm := by
  have hq : c.extractLsb' 0 2 = 0b00 := by
    by_contra hne
    have hand : c.setWidth 32 &&& 0x3 ≠ 0x0 := by
      intro h0
      apply hne
      apply BitVec.eq_of_toNat_eq
      have := congrArg BitVec.toNat h0
      rw [show (0x3 : Word) = BitVec.ofNat 32 (2 ^ 2 - 1) from rfl, and_low _ 2 (by decide),
        half_toNat] at this
      rw [toNat_extract_eq, Nat.pow_zero, Nat.div_one]
      exact this
    exact h (if_pos hand)
  obtain ⟨funct3, rs1, rx, uimm, hc⟩ := exists_fields hq
  rw [rvcExpand_compressed hc] at h
  split at h
  · rename_i hload
    exact .inl ⟨rx, rs1, uimm, hload ▸ hc⟩
  · split at h
    · rename_i hstore
      exact .inr ⟨rx, rs1, uimm, hstore ▸ hc⟩
    · exact absurd rfl h

/-- An instruction that gets as far as a device is one of these. -/
theorem exists_at {trap trap' : GuestTrap} {a : Access} (hc : trap.cause ≠ 2)
    (hd : trapDecode mem trap = some trap') (ha : decodeAccess trap'.encoding = some a) :
    ∃ i : MemInsn, i.At mem trap.frame.mepc := by
  rw [trapDecode, if_neg hc, guestFetch_eq] at hd
  by_cases h4 : (mem.load16 trap.frame.mepc).toNat % 4 ≠ 3
  · rw [if_pos h4] at hd
    simp only [if_true] at hd
    split at hd
    · cases hd
    · rename_i hne
      rcases exists_compressed hne with ⟨rd, rs1, uimm, h⟩ | ⟨rs2, rs1, uimm, h⟩
      · exact ⟨.cLw rd rs1 uimm, h⟩
      · exact ⟨.cSw rs2 rs1 uimm, h⟩
  · rw [if_neg h4] at hd
    split at hd
    · cases hd
    · rename_i enc len hfetch
      split at hfetch
      · cases hfetch
      · obtain ⟨rfl, rfl⟩ := Prod.mk.inj (Option.some.inj hfetch)
        rw [if_neg (by decide)] at hd
        obtain rfl := Option.some.inj hd
        rcases exists_word ha with ⟨op, rd, rs1, imm, h⟩ | ⟨op, rs2, rs1, imm, h⟩
        · exact ⟨.load op rd rs1 imm, h⟩
        · exact ⟨.store op rs2 rs1 imm, h⟩

end Decode

/-! ## The access -/

theorem mmioFind_window (device : MmioDevice) (address : Word) :
    (device.base ≤ address ∧ address < device.base + device.size) ↔ device.Owns address := by
  unfold MmioDevice.Owns Covers
  rw [BitVec.le_def, BitVec.lt_def, BitVec.toNat_sub]
  have := address.isLt
  cases device <;>
    simp only [MmioDevice.base, MmioDevice.size, BitVec.reduceAdd, BitVec.reduceToNat] <;> omega

theorem owns_unique {d e : MmioDevice} {address : Word} (hd : d.Owns address)
    (he : e.Owns address) :
    d = e := by
  rw [← mmioFind_window, BitVec.le_def, BitVec.lt_def] at hd he
  cases d <;> cases e <;>
    simp only [MmioDevice.base, MmioDevice.size, BitVec.reduceAdd, BitVec.reduceToNat] at hd he <;>
    first | rfl | omega

/-- The windows do not overlap, so the search order does not matter. -/
theorem mmioFind_iff {device : MmioDevice} {address : Word} :
    mmioFind address = some device ↔ device.Owns address := by
  constructor
  · intro h
    have := List.find?_some h
    rw [decide_eq_true_iff] at this
    exact (mmioFind_window device address).mp this
  · intro h
    cases hf : mmioFind address with
    | none =>
        have hnone := List.find?_eq_none.mp hf device (by cases device <;> decide)
        rw [decide_eq_true_iff, mmioFind_window] at hnone
        exact absurd h hnone
    | some e =>
        have := List.find?_some hf
        rw [decide_eq_true_iff, mmioFind_window] at this
        rw [owns_unique this h]

section Access

variable {mem : Mem} {sd : Sd} {sleeps : List (List HostEvent)} {frame : RvExcFrame} {m : Monitor}
  {device : MmioDevice}

theorem hypervisor_mmio (hc : frame.mcause = 5 ∨ frame.mcause = 7) (hw : device.Owns frame.mtval) :
    hypervisor true mem sd sleeps frame m =
      some (trapExit (hypervisorMmio mem sd (guestTrap frame) m).1
        (hypervisorMmio mem sd (guestTrap frame) m).2.1
        (hypervisorMmio mem sd (guestTrap frame) m).2.2) := by
  have hint : ¬ frame.mcause &&& interruptBit ≠ 0 := by
    rcases hc with h | h <;> rw [h] <;> decide
  have h2 : ¬ (guestTrap frame).cause = 2 := by
    show ¬ frame.mcause = 2
    rcases hc with h | h <;> rw [h] <;> decide
  have h3 : ¬ (guestTrap frame).cause = 3 := by
    show ¬ frame.mcause = 3
    rcases hc with h | h <;> rw [h] <;> decide
  have hfind : mmioFind (guestTrap frame).tval = some device := mmioFind_iff.mpr hw
  have htrap : hypervisorTrap mem sd (guestTrap frame) m =
      (some (hypervisorMmio mem sd (guestTrap frame) m).1,
        (hypervisorMmio mem sd (guestTrap frame) m).2) := by
    unfold hypervisorTrap
    rw [if_neg h2, if_neg h3, if_pos (show (guestTrap frame).cause = 5 ∨ (guestTrap frame).cause = 7
      from hc), hfind]
  unfold hypervisor
  rw [if_neg (not_not_intro rfl), if_neg hint, htrap]

theorem regWrite_toNat (rd : BitVec 5) (v : Word) (frame : RvExcFrame) :
    regWrite rd.toNat v frame = { frame with x := fun i =>
      if rd.toNat ≠ 0 ∧ i = rd.toNat then v else frame.x i } := by
  unfold regWrite
  by_cases h : rd.toNat = 0
  · simp only [h, ne_eq, not_true_eq_false, false_and, if_false]
  · simp only [ne_eq, h, not_false_eq_true, true_and, if_true]

theorem regRead_toNat (rs2 : BitVec 5) (frame : RvExcFrame) :
    regRead frame rs2.toNat = if rs2 = 0 then 0 else frame.x rs2.toNat := by
  unfold regRead
  by_cases h : rs2 = 0
  · rw [if_pos h, h]
    rfl
  · rw [if_neg h]
    exact if_pos fun h0 => h (BitVec.eq_of_toNat_eq h0)

theorem MemInsn.perform_expand (i : MemInsn) (offset : Word) :
    i.expand.perform sd device offset frame m = i.perform sd device offset frame m := by
  have hreg (r : BitVec 3) : (0b01#2 ++ r).toNat = 8 + r.toNat := toNat_append_eq _ _
  cases i with
  | load op rd rs1 imm => rfl
  | store op rs2 rs1 imm => rfl
  | cLw rd rs1 uimm =>
      have hne : ¬ 8 + rd.toNat = 0 := by omega
      simp only [expand, perform, ne_eq, hreg, hne, not_false_eq_true, true_and]
      rfl
  | cSw rs2 rs1 uimm =>
      have hne : 0b01#2 ++ rs2 ≠ 0 := by
        intro h
        have := congrArg BitVec.toNat h
        rw [hreg] at this
        exact absurd this (Nat.ne_of_gt (Nat.lt_of_lt_of_le (by decide) (Nat.le_add_right 8 _)))
      simp only [expand, perform, hreg]
      rw [if_neg hne]
      rfl

section Emulate

variable {length : Word}

theorem hypervisorMmio_load {op : Load} {rd rs1 : BitVec 5} {imm : BitVec 12}
    (hw : device.Owns frame.mtval)
    (hd : trapDecode mem (guestTrap frame) = some { guestTrap frame with
      encoding := (MemInsn.load op rd rs1 imm).word, length }) :
    hypervisorMmio mem sd (guestTrap frame) m =
      let after := (MemInsn.load op rd rs1 imm).perform sd device
        (frame.mtval - device.base) frame m
      (.advance, { guestTrap frame with
        frame := after.1, encoding := (MemInsn.load op rd rs1 imm).word, length }, after.2) := by
  have hf : mmioFind (guestTrap frame).tval = some device := mmioFind_iff.mpr hw
  obtain ⟨ha, hrd⟩ := decodeAccess_load op rd rs1 imm
  unfold hypervisorMmio
  rw [hf, hd]
  dsimp only
  rw [MemInsn.word, ha, hrd]
  dsimp only
  rw [if_neg (by cases op <;> decide), regWrite_toNat]
  rfl

theorem hypervisorMmio_store {op : Store} {rs2 rs1 : BitVec 5} {imm : BitVec 12}
    (hw : device.Owns frame.mtval)
    (hd : trapDecode mem (guestTrap frame) = some { guestTrap frame with
      encoding := (MemInsn.store op rs2 rs1 imm).word, length }) :
    hypervisorMmio mem sd (guestTrap frame) m =
      let after := (MemInsn.store op rs2 rs1 imm).perform sd device
        (frame.mtval - device.base) frame m
      (.advance, { guestTrap frame with
        frame := after.1, encoding := (MemInsn.store op rs2 rs1 imm).word, length }, after.2) := by
  have hf : mmioFind (guestTrap frame).tval = some device := mmioFind_iff.mpr hw
  obtain ⟨ha, hrs⟩ := decodeAccess_store op rs2 rs1 imm
  unfold hypervisorMmio
  rw [hf, hd]
  dsimp only
  rw [MemInsn.word, ha, hrs]
  dsimp only
  rw [if_pos (by cases op <;> rfl), regRead_toNat]
  rfl

end Emulate

/-- The emulated access is the instruction's own. -/
theorem hypervisorMmio_at {i : MemInsn} (hc : frame.mcause ≠ 2) (hw : device.Owns frame.mtval)
    (hi : i.At mem frame.mepc) :
    hypervisorMmio mem sd (guestTrap frame) m =
      let after := i.perform sd device (frame.mtval - device.base) frame m
      (.advance, { guestTrap frame with
        frame := after.1, encoding := i.word, length := i.length }, after.2) := by
  have hd : trapDecode mem (guestTrap frame) = _ := trapDecode_at hi hc
  have hx : i.expand.perform sd device (frame.mtval - device.base) frame m = _ :=
    i.perform_expand _
  cases i with
  | load op rd rs1 imm => exact hypervisorMmio_load hw hd
  | store op rs2 rs1 imm => exact hypervisorMmio_store hw hd
  | cLw rd rs1 uimm =>
      rw [← hx]
      exact hypervisorMmio_load hw hd
  | cSw rs2 rs1 uimm =>
      rw [← hx]
      exact hypervisorMmio_store hw hd

theorem hypervisorMmio_other (hc : frame.mcause ≠ 2) (hw : device.Owns frame.mtval)
    (hi : ∀ i : MemInsn, ¬ i.At mem frame.mepc) :
    (hypervisorMmio mem sd (guestTrap frame) m).1 = .unhandled ∧
      (hypervisorMmio mem sd (guestTrap frame) m).2.1.frame = frame ∧
      (hypervisorMmio mem sd (guestTrap frame) m).2.2 = m := by
  have hf : mmioFind (guestTrap frame).tval = some device := mmioFind_iff.mpr hw
  unfold hypervisorMmio
  rw [hf]
  dsimp only
  cases hd : trapDecode mem (guestTrap frame) with
  | none => exact ⟨rfl, rfl, rfl⟩
  | some trap =>
      dsimp only
      cases ha : decodeAccess trap.encoding with
      | none => exact ⟨rfl, (trapDecode_frame hd).1, rfl⟩
      | some access =>
          obtain ⟨i, h⟩ := exists_at hc hd ha
          exact absurd h (hi i)

variable (mem sd sleeps m) in
/-- A fault in a device's window is one operation of that device, the access of the
instruction at `mepc`; no instruction but a load or store gets as far as the
device. -/
theorem hypervisor_access (hc : frame.mcause = 5 ∨ frame.mcause = 7)
    (hw : device.Owns frame.mtval) :
    (∀ i : MemInsn, i.At mem frame.mepc →
      let after := i.perform sd device (frame.mtval - device.base) frame m
      hypervisor true mem sd sleeps frame m = some (true,
        hypDeliverPending ({ after.1 with mepc := frame.mepc + i.length }, after.2))) ∧
    (∀ i : MemInsn, i.expand.perform sd device (frame.mtval - device.base) frame m =
      i.perform sd device (frame.mtval - device.base) frame m) ∧
    ((∀ i : MemInsn, ¬ i.At mem frame.mepc) →
      hypervisor true mem sd sleeps frame m = some (false, frame, m)) := by
  have hn2 : frame.mcause ≠ 2 := by
    rcases hc with h | h <;> rw [h] <;> decide
  refine ⟨?_, fun i => i.perform_expand _, ?_⟩
  · intro i hi
    have hmepc : (i.perform sd device (frame.mtval - device.base) frame m).1.mepc = frame.mepc := by
      cases i <;> rfl
    rw [hypervisor_mmio hc hw, hypervisorMmio_at hn2 hw hi]
    dsimp only [trapExit, trapResume]
    rw [if_neg i.length_ne_zero, hmepc]
  · intro hi
    obtain ⟨hr, hframe, hm⟩ : (hypervisorMmio mem sd (guestTrap frame) m).1 = _ ∧ _ :=
      hypervisorMmio_other hn2 hw hi
    rw [hypervisor_mmio hc hw, hr, trapExit]
    dsimp only [trapResume]
    rw [hframe, hm]

end Access

/-- A memory that holds a word at `pc`. -/
def insnAt (pc word : Word) : Mem := fun a => (word >>> (8 * (a - pc).toNat)).setWidth 8

/-- A load access fault at `mtval`. -/
def loadFault (mtval : Word) : RvExcFrame := ⟨0x48000000, fun _ => 0, 5, mtval⟩

/-- `lw a0, 0(a1)` of the low half of `mtimecmp`. -/
theorem hypervisor_access_lw : ∃ r,
    hypervisor true (insnAt 0x48000000 0x0005a503) (smallSd true) [] (loadFault 0x02004000) .boot =
      some (true, r) ∧ r.1.mepc = 0x48000004 ∧ r.1.x 10 = 0xffffffff ∧ r.1.x 11 = 0 := by
  have hat : (MemInsn.load .lw 10 11 0).At (insnAt 0x48000000 0x0005a503)
      (loadFault 0x02004000).mepc := by
    unfold MemInsn.At
    decide +kernel
  have hw : MmioDevice.clint.Owns (loadFault 0x02004000).mtval := by decide
  have hc : (loadFault 0x02004000).mcause = 5 ∨ (loadFault 0x02004000).mcause = 7 := .inl rfl
  have h := (hypervisor_access (insnAt 0x48000000 0x0005a503) (smallSd true) [] .boot hc hw).1 _ hat
  refine ⟨_, h, ?_⟩
  decide +kernel

end P4Hyp
