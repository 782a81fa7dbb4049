import P4Hyp.LoadStore

/-!
# Narrow loads

What a load leaves in its register, against what its width asks for.
-/

namespace P4Hyp

/-- What a load should leave of the device's value. -/
def Load.result (v : Word) : Load → Word
  | lb => (v.setWidth 8).signExtend 32
  | lh => (v.setWidth 16).signExtend 32
  | lw => v
  | lbu => (v.setWidth 8).setWidth 32
  | lhu => (v.setWidth 16).setWidth 32

def Load.unsigned : Load → Bool
  | lbu | lhu => true
  | _ => false

/-- The register at `offset`, where the device does not cut it to the width of the
access, holds `bits` bits at most. -/
def MmioDevice.Fits (offset : Word) (bits : Nat) (m : Monitor) : MmioDevice → Prop
  | clint =>
      (offset = 0x4000 → m.clint.shadowMtimecmp.toNat % 2 ^ 32 < 2 ^ bits) ∧
      (offset = 0x4004 → m.clint.shadowMtimecmp.toNat / 2 ^ 32 < 2 ^ bits) ∧
      (offset = 0xbff8 → m.clint.systimer.counter.toNat % 2 ^ 32 < 2 ^ bits) ∧
      (offset = 0xbffc → m.clint.systimer.counter.toNat / 2 ^ 32 < 2 ^ bits)
  | uart => True
  | plic =>
      (offset.toNat / 4 ≤ plicMaxSource →
        (m.dev.plic.priority (offset.toNat / 4)).toNat < 2 ^ bits) ∧
      (offset = 0x1000 → m.dev.plic.pending.toNat < 2 ^ bits) ∧
      (offset = 0x2000 → m.dev.plic.enable.toNat < 2 ^ bits) ∧
      (offset = 0x200000 → m.dev.plic.threshold.toNat < 2 ^ bits)
  | vblk =>
      (offset = VirtioMmio.magicValue.offset → virtioMmioMagic.toNat < 2 ^ bits) ∧
      (offset = VirtioMmio.vendorId.offset → hypVirtioVendor.toNat < 2 ^ bits) ∧
      (offset = VirtioMmio.queuePfn.offset → m.dev.blk.queuePfn.toNat < 2 ^ bits) ∧
      (offset = VirtioMmio.interruptStatus.offset →
        m.dev.blk.interruptStatus.toNat < 2 ^ bits) ∧
      (offset = VirtioMmio.status.offset → m.dev.blk.status.toNat < 2 ^ bits)

section Reads

variable {offset : Word} {width : Nat} {m : Monitor}

/-- Another byte below the width keeps the value below it. -/
theorem or_byte_lt {v : Word} {b : Byte} {i : Nat} (hv : v.toNat < 2 ^ (8 * width))
    (hi : i < width) :
    (v ||| b.setWidth 32 <<< (8 * i)).toNat < 2 ^ (8 * width) := by
  rw [BitVec.toNat_or]
  apply Nat.or_lt_two_pow hv
  rw [BitVec.toNat_shiftLeft, Nat.shiftLeft_eq]
  refine Nat.lt_of_le_of_lt (Nat.mod_le _ _) ?_
  have hb : (b.setWidth 32).toNat < 2 ^ 8 := by
    rw [BitVec.toNat_setWidth]
    have := b.isLt
    omega
  calc (b.setWidth 32).toNat * 2 ^ (8 * i)
      < 2 ^ 8 * 2 ^ (8 * i) := Nat.mul_lt_mul_of_pos_right hb (Nat.two_pow_pos _)
    _ = 2 ^ (8 * (i + 1)) := by rw [← Nat.pow_add, Nat.mul_succ, Nat.add_comm]
    _ ≤ 2 ^ (8 * width) := Nat.pow_le_pow_right (by decide) (by omega)

theorem uartRead_lt (c : Console) : (uartRead offset width c).1.toNat < 2 ^ (8 * width) := by
  unfold uartRead
  refine List.foldlRecOn (motive := fun vc : Word × Console => vc.1.toNat < 2 ^ (8 * width))
    _ _ (Nat.two_pow_pos _) fun vc hvc i hi => ?_
  exact or_byte_lt hvc (List.mem_range.mp hi)

theorem blkConfig_read_lt (sd : Sd) (o : Word) (is : List Nat) (his : ∀ i ∈ is, i < width) :
    (is.foldl (fun value i =>
      value ||| ((blkConfig sd (o + BitVec.ofNat 32 i).toNat).setWidth 32 <<< (8 * i)))
        0#32).toNat <
      2 ^ (8 * width) := by
  refine List.foldlRecOn (motive := fun v : Word => v.toNat < 2 ^ (8 * width))
    _ _ (Nat.two_pow_pos _) fun v hv i hi => ?_
  exact or_byte_lt hv (his i hi)

theorem clintRead_lt {bits : Nat} : (clintRead offset m.clint).toNat < 2 ^ bits ↔
    MmioDevice.clint.Fits offset bits m := by
  unfold clintRead MmioDevice.Fits
  have hlow (x : BitVec 64) : (x.setWidth 32).toNat = x.toNat % 2 ^ 32 := BitVec.toNat_setWidth ..
  have hhigh (x : BitVec 64) : ((x >>> 32).setWidth 32).toNat = x.toNat / 2 ^ 32 := by
    rw [BitVec.toNat_setWidth, BitVec.toNat_ushiftRight, Nat.shiftRight_eq_div_pow]
    have := x.isLt
    omega
  have htime : (hypMtime m.clint).toNat = m.clint.systimer.counter.toNat := by
    unfold hypMtime
    rw [BitVec.toNat_setWidth]
    have := m.clint.systimer.counter.isLt
    omega
  split
  · rename_i h
    simp [h, hlow]
  · rename_i h1
    split
    · rename_i h
      simp [h, hhigh]
    · rename_i h2
      split
      · rename_i h
        simp [h, hlow, htime]
      · rename_i h3
        split
        · rename_i h
          simp [h, hhigh, htime]
        · rename_i h4
          exact iff_of_true (Nat.two_pow_pos _) ⟨fun h => absurd h h1, fun h => absurd h h2,
            fun h => absurd h h3, fun h => absurd h h4⟩

theorem plicRead_lt {bits : Nat} (hbits : 8 ≤ bits) :
    (plicRead offset m.dev.plic).1.toNat < 2 ^ bits ↔ MmioDevice.plic.Fits offset bits m := by
  unfold plicRead MmioDevice.Fits
  have hpos : 2 ^ 8 ≤ 2 ^ bits := Nat.pow_le_pow_right (by decide) hbits
  have hpeek : (BitVec.ofNat 32 (plicPeek m.dev.plic)).toNat < 2 ^ bits := by
    rw [BitVec.toNat_ofNat]
    rcases plicPeek_claimable m.dev.plic with h | ⟨-, h, -⟩
    · omega
    · unfold plicMaxSource at h
      omega
  have hzero : (0 : Word).toNat < 2 ^ bits := Nat.two_pow_pos _
  by_cases h1 : offset < 0x1000
  · rw [if_pos h1]
    rw [BitVec.lt_def] at h1
    have hne (o : Word) (ho : 0x1000 ≤ o.toNat) : offset ≠ o := by
      rintro rfl
      exact absurd h1 (Nat.not_lt.mpr ho)
    dsimp only
    split
    · rename_i hn
      exact ⟨fun h => ⟨fun _ => h, fun h => absurd h (hne _ (by decide)),
        fun h => absurd h (hne _ (by decide)), fun h => absurd h (hne _ (by decide))⟩,
        fun h => h.1 hn⟩
    · rename_i hn
      exact iff_of_true hzero ⟨fun h => absurd h hn, fun h => absurd h (hne _ (by decide)),
        fun h => absurd h (hne _ (by decide)), fun h => absurd h (hne _ (by decide))⟩
  · have hn : ¬ offset.toNat / 4 ≤ plicMaxSource := by
      rw [BitVec.lt_def, show (0x1000 : Word).toNat = 0x1000 from rfl] at h1
      unfold plicMaxSource
      omega
    by_cases e1 : offset = 0x1000
    · subst e1
      exact ⟨fun h => ⟨fun h' => absurd h' hn, fun _ => h, fun h' => absurd h' (by decide),
        fun h' => absurd h' (by decide)⟩, fun h => h.2.1 rfl⟩
    · by_cases e2 : offset = 0x2000
      · subst e2
        exact ⟨fun h => ⟨fun h' => absurd h' hn, fun h' => absurd h' e1, fun _ => h,
          fun h' => absurd h' (by decide)⟩, fun h => h.2.2.1 rfl⟩
      · by_cases e3 : offset = 0x200000
        · subst e3
          exact ⟨fun h => ⟨fun h' => absurd h' hn, fun h' => absurd h' e1, fun h' => absurd h' e2,
            fun _ => h⟩, fun h => h.2.2.2 rfl⟩
        · refine iff_of_true ?_ ⟨fun h' => absurd h' hn, fun h' => absurd h' e1,
            fun h' => absurd h' e2, fun h' => absurd h' e3⟩
          rw [if_neg h1]
          split
          · exact hzero
          · split
            · exact hzero
            · split
              · split
                · exact hpeek
                · exact hzero
              · exact hzero

theorem hypVirtioBlkRead_lt {sd : Sd} (hw : 1 ≤ width) (hw4 : width ≤ 4) :
    (hypVirtioBlkRead sd m.dev.blk offset (BitVec.ofNat 32 width)).toNat < 2 ^ (8 * width) ↔
      MmioDevice.vblk.Fits offset (8 * width) m := by
  have hpos : 2 ^ 8 ≤ 2 ^ (8 * width) := Nat.pow_le_pow_right (by decide) (by omega)
  unfold hypVirtioBlkRead MmioDevice.Fits
  by_cases hcfg : virtioMmioConfig ≤ offset
  · rw [if_pos hcfg]
    have hne (r : VirtioMmio) : offset ≠ r.offset := by
      rintro rfl
      revert hcfg
      cases r <;> decide
    refine iff_of_true (blkConfig_read_lt _ _ _ fun i hi => ?_) ⟨fun h => absurd h (hne _),
      fun h => absurd h (hne _), fun h => absurd h (hne _), fun h => absurd h (hne _),
      fun h => absurd h (hne _)⟩
    have := List.mem_range.mp (List.takeWhile_subset _ hi)
    rw [BitVec.toNat_ofNat] at this
    omega
  · rw [if_neg hcfg]
    cases ho : VirtioMmio.ofOffset offset with
    | none =>
        have hne (r : VirtioMmio) : offset ≠ r.offset := by
          rintro rfl
          rw [VirtioMmio.ofOffset_offset] at ho
          cases ho
        exact iff_of_true (Nat.two_pow_pos _) ⟨fun h => absurd h (hne _),
          fun h => absurd h (hne _), fun h => absurd h (hne _), fun h => absurd h (hne _),
          fun h => absurd h (hne _)⟩
    | some r =>
        have hfind : VirtioMmio.all.find? (fun r => r.offset = offset) = some r := ho
        obtain rfl : r.offset = offset := by simpa using List.find?_some hfind
        have hid : virtioIdBlock.toNat < 2 ^ (8 * width) := Nat.lt_of_lt_of_le (by decide) hpos
        have hsize : hypVqSize.toNat < 2 ^ (8 * width) := Nat.lt_of_lt_of_le (by decide) hpos
        have hw0 : width ≠ 0 := Nat.ne_of_gt hw
        cases r <;> simp [VirtioMmio.offset, hid, hsize, hw0]

theorem read_lt {sd : Sd} (hw : 1 ≤ width) (hw4 : width ≤ 4) (device : MmioDevice) :
    (device.read sd offset width m).1.toNat < 2 ^ (8 * width) ↔
      device.Fits offset (8 * width) m := by
  cases device with
  | clint => exact clintRead_lt
  | uart => exact iff_of_true (uartRead_lt _) trivial
  | plic => exact plicRead_lt (by omega)
  | vblk => exact hypVirtioBlkRead_lt hw hw4

end Reads

theorem setWidth_eq_iff {v : Word} {n : Nat} (hn : n ≤ 32) :
    v = (v.setWidth n).setWidth 32 ↔ v.toNat < 2 ^ n := by
  have hpow : 2 ^ n ≤ 2 ^ 32 := Nat.pow_le_pow_right (by decide) hn
  have hmod : v.toNat % 2 ^ n < 2 ^ n := Nat.mod_lt _ (Nat.two_pow_pos n)
  rw [← BitVec.toNat_inj, BitVec.toNat_setWidth, BitVec.toNat_setWidth,
    Nat.mod_eq_of_lt (Nat.lt_of_lt_of_le hmod hpow)]
  exact ⟨fun h => h ▸ hmod, fun h => (Nat.mod_eq_of_lt h).symm⟩

/-- An unsigned narrow load keeps the whole value, so it is right where the value is
narrow already. -/
theorem extend_eq_iff (op : Load) (v : Word) : op.access.extend v = op.result v ↔
    (op.unsigned = true → v.toNat < 2 ^ (8 * op.access.width)) := by
  cases op with
  | lb => exact iff_of_true rfl nofun
  | lh => exact iff_of_true rfl nofun
  | lw => exact iff_of_true rfl nofun
  | lbu => exact (setWidth_eq_iff (n := 8) (by decide)).trans ⟨fun h _ => h, fun h => h rfl⟩
  | lhu => exact (setWidth_eq_iff (n := 16) (by decide)).trans ⟨fun h _ => h, fun h => h rfl⟩

section Loads

variable {mem : Mem} {frame : RvExcFrame} {device : MmioDevice} {op : Load} {rd rs1 : BitVec 5}
  {imm : BitVec 12}

/-- A trapped load is right for its width exactly where it is signed or a whole word,
or the register fits the width. -/
theorem load_result_iff (sd : Sd) (sleeps : List (List HostEvent)) (m : Monitor)
    (hc : frame.mcause = 5 ∨ frame.mcause = 7) (hw : device.Owns frame.mtval) {i : MemInsn}
    (hi : i.At mem frame.mepc) (hl : i.expand = .load op rd rs1 imm) (hrd : rd ≠ 0) :
    ∃ r, hypervisor true mem sd sleeps frame m = some (true, r) ∧
      (r.1.x rd.toNat =
          op.result (device.read sd (frame.mtval - device.base) op.access.width m).1 ↔
        (op.unsigned = true →
          device.Fits (frame.mtval - device.base) (8 * op.access.width) m)) := by
  obtain ⟨hrun, hexp, -⟩ := hypervisor_access mem sd sleeps m hc hw
  refine ⟨_, hrun i hi, ?_⟩
  have hne : rd.toNat ≠ 0 := fun h => hrd (BitVec.eq_of_toNat_eq h)
  have hx : (hypDeliverPending
      ({ (i.perform sd device (frame.mtval - device.base) frame m).1 with
        mepc := frame.mepc + i.length },
        (i.perform sd device (frame.mtval - device.base) frame m).2)).1.x rd.toNat =
      op.access.extend (device.read sd (frame.mtval - device.base) op.access.width m).1 := by
    rw [hypDeliverPending_x]
    dsimp only
    rw [← hexp i, hl]
    exact if_pos ⟨hne, rfl⟩
  rw [hx, extend_eq_iff, read_lt (by cases op <;> decide) (by cases op <;> decide)]

end Loads

/-- `lbu a0, 0(a1)` of `Version`. -/
theorem load_result_version : ∃ r,
    hypervisor true (insnAt 0x48000000 0x0005c503) (smallSd true) [] (loadFault 0x10001004) .boot =
      some (true, r) ∧ r.1.x 10 = Load.lbu.result 1 := by
  have hat : (MemInsn.load .lbu 10 11 0).At (insnAt 0x48000000 0x0005c503)
      (loadFault 0x10001004).mepc := by
    unfold MemInsn.At
    decide +kernel
  have hw : MmioDevice.vblk.Owns (loadFault 0x10001004).mtval := by decide
  have hc : (loadFault 0x10001004).mcause = 5 ∨ (loadFault 0x10001004).mcause = 7 := .inl rfl
  obtain ⟨r, hr, hiff⟩ := load_result_iff (smallSd true) [] .boot hc hw hat rfl (by decide)
  refine ⟨r, hr, hiff.mpr fun _ => ?_⟩
  unfold MmioDevice.Fits
  decide

/-- The same load of `MagicValue` leaves all four bytes. -/
theorem load_result_magic : MmioDevice.vblk.Owns (loadFault 0x10001000).mtval ∧
    (MemInsn.load .lbu 10 11 0).At (insnAt 0x48000000 0x0005c503) (loadFault 0x10001000).mepc ∧
    (hypervisor true (insnAt 0x48000000 0x0005c503) (smallSd true) [] (loadFault 0x10001000)
      .boot).map (fun r => r.2.1.x 10) = some 0x74726976 ∧ ¬ (0x74726976 : Word).toNat < 2 ^ 8 := by
  unfold MemInsn.At
  decide +kernel

end P4Hyp
