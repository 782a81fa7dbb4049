import P4Hyp.Core

/-!
# The CSR instructions against Zicsr

The shadow bank by CSR number, and what an instruction of Zicsr does to it and to
the registers.
-/

namespace P4Hyp

namespace Slot

def number : Slot → Word
  | mstatus => 0x300
  | mie => 0x304
  | mtvec => 0x305
  | mscratch => 0x340
  | mepc => 0x341
  | mcause => 0x342
  | mtval => 0x343
  | pmpcfg i => csrPmpcfg0 + BitVec.ofNat 32 i
  | pmpaddr i => csrPmpaddr0 + BitVec.ofNat 32 i

theorem get_set (v : Word) (m : Monitor) (s t : Slot) :
    t.get (s.set v m) = if t = s then v else t.get m := by
  cases s <;> cases t <;> simp [get, set]

theorem mip_set (v : Word) (m : Monitor) (s : Slot) : (s.set v m).shadow.mip = m.shadow.mip := by
  cases s <;> rfl

end Slot

theorem some_of_ite {α : Type*} {c : Prop} [Decidable c] {a b : α} {r : Option α}
    (h : (if c then some a else r) = some b) : c ∧ a = b ∨ r = some b := by
  split at h
  · exact .inl ⟨‹c›, Option.some.inj h⟩
  · exact .inr h

theorem shadowSlot_number {csr : Word} {s : Slot} (h : shadowSlot csr = some s) :
    s.number = csr := by
  have hback (base : Word) : base + BitVec.ofNat 32 (csr - base).toNat = csr := by
    rw [BitVec.ofNat_toNat, BitVec.setWidth_eq, BitVec.add_comm, BitVec.sub_add_cancel]
  unfold shadowSlot at h
  rcases some_of_ite h with ⟨rfl, rfl⟩ | h
  · rfl
  rcases some_of_ite h with ⟨rfl, rfl⟩ | h
  · rfl
  rcases some_of_ite h with ⟨rfl, rfl⟩ | h
  · rfl
  rcases some_of_ite h with ⟨rfl, rfl⟩ | h
  · rfl
  rcases some_of_ite h with ⟨rfl, rfl⟩ | h
  · rfl
  rcases some_of_ite h with ⟨rfl, rfl⟩ | h
  · rfl
  rcases some_of_ite h with ⟨rfl, rfl⟩ | h
  · rfl
  rcases some_of_ite h with ⟨-, rfl⟩ | h
  · exact hback _
  rcases some_of_ite h with ⟨-, rfl⟩ | h
  · exact hback _
  cases h

/-- What the bank stores for a CSR. -/
def csrStored (m : Monitor) (csr : Word) : Word :=
  if csr = csrMip then m.shadow.mip
  else
    match shadowSlot csr with
    | some slot => slot.get m
    | none => 0

/-- What the guest reads of a CSR. -/
def csrValue (m : Monitor) (csr : Word) : Word :=
  if csr = csrMip then shadowMipRead m else csrStored m csr

/-- The bits of a CSR that a write reaches. -/
def csrWritable (csr : Word) : Word :=
  if csr = csrMip then ~~~(mipMtip ||| mipMeip)
  else if (shadowSlot csr).isSome then BitVec.allOnes 32
  else 0

def CsrImplemented (csr : Word) : Prop :=
  csr = csrMip ∨ (shadowSlot csr).isSome = true ∨ csrReadOnlyZero csr = true

instance (csr : Word) : Decidable (CsrImplemented csr) := inferInstanceAs (Decidable (_ ∨ _))

inductive ZicsrOp
  | swap
  | set
  | clear
  deriving DecidableEq

def ZicsrOp.apply (old src : Word) : ZicsrOp → Word
  | swap => src
  | set => old ||| src
  | clear => old &&& ~~~src

/-- An instruction of Zicsr.  The source field is a register or an immediate. -/
structure ZicsrInsn where
  op : ZicsrOp
  csr : Word
  rd : Nat
  immediate : Bool
  source : Nat

/-- The operation of a `funct3`, and whether its source is an immediate. -/
def zicsrOp : Nat → Option (ZicsrOp × Bool)
  | 1 => some (.swap, false)
  | 2 => some (.set, false)
  | 3 => some (.clear, false)
  | 5 => some (.swap, true)
  | 6 => some (.set, true)
  | 7 => some (.clear, true)
  | _ => none

/-- The instruction that a word encodes. -/
def ZicsrInsn.decode (w : Word) : Option ZicsrInsn :=
  if w &&& 0x7f ≠ 0x73 then none
  else (zicsrOp (field w 12 3)).map fun o =>
    { op := o.1, csr := w >>> 20, rd := field w 7 5, immediate := o.2, source := field w 15 5 }

namespace ZicsrInsn

def src (i : ZicsrInsn) (frame : RvExcFrame) : Word :=
  if i.immediate then BitVec.ofNat 32 i.source else regRead frame i.source

/-- A set or a clear whose source field is zero does not write. -/
def Writes (i : ZicsrInsn) : Prop := i.op = .swap ∨ i.source ≠ 0

instance (i : ZicsrInsn) : Decidable i.Writes := inferInstanceAs (Decidable (_ ∨ _))

/-- What the bank stores after a write: the new value, as far as it reaches. -/
def stored (i : ZicsrInsn) (frame : RvExcFrame) (m : Monitor) : Word :=
  i.op.apply (csrValue m i.csr) (i.src frame) &&& csrWritable i.csr

/-- The effect of an instruction on the registers and the bank. -/
structure Effect (i : ZicsrInsn) (frame : RvExcFrame) (m : Monitor) (frame' : RvExcFrame)
    (m' : Monitor) : Prop where
  regs : ∀ n, n ≠ 0 → frame'.x n = if n = i.rd then csrValue m i.csr else frame.x n
  others : frame'.mepc = frame.mepc ∧ frame'.mcause = frame.mcause ∧ frame'.mtval = frame.mtval
  bank : ∀ csr, csrStored m' csr =
    if csr = i.csr ∧ i.Writes then i.stored frame m else csrStored m csr
  rest : m' = { m with
    shadow := m'.shadow, shadowPmpcfg := m'.shadowPmpcfg, shadowPmpaddr := m'.shadowPmpaddr }

end ZicsrInsn

/-! ## The emulation -/

theorem csrStored_set {csr : Word} {s : Slot} (hs : shadowSlot csr = some s) (hmip : csr ≠ csrMip)
    (v : Word) (m : Monitor) (c : Word) :
    csrStored (s.set v m) c = if c = csr then v else csrStored m c := by
  unfold csrStored
  by_cases hc : c = csr
  · subst hc
    rw [if_pos rfl, if_neg hmip, hs]
    exact (Slot.get_set v m s s).trans (if_pos rfl)
  · rw [if_neg hc]
    by_cases hcm : c = csrMip
    · rw [if_pos hcm, if_pos hcm]
      exact Slot.mip_set v m s
    · rw [if_neg hcm, if_neg hcm]
      cases ht : shadowSlot c with
      | none => rfl
      | some t =>
          show t.get (s.set v m) = t.get m
          rw [Slot.get_set, if_neg]
          intro he
          rw [he] at ht
          exact hc ((shadowSlot_number ht).symm.trans (shadowSlot_number hs))

/-- `funct3` as the monitor takes it apart. -/
theorem zicsrOp_spec {f : Nat} {o : ZicsrOp × Bool} (h : zicsrOp f = some o) :
    f ≠ 0 ∧ f ≠ 4 ∧ (4 ≤ f ↔ o.2 = true) ∧ (f % 4 = 1 ↔ o.1 = .swap) ∧
      ∀ old src, csrUpdate f old src = o.1.apply old src := by
  unfold zicsrOp at h
  split at h
  all_goals cases h
  all_goals exact ⟨by decide, by decide, by decide, by decide, fun _ _ => rfl⟩

theorem csrAccess_zicsr {f : Nat} {o : ZicsrOp × Bool} (ho : zicsrOp f = some o) {csr : Word}
    (himpl : CsrImplemented csr) (rs1 : Nat) (src : Word) (m : Monitor) :
    ∃ m', csrAccess csr f rs1 src m = some (csrValue m csr, m') ∧
      (∀ c, csrStored m' c = if c = csr ∧ (o.1 = .swap ∨ rs1 ≠ 0) then
        o.1.apply (csrValue m csr) src &&& csrWritable csr else csrStored m c) ∧
      m' = { m with
        shadow := m'.shadow, shadowPmpcfg := m'.shadowPmpcfg, shadowPmpaddr :=
          m'.shadowPmpaddr } := by
  obtain ⟨-, -, -, hswap, hupd⟩ := zicsrOp_spec ho
  unfold csrAccess
  simp only [hupd, hswap]
  by_cases hmip : csr = csrMip
  · rw [if_pos hmip]
    have hval : csrValue m csr = shadowMipRead m := if_pos hmip
    have hwr : csrWritable csr = ~~~(mipMtip ||| mipMeip) := if_pos hmip
    rw [hval, hwr]
    by_cases hw : o.1 = .swap ∨ rs1 ≠ 0
    · rw [if_pos hw]
      refine ⟨_, rfl, fun c => ?_, rfl⟩
      by_cases hcc : c = csr
      · rw [if_pos ⟨hcc, hw⟩, hcc, csrStored, if_pos hmip]
      · rw [if_neg (fun h => hcc h.1)]
        have hcm : c ≠ csrMip := fun h => hcc (h.trans hmip.symm)
        rw [csrStored, csrStored, if_neg hcm, if_neg hcm]
        cases shadowSlot c with
        | none => rfl
        | some t => cases t <;> rfl
    · rw [if_neg hw]
      exact ⟨m, rfl, fun c => (if_neg (fun h => hw h.2)).symm, rfl⟩
  · rw [if_neg hmip]
    have hval : csrValue m csr = csrStored m csr := if_neg hmip
    cases hs : shadowSlot csr with
    | some s =>
        have hst : csrStored m csr = s.get m := by rw [csrStored, if_neg hmip, hs]
        have hwr : csrWritable csr = BitVec.allOnes 32 := by
          rw [csrWritable, if_neg hmip, hs]
          rfl
        rw [hval, hst, hwr, BitVec.and_allOnes]
        dsimp only
        by_cases hw : o.1 = .swap ∨ rs1 ≠ 0
        · rw [if_pos hw]
          refine ⟨_, rfl, fun c => ?_, slot_set_rest _ _ _⟩
          rw [csrStored_set hs hmip]
          by_cases hcc : c = csr
          · rw [if_pos hcc, if_pos ⟨hcc, hw⟩]
          · rw [if_neg hcc, if_neg (fun h => hcc h.1)]
        · rw [if_neg hw]
          exact ⟨m, rfl, fun c => (if_neg (fun h => hw h.2)).symm, rfl⟩
    | none =>
        have hzero : csrReadOnlyZero csr = true := by
          rcases himpl with h | h | h
          · exact absurd h hmip
          · rw [hs] at h
            cases h
          · exact h
        have hst : csrStored m csr = 0 := by rw [csrStored, if_neg hmip, hs]
        have hwr : csrWritable csr = 0 := by
          rw [csrWritable, if_neg hmip, hs]
          rfl
        rw [hval, hst, hwr]
        dsimp only
        rw [if_pos hzero]
        refine ⟨m, rfl, fun c => ?_, rfl⟩
        by_cases hcc : c = csr
        · rw [hcc, hst]
          split
          · exact BitVec.and_zero.symm
          · rfl
        · rw [if_neg (fun h => hcc h.1)]

/-- On every CSR that the monitor implements, the CSR instructions have the effect
of Zicsr. -/
theorem hypervisorCsr_zicsr {mem : Mem} {frame : RvExcFrame} {m : Monitor} {i : ZicsrInsn}
    (hc : frame.mcause = 2) (hi : ZicsrInsn.decode frame.mtval = some i)
    (himpl : CsrImplemented i.csr) :
    ∃ trap' m', hypervisorCsr mem (guestTrap frame) m = (some .advance, trap', m') ∧
      i.Effect frame m trap'.frame m' := by
  obtain ⟨trap, hd, he, hf, -⟩ := trapDecode_illegal mem hc
  unfold ZicsrInsn.decode at hi
  split at hi
  · cases hi
  · rename_i hop
    obtain ⟨o, ho, rfl⟩ := Option.map_eq_some_iff.mp hi
    obtain ⟨h0, h4, himm, -, -⟩ := zicsrOp_spec ho
    have hsrc : (if 4 ≤ field frame.mtval 12 3 then BitVec.ofNat 32 (field frame.mtval 15 5)
        else regRead frame (field frame.mtval 15 5)) = ZicsrInsn.src
          ⟨o.1, frame.mtval >>> 20, field frame.mtval 7 5, o.2, field frame.mtval 15 5⟩ frame := by
      simp only [himm, ZicsrInsn.src]
    obtain ⟨m', ha, hbank, hrest⟩ := csrAccess_zicsr ho himpl (field frame.mtval 15 5)
      (ZicsrInsn.src ⟨o.1, frame.mtval >>> 20, field frame.mtval 7 5, o.2, field frame.mtval 15 5⟩
        frame) m
    refine ⟨{ trap with
      frame := regWrite (field frame.mtval 7 5) (csrValue m (frame.mtval >>> 20)) frame },
      m', ?_, ?_⟩
    · unfold hypervisorCsr
      rw [hd]
      dsimp only
      rw [he, if_neg hop, if_neg h0, if_neg h4, hf, hsrc, ha]
    · refine ⟨fun n hn => ?_, ?_, hbank, hrest⟩
      · show (regWrite _ _ frame).x n = _
        unfold regWrite
        split
        · rfl
        · rename_i hrd
          rw [if_neg]
          rintro rfl
          exact hrd hn
      · show (regWrite _ _ frame).mepc = _ ∧ (regWrite _ _ frame).mcause = _ ∧
          (regWrite _ _ frame).mtval = _
        unfold regWrite
        split
        · exact ⟨rfl, rfl, rfl⟩
        · exact ⟨rfl, rfl, rfl⟩

/-- `csrrw t0, mscratch, t0`. -/
theorem hypervisorCsr_zicsr_swap : ∃ trap' m',
    hypervisorCsr (fun _ => 0) (guestTrap ⟨0x48000000, BitVec.ofNat 32, 2, 0x340292f3⟩) .boot =
        (some .advance, trap', m') ∧
      ZicsrInsn.Effect ⟨.swap, 0x340, 5, false, 5⟩ ⟨0x48000000, BitVec.ofNat 32, 2,
        0x340292f3⟩ .boot trap'.frame m' :=
  hypervisorCsr_zicsr (i := ⟨.swap, 0x340, 5, false, 5⟩) rfl (by rfl) (by decide)

end P4Hyp
