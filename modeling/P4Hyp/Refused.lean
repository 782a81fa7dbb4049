import P4Hyp.Nest

/-!
# What a refused trap leaves

A trap that `hypervisor` refuses ends in the monitor's panic.  Every refusal comes
before the first change of the guest's state, but for that of an `mret` with
nothing to return to.
-/

namespace P4Hyp

/-- An `mret` before anything was injected. -/
structure MretRefused (running : Bool) (frame : RvExcFrame) (m : Monitor) : Prop where
  running : running = true
  cause : frame.mcause = 2
  insn : frame.mtval = 0x30200073
  mepc : m.shadow.mepc = 0

/-- What an `mret` leaves, and another `mret` does not change. -/
structure MretIdle (m : Monitor) : Prop where
  user : m.guestPriv = privU
  mpp : m.shadow.mstatus &&& mstatusMpp = 0
  mpie : m.shadow.mstatus &&& mstatusMpie ≠ 0
  mie : m.shadow.mstatus &&& mstatusMie ≠ 0

instance (running : Bool) (frame : RvExcFrame) (m : Monitor) :
    Decidable (MretRefused running frame m) :=
  decidable_of_iff (running = true ∧ frame.mcause = 2 ∧ frame.mtval = 0x30200073 ∧
    m.shadow.mepc = 0)
    ⟨fun ⟨h₁, h₂, h₃, h₄⟩ => ⟨h₁, h₂, h₃, h₄⟩, fun h => ⟨h.running, h.cause, h.insn, h.mepc⟩⟩

section Mret

variable {m : Monitor}

theorem mret_mpp (m : Monitor) : m.mret.shadow.mstatus &&& mstatusMpp = 0 := by
  show (_ &&& ~~~mstatusMpp) &&& mstatusMpp = 0
  rw [BitVec.and_assoc, BitVec.and_comm (~~~mstatusMpp), BitVec.and_not_self]
  exact BitVec.and_zero

theorem mret_mpie (m : Monitor) : m.mret.shadow.mstatus.getLsbD 7 = true := by
  have h7 : mstatusMpie = bit 7 := by decide
  have hpp : mstatusMpp.getLsbD 7 = false := by decide
  show ((_ ||| mstatusMpie) &&& ~~~mstatusMpp).getLsbD 7 = true
  rw [BitVec.getLsbD_and, BitVec.getLsbD_or, h7, getLsbD_bit (by omega), BitVec.getLsbD_not, hpp]
  simp

/-- Of the bits but those three, `mret` changes none. -/
theorem mret_other {i : Nat} (h3 : i ≠ 3) (h7 : i ≠ 7) (hpp : mstatusMpp.getLsbD i = false) :
    m.mret.shadow.mstatus.getLsbD i = m.shadow.mstatus.getLsbD i := by
  have hmie : mstatusMie = bit 3 := by decide
  have hmpie : mstatusMpie = bit 7 := by decide
  by_cases hi : i < 32
  · have hif (p : Prop) [Decidable p] : (if p then bit 3 else 0 : Word).getLsbD i = false := by
      split
      · rw [getLsbD_bit (by omega), decide_eq_false h3]
      · exact BitVec.getLsbD_zero
    show ((m.shadow.mstatus &&& ~~~mstatusMie |||
      (if m.shadow.mstatus &&& mstatusMpie ≠ 0 then mstatusMie else 0) ||| mstatusMpie) &&&
        ~~~mstatusMpp).getLsbD i = _
    rw [BitVec.getLsbD_and, BitVec.getLsbD_or, BitVec.getLsbD_or, BitVec.getLsbD_and,
      BitVec.getLsbD_not,
      BitVec.getLsbD_not, hpp, hmie, hif, hmpie, getLsbD_bit (by omega), getLsbD_bit (by omega),
      decide_eq_false h3, decide_eq_false h7, decide_eq_true hi]
    simp
  · rw [BitVec.getLsbD_of_ge _ _ (by omega), BitVec.getLsbD_of_ge _ _ (by omega)]

/-- The monitor is the same after an `mret` exactly when it came from one. -/
theorem mret_eq_iff : m.mret = m ↔ MretIdle m := by
  have hmie : mstatusMie = bit 3 := by decide
  have hmpie : mstatusMpie = bit 7 := by decide
  constructor
  · intro h
    have hpp := mret_mpp m
    have h7 := mret_mpie m
    have h3 := mret_mie (m := m)
    have hpriv : m.mret.guestPriv = P4Hyp.mpp m.shadow.mstatus := mret_guestPriv
    rw [h] at hpp h7 h3 hpriv
    refine ⟨?_, hpp, ?_, ?_⟩
    · rw [hpriv, P4Hyp.mpp, hpp]
      decide
    · rw [hmpie]
      exact (and_bit_ne_zero (by omega)).mpr h7
    · rw [hmie]
      exact (and_bit_ne_zero (by omega)).mpr (h3.trans h7)
  · intro h
    have h7 : m.shadow.mstatus.getLsbD 7 = true := (and_bit_ne_zero (by omega)).mp (hmpie ▸ h.mpie)
    have h3 : m.shadow.mstatus.getLsbD 3 = true := (and_bit_ne_zero (by omega)).mp (hmie ▸ h.mie)
    have hstatus : m.mret.shadow.mstatus = m.shadow.mstatus := by
      apply BitVec.eq_of_getLsbD_eq
      intro i hi
      by_cases hi3 : i = 3
      · rw [hi3, mret_mie, h7, h3]
      · by_cases hi7 : i = 7
        · rw [hi7, mret_mpie, h7]
        · cases hpp : mstatusMpp.getLsbD i with
          | false => exact mret_other hi3 hi7 hpp
          | true =>
              have hz (s : Word) (hs : s &&& mstatusMpp = 0) : s.getLsbD i = false := by
                have hbit := congrArg (fun x => x.getLsbD i) hs
                simpa [BitVec.getLsbD_and, hpp] using hbit
              rw [hz _ (mret_mpp m), hz _ h.mpp]
    have hpriv : m.mret.guestPriv = m.guestPriv := by
      rw [mret_guestPriv, P4Hyp.mpp, h.mpp, h.user]
      decide
    have heta : m.mret = { m with
        guestPriv := m.mret.guestPriv, shadow :=
          { m.shadow with mstatus := m.mret.shadow.mstatus } } := rfl
    rw [heta, hpriv, hstatus]

end Mret

/-! ## The refusals -/

section Trap

variable {mem : Mem} {sd : Sd} {frame : RvExcFrame} {m m' : Monitor} {trap : GuestTrap}

/-- What a refused trap may leave: nothing, or an `mret` half done. -/
inductive Left (frame : RvExcFrame) (m : Monitor) : GuestTrap → Monitor → Prop
  | nothing {trap : GuestTrap} : trap.frame = frame →
      ¬ (frame.mcause = 2 ∧ frame.mtval = 0x30200073 ∧ m.shadow.mepc = 0) → Left frame m trap m
  | mret {trap : GuestTrap} : trap.frame = frame → frame.mcause = 2 → frame.mtval = 0x30200073 →
      m.shadow.mepc = 0 → Left frame m trap m.mret

theorem injectOr_refused {cause tval : Word} (hc : frame.mcause ≠ 2)
    (h : injectOr cause tval (guestTrap frame) m = (some .unhandled, trap, m')) :
      Left frame m trap m' := by
  unfold injectOr at h
  split at h
  · obtain ⟨rfl, rfl⟩ : guestTrap frame = trap ∧ m = m' := by simpa using h
    exact .nothing rfl fun hm => hc hm.1
  · cases h

theorem hypervisorMmio_refused (hc : frame.mcause ≠ 2)
    (h : hypervisorMmio mem sd (guestTrap frame) m = (.unhandled, trap, m')) :
      Left frame m trap m' := by
  have hsame {t : GuestTrap} (ht : t.frame = frame)
      (h : (TrapResult.unhandled, t, m) = (.unhandled, trap, m')) : Left frame m trap m' := by
    obtain ⟨rfl, rfl⟩ : t = trap ∧ m = m' := by simpa using h
    exact .nothing ht fun hm => hc hm.1
  unfold hypervisorMmio at h
  split at h
  · exact hsame rfl h
  · split at h
    · exact hsame rfl h
    · rename_i hd
      split at h
      · exact hsame (trapDecode_frame hd).1 h
      · dsimp only at h
        split at h <;> cases h

theorem hypervisorCsr_left (hc : frame.mcause = 2)
    (h : hypervisorCsr mem (guestTrap frame) m = (some .unhandled, trap, m')) :
      Left frame m trap m' := by
  obtain ⟨t, hd, he, hf, -⟩ := trapDecode_illegal mem hc
  have hsame (hi : frame.mtval ≠ 0x30200073 ∨ m.shadow.mepc ≠ 0)
      (h : (some TrapResult.unhandled, t, m) = (some .unhandled, trap, m')) :
        Left frame m trap m' := by
    obtain ⟨rfl, rfl⟩ : t = trap ∧ m = m' := by simpa using h
    exact .nothing hf fun hm => hi.elim (fun hne => hne hm.2.1) fun hne => hne hm.2.2
  unfold hypervisorCsr at h
  rw [hd] at h
  dsimp only at h
  rw [he] at h
  split at h
  · rename_i hop
    refine hsame (.inl fun hi => ?_) h
    rw [hi] at hop
    exact hop (by decide)
  · split at h
    · split at h
      · rename_i hi
        by_cases h0 : m.shadow.mepc = 0
        · rw [hypervisorMret_zero h0] at h
          obtain ⟨rfl, rfl⟩ : t = trap ∧ m.mret = m' := by simpa using h
          exact .mret hf hc hi h0
        · rw [hypervisorMret_ok h0] at h
          cases h
      · rename_i hi
        split at h
        · rcases hypervisorWfi_cases m with hw | hw <;> rw [hw] at h <;> cases h
        · exact hsame (.inl hi) h
    · rename_i hf0
      have hi : frame.mtval ≠ 0x30200073 := by
        intro hi
        rw [hi] at hf0
        exact hf0 (by decide)
      split at h
      · exact hsame (.inl hi) h
      · split at h
        · exact hsame (.inl hi) h
        · cases h

theorem hypervisorTrap_refused
    (h : hypervisorTrap mem sd (guestTrap frame) m = (some .unhandled, trap, m')) :
      Left frame m trap m' := by
  unfold hypervisorTrap at h
  split at h
  · rename_i h2
    exact hypervisorCsr_left h2 h
  · rename_i h2
    have hc : frame.mcause ≠ 2 := h2
    split at h
    · exact injectOr_refused hc h
    · split at h
      · split at h
        · cases hmm : hypervisorMmio mem sd (guestTrap frame) m with
          | mk r p =>
              rw [hmm] at h
              obtain ⟨rfl, rfl⟩ : r = .unhandled ∧ p = (trap, m') := by simpa using h
              exact hypervisorMmio_refused hc hmm
        · exact injectOr_refused hc h
      · split at h
        · exact injectOr_refused hc h
        · obtain ⟨rfl, rfl⟩ : guestTrap frame = trap ∧ m = m' := by simpa using h
          exact .nothing rfl fun hm => hc hm.1

/-- An instruction that was emulated is skipped, so its trap is not refused after all. -/
theorem trapExit_decoded {trap trap' : GuestTrap} (hd : trapDecode mem trap = some trap')
    (frame : RvExcFrame) (m : Monitor) : (trapExit .advance { trap' with frame } m).1 = true := by
  have hl : trap'.length ≠ 0 := by
    rcases trapDecode_length hd with h | h
    · rw [h]
      decide
    · rw [h]
      decide
  rw [trapExit, trapResume, if_neg hl]

/-- The guest is as it was at the trap that `hypervisor` refuses exactly when the trap is no
`mret` with nothing to return to, or one that finds nothing to change. -/
theorem hypervisor_refused_iff {running : Bool} {sleeps : List (List HostEvent)}
    {frame' : RvExcFrame} (hint : frame.mcause &&& interruptBit = 0)
    (h : hypervisor running mem sd sleeps frame m = some (false, frame', m')) :
    frame' = frame ∧ m' = m ↔ (MretRefused running frame m → MretIdle m) := by
  unfold hypervisor at h
  cases running with
  | false =>
      rw [if_pos Bool.false_ne_true] at h
      obtain ⟨rfl, rfl⟩ : frame = frame' ∧ m = m' := by simpa using h
      exact iff_of_true ⟨rfl, rfl⟩ fun hm => absurd hm.running Bool.false_ne_true
  | true =>
      rw [if_neg (not_not.mpr rfl), if_neg (not_not.mpr hint)] at h
      have hcase := hypervisorTrap_case mem sd frame m
      have hrefused (trap : GuestTrap) (m' : Monitor)
          (htrap : hypervisorTrap mem sd (guestTrap frame) m =
          (some .unhandled, trap, m')) : Left frame m trap m' := hypervisorTrap_refused htrap
      generalize hypervisorTrap mem sd (guestTrap frame) m = r at h hcase hrefused
      cases hcase with
      | unhandled =>
          rename_i trap m₁
          obtain ⟨rfl, rfl⟩ : trap.frame = frame' ∧ m₁ = m' := by
            simpa [trapExit, trapResume] using h
          cases hrefused _ _ rfl with
          | nothing hf hm =>
              refine iff_of_true ⟨hf, rfl⟩ fun hr => absurd ⟨hr.cause, hr.insn, hr.mepc⟩ hm
          | mret hf hc hi h0 =>
              rw [and_iff_right hf, mret_eq_iff]
              exact ⟨fun hidle _ => hidle, fun himp => himp ⟨rfl, hc, hi, h0⟩⟩
      | injected _ _ => simp [trapExit, trapResume] at h
      | mret _ _ _ _ _ => simp [trapExit, trapResume] at h
      | @wfi trap _ _ _ hd =>
          have htrue (m₁ : Monitor) : (trapExit .advance trap m₁).1 = true :=
            trapExit_decoded hd trap.frame m₁
          rcases hypervisorWfi_cases m with hw | hw
          · rw [hw] at h
            have hfalse := congrArg Prod.fst (Option.some.inj h)
            rw [htrue] at hfalse
            cases hfalse
          · rw [hw] at h
            obtain ⟨m₁, -, he⟩ := Option.map_eq_some_iff.mp h
            have hfalse := congrArg Prod.fst he
            rw [htrue] at hfalse
            cases hfalse
      | emulated _ _ hd _ =>
          have hfalse := congrArg Prod.fst (Option.some.inj h)
          rw [trapExit_decoded hd] at hfalse
          cases hfalse

/-- A user's access outside every window, before the guest has a trap vector. -/
theorem hypervisor_refused_access : ∃ frame' m',
    hypervisor true (fun _ => 0) (smallSd true) [] ⟨0x48000200, fun _ => 0, 5, 0⟩ .boot =
      some (false, frame', m') ∧ frame' = ⟨0x48000200, fun _ => 0, 5, 0⟩ ∧ m' = .boot := by
  have h : hypervisor true (fun _ => 0) (smallSd true) [] ⟨0x48000200, fun _ => 0, 5, 0⟩ .boot =
      some (false, ⟨0x48000200, fun _ => 0, 5, 0⟩, .boot) := rfl
  exact ⟨_, _, h, (hypervisor_refused_iff (by decide) h).mpr fun hm => absurd hm.cause (by decide)⟩

/-- The first instruction of the guest is an `mret`: it is refused, and `mstatus` is
changed all the same. -/
theorem hypervisor_refused_mret :
    (hypervisor true (fun _ => 0) (smallSd true) [] ⟨0x48000000, fun _ => 0, 2, 0x30200073⟩ .boot).map
      (fun r => (r.1, r.2.2.shadow.mstatus)) = some (false, mstatusMpie) ∧
    Monitor.boot.shadow.mstatus = mstatusMpp := by
  decide +kernel

end Trap

end P4Hyp
