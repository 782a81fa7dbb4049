import P4Hyp.Inject
import P4Hyp.Zicsr

/-!
# The traps of user programs

The exceptions that a program in U mode can raise, of which some go to the guest's
own handler and the illegal instructions are emulated or refused.
-/

namespace P4Hyp

/-- Breakpoints, environment calls, and access faults outside the device
windows. -/
def UserException (frame : RvExcFrame) : Prop :=
  frame.mcause = 3 ∨ frame.mcause = 8 ∨
    ((frame.mcause = 5 ∨ frame.mcause = 7) ∧ mmioFind frame.mtval = none)

/-- The illegal instructions that the monitor emulates: those of Zicsr on a CSR
that it implements, `wfi`, and an `mret` with somewhere to return to. -/
def Emulates (m : Monitor) (w : Word) : Prop :=
  (∃ i, ZicsrInsn.decode w = some i ∧ CsrImplemented i.csr) ∨ w = 0x10500073 ∨
    (w = 0x30200073 ∧ m.shadow.mepc ≠ 0)

/-- The guest is at its trap handler. -/
def AtHandler (p : RvExcFrame × Monitor) : Prop :=
  p.1.mepc = p.2.shadow.mtvec &&& ~~~0x3 ∧ p.2.guestPriv = privM

/-! ## The exceptions that are handed on -/

theorem handedOn_user {frame : RvExcFrame} (h : UserException frame) :
    ∃ tval, handedOn frame = some (frame.mcause, tval) := by
  unfold handedOn
  rcases h with h | h | ⟨h, hw⟩
  · rw [h]
    exact ⟨_, rfl⟩
  · rw [h]
    exact ⟨_, rfl⟩
  · have hne : frame.mcause ≠ 3 := by
      rcases h with h | h
      · rw [h]
        decide
      · rw [h]
        decide
    rw [if_neg hne, if_pos h, if_pos hw]
    exact ⟨_, rfl⟩

theorem hypervisorTrap_handedOn {frame : RvExcFrame} {cause tval : Word}
    (hr : handedOn frame = some (cause, tval)) (mem : Mem) (sd : Sd) (m : Monitor) :
    hypervisorTrap mem sd (guestTrap frame) m = injectOr cause tval (guestTrap frame) m := by
  have hc : (guestTrap frame).cause = frame.mcause := rfl
  unfold handedOn at hr
  unfold hypervisorTrap
  rw [hc]
  by_cases h3 : frame.mcause = 3
  · rw [if_pos h3] at hr
    obtain ⟨rfl, rfl⟩ := Prod.mk.inj (Option.some.inj hr)
    rw [if_neg (by rw [h3]; decide), if_pos h3]
    rfl
  · rw [if_neg h3] at hr
    by_cases h57 : frame.mcause = 5 ∨ frame.mcause = 7
    · have h2 : frame.mcause ≠ 2 := by
        rcases h57 with h | h
        · rw [h]
          decide
        · rw [h]
          decide
      rw [if_pos h57] at hr
      by_cases hw : mmioFind frame.mtval = none
      · rw [if_pos hw] at hr
        obtain ⟨rfl, rfl⟩ := Prod.mk.inj (Option.some.inj hr)
        rw [if_neg h2, if_neg h3, if_pos h57, show mmioFind (guestTrap frame).tval = none from hw]
        rfl
      · rw [if_neg hw] at hr
        cases hr
    · rw [if_neg h57] at hr
      by_cases h8 : frame.mcause = 8
      · rw [if_pos h8] at hr
        obtain ⟨rfl, rfl⟩ := Prod.mk.inj (Option.some.inj hr)
        rw [if_neg (by rw [h8]; decide), if_neg h3, if_neg h57, if_pos h8]
      · rw [if_neg h8] at hr
        cases hr

/-! ## The illegal instructions -/

theorem csrAccess_none {csr : Word} (h : ¬ CsrImplemented csr) (f rs1 : Nat) (src : Word)
    (m : Monitor) : csrAccess csr f rs1 src m = none := by
  have hmip : csr ≠ csrMip := fun hc => h (.inl hc)
  have hslot : shadowSlot csr = none := by
    cases hs : shadowSlot csr with
    | none => rfl
    | some s => exact absurd (.inr (.inl (by rw [hs]; rfl))) h
  unfold csrAccess
  dsimp only
  rw [if_neg hmip, hslot]
  exact if_neg fun hz => h (.inr (.inr hz))

/-- `funct3` names an operation of Zicsr, or is 0 or 4. -/
theorem zicsrOp_isSome {w : Word} (h0 : field w 12 3 ≠ 0) (h4 : field w 12 3 ≠ 4) :
    ∃ o, zicsrOp (field w 12 3) = some o := by
  have hlt : field w 12 3 < 8 := (w.extractLsb' 12 3).isLt
  generalize field w 12 3 = f at *
  match f, hlt with
  | 1, _ | 2, _ | 3, _ | 5, _ | 6, _ | 7, _ => exact ⟨_, rfl⟩
  | 0, _ => exact absurd rfl h0
  | 4, _ => exact absurd rfl h4

/-- Any other illegal instruction is refused. -/
theorem hypervisorCsr_refused {frame : RvExcFrame} (hc : frame.mcause = 2) {m : Monitor}
    (h : ¬ Emulates m frame.mtval) (mem : Mem) :
    (hypervisorCsr mem (guestTrap frame) m).1 = some .unhandled := by
  obtain ⟨trap, hd, he, -, -⟩ := trapDecode_illegal mem hc
  unfold hypervisorCsr
  rw [hd]
  dsimp only
  rw [he]
  split
  · rfl
  · rename_i hop
    split
    · split
      · rename_i hi
        by_cases h0 : m.shadow.mepc = 0
        · rw [hypervisorMret_zero h0]
        · exact absurd (.inr (.inr ⟨hi, h0⟩)) h
      · split
        · rename_i hi
          exact absurd (.inr (.inl hi)) h
        · rfl
    · rename_i h0
      split
      · rfl
      · rename_i h4
        obtain ⟨o, ho⟩ := zicsrOp_isSome h0 h4
        have himpl : ¬ CsrImplemented (frame.mtval >>> 20) := by
          intro hi
          refine h (.inl ⟨⟨o.1, frame.mtval >>> 20, field frame.mtval 7 5, o.2,
            field frame.mtval 15 5⟩, ?_, hi⟩)
          rw [ZicsrInsn.decode, if_neg hop, ho]
          rfl
        rw [csrAccess_none himpl]

/-- The instructions that the monitor emulates are not refused. -/
theorem hypervisorCsr_emulates {frame : RvExcFrame} (hc : frame.mcause = 2) {m : Monitor}
    (h : Emulates m frame.mtval) (mem : Mem) :
    (hypervisorCsr mem (guestTrap frame) m).1 ≠ some .unhandled := by
  rcases h with ⟨i, hi, himpl⟩ | hi | ⟨hi, h0⟩
  · obtain ⟨trap', m', he, -⟩ : ∃ trap' m', hypervisorCsr mem (guestTrap frame) m =
        (some .advance, trap', m') ∧ _ := hypervisorCsr_zicsr hc hi himpl
    rw [he]
    exact fun h => by cases h
  · obtain ⟨trap, hd, he, -, -⟩ := trapDecode_illegal mem hc
    have hres : hypervisorCsr mem (guestTrap frame) m =
        ((hypervisorWfi m).1, trap, (hypervisorWfi m).2) := by
      rw [hypervisorCsr, hd]
      dsimp only
      rw [he, hi]
      rfl
    rw [hres]
    rcases hypervisorWfi_cases m with hw | hw
    · rw [hw]
      exact fun h => by cases h
    · rw [hw]
      exact fun h => by cases h
  · obtain ⟨trap, hd, he, -, -⟩ := trapDecode_illegal mem hc
    have hres : (hypervisorCsr mem (guestTrap frame) m).1 = some (hypervisorMret trap m).1 := by
      rw [hypervisorCsr, hd]
      dsimp only
      rw [he, hi]
      rfl
    rw [hres, hypervisorMret_ok h0]
    exact fun h => by cases h

/-! ## The whole trap -/

/-- How the trap of a user program ends. -/
structure UserTrap (mem : Mem) (frame : RvExcFrame) (m : Monitor)
    (r : Bool × RvExcFrame × Monitor) :
    Prop where
  handled : r.1 = true ↔ UserException frame ∨ (frame.mcause = 2 ∧ Emulates m frame.mtval)
  exception : UserException frame → AtHandler r.2 ∧ r.2.2.shadow.mcause = frame.mcause ∧
    r.2.2.shadow.mepc = frame.mepc
  illegal : frame.mcause = 2 → r.1 = true → r.2.1.mepc = resumePc mem frame m ∨ AtHandler r.2

theorem atHandler_deliver {p : RvExcFrame × Monitor} {pc : Word} (hpc : p.1.mepc = pc) :
    (hypDeliverPending p).1.mepc = pc ∨ AtHandler (hypDeliverPending p) := by
  rcases hypDeliverPending_cases p with ⟨he, -⟩ | ⟨n, -, -, -, he⟩
  · rw [he]
    exact .inl hpc
  · rw [he]
    exact .inr ⟨rfl, rfl⟩

theorem trapExit_advance_ok {trap : GuestTrap} (hl : trap.length ≠ 0) (m : Monitor) :
    trapExit .advance trap m =
      (true, hypDeliverPending ({ trap.frame with mepc := trap.frame.mepc + trap.length }, m)) := by
  unfold trapExit trapResume
  rw [if_neg hl]

theorem UserException.not_illegal {frame : RvExcFrame} (h : UserException frame) :
    frame.mcause ≠ 2 := by
  intro hc
  rcases h with h | h | ⟨h | h, -⟩
  all_goals exact absurd (hc.symm.trans h) (by decide)

theorem userTrap_exception {frame : RvExcFrame} {m : Monitor} (hu : UserException frame)
    (hv : m.shadow.mtvec ≠ 0) (mem : Mem) (sd : Sd) (sleeps : List (List HostEvent)) :
    ∃ r, hypervisor true mem sd sleeps frame m = some r ∧ UserTrap mem frame m r := by
  obtain ⟨tval, hr⟩ := handedOn_user hu
  have hint : ¬ frame.mcause &&& interruptBit ≠ 0 := fun h => h (handedOn_exception hr).2
  have hrun : hypervisor true mem sd sleeps frame m =
      some (true, hypDeliverPending (hypInject frame.mcause tval (frame, m))) := by
    rw [hypervisor, if_neg (not_not_intro rfl), if_neg hint, hypervisorTrap_handedOn hr, injectOr,
      if_neg hv]
    rfl
  refine ⟨_, hrun, iff_of_true rfl (.inl hu), fun _ => ?_, fun hc => absurd hc hu.not_illegal⟩
  rw [hypDeliverPending_shut hypInject_gate]
  exact ⟨⟨rfl, rfl⟩, rfl, rfl⟩

theorem userTrap_emulated {mem : Mem} {frame : RvExcFrame} {m : Monitor} (hc : frame.mcause = 2)
    (he : Emulates m frame.mtval) {p : RvExcFrame × Monitor}
    (hp : p.1.mepc = resumePc mem frame m ∨ AtHandler p) : UserTrap mem frame m (true, p) :=
  ⟨iff_of_true rfl (.inr ⟨hc, he⟩), fun hu => absurd hc hu.not_illegal, fun _ _ => hp⟩

theorem illegal_exception {frame : RvExcFrame} (hc : frame.mcause = 2) :
    ¬ frame.mcause &&& interruptBit ≠ 0 := by
  rw [hc]
  decide

/-- An instruction that is skipped. -/
theorem userTrap_advance {mem : Mem} {frame : RvExcFrame} {m : Monitor} (hc : frame.mcause = 2)
    (he : Emulates m frame.mtval) (hi : frame.mtval ≠ 0x30200073) {trap trap' : GuestTrap}
    (hd : trapDecode mem (guestTrap frame) = some trap) (hl : trap'.length = trap.length)
    (hf : trap'.frame.mepc = frame.mepc) (m' : Monitor) :
    UserTrap mem frame m (trapExit .advance trap' m') := by
  have hint := illegal_exception hc
  have hne : trap'.length ≠ 0 := by
    rw [hl]
    rcases trapDecode_length hd with h | h
    · rw [h]
      decide
    · rw [h]
      decide
  rw [trapExit_advance_ok hne]
  refine userTrap_emulated hc he (atHandler_deliver ?_)
  rw [resumePc_advance hint (fun h => hi h.2) hd, hl, hf]

theorem userTrap_illegal {frame : RvExcFrame} (hc : frame.mcause = 2) (mem : Mem) (sd : Sd)
    (sleeps : List (List HostEvent)) (m : Monitor) :
    (∀ r, hypervisor true mem sd sleeps frame m = some r → UserTrap mem frame m r) ∧
      (hypervisor true mem sd sleeps frame m = none →
        frame.mtval = 0x10500073 ∧ (hypervisorWfi m).1 = none) := by
  have hint := illegal_exception hc
  have htrap : hypervisorTrap mem sd (guestTrap frame) m = hypervisorCsr mem (guestTrap frame) m :=
    if_pos hc
  have hnone : handedOn frame = none := by
    rw [handedOn, hc]
    rfl
  have hcase : TrapCase mem frame m _ := hypervisorCsr_case hc m
  unfold hypervisor
  rw [if_neg (not_not_intro rfl), if_neg hint, htrap]
  by_cases he : Emulates m frame.mtval
  · have hok := hypervisorCsr_emulates hc he mem
    generalize hypervisorCsr mem (guestTrap frame) m = res at hok hcase
    cases hcase with
    | unhandled => exact absurd rfl hok
    | injected hr =>
        rw [hnone] at hr
        cases hr
    | mret hr _ hi hd h0 =>
        refine ⟨fun r h => ?_, fun h => by cases h⟩
        obtain rfl := Option.some.inj h
        refine userTrap_emulated hc he (atHandler_deliver ?_)
        rw [resumePc, if_neg hint, if_pos ⟨hc, hi⟩]
    | @wfi trap hr _ hi hd =>
        have hne : frame.mtval ≠ 0x30200073 := by
          rw [hi]
          decide
        have hf := congrArg RvExcFrame.mepc (trapDecode_frame hd).1
        rcases hypervisorWfi_cases m with hw | hw
        · rw [hw]
          refine ⟨fun r h => ?_, fun h => by cases h⟩
          obtain rfl := Option.some.inj h
          exact userTrap_advance hc he hne hd rfl hf m
        · rw [hw]
          refine ⟨fun r h => ?_, fun _ => ⟨hi, rfl⟩⟩
          obtain ⟨m', -, rfl⟩ := Option.map_eq_some_iff.mp h
          exact userTrap_advance hc he hne hd rfl hf m'
    | @emulated trap v m' hr hi hd hn =>
        refine ⟨fun r h => ?_, fun h => by cases h⟩
        obtain rfl := Option.some.inj h
        refine userTrap_advance hc he (fun h => hi ⟨hc, h⟩) hd ?_ ?_ m'
        · rfl
        · exact regWrite_mepc _ _ _
  · have hbad := hypervisorCsr_refused hc he mem
    generalize hypervisorCsr mem (guestTrap frame) m = res at hbad
    obtain ⟨o, trap, m'⟩ := res
    obtain rfl : o = some .unhandled := hbad
    refine ⟨fun r h => ?_, fun h => by cases h⟩
    obtain rfl := Option.some.inj h
    refine ⟨iff_of_false Bool.false_ne_true ?_, fun hu => absurd hc hu.not_illegal,
      fun _ h => absurd h Bool.false_ne_true⟩
    rintro (hu | ⟨-, he'⟩)
    · exact hu.not_illegal hc
    · exact he he'

/-- A user program's breakpoint, environment call or access fault outside the
windows goes to the guest's handler.  Its illegal instruction is emulated, with the
guest after it or at its handler, or refused when the monitor does not emulate it;
the trap goes on only while a `wfi` blocks. -/
theorem hypervisor_user (mem : Mem) (sd : Sd) (sleeps : List (List HostEvent)) {frame : RvExcFrame}
    {m : Monitor} (hv : m.shadow.mtvec ≠ 0) (hc : UserException frame ∨ frame.mcause = 2) :
    (∀ r, hypervisor true mem sd sleeps frame m = some r → UserTrap mem frame m r) ∧
      (hypervisor true mem sd sleeps frame m = none →
        frame.mcause = 2 ∧ frame.mtval = 0x10500073 ∧ (hypervisorWfi m).1 = none) := by
  rcases hc with hu | hc
  · obtain ⟨r, hr, hend⟩ := userTrap_exception hu hv mem sd sleeps
    rw [hr]
    refine ⟨fun r' h => ?_, fun h => by cases h⟩
    obtain rfl := Option.some.inj h
    exact hend
  · obtain ⟨hsome, hnone⟩ := userTrap_illegal hc mem sd sleeps m
    exact ⟨hsome, fun h => ⟨hc, hnone h⟩⟩

/-- A user program's `csrr t0, mscratch`, which the monitor emulates in U mode
too. -/
def userCsrr : RvExcFrame := ⟨0x48000200, fun _ => 0, 2, 0x340022f3⟩

theorem hypervisor_user_csrr : ∃ r,
    hypervisor true (fun _ => 0) (smallSd true) [] userCsrr softPending.2 = some r ∧ r.1 = true ∧
      UserTrap (fun _ => 0) userCsrr softPending.2 r := by
  have hrun : (hypervisor true (fun _ => 0) (smallSd true) [] userCsrr softPending.2).map Prod.fst =
      some true := by
    decide +kernel
  obtain ⟨r, hr, ht⟩ := Option.map_eq_some_iff.mp hrun
  exact ⟨r, hr, ht, (hypervisor_user _ _ _ (by decide) (.inr rfl)).1 r hr⟩

/-- A user program's `rdcycle a0` ends in the monitor's panic. -/
theorem user_panics : softPending.2.guestPriv = privU ∧ softPending.2.shadow.mtvec ≠ 0 ∧
    (hypervisor true (fun _ => 0) (smallSd true) [] ⟨0x48000200, fun _ => 0, 2, 0xc0002573⟩
      softPending.2).map Prod.fst = some false := by
  decide +kernel

end P4Hyp
