import P4Hyp.Inject

/-!
# Injections and returns

The guest's software privilege, over any sequence of CSR instructions, injections
and `mret`s.  Each injection is put on a stack with what it interrupts and what
its handler finds, and an `mret` takes the topmost off.
-/

namespace P4Hyp

/-- The MPP field. -/
def mpp (mstatus : Word) : Word := (mstatus &&& mstatusMpp) >>> mstatusMppS

/-- An injection: what was in force just before, and the shadow registers that
the handler finds. -/
structure Entry where
  pc : Word
  priv : Word
  mie : Bool
  mstatus : Word
  mepc : Word

structure Guest where
  mon : Monitor
  stack : List Entry

inductive GuestEvent
  /-- A trap is injected into the guest. -/
  | inject (frame : RvExcFrame) (cause tval : Word)
  /-- The guest executes an instruction other than `mret` that traps as illegal. -/
  | csr (frame : RvExcFrame)
  | mret (frame : RvExcFrame)
  /-- The devices go on, by themselves or by what the guest does to them. -/
  | devices (clint : Clint) (uart0 : Uart0) (dev : Devices)

def guestFire (mem : Mem) (g : Guest) : GuestEvent → Option Guest
  | .inject frame cause tval =>
      let m := (hypInject cause tval (frame, g.mon)).2
      some ⟨m, ⟨frame.mepc, g.mon.guestPriv, g.mon.shadow.mstatus.getLsbD 3, m.shadow.mstatus,
        m.shadow.mepc⟩ :: g.stack⟩
  | .csr frame =>
      if frame.mcause = 2 ∧ frame.mtval ≠ 0x30200073 then
        some { g with mon := (hypervisorCsr mem (guestTrap frame) g.mon).2.2 }
      else none
  | .mret frame => some ⟨(hypervisorMret (guestTrap frame) g.mon).2.2, g.stack.tail⟩
  | .devices clint uart0 dev => some { g with mon := { g.mon with clint, uart0, dev } }

/-! ## The fields of `mstatus` -/

theorem replace_and (a b k : Word) : (a &&& ~~~k ||| b) &&& k = b &&& k := by
  apply BitVec.eq_of_getLsbD_eq
  intro i hi
  simp only [BitVec.getLsbD_and, BitVec.getLsbD_or, BitVec.getLsbD_not, hi, decide_true,
    Bool.true_and]
  cases a.getLsbD i <;> cases b.getLsbD i <;> cases k.getLsbD i <;> rfl

theorem move_bit (x : Word) {n k : Nat} (hn : n < 32) (hk : k < 32) :
    (if x &&& bit n ≠ 0 then bit k else 0).getLsbD k = x.getLsbD n := by
  cases hb : x.getLsbD n with
  | true =>
      rw [if_pos ((and_bit_ne_zero hn).mpr hb), getLsbD_bit hk]
      exact decide_eq_true rfl
  | false =>
      rw [if_neg (fun h => h ((and_bit_eq_zero hn).mpr hb))]
      exact BitVec.getLsbD_zero

section Fields

variable (cause tval : Word) {p : RvExcFrame × Monitor} {m : Monitor}

theorem hypInject_mpp (hp : p.2.guestPriv = privU ∨ p.2.guestPriv = privM) :
    mpp (hypInject cause tval p).2.shadow.mstatus = p.2.guestPriv := by
  show ((_ &&& ~~~mstatusMpp ||| p.2.guestPriv <<< mstatusMppS) &&& mstatusMpp) >>> mstatusMppS = _
  rw [replace_and]
  rcases hp with h | h
  · rw [h]
    decide
  · rw [h]
    decide

theorem hypInject_mpie :
    (hypInject cause tval p).2.shadow.mstatus.getLsbD 7 = p.2.shadow.mstatus.getLsbD 3 := by
  have h3 : mstatusMie = bit 3 := by decide
  have h7 : mstatusMpie = bit 7 := by decide
  have hpp : mstatusMpp.getLsbD 7 = false := by decide
  show (((p.2.shadow.mstatus &&& ~~~mstatusMpie |||
    (if p.2.shadow.mstatus &&& mstatusMie ≠ 0 then mstatusMpie else 0)) &&& ~~~mstatusMie) &&&
      ~~~mstatusMpp ||| p.2.guestPriv <<< mstatusMppS).getLsbD 7 = _
  rw [BitVec.getLsbD_or, BitVec.getLsbD_and, h3, h7, getLsbD_and_not_bit (by omega),
    BitVec.getLsbD_or, getLsbD_and_not_bit (by omega), BitVec.getLsbD_shiftLeft,
    BitVec.getLsbD_not, hpp, move_bit _ (by omega) (by omega)]
  simp [mstatusMppS]

theorem mret_guestPriv : m.mret.guestPriv = mpp m.shadow.mstatus := rfl

theorem mret_mie : m.mret.shadow.mstatus.getLsbD 3 = m.shadow.mstatus.getLsbD 7 := by
  have h3 : mstatusMie = bit 3 := by decide
  have h7 : mstatusMpie = bit 7 := by decide
  have hpp : mstatusMpp.getLsbD 3 = false := by decide
  show ((m.shadow.mstatus &&& ~~~mstatusMie |||
    (if m.shadow.mstatus &&& mstatusMpie ≠ 0 then mstatusMie else 0) ||| mstatusMpie) &&&
      ~~~mstatusMpp).getLsbD 3 = _
  rw [BitVec.getLsbD_and, BitVec.getLsbD_or, h3, h7, BitVec.getLsbD_or,
    getLsbD_and_not_bit (by omega), BitVec.getLsbD_not, hpp, getLsbD_bit (by omega),
    move_bit _ (by omega) (by omega)]
  simp

end Fields

theorem hypervisorMret_monitor (trap : GuestTrap) (m : Monitor) :
    (hypervisorMret trap m).2.2 = m.mret := by
  by_cases h0 : m.shadow.mepc = 0
  · rw [hypervisorMret_zero h0]
  · rw [hypervisorMret_ok h0]

/-- A CSR instruction leaves the privilege alone. -/
theorem hypervisorCsr_guestPriv {mem : Mem} {frame : RvExcFrame} (hc : frame.mcause = 2)
    (hi : frame.mtval ≠ 0x30200073) (m : Monitor) :
    (hypervisorCsr mem (guestTrap frame) m).2.2.guestPriv = m.guestPriv := by
  obtain ⟨trap, hd, he, -, -⟩ := trapDecode_illegal mem hc
  unfold hypervisorCsr
  rw [hd]
  dsimp only
  rw [he]
  split
  · rfl
  · split
    · split
      · rcases hypervisorWfi_cases m with hw | hw
        · rw [hw]
        · rw [hw]
      · rfl
    · split
      · rfl
      · split
        · rfl
        · rename_i old m' ha
          show m'.guestPriv = m.guestPriv
          rw [csrAccess_rest ha]

/-! ## What an `mret` restores -/

/-- The handler has put `mstatus` and `mepc` back to what it found. -/
def PutBack (m : Monitor) : List Entry → Prop
  | [] => False
  | e :: _ => m.shadow.mstatus = e.mstatus ∧ m.shadow.mepc = e.mepc

instance (m : Monitor) : (stack : List Entry) → Decidable (PutBack m stack)
  | [] => .isFalse id
  | _ :: _ => inferInstanceAs (Decidable (_ ∧ _))

/-- The steps considered: the guest is not interrupted at address 0, and an `mret`
ends the handler of an injection, which has put back what it found. -/
def HandlerStep (g : Guest) : GuestEvent → Prop
  | .inject frame _ _ => frame.mepc ≠ 0
  | .mret _ => PutBack g.mon g.stack
  | _ => True

instance (g : Guest) : (e : GuestEvent) → Decidable (HandlerStep g e)
  | .inject _ _ _ => inferInstanceAs (Decidable (_ ≠ _))
  | .mret _ => inferInstanceAs (Decidable (PutBack _ _))
  | .csr _ | .devices _ _ _ => .isTrue trivial

/-- The `mret` goes back to what the topmost injection interrupted. -/
def ReturnsTo (frame : RvExcFrame) (m : Monitor) : List Entry → Prop
  | [] => False
  | e :: _ => ∃ trap m', hypervisorMret (guestTrap frame) m = (.resume, trap, m') ∧
      trap.frame = { frame with mepc := e.pc } ∧ m'.guestPriv = e.priv ∧
      m'.shadow.mstatus.getLsbD 3 = e.mie

def Restores (g : Guest) : GuestEvent → Prop
  | .mret frame => ReturnsTo frame g.mon g.stack
  | _ => True

/-- What the shadow registers that a handler finds say of the interrupted
guest. -/
structure EntryOk (e : Entry) : Prop where
  mepc : e.mepc = e.pc
  pc : e.pc ≠ 0
  priv : e.priv = privU ∨ e.priv = privM
  mpp : mpp e.mstatus = e.priv
  mpie : e.mstatus.getLsbD 7 = e.mie

structure NestInv (g : Guest) : Prop where
  priv : g.mon.guestPriv = privU ∨ g.mon.guestPriv = privM
  stack : ∀ e ∈ g.stack, EntryOk e

section Nest

variable {mem : Mem} {g g' : Guest}

theorem nestInv_mret (hi : NestInv g) {frame : RvExcFrame} (hp : PutBack g.mon g.stack)
    (hf : guestFire mem g (.mret frame) = some g') : NestInv g' ∧ Restores g (.mret frame) := by
  obtain rfl := Option.some.inj hf
  obtain ⟨m, stack⟩ := g
  cases stack with
  | nil => exact hp.elim
  | cons e stack =>
      obtain ⟨hst, hepc⟩ := hp
      have he : EntryOk e := hi.stack e List.mem_cons_self
      have hpriv : m.mret.guestPriv = e.priv := by
        rw [mret_guestPriv]
        exact (congrArg mpp hst).trans he.mpp
      have hmie : m.mret.shadow.mstatus.getLsbD 3 = e.mie := by
        rw [mret_mie]
        exact (congrArg (·.getLsbD 7) hst).trans he.mpie
      have hpc : m.shadow.mepc = e.pc := hepc.trans he.mepc
      have h0 : m.shadow.mepc ≠ 0 := by
        rw [hpc]
        exact he.pc
      refine ⟨⟨?_, fun e' he' => hi.stack e' (List.mem_cons_of_mem _ he')⟩, ?_⟩
      · show (hypervisorMret (guestTrap frame) m).2.2.guestPriv = _ ∨ _
        rw [hypervisorMret_monitor, hpriv]
        exact he.priv
      · refine ⟨_, _, hypervisorMret_ok h0 _, ?_, hpriv, hmie⟩
        show ({ frame with mepc := m.shadow.mepc } : RvExcFrame) = _
        rw [hpc]

theorem entryOk_inject {frame : RvExcFrame} {m : Monitor} {cause tval : Word}
    (hpc : frame.mepc ≠ 0) (hp : m.guestPriv = privU ∨ m.guestPriv = privM) :
    EntryOk ⟨frame.mepc, m.guestPriv, m.shadow.mstatus.getLsbD 3,
      (hypInject cause tval (frame, m)).2.shadow.mstatus,
      (hypInject cause tval (frame, m)).2.shadow.mepc⟩ := by
  have hmpp : mpp (hypInject cause tval (frame, m)).2.shadow.mstatus = m.guestPriv :=
    hypInject_mpp cause tval (p := (frame, m)) hp
  have hmpie : (hypInject cause tval (frame, m)).2.shadow.mstatus.getLsbD 7 =
      m.shadow.mstatus.getLsbD 3 := hypInject_mpie cause tval
  generalize (hypInject cause tval (frame, m)).2.shadow.mstatus = mstatus at *
  exact ⟨rfl, hpc, hp, hmpp, hmpie⟩

theorem nestInv_step (hi : NestInv g) {e : GuestEvent} (hs : HandlerStep g e)
    (hf : guestFire mem g e = some g') : NestInv g' ∧ Restores g e := by
  cases e with
  | inject frame cause tval =>
      obtain rfl := Option.some.inj hf
      refine ⟨⟨.inr rfl, fun e he => ?_⟩, trivial⟩
      rcases List.mem_cons.mp he with rfl | he
      · exact entryOk_inject hs hi.priv
      · exact hi.stack e he
  | csr frame =>
      simp only [guestFire] at hf
      split at hf
      · rename_i hc
        obtain rfl := Option.some.inj hf
        refine ⟨⟨?_, hi.stack⟩, trivial⟩
        rw [hypervisorCsr_guestPriv hc.1 hc.2]
        exact hi.priv
      · cases hf
  | mret frame => exact nestInv_mret hi hs hf
  | devices clint uart0 dev =>
      obtain rfl := Option.some.inj hf
      exact ⟨⟨hi.priv, hi.stack⟩, trivial⟩

/-- Every `mret` of a well-nested run goes back to the pc, the privilege and the
gate that its injection interrupted. -/
theorem mret_restores {m₀ : Monitor} {h : List (Guest × GuestEvent)}
    (hrun : Run (guestFire mem) ⟨m₀, []⟩ h g)
    (hp : m₀.guestPriv = privU ∨ m₀.guestPriv = privM) (hC : Run.Meets HandlerStep h) :
    Run.Meets Restores h := by
  have hstart : NestInv ⟨m₀, []⟩ := ⟨hp, fun e he => absurd he List.not_mem_nil⟩
  refine (Run.invariant HandlerStep (fun h g => NestInv g ∧ Run.Meets Restores h)
    ⟨hstart, Run.meets_nil _⟩ ?_ hrun hC).2
  intro h g e g' hi hs hf
  obtain ⟨hi', hr⟩ := nestInv_step hi.1 hs hf
  exact ⟨hi', Run.meets_snoc.mpr ⟨hi.2, hr⟩⟩

end Nest

/-- An interrupt, an exception in its handler, and the two returns. -/
def twoDeep : List GuestEvent :=
  [.csr (csrw 0x305 0x48000100), .csr (csrw 0x300 0x8),
    .inject ⟨0x48000200, fun _ => 0, 0x80000007, 0⟩ 0x80000007 0,
    .inject ⟨0x48000104, fun _ => 0, 3, 0⟩ 3 0x48000104, .mret guestMret,
    .csr (csrw 0x300 0x1880), .csr (csrw 0x341 0x48000200), .mret guestMret]

theorem mret_restores_twoDeep : ∃ h g, Run (guestFire fun _ => 0) ⟨.boot, []⟩ h g ∧
    h.length = 8 ∧ g.stack.length = 0 ∧ Run.Meets Restores h := by
  obtain ⟨h, g, hrun, hd⟩ := Run.exists_of_play (guestFire fun _ => 0) ⟨.boot, []⟩ twoDeep
    (fun r => decide (r.1.length = 8 ∧ r.2.stack.length = 0 ∧ Run.Meets HandlerStep r.1)) true
    (by decide +kernel)
  obtain ⟨hl, hs, hmeets⟩ := of_decide_eq_true hd
  exact ⟨h, g, hrun, hl, hs, mret_restores hrun (.inr rfl) hmeets⟩

/-! ## The privilege -/

def PrivOk (g : Guest) : Prop := g.mon.guestPriv = privU ∨ g.mon.guestPriv = privM

/-- The MPP that an injection stores is U or M. -/
def StoresMode (g : Guest) : GuestEvent → Prop
  | .inject frame cause tval =>
      let mstatus := (hypInject cause tval (frame, g.mon)).2.shadow.mstatus
      mpp mstatus = 0 ∨ mpp mstatus = 3
  | _ => True

/-- An `mret` is executed with U or M in MPP. -/
def KeepsPriv (g : Guest) : GuestEvent → Prop
  | .mret _ => mpp g.mon.shadow.mstatus = privU ∨ mpp g.mon.shadow.mstatus = privM
  | _ => True

instance (g : Guest) : Decidable (PrivOk g) := inferInstanceAs (Decidable (_ ∨ _))

instance (g : Guest) : (e : GuestEvent) → Decidable (KeepsPriv g e)
  | .mret _ => inferInstanceAs (Decidable (_ ∨ _))
  | .inject _ _ _ | .csr _ | .devices _ _ _ => .isTrue trivial

section Priv

variable {mem : Mem} {g g' : Guest}

theorem privOk_step (hi : PrivOk g) {e : GuestEvent} (hf : guestFire mem g e = some g') :
    PrivOk g' ↔ KeepsPriv g e := by
  cases e with
  | inject frame cause tval =>
      obtain rfl := Option.some.inj hf
      exact iff_of_true (.inr rfl) trivial
  | csr frame =>
      simp only [guestFire] at hf
      split at hf
      · rename_i hc
        obtain rfl := Option.some.inj hf
        refine iff_of_true ?_ trivial
        show (hypervisorCsr mem (guestTrap frame) g.mon).2.2.guestPriv = _ ∨ _
        rw [hypervisorCsr_guestPriv hc.1 hc.2]
        exact hi
      · cases hf
  | mret frame =>
      obtain rfl := Option.some.inj hf
      show (hypervisorMret (guestTrap frame) g.mon).2.2.guestPriv = _ ∨ _ ↔ _
      rw [hypervisorMret_monitor, mret_guestPriv]
      rfl
  | devices clint uart0 dev =>
      obtain rfl := Option.some.inj hf
      exact iff_of_true hi trivial

theorem storesMode_of_privOk (hi : PrivOk g) (e : GuestEvent) : StoresMode g e := by
  cases e with
  | inject frame cause tval =>
      have hm := hypInject_mpp cause tval (p := (frame, g.mon)) hi
      rcases hi with h | h
      · exact .inl (hm.trans h)
      · exact .inr (hm.trans h)
  | csr | mret | devices => trivial

/-- Over a run from boot, `guest_priv` is U or M throughout, and so is every MPP
that an injection stores, exactly when every `mret` is executed with U or M in
MPP. -/
theorem privOk_run {h : List (Guest × GuestEvent)}
    (hrun : Run (guestFire mem) ⟨.boot, []⟩ h g) :
    (Run.Throughout PrivOk h g ∧ Run.Meets StoresMode h) ↔ Run.Meets KeepsPriv h := by
  have hiff := Run.throughout_iff (C := KeepsPriv) (I := PrivOk) (.inr rfl)
    (fun g e g' hi hf => privOk_step hi hf) hrun
  constructor
  · rintro ⟨hall, -⟩
    exact hiff.mp hall
  · intro hC
    have hall := hiff.mpr hC
    exact ⟨hall, fun p hp => storesMode_of_privOk (hall.1 p hp) p.2⟩

end Priv

theorem privOk_run_twoDeep : ∃ h g, Run (guestFire fun _ => 0) ⟨.boot, []⟩ h g ∧ h.length = 8 ∧
    Run.Throughout PrivOk h g ∧ Run.Meets StoresMode h := by
  obtain ⟨h, g, hrun, hd⟩ := Run.exists_of_play (guestFire fun _ => 0) ⟨.boot, []⟩ twoDeep
    (fun r => decide (r.1.length = 8 ∧ Run.Meets KeepsPriv r.1)) true (by decide +kernel)
  obtain ⟨hl, hmeets⟩ := of_decide_eq_true hd
  exact ⟨h, g, hrun, hl, (privOk_run hrun).mpr hmeets⟩

/-- The guest sets MPP to 1 and executes `mret`; the next injection stores it
again. -/
theorem privOk_lost : ∃ h g, Run (guestFire fun _ => 0) ⟨.boot, []⟩ h g ∧
    ¬ Run.Throughout PrivOk h g ∧ mpp g.mon.shadow.mstatus = 1 := by
  obtain ⟨h, g, hrun, hd⟩ := Run.exists_of_play (guestFire fun _ => 0) ⟨.boot, []⟩
    [.csr (csrw 0x341 0x48000200), .csr (csrw 0x300 0x800), .mret guestMret,
      .inject ⟨0x48000200, fun _ => 0, 3, 0⟩ 3 0x48000200]
    (fun r => decide (¬ (∀ p ∈ r.1, PrivOk p.1) ∧ mpp r.2.mon.shadow.mstatus = 1)) true
    (by decide +kernel)
  obtain ⟨hbad, hmpp⟩ := of_decide_eq_true hd
  exact ⟨h, g, hrun, fun hall => hbad hall.1, hmpp⟩

end P4Hyp
