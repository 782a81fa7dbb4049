import P4Hyp.Virtual.Shadow

/-!
# The traps of single instructions

Before the delivery each trap has left the registers and the monitor where the
instruction leaves the hart.
-/

namespace P4Hyp

open Privileged (Mode Hart)

section Traps

variable {m : Monitor} {pc : Word} {x : Nat → Word} {frame : RvExcFrame}

/-! ## The instructions that trap as illegal -/

theorem hart_regWrite (i : Nat) (v : Word) :
    m.hart pc (regWrite i v frame).x = (m.hart pc frame.x).setReg i v := by
  unfold regWrite Hart.setReg
  by_cases hi : i = 0
  · rw [if_neg (not_not_intro hi), if_pos hi]
  · rw [if_pos hi, if_neg hi]
    have hregs : Hosted.regs (fun j => if j = i then v else frame.x j) =
        Function.update (Hosted.regs frame.x) i v := by
      funext j
      rw [Function.update_apply]
      unfold Hosted.regs
      by_cases hj : j = i
      · simp [hj, hi]
      · simp [hj]
    rw [Monitor.hart, hregs]
    rfl

theorem hart_readCsr (sd : Sd) (csr : Word) :
    (m.hart pc x).readCsr (guestPlatform sd) csr = csrValue m csr := by
  unfold Hart.readCsr csrValue
  rw [hart_pending]
  rfl

variable {mem : Mem} {sd : Sd} {sleeps : List (List HostEvent)}

/-- A trap of an illegal instruction is decoded by `mtval`. -/
theorem hypervisor_illegal {r : TrapResult} {trap : GuestTrap} {m' : Monitor}
    (hc : frame.mcause = 2)
    (h : hypervisorCsr mem (guestTrap frame) m = (some r, trap, m')) :
    hypervisor true mem sd sleeps frame m = some (trapExit r trap m') := by
  have htrap : hypervisorTrap mem sd (guestTrap frame) m = hypervisorCsr mem (guestTrap frame) m :=
    if_pos hc
  rw [hypervisor, if_neg (not_not_intro rfl), if_neg (illegal_exception hc), htrap, h]

theorem system_length {w : Word} (h : w &&& 0x7f = 0x73) : w &&& 0x3 = 0x3 := by
  have hmask : (0x3 : Word) = 0x7f &&& 0x3 := by decide
  rw [hmask, ← BitVec.and_assoc, h]
  decide

/-- What `csr_access` does to the bank is what the hart does. -/
theorem hart_csrAccess (m : Monitor) (pc : Word) (x : Nat → Word) {f : Nat} {o : ZicsrOp × Bool}
    (ho : zicsrOp f = some o) {csr : Word}
    (himpl : CsrImplemented csr) (rs1 : Nat) (src : Word) :
    ∃ m', csrAccess csr f rs1 src m = some (csrValue m csr, m') ∧ m'.guestPriv = m.guestPriv ∧
      m'.hart pc x = if decide (o.1 = .swap ∨ rs1 ≠ 0) = true then
        (m.hart pc x).writeCsr (guestPlatform sd) csr (o.1.apply (csrValue m csr) src)
      else m.hart pc x := by
  obtain ⟨m', ha, hbank, hrest⟩ := csrAccess_zicsr ho himpl rs1 src m
  have hpriv : m'.guestPriv = m.guestPriv := by rw [hrest]
  have hdev : m'.periph = m.periph := by rw [hrest]; rfl
  refine ⟨m', ha, hpriv, ?_⟩
  by_cases hw : o.1 = .swap ∨ rs1 ≠ 0
  · rw [if_pos (decide_eq_true hw)]
    have hcsr : csrStored m' = Function.update (csrStored m) csr
        (o.1.apply (csrValue m csr) src &&& csrWritable csr) := by
      funext c
      rw [hbank, Function.update_apply]
      simp only [hw, and_true]
    rw [Monitor.hart, hcsr, hpriv, hdev]
    rfl
  · rw [if_neg (by simpa using hw)]
    have hcsr : csrStored m' = csrStored m := by
      funext c
      rw [hbank, if_neg (fun h => hw h.2)]
    rw [Monitor.hart, hcsr, hpriv, hdev]
    rfl

/-- A 32-bit instruction that is emulated and skipped. -/
theorem hypervisor_skip {trap : GuestTrap} {m' : Monitor} (hc : frame.mcause = 2)
    (h : hypervisorCsr mem (guestTrap frame) m = (some .advance, trap, m')) (hl : trap.length = 4) :
    hypervisor true mem sd sleeps frame m =
      some (true, hypDeliverPending ({ trap.frame with mepc := trap.frame.mepc + 4 }, m')) := by
  rw [hypervisor_illegal hc h, trapExit_advance_ok (by rw [hl]; decide), hl]

theorem hart_next (n : Word) : m.hart (pc + n) x = (m.hart pc x).next n := rfl

variable (m mem sd sleeps frame) in
theorem hypervisor_csr {i : ZicsrInsn} (hc : frame.mcause = 2)
    (hi : ZicsrInsn.decode frame.mtval = some i) (himpl : CsrImplemented i.csr) :
    ∃ f m', hypervisor true mem sd sleeps frame m = some (true, hypDeliverPending (f, m')) ∧
      m'.hart f.mepc f.x = i.exec (guestPlatform sd) (m.hart frame.mepc frame.x) ∧
      m'.guestPriv = m.guestPriv := by
  obtain ⟨trap, hd, he, hf, hl⟩ := trapDecode_illegal mem hc
  unfold ZicsrInsn.decode at hi
  split at hi
  · cases hi
  · rename_i hop
    obtain ⟨o, ho, rfl⟩ := Option.map_eq_some_iff.mp hi
    obtain ⟨h0, h4, himm, -, -⟩ := zicsrOp_spec ho
    have hlen : trap.length = 4 := by
      rw [hl, if_pos (system_length (not_not.mp hop))]
    obtain ⟨m', ha, hpriv, hhart⟩ :=
      hart_csrAccess m frame.mepc frame.x ho himpl (field frame.mtval 15 5)
      (if o.2 then BitVec.ofNat 32 (field frame.mtval 15 5)
        else regRead frame (field frame.mtval 15 5))
    have hcsr : hypervisorCsr mem (guestTrap frame) m = (some .advance,
        { trap with frame := regWrite (field frame.mtval 7 5) (csrValue m (frame.mtval >>> 20)) frame },
        m') := by
      unfold hypervisorCsr
      rw [hd]
      dsimp only
      rw [he, if_neg hop, if_neg h0, if_neg h4, hf]
      simp only [himm]
      rw [ha]
    refine ⟨_, m', hypervisor_skip hc hcsr hlen, ?_, hpriv⟩
    rw [regWrite_mepc, hart_next, hart_regWrite, hhart]
    show _ = Hart.next 4 (Hart.access _ _ _ _ _ _)
    rw [Hart.access, hart_readCsr]
    rfl

variable (m mem sd sleeps frame) in
theorem hypervisor_mret {mode : Mode} (hc : frame.mcause = 2) (hi : frame.mtval = 0x30200073)
    (h0 : m.shadow.mepc ≠ 0) (hm : Privileged.mpp m.shadow.mstatus = some mode)
    (h17 : m.shadow.mstatus.getLsbD 17 = false) :
    ∃ f m', hypervisor true mem sd sleeps frame m = some (true, hypDeliverPending (f, m')) ∧
      m'.hart f.mepc f.x = (m.hart frame.mepc frame.x).ret mode ∧
      (m'.guestPriv = privU ∨ m'.guestPriv = privM) := by
  obtain ⟨trap, hd, he, hf, -⟩ := trapDecode_illegal mem hc
  have hcsr : hypervisorCsr mem (guestTrap frame) m =
      (some (hypervisorMret trap m).1, (hypervisorMret trap m).2) := by
    unfold hypervisorCsr
    rw [hd]
    dsimp only
    rw [he, hi]
    rfl
  rw [hypervisorMret_ok h0, hf] at hcsr
  obtain ⟨hhart, hpriv⟩ := hart_mret frame.mepc frame.x hm h17
  exact ⟨_, m.mret, hypervisor_illegal hc hcsr, hhart, hpriv⟩

variable (frame) in
theorem hypervisor_wfi (hc : frame.mcause = 2) (hi : frame.mtval = 0x10500073)
    {r : Bool × RvExcFrame × Monitor} (h : hypervisor true mem sd sleeps frame m = some r) :
    ∃ f m' dev, r = (true, hypDeliverPending (f, m')) ∧
      (m.hart frame.mepc frame.x).Resumes (guestPlatform sd) dev ∧
      m'.hart f.mepc f.x = { m.hart frame.mepc frame.x with dev }.next 4 ∧
      m'.guestPriv = m.guestPriv := by
  obtain ⟨trap, hd, he, hf, hl⟩ := trapDecode_illegal mem hc
  have hlen : trap.length = 4 := by
    rw [hl, hi]
    rfl
  have hcsr : hypervisorCsr mem (guestTrap frame) m =
      ((hypervisorWfi m).1, trap, (hypervisorWfi m).2) := by
    unfold hypervisorCsr
    rw [hd]
    dsimp only
    rw [he, hi]
    rfl
  rcases hypervisorWfi_cases m with hw | hw
  · rw [hw] at hcsr
    rw [hypervisor_skip hc hcsr hlen, hf] at h
    exact ⟨_, m, m.periph, (Option.some.inj h).symm, .inl rfl, rfl, rfl⟩
  · rw [hw] at hcsr
    have htrap : hypervisorTrap mem sd (guestTrap frame) m = _ := (if_pos hc).trans hcsr
    rw [hypervisor, if_neg (not_not_intro rfl), if_neg (illegal_exception hc), htrap] at h
    obtain ⟨m', hloop, rfl⟩ := Option.map_eq_some_iff.mp h
    obtain ⟨hdev, hmoves, hwake⟩ := wfiLoop_devices hloop
    have hnote : DevicesOnly m { m with hypInWfi := true } := rfl
    obtain ⟨hhart, hpriv⟩ := hart_devices frame.mepc frame.x (hnote.trans hdev)
    refine ⟨{ frame with mepc := frame.mepc + 4 }, m', m'.periph, ?_, .inr ⟨hmoves, ?_⟩, ?_, hpriv⟩
    · rw [trapExit_advance_ok (by rw [hlen]; decide), hf, hlen]
    · rw [← hhart, hart_enabled, ← hypWfiWake_pending]
      exact hwake
    · rw [hart_next, hhart]

/-! ## Device accesses and exceptions -/

theorem hart_read (m : Monitor) (pc : Word) (x : Nat → Word) (sd : Sd) (device : MmioDevice)
    (off : Word) (width : Nat) :
    (device.read sd off width m).1 = (device.read sd off width (m.periph.on .boot)).1 ∧
      (device.read sd off width m).2.hart pc x =
        { m.hart pc x with dev := (device.read sd off width (m.periph.on .boot)).2.periph } ∧
      (device.read sd off width m).2.guestPriv = m.guestPriv := by
  have hread : device.read sd off width m = ((device.read sd off width (m.periph.on .boot)).1,
      (device.read sd off width (m.periph.on .boot)).2.periph.on m) := by
    cases device <;> rfl
  obtain ⟨hhart, hpriv⟩ := hart_devices pc x
    (show DevicesOnly m ((device.read sd off width (m.periph.on .boot)).2.periph.on m) from rfl)
  rw [hread]
  exact ⟨rfl, hhart, hpriv⟩

theorem hart_write (m : Monitor) (pc : Word) (x : Nat → Word) (sd : Sd) (device : MmioDevice)
    (off v : Word) (width : Nat) :
    (device.write sd off v width m).hart pc x =
        { m.hart pc x with dev := (device.write sd off v width (m.periph.on .boot)).periph } ∧
      (device.write sd off v width m).guestPriv = m.guestPriv := by
  have hwrite : device.write sd off v width m =
      (device.write sd off v width (m.periph.on .boot)).periph.on m := by
    cases device <;> rfl
  rw [hwrite]
  exact hart_devices pc x rfl

section Perform

variable {device : MmioDevice} {a : Word}

theorem hart_load (hfind : mmioFind a = some device) (rd : Nat) (width : Nat)
    (extend : Word → Word) :
    (device.read sd (a - device.base) width m).2.hart pc
        (regWrite rd (extend (device.read sd (a - device.base) width m).1) frame).x =
      (m.hart pc frame.x).load (guestPlatform sd) rd a width extend := by
  obtain ⟨hv, hhart, -⟩ := hart_read m pc frame.x sd device (a - device.base) width
  have hread : (guestPlatform sd).read a width m.periph =
      ((device.read sd (a - device.base) width (m.periph.on .boot)).1,
        (device.read sd (a - device.base) width (m.periph.on .boot)).2.periph) := by
    show Periph.read sd a width m.periph = _
    rw [Periph.read, hfind]
  rw [hart_regWrite, hhart, hv, Hart.load, show (m.hart pc frame.x).dev = m.periph from rfl, hread]

theorem hart_store (hfind : mmioFind a = some device) (v : Word) (width : Nat) :
    (device.write sd (a - device.base) v width m).hart pc x =
      (m.hart pc x).store (guestPlatform sd) a v width := by
  have hwrite : (guestPlatform sd).write a v width m.periph =
      (device.write sd (a - device.base) v width (m.periph.on .boot)).periph := by
    show Periph.write sd a v width m.periph = _
    rw [Periph.write, hfind]
  rw [(hart_write m pc x sd device _ v width).1, Hart.store, show (m.hart pc x).dev =
    m.periph from rfl, hwrite]

/-- The emulated access, on the hart. -/
theorem hart_perform (m : Monitor) (sd : Sd) {i : MemInsn}
    (ha : i.address (Hosted.regs frame.x) = a) (hfind : mmioFind a = some device) :
    let after := i.perform sd device (a - device.base) frame m
    after.2.hart (frame.mepc + i.length) after.1.x =
        i.exec (guestPlatform sd) (m.hart frame.mepc frame.x) ∧
      after.2.guestPriv = m.guestPriv := by
  subst ha
  cases i with
  | load op rd rs1 imm =>
      refine ⟨?_, (hart_read m frame.mepc frame.x sd device _ _).2.2⟩
      have hreg (v : Word) : (fun i => if rd.toNat ≠ 0 ∧ i = rd.toNat then v else frame.x i) =
          (regWrite rd.toNat v frame).x := by rw [regWrite_toNat]
      rw [MemInsn.exec]
      dsimp only [MemInsn.perform]
      rw [hart_next, hreg]
      exact congrArg (Hart.next 4) (hart_load hfind rd.toNat op.access.width op.access.extend)
  | store op rs2 rs1 imm =>
      refine ⟨?_, (hart_write m frame.mepc frame.x sd device _ _ _).2⟩
      rw [MemInsn.exec]
      dsimp only [MemInsn.perform]
      rw [hart_next, ← regRead_toNat, hart_store hfind]
      rfl
  | cLw rd rs1 uimm =>
      refine ⟨?_, (hart_read m frame.mepc frame.x sd device
        (MemInsn.address (Hosted.regs frame.x) (.cLw rd rs1 uimm) - device.base) 4).2.2⟩
      have hne : 8 + rd.toNat ≠ 0 := by omega
      have hreg (v : Word) : (fun i => if i = 8 + rd.toNat then v else frame.x i) =
          (regWrite (8 + rd.toNat) v frame).x := by rw [regWrite, if_pos hne]
      rw [MemInsn.exec]
      dsimp only [MemInsn.perform]
      rw [hart_next, hreg]
      exact congrArg (Hart.next 2) (hart_load hfind (8 + rd.toNat) 4 id)
  | cSw rs2 rs1 uimm =>
      refine ⟨?_, (hart_write m frame.mepc frame.x sd device _ _ _).2⟩
      have hne : 8 + rs2.toNat ≠ 0 := by omega
      have hreg : frame.x (8 + rs2.toNat) = Hosted.regs frame.x (8 + rs2.toNat) := (if_pos hne).symm
      rw [MemInsn.exec]
      dsimp only [MemInsn.perform]
      rw [hart_next, hreg, hart_store hfind]
      rfl

end Perform

variable (m mem sd sleeps frame) in
theorem hypervisor_perform {device : MmioDevice} {i : MemInsn}
    (hc : frame.mcause = 5 ∨ frame.mcause = 7) (hi : i.At mem frame.mepc)
    (ht : frame.mtval = i.address (Hosted.regs frame.x))
      (hfind : mmioFind frame.mtval = some device) :
    ∃ f m', hypervisor true mem sd sleeps frame m = some (true, hypDeliverPending (f, m')) ∧
      m'.hart f.mepc f.x = i.exec (guestPlatform sd) (m.hart frame.mepc frame.x) ∧
      m'.guestPriv = m.guestPriv := by
  have hn2 : frame.mcause ≠ 2 := by
    rcases hc with h | h
    · rw [h]
      decide
    · rw [h]
      decide
  obtain ⟨hhart, hpriv⟩ := hart_perform m sd ht.symm hfind
  have hmepc : (i.perform sd device (frame.mtval - device.base) frame m).1.mepc = frame.mepc := by
    cases i <;> rfl
  refine ⟨{ (i.perform sd device (frame.mtval - device.base) frame m).1 with
    mepc := frame.mepc + i.length }, _, ?_, hhart, hpriv⟩
  rw [hypervisor_mmio hc (mmioFind_iff.mp hfind), hypervisorMmio_at hn2 (mmioFind_iff.mp hfind) hi]
  dsimp only
  rw [trapExit_advance_ok i.length_ne_zero]
  dsimp only
  rw [hmepc]

variable (m mem sd sleeps) in
/-- An exception that goes to the guest's handler. -/
theorem hypervisor_raise {cause tval : Word} (hr : handedOn frame = some (cause, tval))
    (hp : m.guestPriv = privU ∨ m.guestPriv = privM) (hv : m.shadow.mtvec ≠ 0)
    (hdirect : m.shadow.mtvec &&& 0x3 = 0) :
    ∃ f m', hypervisor true mem sd sleeps frame m = some (true, hypDeliverPending (f, m')) ∧
      m'.hart f.mepc f.x = (m.hart frame.mepc frame.x).trap cause tval ∧ m'.guestPriv = privM := by
  refine ⟨(hypInject cause tval (frame, m)).1, (hypInject cause tval (frame, m)).2, ?_,
    hart_inject cause tval hp hdirect, rfl⟩
  obtain ⟨hm, h0⟩ := handedOn_exception hr
  rw [hypervisor, if_neg (not_not_intro rfl), if_neg (by rw [hm]; exact fun h => h h0),
    hypervisorTrap_handedOn hr, injectOr, if_neg hv]
  rfl

end Traps

end P4Hyp
