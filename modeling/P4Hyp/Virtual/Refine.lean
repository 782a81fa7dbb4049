import P4Hyp.Virtual.Traps

/-!
# The guest under the monitor

A guest that keeps to what a hart without S mode allows runs under the monitor as on
a hart of its own: in every run the monitor stays up, and its traps are matched by
the instructions of the hart.
-/

namespace P4Hyp

open Privileged (Mode Hart Platform getLsbD_put)

/-! ## Tame guests -/

section Tame

variable {h h' : Hart Periph} (P : Platform Periph)

theorem Tame.congr (ht : Tame h) (hmode : h'.mode = h.mode) (hcsr : h'.csr = h.csr) : Tame h' := by
  obtain ⟨hu, hv⟩ := ht
  constructor
  · rw [hmode, Hart.gate, hcsr]
    exact hu
  · rw [Hart.gate, hcsr]
    exact hv

/-- A handler starts with the gate shut. -/
theorem tame_trap (cause tval : Word) : Tame (h.trap cause tval) := by
  have hgate : (h.trap cause tval).gate = false := by
    show (Privileged.enter h.mode (h.csr Privileged.mstatus)).getLsbD 3 = false
    simp only [Privileged.enter, getLsbD_put _ _ (show 3 < 32 by omega)]
    rfl
  constructor
  · intro hm
    cases hm
  · rw [hgate]
    intro hg
    cases hg

theorem tame_attend (ht : Tame h) : Tame (h.attend P) := by
  unfold Hart.attend
  split
  · exact ht
  · exact tame_trap _ _

theorem setReg_csr (i : Nat) (v : Word) :
    (h.setReg i v).csr = h.csr ∧ (h.setReg i v).mode = h.mode := by
  unfold Hart.setReg
  split
  · exact ⟨rfl, rfl⟩
  · exact ⟨rfl, rfl⟩

theorem tame_access (ht : Tame h) (i : MemInsn) : Tame (i.exec P h) := by
  cases i with
  | load op rd rs1 imm => exact ht.congr (setReg_csr _ _).2 (setReg_csr _ _).1
  | cLw rd rs1 uimm => exact ht.congr (setReg_csr _ _).2 (setReg_csr _ _).1
  | store op rs2 rs1 imm => exact ht.congr rfl rfl
  | cSw rs2 rs1 uimm => exact ht.congr rfl rfl

end Tame

/-! ## Whole runs -/

section Runs

variable {sd : Sd} {s : Hosted}

/-- The monitor is up, and the guest tame. -/
structure Virtualized (s : Hosted) : Prop where
  up : s.panicked = false
  priv : s.mon.guestPriv = privU ∨ s.mon.guestPriv = privM
  tame : Tame s.hart

theorem hypDeliverPending_priv {p : RvExcFrame × Monitor}
    (hp : p.2.guestPriv = privU ∨ p.2.guestPriv = privM) :
    (hypDeliverPending p).2.guestPriv = privU ∨ (hypDeliverPending p).2.guestPriv = privM := by
  rcases hypDeliverPending_cases p with ⟨he, -⟩ | ⟨n, -, -, -, he⟩
  · rw [he]
    exact hp
  · rw [he]
    exact .inr rfl

variable (s sd) in
/-- The end of a trap: the hart takes the interrupt that is due. -/
theorem after_deliver {f : RvExcFrame} {m : Monitor} {h : Hart Periph}
    (hh : m.hart f.mepc f.x = h) (hp : m.guestPriv = privU ∨ m.guestPriv = privM) (ht : Tame h) :
    (s.after (true, hypDeliverPending (f, m))).hart = h.attend (guestPlatform sd) ∧
      Virtualized (s.after (true, hypDeliverPending (f, m))) := by
  subst hh
  have hd := hart_deliver sd hp ht
  have hx : (hypDeliverPending (f, m)).1.x = f.x := hypDeliverPending_x (f, m)
  have hhart : (s.after (true, hypDeliverPending (f, m))).hart =
      (m.hart f.mepc f.x).attend (guestPlatform sd) := by
    rw [← hd, ← hx]
    rfl
  refine ⟨hhart, rfl, hypDeliverPending_priv hp, ?_⟩
  rw [hhart]
  exact tame_attend _ ht

/-- The frame and the monitor before the delivery are where the instruction leaves the
hart. -/
structure Done (sd : Sd) (s : Hosted) (i : GuestInsn) (f : RvExcFrame) (m : Monitor) : Prop where
  executes : Executes (guestPlatform sd) i s.hart (m.hart f.mepc f.x)
  priv : m.guestPriv = privU ∨ m.guestPriv = privM
  tame : Tame (m.hart f.mepc f.x)

theorem Done.of_eq {i : GuestInsn} {f : RvExcFrame} {m : Monitor} {h : Hart Periph}
    (hh : m.hart f.mepc f.x = h) (he : Executes (guestPlatform sd) i s.hart h)
    (hp : m.guestPriv = privU ∨ m.guestPriv = privM) (ht : Tame h) : Done sd s i f m := by
  subst hh
  exact ⟨he, hp, ht⟩

/-- Every instruction but `wfi` is emulated at once. -/
theorem insn_handled (hs : Virtualized s) {i : GuestInsn} (hne : i ≠ .wfi)
    (ha : Allowed sd s.hart i)
    (hat : i.At s.mem s.pc (Hosted.regs s.x)) (sleeps : List (List HostEvent)) :
    ∃ f m, hypervisor true s.mem sd sleeps
        (s.frame i.cause (i.tval s.mem s.pc (Hosted.regs s.x))) s.mon =
          some (true, hypDeliverPending (f, m)) ∧ Done sd s i f m := by
  have hvec (hv : s.hart.csr Privileged.mtvec ≠ 0 ∧ s.hart.csr Privileged.mtvec &&& 0x3 = 0) :
      s.mon.shadow.mtvec ≠ 0 ∧ s.mon.shadow.mtvec &&& 0x3 = 0 := hv
  cases i with
  | zicsr i =>
      obtain ⟨-, himpl, -, ht⟩ := ha
      obtain ⟨f, m, hr, hh, hp⟩ := hypervisor_csr s.mon
        (s.frame 2 (wordAt s.mem s.pc)) s.mem sd sleeps rfl hat himpl
      exact ⟨f, m, hr, .of_eq hh (.zicsr i s.hart) (by rw [hp]; exact hs.priv) ht⟩
  | mret =>
      obtain ⟨-, h0, h17, mode, hmode, ht⟩ := ha
      obtain ⟨f, m, hr, hh, hp⟩ := hypervisor_mret s.mon
        (s.frame 2 (wordAt s.mem s.pc)) s.mem sd sleeps rfl hat h0 hmode h17
      exact ⟨f, m, hr, .of_eq hh (.mret hmode) hp ht⟩
  | wfi => exact absurd rfl hne
  | ecall =>
      obtain ⟨hne0, hdirect⟩ := hvec (hs.tame.vector (hs.tame.user ha))
      have hhand : handedOn (s.frame 8 0) = some (8, 0) := rfl
      obtain ⟨f, m, hr, hh, hp⟩ := hypervisor_raise s.mon s.mem sd sleeps hhand hs.priv hne0 hdirect
      refine ⟨f, m, hr, .of_eq hh ?_ (.inr hp) (tame_trap 8 0)⟩
      have hex := Executes.ecall (P := guestPlatform sd) s.hart
      rw [show s.hart.mode = .user from ha] at hex
      exact hex
  | ebreak =>
      obtain ⟨hne0, hdirect⟩ := hvec ha
      have hhand : handedOn (s.frame 3 s.pc) = some (3, s.pc) := rfl
      obtain ⟨f, m, hr, hh, hp⟩ := hypervisor_raise s.mon s.mem sd sleeps hhand hs.priv hne0 hdirect
      exact ⟨f, m, hr, .of_eq hh (.ebreak s.hart) (.inr hp) (tame_trap 3 s.pc)⟩
  | access i =>
      obtain ⟨hi, hwin⟩ := hat
      obtain ⟨device, hfind⟩ := Option.isSome_iff_exists.mp hwin
      have hc : (if i.isStore = true then (7 : Word) else 5) = 5 ∨
          (if i.isStore = true then (7 : Word) else 5) = 7 := by
        split
        · exact .inr rfl
        · exact .inl rfl
      obtain ⟨f, m, hr, hh, hp⟩ := hypervisor_perform s.mon
        (s.frame (if i.isStore then 7 else 5) (i.address (Hosted.regs s.x))) s.mem sd sleeps hc
          hi rfl hfind
      exact ⟨f, m, hr, .of_eq hh (.access i s.hart) (by rw [hp]; exact hs.priv)
        (tame_access _ hs.tame i)⟩
  | fault store a =>
      obtain ⟨hne0, hdirect⟩ := hvec ha
      have hhand : handedOn (s.frame (if store then 7 else 5) a) =
          some (if store then 7 else 5, a) := by
        cases store with
        | true => exact if_pos hat
        | false => exact if_pos hat
      obtain ⟨f, m, hr, hh, hp⟩ := hypervisor_raise s.mon s.mem sd sleeps hhand hs.priv hne0 hdirect
      exact ⟨f, m, hr, .of_eq hh (.fault store a s.hart) (.inr hp) (tame_trap _ _)⟩

theorem wfi_handled (hs : Virtualized s) (hat : GuestInsn.wfi.At s.mem s.pc (Hosted.regs s.x))
    {sleeps : List (List HostEvent)} {r : Bool × RvExcFrame × Monitor}
    (hr : hypervisor true s.mem sd sleeps (s.frame 2 (wordAt s.mem s.pc)) s.mon = some r) :
    ∃ f m, r = (true, hypDeliverPending (f, m)) ∧ Done sd s .wfi f m := by
  obtain ⟨f, m, dev, rfl, hres, hh, hp⟩ := hypervisor_wfi (s.frame 2 (wordAt s.mem s.pc)) rfl hat hr
  exact ⟨f, m, rfl, .of_eq hh (.wfi hres) (by rw [hp]; exact hs.priv) (hs.tame.congr rfl rfl)⟩

/-- What one event does, the hart does too. -/
theorem hosted_step (hs : Virtualized s) {e : HostedEvent} {s' : Hosted} (hg : GuestStep sd s e)
    (hf : hostedFire sd s e = some s') : Virtualized s' ∧
      Steps (HartStep (guestPlatform sd)) (s.mem, s.hart) (hartActs e) (s'.mem, s'.hart) := by
  cases e with
  | native mem pc x =>
      rw [hostedFire, if_neg (by rw [hs.up]; exact Bool.false_ne_true)] at hf
      obtain rfl := Option.some.inj hf
      exact ⟨⟨hs.up, hs.priv, hs.tame.congr rfl rfl⟩, .single .native⟩
  | insn i sleeps =>
      rw [hostedFire] at hf
      split at hf
      · rename_i hat
        obtain ⟨r, hr, rfl⟩ := Option.map_eq_some_iff.mp hf
        obtain ⟨f, m, rfl, hd⟩ : ∃ f m, r = (true, hypDeliverPending (f, m)) ∧ Done sd s i f m := by
          by_cases hw : i = .wfi
          · subst hw
            exact wfi_handled hs hat.2 hr
          · obtain ⟨f, m, hr', hd⟩ := insn_handled hs hw hg hat.2 sleeps
            exact ⟨f, m, Option.some.inj (hr.symm.trans hr'), hd⟩
        obtain ⟨hhart, hv⟩ := after_deliver sd s rfl hd.priv hd.tame
        refine ⟨hv, .single ?_⟩
        rw [hhart]
        exact .insn hat.2 hd.executes
      · cases hf
  | irq mcause =>
      rw [hostedFire] at hf
      split at hf
      · rename_i hc
        obtain ⟨r, hr, rfl⟩ := Option.map_eq_some_iff.mp hf
        rw [hypervisor, if_neg (not_not_intro rfl),
          if_pos (show (s.frame mcause 0).mcause &&& interruptBit ≠ 0 from hc.2)] at hr
        obtain rfl := Option.some.inj hr
        obtain ⟨hdev, hmoves⟩ := hypPollHostDevices_devices s.mon
        obtain ⟨hpoll, hpriv⟩ := hart_devices s.pc s.x hdev
        obtain ⟨hhart, hv⟩ := after_deliver (f := s.frame mcause 0) sd s hpoll
          (by rw [hpriv]; exact hs.priv) (hs.tame.congr rfl rfl)
        refine ⟨hv, .cons (.devices hmoves) ?_⟩
        rw [hhart]
        exact .single .interrupt
      · cases hf
  | device e =>
      obtain rfl := Option.some.inj hf
      obtain ⟨hdev, hmoves⟩ := hostStep_devices s.mon e
      obtain ⟨hhart, hpriv⟩ := hart_devices s.pc s.x hdev
      have hstep : ({ s with mon := hostStep s.mon e } : Hosted).hart = _ := hhart
      refine ⟨⟨hs.up, by rw [hpriv]; exact hs.priv, ?_⟩, ?_⟩
      · rw [hstep]
        exact hs.tame.congr rfl rfl
      · rw [hstep]
        exact .single (.devices hmoves)

theorem virtualized_boot (mem : Mem) (pc : Word) (x : Nat → Word) :
    Virtualized (.boot mem pc x) := by
  have hshut : (Hosted.boot mem pc x).hart.gate = false := by
    show (privM <<< mstatusMppS).getLsbD 3 = false
    decide
  refine ⟨rfl, .inr rfl, ?_, ?_⟩
  · intro h
    cases h
  · rw [hshut]
    intro h
    cases h

variable {mem : Mem} {pc : Word} {x : Nat → Word} {h : List (Hosted × HostedEvent)}

/-- In every run of an allowed guest the monitor stays up, the guest's hart makes the
same moves to the same place, and the next allowed instruction is emulated, or is a
`wfi`. -/
theorem hosted_simulates (hrun : Run (hostedFire sd) (.boot mem pc x) h s)
    (hC : Run.Meets (GuestStep sd) h) :
    s.panicked = false ∧
      Steps (HartStep (guestPlatform sd)) (mem, (Hosted.boot mem pc x).hart)
        (h.flatMap fun p => hartActs p.2) (s.mem, s.hart) ∧
      ∀ i sleeps, i ≠ .wfi → Allowed sd s.hart i → i.At s.mem s.pc (Hosted.regs s.x) →
        ∃ s', hostedFire sd s (.insn i sleeps) = some s' := by
  obtain ⟨hs, hsteps⟩ := Run.simulates (HartStep (guestPlatform sd)) (GuestStep sd) Virtualized
    (fun s => (s.mem, s.hart)) (fun _ e => hartActs e) (virtualized_boot mem pc x)
    (fun s e s' hI hc hf => hosted_step hI hc hf) hrun hC
  refine ⟨hs.up, hsteps, fun i sleeps hw ha hat => ?_⟩
  obtain ⟨f, m, hr, -⟩ := insn_handled hs hw ha hat sleeps
  refine ⟨s.after (true, hypDeliverPending (f, m)), ?_⟩
  rw [hostedFire, if_pos ⟨hs.up, hat⟩, hr]
  rfl

end Runs

/-- A word of code, executed with `value` in every register. -/
def executed (pc word value : Word) (i : GuestInsn) : List HostedEvent :=
  [.native (insnAt pc word) pc fun _ => value, .insn i []]

/-- The guest sets its vector, leaves for U mode with interrupts open, and comes back
with an environment call. -/
def firstCall : List HostedEvent :=
  executed 0x48000000 0x30529073 0x48000100 (.zicsr ⟨.swap, 0x305, 0, false, 5⟩) ++
    executed 0x48000004 0x34129073 0x48000200 (.zicsr ⟨.swap, 0x341, 0, false, 5⟩) ++
    executed 0x48000008 0x30029073 0x80 (.zicsr ⟨.swap, 0x300, 0, false, 5⟩) ++
    executed 0x4800000c 0x30200073 0 .mret ++ executed 0x48000200 0x00000073 0 .ecall

theorem hosted_simulates_firstCall : ∃ h s,
    Run (hostedFire (smallSd true)) (.boot (fun _ => 0) 0x48000000 fun _ => 0) h s ∧
      h.length = 10 ∧ s.pc = 0x48000100 ∧ s.mon.shadow.mcause = 8 ∧ s.panicked = false := by
  obtain ⟨h, s, hrun, hd⟩ := Run.exists_of_play (hostedFire (smallSd true))
    (.boot (fun _ => 0) 0x48000000 fun _ => 0) firstCall
    (fun r => decide (r.1.length = 10 ∧ r.2.pc = 0x48000100 ∧ r.2.mon.shadow.mcause = 8 ∧
      Run.Meets (GuestStep (smallSd true)) r.1)) true (by decide +kernel)
  obtain ⟨hl, hpc, hc, hmeets⟩ := of_decide_eq_true hd
  exact ⟨h, s, hrun, hl, hpc, hc, (hosted_simulates hrun hmeets).1⟩

end P4Hyp
