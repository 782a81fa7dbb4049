import P4Hyp.Csr
import P4Hyp.Mmio

/-!
# Trap dispatch

`hypervisor` is the whole of a trap.  A `wfi` that blocks stays in its loop for as
many sleeps as it takes, during each of which the host goes on; the sleeps are an
argument, and there is no result while they do not suffice.
-/

namespace P4Hyp

def interruptBit : Word := 0x80000000

/-- Hand the exception to the guest, if it has a trap vector. -/
def injectOr (cause tval : Word) (trap : GuestTrap) (m : Monitor) :
    Option TrapResult × GuestTrap × Monitor :=
  if m.shadow.mtvec = 0 then (some .unhandled, trap, m)
  else
    let (frame, m) := hypInject cause tval (trap.frame, m)
    (some .resume, { trap with frame }, m)

def hypervisorTrap (mem : Mem) (sd : Sd) (trap : GuestTrap) (m : Monitor) :
    Option TrapResult × GuestTrap × Monitor :=
  if trap.cause = 2 then hypervisorCsr mem trap m
  else if trap.cause = 3 then injectOr 3 trap.frame.mepc trap m
  else if trap.cause = 5 ∨ trap.cause = 7 then
    match mmioFind trap.tval with
    | some _ =>
        let (r, trap, m) := hypervisorMmio mem sd trap m
        (some r, trap, m)
    | none => injectOr trap.cause trap.tval trap m
  else if trap.cause = 8 then injectOr 8 0 trap m
  else (some .unhandled, trap, m)

/-- The trap that `hypervisor` builds from the frame of an exception. -/
def guestTrap (frame : RvExcFrame) : GuestTrap :=
  { frame, cause := frame.mcause, tval := frame.mtval, encoding := 0, length := 0 }

/-- The switch over the outcome: the frame to resume with, after the delivery
that follows, or `none` where `hypervisor` returns false. -/
def trapResume (r : TrapResult) (trap : GuestTrap) : Option RvExcFrame :=
  match r with
  | .advance =>
      if trap.length = 0 then none
      else some { trap.frame with mepc := trap.frame.mepc + trap.length }
  | .resume => some trap.frame
  | .unhandled => none

/-- The end of `hypervisor`, from the switch on: whether the trap is handled, and
what it leaves. -/
def trapExit (r : TrapResult) (trap : GuestTrap) (m : Monitor) : Bool × RvExcFrame × Monitor :=
  match trapResume r trap with
  | some frame => (true, hypDeliverPending (frame, m))
  | none => (false, trap.frame, m)

/-- The loop of `hypervisor_wfi`, with what the host does during each sleep. -/
def wfiLoop (m : Monitor) : List (List HostEvent) → Option Monitor
  | [] => if hypWfiWake m then some { m with hypInWfi := false } else none
  | es :: sleeps =>
      if hypWfiWake m then some { m with hypInWfi := false }
      else wfiLoop (hypPollHostDevices (es.foldl hostStep m)) sleeps

def hypervisor (linuxRunning : Bool) (mem : Mem) (sd : Sd) (sleeps : List (List HostEvent))
    (frame : RvExcFrame) (m : Monitor) : Option (Bool × RvExcFrame × Monitor) :=
  if ¬ linuxRunning then some (false, frame, m)
  else if frame.mcause &&& interruptBit ≠ 0 then
    some (true, hypDeliverPending (frame, hypPollHostDevices m))
  else
    match hypervisorTrap mem sd (guestTrap frame) m with
    | (some r, trap, m) => some (trapExit r trap m)
    | (none, trap, m) => (wfiLoop m sleeps).map (trapExit .advance trap)

/-! ## What a trap can do -/

/-- The exception that the dispatcher hands on to the guest, by cause and
`mtval`. -/
def handedOn (frame : RvExcFrame) : Option (Word × Word) :=
  if frame.mcause = 3 then some (3, frame.mepc)
  else if frame.mcause = 5 ∨ frame.mcause = 7 then
    if mmioFind frame.mtval = none then some (frame.mcause, frame.mtval) else none
  else if frame.mcause = 8 then some (8, 0)
  else none

/-- The register that an emulated instruction writes, 0 if it writes none. -/
def destination (cause encoding : Word) : Nat :=
  if cause = 2 then
    if field encoding 12 3 = 0 then 0 else field encoding 7 5
  else
    match decodeAccess encoding with
    | none => 0
    | some access => if access.isStore then 0 else field encoding 7 5

/-- The ways in which `hypervisor_trap` leaves a trap. -/
inductive TrapCase (mem : Mem) (frame : RvExcFrame) (m : Monitor) :
    Option TrapResult × GuestTrap × Monitor → Prop
  | unhandled {trap m'} : TrapCase mem frame m (some .unhandled, trap, m')
  | injected {cause tval} (hr : handedOn frame = some (cause, tval)) (hv : m.shadow.mtvec ≠ 0) :
      TrapCase mem frame m (some .resume,
        { guestTrap frame with frame := (hypInject cause tval (frame, m)).1 },
        (hypInject cause tval (frame, m)).2)
  | mret {trap} (hr : handedOn frame = none) (hc : frame.mcause = 2) (hi : frame.mtval = 0x30200073)
      (hd : trapDecode mem (guestTrap frame) = some trap) (h0 : m.shadow.mepc ≠ 0) :
      TrapCase mem frame m (some .resume,
        { trap with frame := { frame with mepc := m.shadow.mepc } }, m.mret)
  | wfi {trap} (hr : handedOn frame = none) (hc : frame.mcause = 2) (hi : frame.mtval = 0x10500073)
      (hd : trapDecode mem (guestTrap frame) = some trap) :
      TrapCase mem frame m ((hypervisorWfi m).1, trap, (hypervisorWfi m).2)
  | emulated {trap v m'} (hr : handedOn frame = none)
      (hi : ¬ (frame.mcause = 2 ∧ frame.mtval = 0x30200073))
      (hd : trapDecode mem (guestTrap frame) = some trap) (hn : m'.injections = m.injections) :
      TrapCase mem frame m (some .advance,
        { trap with frame := regWrite (destination frame.mcause trap.encoding) v frame }, m')

theorem trapDecode_frame {mem : Mem} {trap trap' : GuestTrap}
    (h : trapDecode mem trap = some trap') :
    trap'.frame = trap.frame ∧ trap'.tval = trap.tval := by
  unfold trapDecode at h
  split at h
  · obtain rfl := Option.some.inj h
    exact ⟨rfl, rfl⟩
  · split at h
    · cases h
    · split at h
      · split at h
        · cases h
        · obtain rfl := Option.some.inj h
          exact ⟨rfl, rfl⟩
      · obtain rfl := Option.some.inj h
        exact ⟨rfl, rfl⟩

theorem injectOr_case {mem : Mem} {frame : RvExcFrame} {cause tval : Word}
    (hr : handedOn frame = some (cause, tval)) (m : Monitor) :
    TrapCase mem frame m (injectOr cause tval (guestTrap frame) m) := by
  unfold injectOr
  split
  · exact .unhandled
  · rename_i hv
    exact .injected hr hv

theorem trapDecode_illegal (mem : Mem) {frame : RvExcFrame} (hc : frame.mcause = 2) :
    ∃ trap, trapDecode mem (guestTrap frame) = some trap ∧ trap.encoding = frame.mtval ∧
      trap.frame = frame ∧ trap.length = if frame.mtval &&& 0x3 = 0x3 then 4 else 2 :=
  ⟨_, if_pos hc, rfl, rfl, rfl⟩

theorem hypervisorCsr_case {mem : Mem} {frame : RvExcFrame} (hc : frame.mcause = 2) (m : Monitor) :
    TrapCase mem frame m (hypervisorCsr mem (guestTrap frame) m) := by
  have hr : handedOn frame = none := by
    rw [handedOn, hc]
    rfl
  obtain ⟨trap, hd, he, hf, -⟩ := trapDecode_illegal mem hc
  unfold hypervisorCsr
  rw [hd]
  dsimp only
  split
  · exact .unhandled
  · split
    · split
      · rename_i hi
        rw [he] at hi
        by_cases h0 : m.shadow.mepc = 0
        · rw [hypervisorMret_zero h0]
          exact .unhandled
        · rw [hypervisorMret_ok h0, hf]
          exact .mret hr hc hi hd h0
      · split
        · rename_i hi
          rw [he] at hi
          exact .wfi hr hc hi hd
        · exact .unhandled
    · rename_i hf0
      split
      · exact .unhandled
      · split
        · exact .unhandled
        · rename_i old m' ha
          have hrd : field trap.encoding 7 5 = destination frame.mcause trap.encoding := by
            rw [destination, if_pos hc, if_neg hf0]
          rw [hrd, hf]
          refine .emulated hr ?_ hd ?_
          · rintro ⟨-, hi⟩
            rw [he, hi] at hf0
            exact hf0 (by decide)
          · rw [csrAccess_rest ha]

theorem hypervisorMmio_case {mem : Mem} {sd : Sd} {frame : RvExcFrame}
    (hc : frame.mcause = 5 ∨ frame.mcause = 7) {device : MmioDevice}
    (hw : mmioFind frame.mtval = some device) (m : Monitor) :
    TrapCase mem frame m (some (hypervisorMmio mem sd (guestTrap frame) m).1,
      (hypervisorMmio mem sd (guestTrap frame) m).2) := by
  have hn2 : frame.mcause ≠ 2 := by
    rintro h
    rw [h] at hc
    revert hc
    decide
  have hn3 : frame.mcause ≠ 3 := by
    rintro h
    rw [h] at hc
    revert hc
    decide
  have hr : handedOn frame = none := by
    rw [handedOn, if_neg hn3, if_pos hc, if_neg (by rw [hw]; exact Option.some_ne_none _)]
  have hw' : mmioFind (guestTrap frame).tval = some device := hw
  unfold hypervisorMmio
  rw [hw']
  dsimp only
  split
  · exact .unhandled
  · rename_i trap hd
    split
    · exact .unhandled
    · rename_i access ha
      have hni : ¬ (frame.mcause = 2 ∧ frame.mtval = 0x30200073) := fun h => hn2 h.1
      obtain ⟨hf, -⟩ := trapDecode_frame hd
      have hdest : destination frame.mcause trap.encoding =
          if access.isStore then 0 else field trap.encoding 7 5 := by
        rw [destination, if_neg hn2, ha]
      split
      · rename_i hs
        have hn : (device.write sd (trap.tval - device.base)
            (regRead trap.frame (field trap.encoding 20 5)) access.width m).injections =
              m.injections := by
          cases device <;> rfl
        have hcase := TrapCase.emulated (v := 0) hr hni hd hn
        rw [hdest, if_pos hs] at hcase
        have ht : ({ trap with frame := regWrite 0 0 frame } : GuestTrap) = trap := by
          show ({ trap with frame := frame } : GuestTrap) = trap
          rw [show frame = trap.frame from hf.symm]
        rw [ht] at hcase
        exact hcase
      · rename_i hs
        have hn : (device.read sd (trap.tval - device.base) access.width m).2.injections =
            m.injections := by
          cases device <;> rfl
        have hcase := TrapCase.emulated
          (v := access.extend (device.read sd (trap.tval - device.base) access.width m).1)
            hr hni hd hn
        rw [hdest, if_neg hs, ← show trap.frame = frame from hf] at hcase
        rw [← show trap.frame = frame from hf]
        exact hcase

theorem hypervisorTrap_case (mem : Mem) (sd : Sd) (frame : RvExcFrame) (m : Monitor) :
    TrapCase mem frame m (hypervisorTrap mem sd (guestTrap frame) m) := by
  unfold hypervisorTrap
  by_cases h2 : frame.mcause = 2
  · rw [if_pos (show (guestTrap frame).cause = 2 from h2)]
    exact hypervisorCsr_case h2 m
  · rw [if_neg (show ¬ (guestTrap frame).cause = 2 from h2)]
    by_cases h3 : frame.mcause = 3
    · rw [if_pos (show (guestTrap frame).cause = 3 from h3)]
      exact injectOr_case (if_pos h3) m
    · rw [if_neg (show ¬ (guestTrap frame).cause = 3 from h3)]
      by_cases h57 : frame.mcause = 5 ∨ frame.mcause = 7
      · rw [if_pos (show (guestTrap frame).cause = 5 ∨ (guestTrap frame).cause = 7 from h57)]
        cases hw : mmioFind frame.mtval with
        | none =>
            rw [show mmioFind (guestTrap frame).tval = none from hw]
            exact injectOr_case (by rw [handedOn, if_neg h3, if_pos h57, if_pos hw]; rfl) m
        | some device =>
            rw [show mmioFind (guestTrap frame).tval = some device from hw]
            exact hypervisorMmio_case h57 hw m
      · rw [if_neg (show ¬ ((guestTrap frame).cause = 5 ∨ (guestTrap frame).cause = 7) from h57)]
        by_cases h8 : frame.mcause = 8
        · rw [if_pos (show (guestTrap frame).cause = 8 from h8)]
          exact injectOr_case (by rw [handedOn, if_neg h3, if_neg h57, if_pos h8]) m
        · rw [if_neg (show ¬ (guestTrap frame).cause = 8 from h8)]
          exact .unhandled

end P4Hyp
