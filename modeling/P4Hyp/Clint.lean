import P4Hyp.Lib.Memory

/-!
# The emulated CLINT

The guest's timer, kept by the host's one-shot alarm.  MTIP is a wire: it is
computed from the counter and the deadline whenever it is read, and the alarm
does no more than force a trap at that time.
-/

namespace P4Hyp

/-- The system timer: counter 0, which has 52 bits, and alarm 1. -/
structure Systimer where
  counter : BitVec 52
  alarmEnabled : Bool
  intEnabled : Bool
  target : BitVec 64
  /-- The raw interrupt status of the alarm. -/
  fired : Bool

namespace Systimer

/-- `systimer_ll_is_alarm_int_fired`, which is also the interrupt line. -/
def line (t : Systimer) : Bool := t.fired && t.intEnabled

/-- Time passes.  An alarm whose target is reached, or was already when it was
enabled, fires. -/
def tick (n : Nat) (t : Systimer) : Systimer :=
  let counter := t.counter + BitVec.ofNat 52 n
  { t with counter, fired := t.fired || (t.alarmEnabled && t.target ≤ counter.setWidth 64) }

/-- Take the alarm out of service, with its interrupt. -/
def disarm (t : Systimer) : Systimer := { t with alarmEnabled := false, fired := false }

/-- Set the alarm to fire once at `target`. -/
def arm (target : BitVec 64) (t : Systimer) : Systimer :=
  { t with target, intEnabled := true, alarmEnabled := true }

end Systimer

structure Clint where
  shadowMtimecmp : BitVec 64
  systimer : Systimer

/-- After `hyp_setup_interrupts`: no deadline, and the alarm off. -/
def Clint.boot : Clint :=
  { shadowMtimecmp := BitVec.allOnes 64
    systimer :=
      { counter := 0, alarmEnabled := false, intEnabled := false, target := 0, fired := false } }

def hypMtimeMax : BitVec 64 := 1 <<< 52

def hypMtime (c : Clint) : BitVec 64 := c.systimer.counter.setWidth 64

def hypArmTimer (c : Clint) : Clint :=
  let c := { c with systimer := c.systimer.disarm }
  if hypMtimeMax ≤ c.shadowMtimecmp then c
  else { c with systimer := c.systimer.arm c.shadowMtimecmp }

def mtipPending (c : Clint) : Bool := c.shadowMtimecmp ≤ hypMtime c

def clintRead (offset : Word) (c : Clint) : Word :=
  if offset = 0x4000 then c.shadowMtimecmp.setWidth 32
  else if offset = 0x4004 then (c.shadowMtimecmp >>> 32).setWidth 32
  else if offset = 0xbff8 then (hypMtime c).setWidth 32
  else if offset = 0xbffc then (hypMtime c >>> 32).setWidth 32
  else 0

/-- `shadow_mtimecmp` after a write to one of its halves. -/
def mtimecmpWrite (offset value : Word) (mtimecmp : BitVec 64) : Option (BitVec 64) :=
  if offset = 0x4000 then some (mtimecmp &&& 0xffffffff00000000 ||| value.setWidth 64)
  else if offset = 0x4004 then some (mtimecmp &&& 0xffffffff ||| value.setWidth 64 <<< 32)
  else none

def clintWrite (offset value : Word) (c : Clint) : Clint :=
  match mtimecmpWrite offset value c.shadowMtimecmp with
  | some mtimecmp => hypArmTimer { c with shadowMtimecmp := mtimecmp }
  | none => c

/-! ## What arms the alarm -/

/-- The alarm's interrupt is enabled with it, and its target is a time that the
counter can reach. -/
def AlarmOk (t : Systimer) : Prop :=
  (t.alarmEnabled = true ∨ t.fired = true) → t.intEnabled = true ∧ t.target < hypMtimeMax

theorem alarmOk_disarm (t : Systimer) : AlarmOk t.disarm := by
  rintro (h | h)
  · cases h
  · cases h

theorem alarmOk_tick {t : Systimer} (h : AlarmOk t) (n : Nat) : AlarmOk (t.tick n) := by
  intro hf
  refine h ?_
  rcases hf with ha | hf
  · exact .inl ha
  · simp only [Systimer.tick, Bool.or_eq_true, Bool.and_eq_true] at hf
    exact hf.symm.imp (·.1) id

theorem hypArmTimer_off {c : Clint} (h : hypMtimeMax ≤ c.shadowMtimecmp) :
    hypArmTimer c = { c with systimer := c.systimer.disarm } := if_pos h

theorem hypArmTimer_on {c : Clint} (h : ¬ hypMtimeMax ≤ c.shadowMtimecmp) :
    hypArmTimer c = { c with systimer := c.systimer.disarm.arm c.shadowMtimecmp } := if_neg h

theorem alarmOk_hypArmTimer (c : Clint) : AlarmOk (hypArmTimer c).systimer := by
  by_cases h : hypMtimeMax ≤ c.shadowMtimecmp
  · rw [hypArmTimer_off h]
    exact alarmOk_disarm _
  · rw [hypArmTimer_on h]
    exact fun _ => ⟨rfl, BitVec.not_le.mp h⟩

theorem alarmOk_clintWrite {c : Clint} (h : AlarmOk c.systimer) (offset value : Word) :
    AlarmOk (clintWrite offset value c).systimer := by
  unfold clintWrite
  split
  · exact alarmOk_hypArmTimer _
  · exact h

end P4Hyp
