import P4Hyp.Board

/-!
# What a trap is charged for

The cycle counter has 32 bits, and every difference of two readings is taken in
32 bits.  The trap's slot gets such a difference less the time asleep, so the
wraps of a long sleep cancel.  The total of the time asleep gets each sleep as it
was read.
-/

namespace P4Hyp

/-- `rv_utils_get_cycle_count`, at the cycle `t` since the counter was zero. -/
def cycleCount (t : Nat) : Word := BitVec.ofNat 32 t

def hypStatsCauses : Nat := 48

structure Histogram where
  traps : Nat → Word
  cycles : Nat → BitVec 64

def Histogram.charge (slot : Nat) (cycles : Word) (h : Histogram) : Histogram :=
  { traps := fun i => if i = slot then h.traps i + 1 else h.traps i
    cycles := fun i => if i = slot then h.cycles i + cycles.setWidth 64 else h.cycles i }

/-- The counters that `hypervisor` and a blocking `wfi` keep. -/
structure Stats where
  exc : Histogram
  irq : Histogram
  unhandled : Word
  wfiBlocks : Word
  idleCycles : BitVec 64
  irqCodeSeen : Word

def statsSlot (code : Word) : Nat :=
  if code.toNat < hypStatsCauses then code.toNat else hypStatsCauses - 1

def irqCode (mcause : Word) : Word := mcause &&& 0x7fffffff

def Stats.chargeIrq (mcause cycles : Word) (s : Stats) : Stats :=
  { s with irqCodeSeen := irqCode mcause, irq := s.irq.charge (statsSlot (irqCode mcause)) cycles }

def Stats.chargeExc (mcause cycles : Word) (outcome : TrapResult) (s : Stats) : Stats :=
  { s with
    exc := s.exc.charge (statsSlot mcause) cycles
    unhandled := if outcome = .unhandled then s.unhandled + 1 else s.unhandled }

/-- The total gets the difference as it was read, in 32 bits. -/
def Stats.slept (asleep : Word) (s : Stats) : Stats :=
  { s with wfiBlocks := s.wfiBlocks + 1, idleCycles := s.idleCycles + asleep.setWidth 64 }

/-- What the parts of a trap take: up to a blocking `wfi` or the end, each round of the
`wfi` with what the host does in it, its last test, and the rest of the trap. -/
structure TrapTimes where
  work : Nat
  rounds : List (List HostEvent × Nat)
  test : Nat
  finish : Nat

/-- The time in the rounds of `wfiLoop`. -/
def wfiTime (m : Monitor) : List (List HostEvent × Nat) → Nat
  | [] => 0
  | (es, d) :: rounds =>
      if hypWfiWake m then 0 else d + wfiTime (hypPollHostDevices (es.foldl hostStep m)) rounds

/-- `hypervisor` at cycle `t`, with its counters. -/
def hypervisorTimed (linuxRunning : Bool) (mem : Mem) (sd : Sd) (times : TrapTimes) (t : Nat)
    (frame : RvExcFrame) (m : Monitor) (s : Stats) :
      Option ((Bool × RvExcFrame × Monitor) × Stats) :=
  if ¬ linuxRunning then some ((false, frame, m), s)
  else
    let entryCycles := cycleCount t
    let hypIdleCycles : Word := 0
    let t := t + times.work
    if frame.mcause &&& interruptBit ≠ 0 then
      some ((true, hypDeliverPending (frame, hypPollHostDevices m)),
        s.chargeIrq frame.mcause (cycleCount t - entryCycles - hypIdleCycles))
    else
      match hypervisorTrap mem sd (guestTrap frame) m with
      | (some r, trap, m) =>
          some (trapExit r trap m,
            s.chargeExc frame.mcause (cycleCount t - entryCycles - hypIdleCycles) r)
      | (none, trap, m) =>
          (wfiLoop m (times.rounds.map Prod.fst)).map fun m' =>
            let asleep := cycleCount t
            let t := t + (wfiTime m times.rounds + times.test)
            let asleep := cycleCount t - asleep
            let hypIdleCycles := hypIdleCycles + asleep
            let s := s.slept asleep
            let t := t + times.finish
            (trapExit .advance trap m',
              s.chargeExc frame.mcause (cycleCount t - entryCycles - hypIdleCycles) .advance)

/-- The counters do not change what a trap does. -/
theorem hypervisorTimed_fst (running : Bool) (mem : Mem) (sd : Sd) (times : TrapTimes) (t : Nat)
    (frame : RvExcFrame) (m : Monitor) (s : Stats) :
    (hypervisorTimed running mem sd times t frame m s).map Prod.fst =
      hypervisor running mem sd (times.rounds.map Prod.fst) frame m := by
  unfold hypervisorTimed hypervisor
  split
  · rfl
  · dsimp only
    split
    · rfl
    · cases hypervisorTrap mem sd (guestTrap frame) m with
      | mk outcome rest =>
          cases outcome with
          | some outcome => rfl
          | none =>
              dsimp only
              rw [Option.map_map]
              rfl

/-! ## The time a trap takes -/

section

variable (mem : Mem) (sd : Sd) (times : TrapTimes) (frame : RvExcFrame) (m : Monitor)

/-- The time between the two readings of a blocking `wfi`, 0 in any other trap. -/
def asleepTime : Nat :=
  if frame.mcause &&& interruptBit ≠ 0 then 0
  else
    match hypervisorTrap mem sd (guestTrap frame) m with
    | (some _, _, _) => 0
    | (none, _, m) => wfiTime m times.rounds + times.test

/-- The time between the first and the last reading. -/
def elapsedTime : Nat :=
  if frame.mcause &&& interruptBit ≠ 0 then times.work
  else
    match hypervisorTrap mem sd (guestTrap frame) m with
    | (some _, _, _) => times.work
    | (none, _, m) => times.work + (wfiTime m times.rounds + times.test) + times.finish

end

/-- The cycles of the slot that the trap is counted in. -/
def Stats.slotCycles (mcause : Word) (s : Stats) : BitVec 64 :=
  if mcause &&& interruptBit ≠ 0 then s.irq.cycles (statsSlot (irqCode mcause))
  else s.exc.cycles (statsSlot mcause)

/-- The slot is charged with the time awake, where 32 bits hold it, and the time asleep is
added to the total. -/
structure Accounted (mcause : Word) (elapsed asleep : Nat) (s s' : Stats) : Prop where
  charged : elapsed - asleep < 2 ^ 32 →
    (s'.slotCycles mcause - s.slotCycles mcause).toNat = elapsed - asleep
  idle : (s'.idleCycles - s.idleCycles).toNat = asleep

theorem cycleCount_elapsed (t d : Nat) : cycleCount (t + d) - cycleCount t = BitVec.ofNat 32 d := by
  unfold cycleCount
  rw [BitVec.ofNat_add, BitVec.add_comm, BitVec.add_sub_cancel]

/-- The wraps of the time asleep cancel. -/
theorem cycleCount_awake {elapsed asleep : Nat} (h : asleep ≤ elapsed) :
    BitVec.ofNat 32 elapsed - BitVec.ofNat 32 asleep = BitVec.ofNat 32 (elapsed - asleep) := by
  have hsum : BitVec.ofNat 32 elapsed =
      BitVec.ofNat 32 (elapsed - asleep) + BitVec.ofNat 32 asleep := by
    rw [← BitVec.ofNat_add, Nat.sub_add_cancel h]
  rw [hsum, BitVec.add_sub_cancel]

theorem word_sub_zero (w : Word) : w - 0 = w := BitVec.sub_zero w

theorem word_zero_add (w : Word) : 0 + w = w := BitVec.zero_add w

theorem add_word_sub (x : BitVec 64) (w : Word) : (x + w.setWidth 64 - x).toNat = w.toNat := by
  rw [BitVec.add_comm, BitVec.add_sub_cancel, BitVec.toNat_setWidth]
  have hlt := w.isLt
  exact Nat.mod_eq_of_lt (by omega)

theorem chargeIrq_slotCycles {mcause : Word} (h : mcause &&& interruptBit ≠ 0) (cycles : Word)
    (s : Stats) :
    ((s.chargeIrq mcause cycles).slotCycles mcause - s.slotCycles mcause).toNat = cycles.toNat := by
  unfold Stats.slotCycles
  rw [if_pos h, if_pos h]
  show ((if _ = _ then _ else _) - _ : BitVec 64).toNat = _
  rw [if_pos rfl, add_word_sub]

theorem chargeExc_slotCycles {mcause : Word} (h : ¬ mcause &&& interruptBit ≠ 0) (cycles : Word)
    (outcome : TrapResult) (s : Stats) :
    ((s.chargeExc mcause cycles outcome).slotCycles mcause - s.slotCycles mcause).toNat =
      cycles.toNat := by
  unfold Stats.slotCycles
  rw [if_neg h, if_neg h]
  show ((if _ = _ then _ else _) - _ : BitVec 64).toNat = _
  rw [if_pos rfl, add_word_sub]

/-- What a trap adds to the two counters: the difference of the readings in 32 bits, both of
the time awake and of the time asleep. -/
theorem hypervisorTimed_counters {mem : Mem} {sd : Sd} {times : TrapTimes} {t : Nat}
    {frame : RvExcFrame} {m : Monitor} {s s' : Stats} {r : Bool × RvExcFrame × Monitor}
    (h : hypervisorTimed true mem sd times t frame m s = some (r, s')) :
    (s'.slotCycles frame.mcause - s.slotCycles frame.mcause).toNat =
        (elapsedTime mem sd times frame m - asleepTime mem sd times frame m) % 2 ^ 32 ∧
      (s'.idleCycles - s.idleCycles).toNat = asleepTime mem sd times frame m % 2 ^ 32 := by
  unfold hypervisorTimed at h
  rw [if_neg (not_not_intro rfl)] at h
  unfold elapsedTime asleepTime
  by_cases hi : frame.mcause &&& interruptBit ≠ 0
  · dsimp only at h
    rw [if_pos hi, cycleCount_elapsed, word_sub_zero] at h
    obtain rfl := (Prod.mk.inj (Option.some.inj h)).2
    rw [if_pos hi, if_pos hi, chargeIrq_slotCycles hi, BitVec.toNat_ofNat, Nat.sub_zero]
    refine ⟨rfl, ?_⟩
    show (s.idleCycles - s.idleCycles).toNat = _
    rw [BitVec.sub_self]
    rfl
  · dsimp only at h
    rw [if_neg hi] at h
    rw [if_neg hi, if_neg hi]
    cases htrap : hypervisorTrap mem sd (guestTrap frame) m with
    | mk outcome rest =>
        obtain ⟨trap, m'⟩ := rest
        rw [htrap] at h
        cases outcome with
        | some outcome =>
            dsimp only at h ⊢
            rw [cycleCount_elapsed, word_sub_zero] at h
            obtain rfl := (Prod.mk.inj (Option.some.inj h)).2
            rw [chargeExc_slotCycles hi, BitVec.toNat_ofNat, Nat.sub_zero]
            refine ⟨rfl, ?_⟩
            show (s.idleCycles - s.idleCycles).toNat = _
            rw [BitVec.sub_self]
            rfl
        | none =>
            dsimp only at h ⊢
            obtain ⟨m'', -, hr⟩ := Option.map_eq_some_iff.mp h
            obtain rfl := (Prod.mk.inj hr).2
            rw [cycleCount_elapsed, word_zero_add]
            rw [show s.slotCycles frame.mcause =
              (s.slept (BitVec.ofNat 32 _)).slotCycles frame.mcause
              from rfl, chargeExc_slotCycles hi]
            rw [Nat.add_assoc t, Nat.add_assoc t, cycleCount_elapsed,
              cycleCount_awake (by omega), BitVec.toNat_ofNat]
            refine ⟨rfl, ?_⟩
            show (s.idleCycles + _ - s.idleCycles).toNat = _
            rw [add_word_sub, BitVec.toNat_ofNat]

/-- A trap is accounted for exactly when its sleep is shorter than the counter. -/
theorem hypervisorTimed_accounted_iff {mem : Mem} {sd : Sd} {times : TrapTimes} {t : Nat}
    {frame : RvExcFrame} {m : Monitor} {s s' : Stats} {r : Bool × RvExcFrame × Monitor}
    (h : hypervisorTimed true mem sd times t frame m s = some (r, s')) :
    Accounted frame.mcause (elapsedTime mem sd times frame m)
      (asleepTime mem sd times frame m) s s' ↔ asleepTime mem sd times frame m < 2 ^ 32 := by
  obtain ⟨hcharged, hidle⟩ := hypervisorTimed_counters h
  constructor
  · rintro ⟨-, hi⟩
    rw [← hi, hidle]
    exact Nat.mod_lt _ (by decide)
  · intro hlt
    exact ⟨fun hawake => hcharged.trans (Nat.mod_eq_of_lt hawake),
      hidle.trans (Nat.mod_eq_of_lt hlt)⟩

/-- A guest whose timer goes off in 12 seconds. -/
def longSleeper : Monitor :=
  { Monitor.boot with
    shadow := { Monitor.boot.shadow with mie := mipMtip }
    clint := { Clint.boot with shadowMtimecmp := 190887436,
                               systimer := ⟨0, true, true, 190887436, false⟩ } }

def freshStats : Stats := ⟨⟨fun _ => 0, fun _ => 0⟩, ⟨fun _ => 0, fun _ => 0⟩, 0, 0, 0, 0⟩

/-- A `wfi` that sleeps for `cycles`. -/
def sleepFor (cycles : Nat) : TrapTimes := ⟨900, [([.tick 190887436], cycles)], 0, 300⟩

theorem hypervisorTimed_accounted_short : ∃ r s',
    hypervisorTimed true (fun _ => 0) (smallSd true) (sleepFor 4000) 100 guestWfi longSleeper
      freshStats = some (r, s') ∧ Accounted 2 5200 4000 freshStats s' := by
  obtain ⟨r, s', h⟩ : ∃ r s', hypervisorTimed true (fun _ => 0) (smallSd true) (sleepFor 4000) 100
      guestWfi longSleeper freshStats = some (r, s') := ⟨_, _, rfl⟩
  exact ⟨r, s', h, (hypervisorTimed_accounted_iff h).mpr (by decide)⟩

/-- A sleep of `2 ^ 32 + 14` cycles, which the total of the time asleep takes for 14. -/
theorem hypervisorTimed_long_sleep : ∃ r s',
    hypervisorTimed true (fun _ => 0) (smallSd true) (sleepFor 4294967310) 100 guestWfi longSleeper
      freshStats = some (r, s') ∧ ¬ Accounted 2 4294968510 4294967310 freshStats s' :=
  ⟨_, _, rfl, fun h => absurd h.idle (by decide)⟩

end P4Hyp
