import P4Hyp.Virtual.Hosted

/-!
# The shadow bank as a hart's

Injection, delivery and `mret` are the trap entry, the interrupt and the return of
the hart, and a poll is a move of its devices.
-/

namespace P4Hyp

open Privileged (Mode Hart Platform put getLsbD_put put_getLsbD)

section Hart

variable {m : Monitor} {pc : Word} {x : Nat → Word}

theorem hart_setCsr {n : Word} {s : Slot} (hs : shadowSlot n = some s) (hmip : n ≠ csrMip)
    (v : Word) : (s.set v m).hart pc x = (m.hart pc x).setCsr n v := by
  have hcsr : csrStored (s.set v m) = Function.update (csrStored m) n v := by
    funext c
    rw [csrStored_set hs hmip, Function.update_apply]
  have hpriv : (s.set v m).guestPriv = m.guestPriv := by rw [slot_set_rest]
  have hdev : (s.set v m).periph = m.periph := by cases s <;> rfl
  rw [Monitor.hart, hcsr, hpriv, hdev]
  rfl

theorem hart_mode_machine (hp : m.guestPriv = privM) : (m.hart pc x).mode = .machine := if_pos hp

theorem hart_mode_user (hp : m.guestPriv = privU) : (m.hart pc x).mode = .user :=
  if_neg (by rw [hp]; decide)

/-! ## `mstatus` -/

theorem mstatus_masks :
    mstatusMie = bit 3 ∧ mstatusMpie = bit 7 ∧ mstatusMpp = bit 11 ||| bit 12 := by
  decide

theorem getLsbD_masks {i : Nat} (hi : i < 32) : mstatusMie.getLsbD i = decide (i = 3) ∧
    mstatusMpie.getLsbD i = decide (i = 7) ∧
      mstatusMpp.getLsbD i = (decide (i = 11) || decide (i = 12)) := by
  obtain ⟨h3, h7, hpp⟩ := mstatus_masks
  rw [h3, h7, hpp, BitVec.getLsbD_or, getLsbD_bit hi, getLsbD_bit hi, getLsbD_bit hi,
    getLsbD_bit hi]
  exact ⟨rfl, rfl, rfl⟩

theorem flag_getLsbD (b k : Word) {n i : Nat} (hn : n < 32) (hb : b = bit n) (s : Word) :
    (if s &&& b ≠ 0 then k else 0).getLsbD i = (s.getLsbD n && k.getLsbD i) := by
  subst hb
  cases h : s.getLsbD n with
  | true => rw [if_pos ((and_bit_ne_zero hn).mpr h), Bool.true_and]
  | false =>
      rw [if_neg (fun hne => absurd ((and_bit_eq_zero hn).mpr h) hne), Bool.false_and]
      exact BitVec.getLsbD_zero

theorem enter_eq {mode : Mode} {priv : Word} (hp : priv = if mode = .machine then privM else privU)
    (s : Word) :
    ((s &&& ~~~mstatusMpie ||| if s &&& mstatusMie ≠ 0 then mstatusMpie else 0) &&& ~~~mstatusMie) &&&
      ~~~mstatusMpp ||| priv <<< mstatusMppS = Privileged.enter mode s := by
  apply BitVec.eq_of_getLsbD_eq
  intro i hi
  obtain ⟨h3, h7, hpp⟩ := getLsbD_masks hi
  have hpriv : (priv <<< mstatusMppS).getLsbD i =
      (decide (mode = .machine) && (decide (i = 11) || decide (i = 12))) := by
    subst hp
    cases mode with
    | machine =>
        rw [if_pos rfl, show privM <<< mstatusMppS = mstatusMpp by decide, hpp]
        simp
    | user => exact BitVec.getLsbD_zero
  simp only [Privileged.enter, getLsbD_put _ _ hi, BitVec.getLsbD_or, BitVec.getLsbD_and,
    BitVec.getLsbD_not, hi, decide_true, Bool.true_and, h3, h7, hpp, hpriv,
    flag_getLsbD mstatusMie mstatusMpie (by omega) mstatus_masks.1]
  grind

theorem leave_eq {mode : Mode} {s : Word} (hm : mode = .machine ∨ s.getLsbD 17 = false) :
    (s &&& ~~~mstatusMie ||| (if s &&& mstatusMpie ≠ 0 then mstatusMie else 0) ||| mstatusMpie) &&&
      ~~~mstatusMpp = Privileged.leave mode s := by
  apply BitVec.eq_of_getLsbD_eq
  intro i hi
  obtain ⟨h3, h7, hpp⟩ := getLsbD_masks hi
  have hmprv (w : Word) (hw : w.getLsbD 17 = s.getLsbD 17) :
      (if mode = .machine then w else put 17 false w) = w := by
    rcases hm with rfl | h
    · exact if_pos rfl
    · rw [put_getLsbD (hw.trans h), ite_self]
  rw [Privileged.leave, hmprv _ (by simp only [getLsbD_put _ _ (show 17 < 32 by omega)]; rfl)]
  simp only [getLsbD_put _ _ hi, BitVec.getLsbD_or, BitVec.getLsbD_and,
    BitVec.getLsbD_not, hi, decide_true, Bool.true_and, h3, h7, hpp,
    flag_getLsbD mstatusMpie mstatusMie (by omega) mstatus_masks.2.1]
  grind

/-! ## Traps and returns -/

/-- `csrStored` reads the shadow bank alone. -/
theorem csrStored_congr {m m' : Monitor} (hs : m'.shadow = m.shadow)
    (hc : m'.shadowPmpcfg = m.shadowPmpcfg) (ha : m'.shadowPmpaddr = m.shadowPmpaddr) :
    csrStored m' = csrStored m := by
  funext csr
  have hget : ∀ t : Slot, t.get m' = t.get m := by
    intro t
    cases t <;> simp [Slot.get, hs, hc, ha]
  simp only [csrStored, hs, hget]

theorem hart_pending (sd : Sd) : (m.hart pc x).pending (guestPlatform sd) = shadowMipRead m := by
  apply BitVec.eq_of_getLsbD_eq
  intro i hi
  rw [shadowMipRead_getLsbD m hi, Hart.pending, getLsbD_put _ _ hi, getLsbD_put _ _ hi]
  rfl

theorem hart_enabled (sd : Sd) :
    (m.hart pc x).enabled (guestPlatform sd) = hartPending m.shadow.mie (shadowMipRead m) := by
  rw [Hart.enabled, hart_pending]
  rfl

theorem hart_gate : (m.hart pc x).gate = false ↔ m.shadow.mstatus &&& mstatusMie = 0 := by
  rw [mstatus_masks.1, and_bit_eq_zero (by omega)]
  rfl

theorem hart_setTrap (m : Monitor) (pc : Word) (x : Nat → Word) (status epc cause tval : Word) :
    ({ m with shadow := { m.shadow with
        mstatus := status, mepc := epc, mcause := cause, mtval := tval } } : Monitor).hart pc x =
      ((((m.hart pc x).setCsr Privileged.mstatus status).setCsr Privileged.mepc epc).setCsr
        Privileged.mcause cause).setCsr Privileged.mtval tval := by
  rw [← hart_setCsr (n := Privileged.mstatus) (s := .mstatus) rfl (by decide),
    ← hart_setCsr (n := Privileged.mepc) (s := .mepc) rfl (by decide),
    ← hart_setCsr (n := Privileged.mcause) (s := .mcause) rfl (by decide),
    ← hart_setCsr (n := Privileged.mtval) (s := .mtval) rfl (by decide)]
  rfl

theorem vector_direct {tvec : Word} (h : tvec &&& 0x3 = 0) (cause : Word) :
    Privileged.vector tvec cause = tvec &&& ~~~0x3 := by
  have h1 : ¬ tvec &&& 0x3 = 1 := by
    rw [h]
    decide
  exact if_neg fun hv => h1 hv.1

variable {frame : RvExcFrame}

theorem hart_inject (cause tval : Word) (hp : m.guestPriv = privU ∨ m.guestPriv = privM)
    (hv : m.shadow.mtvec &&& 0x3 = 0) :
    (hypInject cause tval (frame, m)).2.hart (hypInject cause tval (frame, m)).1.mepc frame.x =
      (m.hart frame.mepc frame.x).trap cause tval := by
  have hmode : m.guestPriv = if (m.hart frame.mepc frame.x).mode =
      .machine then privM else privU := by
    rcases hp with h | h
    · rw [hart_mode_user h, h]
      rfl
    · rw [hart_mode_machine h, h]
      rfl
  have hstatus := enter_eq hmode m.shadow.mstatus
  have hset := hart_setTrap m frame.mepc frame.x
    (Privileged.enter (m.hart frame.mepc frame.x).mode m.shadow.mstatus) frame.mepc cause tval
  rw [Hart.trap, show (m.hart frame.mepc frame.x).csr Privileged.mstatus =
    m.shadow.mstatus from rfl,
    show (m.hart frame.mepc frame.x).pc = frame.mepc from rfl, ← hset, ← hstatus,
    show (m.hart frame.mepc frame.x).csr Privileged.mtvec =
      m.shadow.mtvec from rfl, vector_direct hv]
  rfl

theorem hart_deliver (sd : Sd) (hp : m.guestPriv = privU ∨ m.guestPriv = privM)
    (ht : Tame (m.hart frame.mepc frame.x)) :
    (hypDeliverPending (frame, m)).2.hart (hypDeliverPending (frame, m)).1.mepc frame.x =
      (m.hart frame.mepc frame.x).attend (guestPlatform sd) := by
  by_cases hg : m.shadow.mstatus &&& mstatusMie = 0
  · have hshut : (m.hart frame.mepc frame.x).gate = false := hart_gate.mpr hg
    have hmode : (m.hart frame.mepc frame.x).mode = .machine := by
      cases hm : (m.hart frame.mepc frame.x).mode with
      | machine => rfl
      | user =>
          rw [ht.user hm] at hshut
          cases hshut
    rw [hypDeliverPending_shut hg, Hart.attend, Hart.due, if_pos ⟨hmode, hshut⟩]
  · have hopen : (m.hart frame.mepc frame.x).gate = true := by
      rw [← Bool.not_eq_false]
      exact fun h => hg (hart_gate.mp h)
    obtain ⟨hne, hdirect⟩ := ht.vector hopen
    rw [hypDeliverPending_open hne hg, hartDeliver, hartInterrupt, if_neg (fun h => hg h.2),
      Hart.attend, Hart.due, if_neg (by rw [hopen]; exact fun h => by cases h.2), hart_enabled]
    cases hartPending m.shadow.mie (shadowMipRead m) with
    | none => rfl
    | some n => exact hart_inject _ _ hp hdirect

theorem mpp_getLsbD (s : Word) {i : Nat} (hi : i < 32) :
    (mpp s).getLsbD i = ((decide (i = 0) || decide (i = 1)) && s.getLsbD (11 + i)) := by
  rw [mpp, mstatusMppS, BitVec.getLsbD_ushiftRight, BitVec.getLsbD_and]
  by_cases hlt : 11 + i < 32
  · rw [(getLsbD_masks hlt).2.2]
    grind
  · rw [BitVec.getLsbD_of_ge _ _ (by omega)]
    simp

theorem mpp_mode {mode : Mode} {s : Word} (h : Privileged.mpp s = some mode) :
    mpp s = if mode = .machine then privM else privU := by
  have hbits : s.getLsbD 12 = decide (mode = .machine) ∧
      s.getLsbD 11 = decide (mode = .machine) := by
    unfold Privileged.mpp at h
    split at h
    · obtain rfl := Option.some.inj h
      exact ⟨‹_›, ‹_›⟩
    · obtain rfl := Option.some.inj h
      exact ⟨‹_›, ‹_›⟩
    · cases h
  apply BitVec.eq_of_getLsbD_eq
  intro i hi
  have hpriv : (if mode = .machine then privM else privU).getLsbD i =
      (decide (mode = .machine) && (decide (i = 0) || decide (i = 1))) := by
    cases mode with
    | machine =>
        rw [if_pos rfl, show privM = bit 0 ||| bit 1 by decide, BitVec.getLsbD_or, getLsbD_bit hi,
          getLsbD_bit hi]
        simp
    | user => exact BitVec.getLsbD_zero
  rw [mpp_getLsbD s hi, hpriv]
  by_cases h0 : i = 0
  · subst h0
    simpa using hbits.2
  · by_cases h1 : i = 1
    · subst h1
      simpa using hbits.1
    · simp [h0, h1]

theorem hart_mret (pc : Word) (x : Nat → Word) {mode : Mode}
    (hm : Privileged.mpp m.shadow.mstatus = some mode)
    (h17 : m.shadow.mstatus.getLsbD 17 = false) :
    m.mret.hart m.shadow.mepc x = (m.hart pc x).ret mode ∧
      (m.mret.guestPriv = privU ∨ m.mret.guestPriv = privM) := by
  have hpriv : m.mret.guestPriv = if mode = .machine then privM else privU := mpp_mode hm
  have hmode : (if m.mret.guestPriv = privM then Mode.machine else Mode.user) = mode := by
    rw [hpriv]
    cases mode with
    | machine => rfl
    | user => rfl
  constructor
  · rw [Hart.ret, show (m.hart pc x).csr Privileged.mstatus = m.shadow.mstatus from rfl,
      ← leave_eq (.inr h17), ← hart_setCsr (s := .mstatus) rfl (by decide), Monitor.hart, hmode]
    rfl
  · rw [hpriv]
    cases mode with
    | machine => exact .inr rfl
    | user => exact .inl rfl

/-! ## The devices -/

/-- Only the devices have changed, and what the monitor notes for itself. -/
def DevicesOnly (m m' : Monitor) : Prop :=
  m' = { m with clint := m'.clint, uart0 := m'.uart0, dev := m'.dev,
                hypStatsWanted := m'.hypStatsWanted, hypInWfi := m'.hypInWfi }

theorem DevicesOnly.trans {m₁ m₂ m₃ : Monitor} (h : DevicesOnly m₁ m₂) (h' : DevicesOnly m₂ m₃) :
    DevicesOnly m₁ m₃ := by
  unfold DevicesOnly at h h' ⊢
  rw [h] at h'
  exact h'

theorem hart_devices (pc : Word) (x : Nat → Word) {m' : Monitor} (h : DevicesOnly m m') :
    m'.hart pc x = { m.hart pc x with dev := m'.periph } ∧ m'.guestPriv = m.guestPriv := by
  have hcsr : csrStored m' = csrStored m := by
    apply csrStored_congr
    all_goals rw [h]
  have hpriv : m'.guestPriv = m.guestPriv := by rw [h]
  refine ⟨?_, hpriv⟩
  rw [Monitor.hart, hcsr, hpriv]
  rfl

theorem hostStep_devices (m : Monitor) (e : HostEvent) :
    DevicesOnly m (hostStep m e) ∧ Periph.Moves m.periph (hostStep m e).periph := by
  cases e with
  | tick n => exact ⟨rfl, .host _ (.tick n)⟩
  | receive c cs => exact ⟨rfl, .host _ (.receive c cs)⟩
  | sent room => exact ⟨rfl, .host _ (.sent room)⟩
  | complete => exact ⟨rfl, .host _ .complete⟩

/-- `pollAlarm` and `pollUart`, on the devices alone. -/
def Periph.polled (d : Periph) : Periph :=
  let d :=
    if d.clint.systimer.line then
      { d with clint := { d.clint with systimer := d.clint.systimer.disarm } }
    else d
  if d.uart0.rxInt then
    { d with
      uart0 := { d.uart0 with rxFifo := [], rxInt := false }
      dev := { d.dev with uart := d.uart0.rxFifo.foldl drainByte d.dev.uart } }
  else d

/-- A poll of the devices does not look at the rest of the monitor. -/
theorem pollUart_pollAlarm (m : Monitor) : (pollUart (pollAlarm m)).periph = m.periph.polled := by
  have huart (m : Monitor) : (pollUart m).periph = if m.uart0.rxInt then
      { m.periph with
        uart0 := { m.uart0 with rxFifo := [], rxInt := false }
        dev := { m.dev with uart := m.uart0.rxFifo.foldl drainByte m.dev.uart } }
      else m.periph := by
    unfold pollUart
    split
    · dsimp only
      rw [pollBytes_eq]
      rfl
    · rfl
  rw [huart]
  unfold pollAlarm Periph.polled
  split
  · rw [if_pos (show m.periph.clint.systimer.line = true from ‹_›)]
    rfl
  · rw [if_neg (show ¬ m.periph.clint.systimer.line = true from ‹_›)]
    rfl

theorem hypPollHostDevices_periph (m : Monitor) :
    (hypPollHostDevices m).periph = (hypPollHostDevices (m.periph.on .boot)).periph := by
  have hsame : (pollUart (pollAlarm m)).periph =
      (pollUart (pollAlarm (m.periph.on .boot))).periph := by
    rw [pollUart_pollAlarm, pollUart_pollAlarm]
    rfl
  exact congrArg (fun d => (pollReeval (pollBlk (d.on .boot))).periph) hsame

theorem hypPollHostDevices_devices (m : Monitor) :
    DevicesOnly m (hypPollHostDevices m) ∧ Periph.Moves m.periph (hypPollHostDevices m).periph := by
  have halarm : DevicesOnly m (pollAlarm m) := by
    unfold DevicesOnly
    rw [pollAlarm_eq]
  have huart : DevicesOnly (pollAlarm m) (pollUart (pollAlarm m)) := by
    unfold DevicesOnly
    rw [pollUart_eq]
  refine ⟨(halarm.trans huart).trans rfl, ?_⟩
  rw [hypPollHostDevices_periph]
  exact .poll m.periph

/-- The wake test asks for what a hart takes, the gate apart. -/
theorem hypWfiWake_pending (m : Monitor) :
    hypWfiWake m = (hartPending m.shadow.mie (shadowMipRead m)).isSome := by
  have hm3 : mipMsip = bit 3 := by decide
  have hm7 : mipMtip = bit 7 := by decide
  have hm11 : mipMeip = bit 11 := by decide
  have h11 := shadowMipRead_getLsbD m (n := 11) (by omega)
  have h3 := shadowMipRead_getLsbD m (n := 3) (by omega)
  have h7 := shadowMipRead_getLsbD m (n := 7) (by omega)
  simp only [hypWfiWake, hm3, hm7, hm11, and_bit_ne_zero (show 11 < 32 by omega),
    and_bit_ne_zero (show 3 < 32 by omega), and_bit_ne_zero (show 7 < 32 by omega), hartPending,
    machineInterrupts, List.find?, BitVec.getLsbD_and, h11, h3, h7]
  cases m.shadow.mie.getLsbD 11 <;> cases meipPending m.dev.plic <;>
    cases m.shadow.mie.getLsbD 3 <;> cases m.shadow.mip.getLsbD 3 <;>
    cases m.shadow.mie.getLsbD 7 <;> cases mtipPending m.clint <;> rfl

theorem hostSteps_devices (es : List HostEvent) (m : Monitor) :
    DevicesOnly m (es.foldl hostStep m) ∧
      Relation.ReflTransGen Periph.Moves m.periph (es.foldl hostStep m).periph := by
  induction es generalizing m with
  | nil => exact ⟨rfl, .refl⟩
  | cons e es ih =>
      obtain ⟨hd, hm⟩ := hostStep_devices m e
      obtain ⟨hd', hm'⟩ := ih (hostStep m e)
      exact ⟨hd.trans hd', hm'.head hm⟩

theorem wfiLoop_devices {m m' : Monitor} {sleeps : List (List HostEvent)}
    (h : wfiLoop m sleeps = some m') :
    DevicesOnly m m' ∧ Relation.ReflTransGen Periph.Moves m.periph m'.periph ∧
      hypWfiWake m' = true := by
  induction sleeps generalizing m with
  | nil =>
      unfold wfiLoop at h
      split at h
      · obtain rfl := Option.some.inj h
        exact ⟨rfl, .refl, ‹_›⟩
      · cases h
  | cons es sleeps ih =>
      unfold wfiLoop at h
      split at h
      · obtain rfl := Option.some.inj h
        exact ⟨rfl, .refl, ‹_›⟩
      · obtain ⟨hd, hm⟩ := hostSteps_devices es m
        obtain ⟨hd', hm'⟩ := hypPollHostDevices_devices (es.foldl hostStep m)
        obtain ⟨hl, hr, hw⟩ := ih h
        exact ⟨(hd.trans hd').trans hl, (hm.tail hm').trans hr, hw⟩

end Hart

end P4Hyp
