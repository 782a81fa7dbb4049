import P4Hyp.Board
import P4Hyp.Inject
import P4Hyp.Io

/-!
# What can end a `wfi`

`hypervisor_wfi` blocks when `mie` has MTIE and a deadline, or MEIE.  What wakes it
goes through the PLIC and each device's own interrupt enable, which it does not
look at.
-/

namespace P4Hyp

/-- A sleep in which one thing happens, and the poll that follows. -/
def wfiSleep (m : Monitor) (e : HostEvent) : Monitor := hypPollHostDevices (hostStep m e)

/-- Some events of the host end the `wfi`.  A completion takes a request that core
0 has in hand. -/
def CanWake (outstanding : Prop) (m : Monitor) : Prop :=
  ∃ es : List HostEvent, (.complete ∈ es → outstanding) ∧
    hypWfiWake (es.foldl wfiSleep m) = true

/-- What the guest has enabled leaves an event that ends the `wfi`. -/
def Wakeable (outstanding : Prop) (m : Monitor) : Prop :=
  hypWfiWake m = true ∨
    (m.shadow.mie &&& mipMtip ≠ 0 ∧ m.clint.shadowMtimecmp < hypMtimeMax) ∨
    (m.shadow.mie &&& mipMeip ≠ 0 ∧
      ((m.dev.plic.Forwards plicUartSource ∧
          (m.dev.uart.ier &&& 0x01 ≠ 0 ∨ m.dev.uart.ier &&& 0x02 ≠ 0)) ∨
        (m.dev.plic.Forwards plicVirtioBlkSource ∧ (m.dev.sIrq = true ∨ outstanding))))

theorem hypWfiWake_iff (m : Monitor) : hypWfiWake m = true ↔
    (m.shadow.mie &&& mipMeip ≠ 0 ∧ meipPending m.dev.plic = true) ∨
      (m.shadow.mie &&& mipMsip ≠ 0 ∧ m.shadow.mip &&& mipMsip ≠ 0) ∨
      (m.shadow.mie &&& mipMtip ≠ 0 ∧ mtipPending m.clint = true) := by
  unfold hypWfiWake
  split
  · rename_i h
    exact iff_of_true rfl (.inl h)
  · rename_i h₁
    split
    · rename_i h
      exact iff_of_true rfl (.inr (.inl h))
    · rename_i h₂
      split
      · rename_i h
        exact iff_of_true rfl (.inr (.inr h))
      · rename_i h₃
        refine iff_of_false Bool.false_ne_true ?_
        rintro (h | h | h)
        · exact h₁ h
        · exact h₂ h
        · exact h₃ h

/-! ## What a sleep leaves alone -/

section Sleep

variable {m : Monitor} {e : HostEvent}

theorem hostStep_guest (m : Monitor) (e : HostEvent) : (hostStep m e).shadow = m.shadow ∧
    (hostStep m e).clint.shadowMtimecmp = m.clint.shadowMtimecmp ∧
    (hostStep m e).dev.plic = m.dev.plic ∧ (hostStep m e).dev.uart = m.dev.uart ∧
    ((hostStep m e).dev.sIrq = true → m.dev.sIrq = true ∨ e = .complete) := by
  cases e with
  | tick | receive | sent => exact ⟨rfl, rfl, rfl, rfl, .inl⟩
  | complete => exact ⟨rfl, rfl, rfl, rfl, fun _ => .inr rfl⟩

theorem pollAlarm_mtimecmp (m : Monitor) :
    (pollAlarm m).clint.shadowMtimecmp = m.clint.shadowMtimecmp ∧
      (pollAlarm m).clint.systimer.counter = m.clint.systimer.counter := by
  unfold pollAlarm
  split
  · exact ⟨rfl, rfl⟩
  · exact ⟨rfl, rfl⟩

theorem foldl_drainByte_ier (cs : List Byte) (u : Uart16550) :
    (cs.foldl drainByte u).ier = u.ier := by
  induction cs generalizing u with
  | nil => rfl
  | cons c cs ih =>
      rw [List.foldl_cons, ih]
      unfold drainByte uartRxPush
      dsimp only
      repeat' split
      all_goals rfl

/-- What the guest has set up, as the wake test and the devices read it. -/
structure SameEnables (m m' : Monitor) : Prop where
  shadow : m'.shadow = m.shadow
  mtimecmp : m'.clint.shadowMtimecmp = m.clint.shadowMtimecmp
  ier : m'.dev.uart.ier = m.dev.uart.ier
  forwards : ∀ n, m'.dev.plic.Forwards n ↔ m.dev.plic.Forwards n

theorem forwards_plicSetPending (source n : Nat) (asserted : Bool) (p : Plic) :
    (plicSetPending source asserted p).Forwards n ↔ p.Forwards n := by
  cases asserted with
  | false => exact Iff.rfl
  | true => exact Iff.rfl

theorem forwards_hypVirtioBlkPoll (d : Devices) (n : Nat) :
    (hypVirtioBlkPoll d).plic.Forwards n ↔ d.plic.Forwards n := by
  unfold hypVirtioBlkPoll
  split
  · exact forwards_plicSetPending _ n true d.plic
  · exact Iff.rfl

theorem sameEnables_poll (m : Monitor) : SameEnables m (hypPollHostDevices m) := by
  have hplic : (pollUart (pollAlarm m)).dev.plic = m.dev.plic := by
    rw [pollUart_eq, pollAlarm_eq]
  refine ⟨?_, ?_, ?_, fun n => ?_⟩
  · show (pollUart (pollAlarm m)).shadow = m.shadow
    rw [pollUart_eq, pollAlarm_eq]
  · show (pollUart (pollAlarm m)).clint.shadowMtimecmp = _
    rw [pollUart_eq]
    exact (pollAlarm_mtimecmp m).1
  · rw [hypPollHostDevices_uart]
    split
    · exact foldl_drainByte_ier _ _
    · rfl
  · show (v16550Reeval _ (hypVirtioBlkPoll (pollUart (pollAlarm m)).dev).plic).Forwards n ↔ _
    rw [v16550Reeval, forwards_plicSetPending, forwards_hypVirtioBlkPoll, hplic]

theorem sameEnables_sleep (m : Monitor) (e : HostEvent) : SameEnables m (wfiSleep m e) := by
  obtain ⟨hsh, hcmp, hplic, hu, -⟩ := hostStep_guest m e
  obtain ⟨psh, pcmp, pier, pfw⟩ := sameEnables_poll (hostStep m e)
  refine ⟨psh.trans hsh, pcmp.trans hcmp, ?_, fun n => ?_⟩
  · exact pier.trans (congrArg Uart16550.ier hu)
  · rw [← hplic]
    exact pfw n

/-! ## Both directions -/

theorem uartLine_ier {u : Uart16550} (h : uartLine u = true) :
    u.ier &&& 0x01 ≠ 0 ∨ u.ier &&& 0x02 ≠ 0 := by
  rcases (uartLine_iff u).mp h with h | h
  · exact .inl h.1
  · exact .inr h

/-- The deadline of a pending timer is one that the counter can reach. -/
theorem mtimecmp_lt {c : Clint} (h : mtipPending c = true) : c.shadowMtimecmp < hypMtimeMax := by
  have hle := (mtipPending_iff c).mp h
  have hlt := c.systimer.counter.isLt
  rw [BitVec.lt_def]
  show _ < 2 ^ 52
  omega

/-- What wakes the monitor after a sleep was enabled before it. -/
theorem wakeable_sleep {outstanding : Prop} (h : Wakeable outstanding (wfiSleep m e))
    (ho : e = .complete → outstanding) : Wakeable outstanding m := by
  obtain ⟨hsh, hcmp, hier, hfw⟩ := sameEnables_sleep m e
  rcases h with hw | ⟨hie, ht⟩ | ⟨hie, hext⟩
  · rw [hypWfiWake_iff, hsh] at hw
    rcases hw with ⟨hie, hp⟩ | hm | ⟨hie, hp⟩
    · obtain ⟨n, hn, hpend, hf⟩ := (meipPending_iff _).mp hp
      rw [hfw] at hf
      have hpend : (hypPollHostDevices (hostStep m e)).dev.plic.isPending n = true := hpend
      rw [hypPollHostDevices_isPending _ (Nat.lt_succ_of_le hn.2)] at hpend
      split at hpend
      · rename_i hu
        rw [hu] at hf
        have hline := uartLine_ier hpend
        rw [show (hypPollHostDevices (hostStep m e)).dev.uart.ier =
          m.dev.uart.ier from hier] at hline
        exact .inr (.inr ⟨hie, .inl ⟨hf, hline⟩⟩)
      · obtain ⟨-, -, hplic, -, hirq⟩ := hostStep_guest m e
        split at hpend
        · rename_i hb
          rw [hb.1] at hf
          exact .inr (.inr ⟨hie, .inr ⟨hf, (hirq hb.2).imp_right ho⟩⟩)
        · rw [hplic] at hpend
          have hmeip := (meipPending_iff m.dev.plic).mpr ⟨n, hn, hpend, hf⟩
          exact .inl ((hypWfiWake_iff m).mpr (.inl ⟨hie, hmeip⟩))
    · exact .inl ((hypWfiWake_iff m).mpr (.inr (.inl hm)))
    · have hlt := mtimecmp_lt hp
      rw [hcmp] at hlt
      exact .inr (.inl ⟨hie, hlt⟩)
  · rw [hsh] at hie
    rw [hcmp] at ht
    exact .inr (.inl ⟨hie, ht⟩)
  · rw [hsh] at hie
    rw [hfw, hfw, hier] at hext
    refine .inr (.inr ⟨hie, hext.imp_right fun h => ⟨h.1, .inr ?_⟩⟩)
    refine h.2.resolve_left ?_
    rw [show (wfiSleep m e).dev.sIrq = false from hypPollHostDevices_sIrq _]
    exact Bool.false_ne_true

theorem wakeable_sleeps {outstanding : Prop} {es : List HostEvent}
    (h : Wakeable outstanding (es.foldl wfiSleep m)) (ho : .complete ∈ es → outstanding) :
    Wakeable outstanding m := by
  induction es generalizing m with
  | nil => exact h
  | cons e es ih =>
      rw [List.foldl_cons] at h
      refine wakeable_sleep (ih h fun hmem => ho (List.mem_cons_of_mem _ hmem)) fun he => ?_
      rw [he] at ho
      exact ho List.mem_cons_self

/-- A source that is pending after a sleep wakes the monitor, if it is forwarded
and MEIE is set. -/
theorem wake_of_source (hie : m.shadow.mie &&& mipMeip ≠ 0) {n : Nat}
    (hn : 1 ≤ n ∧ n ≤ plicMaxSource) (hf : m.dev.plic.Forwards n)
    (hp : (wfiSleep m e).dev.plic.isPending n = true) : hypWfiWake (wfiSleep m e) = true := by
  have hs := sameEnables_sleep m e
  rw [hypWfiWake_iff, hs.shadow]
  exact .inl ⟨hie, (meipPending_iff _).mpr ⟨n, hn, hp, (hs.forwards n).mpr hf⟩⟩

/-- The counter is let run up to the deadline. -/
theorem wake_of_deadline (hie : m.shadow.mie &&& mipMtip ≠ 0)
    (ht : m.clint.shadowMtimecmp < hypMtimeMax) :
      ∃ n, hypWfiWake (wfiSleep m (.tick n)) = true := by
  have hlt : m.clint.shadowMtimecmp.toNat < 2 ^ 52 := BitVec.lt_def.mp ht
  have hc := m.clint.systimer.counter.isLt
  refine ⟨m.clint.shadowMtimecmp.toNat - m.clint.systimer.counter.toNat, ?_⟩
  generalize hn : m.clint.shadowMtimecmp.toNat - m.clint.systimer.counter.toNat = n
  have hs := sameEnables_sleep m (.tick n)
  rw [hypWfiWake_iff, hs.shadow]
  refine .inr (.inr ⟨hie, ?_⟩)
  have hcounter : (wfiSleep m (.tick n)).clint.systimer.counter =
      (m.clint.systimer.tick n).counter := by
    show (pollUart (pollAlarm _)).clint.systimer.counter = _
    rw [pollUart_eq]
    exact (pollAlarm_mtimecmp _).2
  rw [mtipPending_iff, hs.mtimecmp, hcounter, toNat_tick (by omega)]
  omega

theorem uartRxEmpty_push (b : Byte) (u : Uart16550) : uartRxEmpty (uartRxPush b u) = false := by
  unfold uartRxPush
  dsimp only
  split
  · rename_i hf
    show (u.head == u.tail) = false
    rw [beq_eq_false_iff_ne]
    unfold uartRxRingSize at hf
    omega
  · rename_i hf
    exact beq_eq_false_iff_ne.mpr hf

/-- After a byte other than Ctrl-^ the ring is not empty. -/
theorem uartRxEmpty_received (m : Monitor) :
    uartRxEmpty (wfiSleep m (.receive 0x61 [])).dev.uart = false := by
  unfold wfiSleep
  rw [hypPollHostDevices_uart]
  show uartRxEmpty ((m.uart0.rxFifo ++ [0x61]).foldl drainByte m.dev.uart) = false
  rw [List.foldl_append, List.foldl_cons, List.foldl_nil, drainByte, if_neg (by decide)]
  exact uartRxEmpty_push _ _

theorem wake_of_uart (hie : m.shadow.mie &&& mipMeip ≠ 0) (hf : m.dev.plic.Forwards plicUartSource)
    (hier : m.dev.uart.ier &&& 0x01 ≠ 0 ∨ m.dev.uart.ier &&& 0x02 ≠ 0) :
    hypWfiWake (wfiSleep m (.receive 0x61 [])) = true := by
  refine wake_of_source hie (by decide) hf ?_
  show (hypPollHostDevices (hostStep m (.receive 0x61 []))).dev.plic.isPending _ = true
  rw [hypPollHostDevices_isPending _ (by decide), if_pos rfl, uartLine_iff]
  rw [← (sameEnables_sleep m (.receive 0x61 [])).ier] at hier
  exact hier.imp_left fun h => ⟨h, uartRxEmpty_received m⟩

theorem wake_of_blk (hie : m.shadow.mie &&& mipMeip ≠ 0)
    (hf : m.dev.plic.Forwards plicVirtioBlkSource) (hs : (hostStep m e).dev.sIrq = true) :
    hypWfiWake (wfiSleep m e) = true := by
  refine wake_of_source hie (by decide) hf ?_
  show (hypPollHostDevices (hostStep m e)).dev.plic.isPending _ = true
  rw [hypPollHostDevices_isPending _ (by decide), if_neg (by decide), if_pos ⟨rfl, hs⟩]

end Sleep

/-- Some event of the host ends a `wfi` exactly when what the guest has enabled
leaves one. -/
theorem canWake_iff (outstanding : Prop) (m : Monitor) :
    CanWake outstanding m ↔ Wakeable outstanding m := by
  constructor
  · rintro ⟨es, ho, hw⟩
    exact wakeable_sleeps (.inl hw) ho
  · rintro (hw | ⟨hie, ht⟩ | ⟨hie, ⟨hf, hier⟩ | ⟨hf, hs | ho⟩⟩)
    · exact ⟨[], fun h => absurd h List.not_mem_nil, hw⟩
    · obtain ⟨n, hn⟩ := wake_of_deadline hie ht
      exact ⟨[.tick n], fun h => by simp at h, hn⟩
    · exact ⟨[.receive 0x61 []], fun h => by simp at h, wake_of_uart hie hf hier⟩
    · exact ⟨[.tick 0], fun h => by simp at h, wake_of_blk hie hf hs⟩
    · exact ⟨[.complete], fun _ => ho, wake_of_blk hie hf rfl⟩

/-! ## In a run of the board -/

/-- Core 0, going on by itself, reports a completion. -/
def Outstanding (b : Board) : Prop := ∃ n, (core0Step^[n] b.sys).dev.sIrq = true

/-- The exception is a `wfi`, and the monitor blocks. -/
def WfiBlocks (b : Board) (frame : RvExcFrame) : Prop :=
  frame.mcause = 2 ∧ frame.mtval = 0x10500073 ∧ (hypervisorWfi b.mon).1 = none

/-- Where an exception leaves core 1 in the loop of `hypervisor_wfi`, some event
of the host ends it. -/
def WfiEnds (b : Board) : BoardEvent → Prop
  | .exception frame => ∀ b', boardFire b (.exception frame) = some b' → b'.pc = .wake →
      CanWake (Outstanding b') b'.mon
  | _ => True

/-- Where the monitor blocks, the guest's enables leave an event to wait for. -/
def WfiArmed (b : Board) : BoardEvent → Prop
  | .exception frame => WfiBlocks b frame → Wakeable (Outstanding b) b.mon
  | _ => True

/-- A `wfi` that blocks leaves the monitor in the loop, otherwise as it was. -/
theorem boardException_blocks {b : Board} {frame : RvExcFrame} (h : WfiBlocks b frame) :
    ∃ trap, boardException frame b =
      { b with mon := { b.mon with hypInWfi := true }, trap, pc := .wake } := by
  obtain ⟨hc, hi, hb⟩ := h
  obtain ⟨trap, hd, he, -, -⟩ := trapDecode_illegal b.world.mem hc
  have hw : hypervisorWfi b.mon = (none, { b.mon with hypInWfi := true }) := by
    rcases hypervisorWfi_cases b.mon with hw | hw
    · rw [hw] at hb
      cases hb
    · exact hw
  have htrap : hypervisorTrap b.world.mem b.world.sd (guestTrap frame) b.mon =
      (none, trap, { b.mon with hypInWfi := true }) := by
    rw [hypervisorTrap, if_pos (show (guestTrap frame).cause = 2 from hc), hypervisorCsr, hd]
    dsimp only
    rw [he, hi, hw]
    rfl
  refine ⟨trap, ?_⟩
  rw [boardException, htrap]

/-- Nothing else leads into the loop. -/
theorem wfiBlocks_of_wake {b : Board} {frame : RvExcFrame}
    (h : (boardException frame b).pc = .wake) : WfiBlocks b frame := by
  have hcase := hypervisorTrap_case b.world.mem b.world.sd frame b.mon
  have hend (r : TrapResult) (trap : GuestTrap) (b : Board) : (trapEnd r trap b).pc ≠ .wake := by
    unfold trapEnd
    split
    · exact Pc.noConfusion
    · exact Pc.noConfusion
  unfold boardException at h
  generalize hres : hypervisorTrap b.world.mem b.world.sd (guestTrap frame) b.mon = res at h hcase
  cases hcase with
  | unhandled => exact absurd h (hend _ _ _)
  | injected => exact absurd h (hend _ _ _)
  | mret => exact absurd h (hend _ _ _)
  | emulated => exact absurd h (hend _ _ _)
  | wfi hr hc hi hd =>
      rcases hypervisorWfi_cases b.mon with hw | hw
      · rw [hw] at h
        exact absurd h (hend _ _ _)
      · exact ⟨hc, hi, congrArg Prod.fst hw⟩

theorem wfiEnds_iff {b b' : Board} {e : BoardEvent} (hf : boardFire b e = some b') :
    WfiEnds b e ↔ WfiArmed b e := by
  cases e with
  | exception frame =>
      have hb : b' = boardException frame b := by
        simp only [boardFire] at hf
        split at hf
        · exact (Option.some.inj hf).symm
        · cases hf
      constructor
      · intro hends hblocks
        obtain ⟨trap, he⟩ := boardException_blocks hblocks
        have hwake := (canWake_iff _ _).mp (hends b' hf (by rw [hb, he]))
        rw [hb, he] at hwake
        exact hwake
      · intro harmed b'' hf' hpc
        obtain rfl := Option.some.inj (hf.symm.trans hf')
        rw [hb] at hpc
        have hblocks := wfiBlocks_of_wake hpc
        obtain ⟨trap, he⟩ := boardException_blocks hblocks
        rw [hb, he]
        exact (canWake_iff _ _).mpr (harmed hblocks)
  | core0 | core1 | hostIrq | store | tick | receive | sent => exact Iff.rfl

/-- In any run the loop of `hypervisor_wfi` is entered only where it can end,
exactly when each `wfi` that blocks has an event to wait for. -/
theorem wfiEnds_run {w : World} {h : List (Board × BoardEvent)} {b : Board}
    (hrun : Run boardFire (.boot w) h b) : Run.Meets WfiEnds h ↔ Run.Meets WfiArmed h := by
  constructor
  · intro hends p hp
    obtain ⟨b', hf⟩ := hrun.fired p hp
    exact (wfiEnds_iff hf).mp (hends p hp)
  · intro harmed p hp
    obtain ⟨b', hf⟩ := hrun.fired p hp
    exact (wfiEnds_iff hf).mpr (harmed p hp)

/-- The guest has MTIE and a deadline, as one that idles on its timer. -/
def WfiTimed (b : Board) : BoardEvent → Prop
  | .exception frame => WfiBlocks b frame →
      b.mon.shadow.mie &&& mipMtip ≠ 0 ∧ b.mon.clint.shadowMtimecmp < hypMtimeMax
  | _ => True

instance (b : Board) (frame : RvExcFrame) : Decidable (WfiBlocks b frame) :=
  inferInstanceAs (Decidable (_ ∧ _ ∧ _))

instance (b : Board) : (e : BoardEvent) → Decidable (WfiTimed b e)
  | .exception _ => inferInstanceAs (Decidable (_ → _ ∧ _))
  | .core0 | .core1 | .hostIrq _ | .store _ _ _ | .tick _ | .receive _ _
    | .sent _ => .isTrue trivial

theorem wfiArmed_of_timed {b : Board} {e : BoardEvent} (h : WfiTimed b e) : WfiArmed b e := by
  cases e with
  | exception frame => exact fun hb => .inr (.inl (h hb))
  | core0 | core1 | hostIrq | store | tick | receive | sent => trivial

/-- A guest that sets a deadline and MTIE, and sleeps. -/
theorem wfiEnds_run_timed : ∃ h b, Run boardFire (.boot guestWorld) h b ∧ b.pc = .wake ∧
    Run.Meets WfiEnds h := by
  obtain ⟨h, b, hrun, hd⟩ := Run.exists_of_play boardFire (.boot guestWorld)
    (trapped [guestSw 0x02004000 1000, guestSw 0x02004004 0, csrw 0x304 0x80] ++
      [.exception guestWfi])
    (fun r => decide (r.2.pc = .wake ∧ Run.Meets WfiTimed r.1)) true (by decide +kernel)
  obtain ⟨hpc, hmeets⟩ := of_decide_eq_true hd
  exact ⟨h, b, hrun, hpc, (wfiEnds_run hrun).mpr fun p hp => wfiArmed_of_timed (hmeets p hp)⟩

/-- A guest that sets MEIE, with no source enabled in the PLIC, and sleeps for
ever. -/
theorem wfi_stuck : ∃ h b b', Run boardFire (.boot (worldOf (fun _ => 0) (smallSd true))) h b ∧
    boardFire b (.exception guestWfi) = some b' ∧ b'.pc = .wake ∧
    ¬ CanWake (Outstanding b') b'.mon := by
  obtain ⟨h, b, hrun, hd⟩ := Run.exists_of_play boardFire
    (.boot (worldOf (fun _ => 0) (smallSd true))) (trapped [csrw 0x304 0x800])
    (fun r => decide (r.2.pc = .guest ∧ WfiBlocks r.2 guestWfi ∧ hypWfiWake r.2.mon = false ∧
      r.2.mon.shadow.mie &&& mipMtip = 0 ∧ ¬ r.2.mon.dev.plic.Forwards plicUartSource ∧
      ¬ r.2.mon.dev.plic.Forwards plicVirtioBlkSource)) true (by decide +kernel)
  obtain ⟨hpc, hb, hw, ht, hu, hv⟩ := of_decide_eq_true hd
  obtain ⟨trap, he⟩ := boardException_blocks hb
  refine ⟨h, b, _, hrun, if_pos ⟨hpc, by decide⟩, by rw [he], fun hcan => ?_⟩
  rw [canWake_iff, he] at hcan
  rcases hcan with hwake | ⟨hie, -⟩ | ⟨-, ⟨hf, -⟩ | ⟨hf, -⟩⟩
  · have hwake : hypWfiWake b.mon = true := hwake
    rw [hw] at hwake
    cases hwake
  · exact hie ht
  · exact hu hf
  · exact hv hf

end P4Hyp
