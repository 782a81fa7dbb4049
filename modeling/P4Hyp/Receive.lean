import P4Hyp.Lib.Fifo
import P4Hyp.Io

/-!
# The receive ring as a bounded queue

Bytes come in from the host's polls and from the loopback, and go out by reads of
RBR.  The history of a run says what the ring has accepted, handed out and
dropped, and the ring holds the rest.
-/

namespace P4Hyp

def Uart16550.rx (u : Uart16550) : Ring Byte := ⟨u.ring, u.head, u.tail⟩

/-- One slot stays free. -/
def uartRxCapacity : Nat := uartRxRingSize - 1

/-! ## The history -/

/-- A read of RBR takes a byte, if there is one. -/
def readLog (offset : Word) (c : Console) (l : FifoLog Byte) : FifoLog Byte :=
  if AtRing offset c.uart16550 ∧ uartRxEmpty c.uart16550 = false then
    l.take (uartRegRead offset c).1
  else l

/-- A write of THR in loopback is a byte received. -/
def writeLog (offset : Word) (value : Byte) (c : Console) (l : FifoLog Byte) : FifoLog Byte :=
  if AtRing offset c.uart16550 ∧ c.uart16550.mcr &&& 0x10 ≠ 0 then l.arrive uartRxCapacity value
  else l

/-- The bytes of a poll, without the monitor's own. -/
def pollLog (m : Monitor) (l : FifoLog Byte) : FifoLog Byte :=
  if m.uart0.rxInt then
    (m.uart0.rxFifo.filter (· ≠ hypKeyStatsDump)).foldl (FifoLog.arrive uartRxCapacity) l
  else l

/-- The registers of a load one by one, as `uart_read` reads them. -/
def uartReadLog (offset : Word) (is : List Nat) (c : Console) (l : FifoLog Byte) : FifoLog Byte :=
  match is with
  | [] => l
  | i :: is =>
      uartReadLog offset is (uartRegRead (offset + BitVec.ofNat 32 i) c).2
        (readLog (offset + BitVec.ofNat 32 i) c l)

def uartWriteLog (offset value : Word) (is : List Nat) (c : Console) (l : FifoLog Byte) :
    FifoLog Byte :=
  match is with
  | [] => l
  | i :: is =>
      let b := (value >>> (8 * i)).setWidth 8
      uartWriteLog offset value is (uartRegWrite (offset + BitVec.ofNat 32 i) b c)
        (writeLog (offset + BitVec.ofNat 32 i) b c l)

def rxStep (l : FifoLog Byte) (p : Monitor × IoEvent) : FifoLog Byte :=
  match p.2 with
  | .load .uart offset width => uartReadLog offset (List.range width) p.1.console l
  | .store .uart offset value width => uartWriteLog offset value (List.range width) p.1.console l
  | .poll => pollLog p.1 l
  | _ => l

/-- What has gone through the receive ring. -/
def rxLog (h : List (Monitor × IoEvent)) : FifoLog Byte := h.foldl rxStep .start

/-! ## The ring against the history -/

/-- The ring holds what the log says, and `overruns` counts what was dropped as
far as a word goes. -/
structure RxHolds (l : FifoLog Byte) (u : Uart16550) : Prop where
  queue : l.Holds uartRxRingSize u.rx
  overruns : u.overruns = BitVec.ofNat 32 l.dropped

section Rx

variable {l : FifoLog Byte} {u u' : Uart16550} {c : Console}

theorem RxHolds.keep (h : RxHolds l u) (hr : u'.rx = u.rx) (ho : u'.overruns = u.overruns) :
    RxHolds l u' := by
  refine ⟨?_, ?_⟩
  · rw [hr]
    exact h.queue
  · rw [ho]
    exact h.overruns

theorem uartRxPush_rx (b : Byte) (u : Uart16550) :
    (uartRxPush b u).rx = u.rx.push uartRxRingSize b := by
  unfold uartRxPush Ring.push
  dsimp only
  by_cases hf : (u.head + 1) % uartRxRingSize = u.tail
  · rw [if_pos hf, if_pos (show Ring.next uartRxRingSize u.rx.head = u.rx.tail from hf)]
    rfl
  · rw [if_neg hf, if_neg (show ¬ Ring.next uartRxRingSize u.rx.head = u.rx.tail from hf)]
    rfl

theorem rxHolds_push (h : RxHolds l u) (b : Byte) :
    RxHolds (l.arrive uartRxCapacity b) (uartRxPush b u) := by
  refine ⟨?_, ?_⟩
  · rw [uartRxPush_rx]
    exact h.queue.arrive b
  · by_cases hf : Ring.next uartRxRingSize u.rx.head = u.rx.tail
    · rw [uartRxCapacity, FifoLog.arrive_full h.queue hf, uartRxPush,
        if_pos (show (u.head + 1) % uartRxRingSize = u.tail from hf)]
      show u.overruns + 1 = BitVec.ofNat 32 (l.dropped + 1)
      rw [h.overruns]
      exact (BitVec.ofNat_add l.dropped 1).symm
    · rw [uartRxCapacity, FifoLog.arrive_room h.queue hf, uartRxPush,
        if_neg (show ¬ (u.head + 1) % uartRxRingSize = u.tail from hf)]
      exact h.overruns

theorem rxHolds_pop (h : RxHolds l u) (he : uartRxEmpty u = false) :
    RxHolds (l.take (uartRxPop u).1) (uartRxPop u).2 := by
  have hne : u.rx.head ≠ u.rx.tail := by
    intro heq
    rw [uartRxEmpty, show u.head = u.tail from heq, beq_self_eq_true] at he
    cases he
  rw [uartRxPop, if_neg (by rw [he]; exact Bool.false_ne_true)]
  exact ⟨h.queue.take hne, h.overruns⟩

theorem uartRxPop_empty (he : uartRxEmpty u = true) : uartRxPop u = (0, u) := if_pos he

/-! ## Registers -/

theorem rxHolds_regRead (h : RxHolds l c.uart16550) (offset : Word) :
    RxHolds (readLog offset c l) (uartRegRead offset c).2.uart16550 := by
  unfold readLog
  by_cases hr : AtRing offset c.uart16550
  · cases he : uartRxEmpty c.uart16550 with
    | true =>
        rw [if_neg (fun hc => absurd hc.2 Bool.true_eq_false.mp), uartRegRead_rbr hr,
          uartRxPop_empty he]
        exact h
    | false =>
        rw [if_pos ⟨hr, rfl⟩, uartRegRead_rbr hr]
        exact rxHolds_pop h he
  · rw [if_neg (fun hc => hr hc.1), uartRegRead_other hr]
    exact h

/-- Only THR in loopback reaches the ring. -/
theorem uartRegWrite_rx {offset : Word} (value : Byte)
    (hr : ¬ (AtRing offset c.uart16550 ∧ c.uart16550.mcr &&& 0x10 ≠ 0)) :
    (uartRegWrite offset value c).uart16550.rx = c.uart16550.rx ∧
      (uartRegWrite offset value c).uart16550.overruns = c.uart16550.overruns := by
  by_cases ha : AtRing offset c.uart16550
  · rw [uartRegWrite_thr ha, if_neg (fun hm => hr ⟨ha, hm⟩)]
    unfold uartSend
    split
    · exact ⟨rfl, rfl⟩
    · exact ⟨rfl, rfl⟩
  · unfold uartRegWrite
    dsimp only
    split
    · exact ⟨rfl, rfl⟩
    · rename_i hd
      split
      · exact ⟨rfl, rfl⟩
      · split
        · rename_i h0
          exact absurd ⟨Decidable.not_not.mp fun hl => hd ⟨hl, h0⟩, h0⟩ ha
        · repeat' split
          all_goals exact ⟨rfl, rfl⟩

theorem rxHolds_regWrite (h : RxHolds l c.uart16550) (offset : Word) (value : Byte) :
    RxHolds (writeLog offset value c l) (uartRegWrite offset value c).uart16550 := by
  unfold writeLog
  by_cases hr : AtRing offset c.uart16550 ∧ c.uart16550.mcr &&& 0x10 ≠ 0
  · rw [if_pos hr, uartRegWrite_thr hr.1, if_pos hr.2]
    exact rxHolds_push h value
  · obtain ⟨hrx, ho⟩ := uartRegWrite_rx value hr
    rw [if_neg hr]
    exact h.keep hrx ho

/-! ## Accesses and polls -/

theorem rxHolds_uartRead (h : RxHolds l c.uart16550) (offset : Word) (width : Nat) :
    RxHolds (uartReadLog offset (List.range width) c l) (uartRead offset width c).2.uart16550 := by
  rw [uartRead_console]
  generalize List.range width = is
  induction is generalizing l c with
  | nil => exact h
  | cons i is ih =>
      rw [List.foldl_cons]
      exact ih (rxHolds_regRead h _)

theorem rxHolds_uartWrite (h : RxHolds l c.uart16550) (offset value : Word) (width : Nat) :
    RxHolds (uartWriteLog offset value (List.range width) c l)
      (uartWrite offset value width c).uart16550 := by
  unfold uartWrite
  generalize List.range width = is
  induction is generalizing l c with
  | nil => exact h
  | cons i is ih =>
      rw [List.foldl_cons]
      exact ih (rxHolds_regWrite h _ _)

theorem rxHolds_drain (h : RxHolds l u) (cs : List Byte) :
    RxHolds ((cs.filter (· ≠ hypKeyStatsDump)).foldl (FifoLog.arrive uartRxCapacity) l)
      (cs.foldl drainByte u) := by
  induction cs generalizing l u with
  | nil => exact h
  | cons c cs ih =>
      rw [List.foldl_cons]
      by_cases hk : c = hypKeyStatsDump
      · rw [List.filter_cons_of_neg (by rw [hk]; decide), drainByte, if_pos hk]
        exact ih h
      · rw [List.filter_cons_of_pos (p := fun x => decide (x ≠ hypKeyStatsDump))
          (decide_eq_true hk), List.foldl_cons, drainByte, if_neg hk]
        exact ih (rxHolds_push h c)

theorem rxHolds_poll {m : Monitor} (h : RxHolds l m.dev.uart) :
    RxHolds (pollLog m l) (hypPollHostDevices m).dev.uart := by
  rw [hypPollHostDevices_uart]
  unfold pollLog
  split
  · exact rxHolds_drain h _
  · exact h

end Rx

theorem rxHolds_step {sd : Sd} {l : FifoLog Byte} {m m' : Monitor} {e : IoEvent}
    (h : RxHolds l m.dev.uart) (hf : ioFire sd m e = some m') :
    RxHolds (rxStep l (m, e)) m'.dev.uart := by
  cases e with
  | load device offset width =>
      obtain rfl := Option.some.inj hf
      cases device with
      | uart => exact rxHolds_uartRead (c := m.console) h offset width
      | clint | plic | vblk => exact h
  | store device offset value width =>
      obtain rfl := Option.some.inj hf
      cases device with
      | uart => exact rxHolds_uartWrite (c := m.console) h offset value width
      | clint | plic => exact h
      | vblk =>
          show RxHolds l (hypVirtioBlkWrite _ offset value m.dev).uart
          rw [(hypVirtioBlkWrite_wires _ offset value m.dev).1]
          exact h
  | poll =>
      obtain rfl := Option.some.inj hf
      exact rxHolds_poll h
  | host e =>
      obtain rfl := Option.some.inj hf
      cases e with
      | tick | receive | sent | complete => exact h

theorem rxHolds_run {sd : Sd} {h : List (Monitor × IoEvent)} {m : Monitor}
    (hrun : Run (ioFire sd) .boot h m) : RxHolds (rxLog h) m.dev.uart := by
  induction hrun with
  | start => exact ⟨⟨⟨by decide, by decide⟩, rfl⟩, rfl⟩
  | step _ hf ih =>
      rw [rxLog, List.foldl_append, List.foldl_cons, List.foldl_nil]
      exact rxHolds_step ih hf

/-! ## Any run -/

/-- The receive ring is the queue that its history describes. -/
structure RxFifo (l : FifoLog Byte) (m : Monitor) : Prop where
  order : l.taken ++ m.dev.uart.rx.contents uartRxRingSize = l.accepted
  bound : (m.dev.uart.rx.contents uartRxRingSize).length ≤ 511
  overruns : m.dev.uart.overruns = BitVec.ofNat 32 l.dropped
  indices : m.dev.uart.head < 512 ∧ m.dev.uart.tail < 512
  empty : ∀ offset, AtRing offset m.dev.uart → uartRxEmpty m.dev.uart = true →
    (uartRegRead offset m.console).1 = 0 ∧ (uartRegRead offset m.console).2.uart16550 = m.dev.uart

/-- Over any run the bytes read, and after them those held, are the bytes accepted,
in order; `overruns` counts the others modulo 2^32. -/
theorem rxFifo_run {sd : Sd} {h : List (Monitor × IoEvent)} {m : Monitor}
    (hrun : Run (ioFire sd) .boot h m) : RxFifo (rxLog h) m := by
  have hi := rxHolds_run hrun
  have hwf := hi.queue.wf
  refine ⟨hi.queue.order, ?_, hi.overruns, ⟨hwf.head, hwf.tail⟩, fun offset ha he => ?_⟩
  · have hlt : m.dev.uart.rx.count uartRxRingSize < uartRxRingSize :=
      Nat.mod_lt _ (Nat.zero_lt_of_lt hwf.head)
    rw [Ring.contents_length]
    exact Nat.le_of_lt_succ hlt
  · rw [uartRegRead_rbr (c := m.console) ha,
      show uartRxPop m.console.uart16550 = (0, m.dev.uart) from uartRxPop_empty he]
    exact ⟨rfl, rfl⟩

/-- Two bytes and a Ctrl-^ from the host, a byte of the guest's own in loopback,
and three reads. -/
def fifoUse : List IoEvent :=
  [.host (.receive 0x61 [hypKeyStatsDump, 0x62]), .poll, .store .uart 4 0x10 1,
    .store .uart 0 0x63 1, .load .uart 0 1, .load .uart 0 1, .load .uart 0 4]

theorem rxFifo_run_use : ∃ h m, Run (ioFire (smallSd true)) .boot h m ∧
    (rxLog h).taken = [0x61, 0x62, 0x63] ∧ (rxLog h).dropped = 0 ∧ RxFifo (rxLog h) m := by
  obtain ⟨h, m, hrun, hd⟩ := Run.exists_of_play (ioFire (smallSd true)) .boot fifoUse
    (fun r => decide ((rxLog r.1).taken = [0x61, 0x62, 0x63] ∧ (rxLog r.1).dropped = 0)) true
    (by decide +kernel)
  obtain ⟨ht, hn⟩ := of_decide_eq_true hd
  exact ⟨h, m, hrun, ht, hn, rxFifo_run hrun⟩

/-- A burst of bytes, polled at once, of which the ring holds 511. -/
theorem dropped_burst (sd : Sd) (n : Nat) : ∃ h m, Run (ioFire sd) .boot h m ∧
    (rxLog h).dropped = n + 1 - uartRxCapacity := by
  have hstart : Run (ioFire sd) .boot [] .boot := .start
  have hrun := hstart.step (e := .host (.receive 0x61 (List.replicate n 0x61))) rfl
  refine ⟨_, _, hrun.step (e := .poll) rfl, ?_⟩
  have hall (cs : List Byte) (hcs : cs = 0x61 :: List.replicate n 0x61) :
      cs.filter (· ≠ hypKeyStatsDump) = cs := by
    refine List.filter_eq_self.mpr fun c hc => ?_
    rw [hcs, ← List.replicate_succ] at hc
    rw [List.eq_of_mem_replicate hc]
    decide
  show (((0x61 :: List.replicate n 0x61 : List Byte).filter (· ≠ hypKeyStatsDump)).foldl
    (FifoLog.arrive uartRxCapacity) .start).dropped = _
  rw [hall _ rfl, FifoLog.foldl_arrive_dropped (l := .start) _ _ (Nat.le_refl 0), List.length_cons,
    List.length_replicate]
  show 0 + (n + 1 - (uartRxCapacity - 0)) = _
  omega

/-- After 2^32 bytes have been dropped, `overruns` is 0. -/
theorem overruns_wrap : ∃ h m, Run (ioFire (smallSd true)) .boot h m ∧
    (rxLog h).dropped = 4294967296 ∧ m.dev.uart.overruns = 0 ∧
    m.dev.uart.overruns.toNat ≠ (rxLog h).dropped := by
  obtain ⟨h, m, hrun, hd⟩ := dropped_burst (smallSd true) 4294967806
  have hdropped : (rxLog h).dropped = 4294967296 := hd
  have hover : m.dev.uart.overruns = 0 := by
    rw [(rxHolds_run hrun).overruns, hdropped]
    rfl
  refine ⟨h, m, hrun, hdropped, hover, ?_⟩
  rw [hover, hdropped]
  decide

end P4Hyp
