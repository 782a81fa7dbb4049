import P4Hyp.Plic

/-!
# The emulated 16550

Its receive ring, its registers and its interrupt line.  The line is a function
of the device, recomputed into the PLIC whenever the device changes.
-/

namespace P4Hyp

def uartRxRingSize : Nat := 512

structure Uart16550 where
  ier : Byte
  lcr : Byte
  mcr : Byte
  scr : Byte
  fcr : Byte
  dll : Byte
  dlm : Byte
  ring : Nat → Byte
  head : Nat
  tail : Nat
  overruns : Word
  txDropped : Word

def Uart16550.reset : Uart16550 :=
  { ier := 0, lcr := 0, mcr := 0, scr := 0, fcr := 0, dll := 0, dlm := 0, ring := fun _ => 0,
    head := 0, tail := 0, overruns := 0, txDropped := 0 }

def uartRxEmpty (u : Uart16550) : Bool := u.head == u.tail

def uartRxPush (c : Byte) (u : Uart16550) : Uart16550 :=
  let next := (u.head + 1) % uartRxRingSize
  if next = u.tail then { u with overruns := u.overruns + 1 }
  else { u with ring := fun i => if i = u.head then c else u.ring i, head := next }

def uartRxPop (u : Uart16550) : Byte × Uart16550 :=
  if uartRxEmpty u then (0, u)
  else (u.ring u.tail, { u with tail := (u.tail + 1) % uartRxRingSize })

/-- Whether the 16550 asserts its line: received data, or an empty transmitter,
which ours always is. -/
def uartLine (u : Uart16550) : Bool :=
  (u.ier &&& 0x01 != 0 && !uartRxEmpty u) || u.ier &&& 0x02 != 0

/-- `v16550_reeval`. -/
def v16550Reeval (u : Uart16550) (p : Plic) : Plic := plicSetPending plicUartSource (uartLine u) p

/-- The board's own UART0, with its interrupts enabled on receive. -/
structure Uart0 where
  /-- `uart_ll_get_intsts_mask` has a receive bit set, which is also the line. -/
  rxInt : Bool
  rxFifo : List Byte
  /-- `uart_ll_get_txfifo_len`: the room left. -/
  txRoom : Nat
  txFifo : List Byte

/-- The 16550 with what its registers reach. -/
structure Console where
  uart16550 : Uart16550
  uart0 : Uart0
  plic : Plic

def Console.reeval (c : Console) : Console :=
  { c with plic := v16550Reeval c.uart16550 c.plic }

/-- IIR without its FIFO bits.  Zero would be an interrupt the driver has no
handler for. -/
def uartIir (u : Uart16550) : Byte :=
  if u.ier &&& 0x01 ≠ 0 ∧ uartRxEmpty u = false then 0x04
  else if u.ier &&& 0x02 ≠ 0 then 0x02
  else 0x01

def uartRegRead (offset : Word) (c : Console) : Byte × Console :=
  let u := c.uart16550
  let dlab := u.lcr &&& 0x80 ≠ 0
  if dlab ∧ offset = 0 then (u.dll, c)
  else if dlab ∧ offset = 1 then (u.dlm, c)
  else if offset = 0 then
    let (b, u) := uartRxPop u
    (b, { c with uart16550 := u }.reeval)
  else if offset = 1 then (u.ier, c)
  else if offset = 2 then (uartIir u ||| if u.fcr &&& 0x01 ≠ 0 then 0xc0 else 0x00, c)
  else if offset = 3 then (u.lcr, c)
  else if offset = 4 then (u.mcr, c)
  else if offset = 5 then (0x60 ||| if uartRxEmpty u then 0x00 else 0x01, c)
  else if offset = 6 then
    if u.mcr &&& 0x10 ≠ 0 then
      ((u.mcr &&& 0x0c) <<< 4 ||| (u.mcr &&& 0x02) <<< 3 ||| (u.mcr &&& 0x01) <<< 5, c)
    else (0xb0, c)
  else if offset = 7 then (u.scr, c)
  else (0, c)

/-- A byte for the wire, dropped when there is no room for it. -/
def uartSend (b : Byte) (c : Console) : Console :=
  if 0 < c.uart0.txRoom then
    { c with uart0 :=
        { c.uart0 with txRoom := c.uart0.txRoom - 1, txFifo := c.uart0.txFifo ++ [b] } }
  else { c with uart16550 := { c.uart16550 with txDropped := c.uart16550.txDropped + 1 } }

def uartRegWrite (offset : Word) (value : Byte) (c : Console) : Console :=
  let u := c.uart16550
  let dlab := u.lcr &&& 0x80 ≠ 0
  if dlab ∧ offset = 0 then { c with uart16550 := { u with dll := value } }
  else if dlab ∧ offset = 1 then { c with uart16550 := { u with dlm := value } }
  else if offset = 0 then
    -- loopback goes back to the receive ring
    (if u.mcr &&& 0x10 ≠ 0 then { c with uart16550 := uartRxPush value u }
      else uartSend value c).reeval
  else if offset = 1 then { c with uart16550 := { u with ier := value } }.reeval
  else if offset = 2 then { c with uart16550 := { u with fcr := value } }
  else if offset = 3 then { c with uart16550 := { u with lcr := value } }
  else if offset = 4 then { c with uart16550 := { u with mcr := value } }
  else if offset = 7 then { c with uart16550 := { u with scr := value } }
  else c

/-- `width` registers from `offset` on, a byte each. -/
def uartRead (offset : Word) (width : Nat) (c : Console) : Word × Console :=
  (List.range width).foldl (fun vc i =>
    let (b, c) := uartRegRead (offset + BitVec.ofNat 32 i) vc.2
    (vc.1 ||| b.setWidth 32 <<< (8 * i), c)) (0, c)

def uartWrite (offset value : Word) (width : Nat) (c : Console) : Console :=
  (List.range width).foldl (fun c i =>
    uartRegWrite (offset + BitVec.ofNat 32 i) ((value >>> (8 * i)).setWidth 8) c) c

theorem uartRead_console (offset : Word) (width : Nat) (c : Console) :
    (uartRead offset width c).2 =
      (List.range width).foldl (fun c i => (uartRegRead (offset + BitVec.ofNat 32 i) c).2) c := by
  unfold uartRead
  generalize List.range width = is
  generalize (0 : Word) = v
  induction is generalizing v c with
  | nil => rfl
  | cons i is ih =>
      rw [List.foldl_cons, List.foldl_cons]
      exact ih _ _

/-- A load keeps what the read of each register keeps. -/
theorem uartRead_keeps {I : Console → Prop} (hreg : ∀ offset c, I c → I (uartRegRead offset c).2)
    {c : Console} (h : I c) (offset : Word) (width : Nat) : I (uartRead offset width c).2 := by
  rw [uartRead_console]
  exact List.foldlRecOn _ _ h fun c hc _ _ => hreg _ c hc

theorem uartWrite_keeps {I : Console → Prop}
    (hreg : ∀ offset value c, I c → I (uartRegWrite offset value c)) {c : Console} (h : I c)
    (offset value : Word) (width : Nat) : I (uartWrite offset value width c) :=
  List.foldlRecOn _ _ h fun c hc _ _ => hreg _ _ c hc

theorem isPending_v16550Reeval {m : Nat} (hm : m < 32) (u : Uart16550) (p : Plic) :
    (v16550Reeval u p).isPending m = if m = plicUartSource then uartLine u else p.isPending m :=
  isPending_plicSetPending hm _

theorem inService_v16550Reeval {m : Nat} (u : Uart16550) (p : Plic) :
    (v16550Reeval u p).inService m = p.inService m :=
  inService_plicSetPending _

/-! ## Which registers reach the ring -/

/-- RBR and THR, which the divisor latch hides. -/
def AtRing (offset : Word) (u : Uart16550) : Prop := u.lcr &&& 0x80 = 0 ∧ offset = 0

instance (offset : Word) (u : Uart16550) : Decidable (AtRing offset u) :=
  inferInstanceAs (Decidable (_ ∧ _))

section Register

variable {offset : Word} {c : Console}

theorem uartRegRead_rbr (h : AtRing offset c.uart16550) : uartRegRead offset c =
    ((uartRxPop c.uart16550).1,
      Console.reeval { c with uart16550 := (uartRxPop c.uart16550).2 }) := by
  obtain ⟨hd, rfl⟩ := h
  unfold uartRegRead
  rw [if_neg (fun h => h.1 hd), if_neg (fun h => h.1 hd), if_pos rfl]

/-- No other register changes when it is read. -/
theorem uartRegRead_other (h : ¬ AtRing offset c.uart16550) : (uartRegRead offset c).2 = c := by
  unfold uartRegRead
  by_cases h0 : offset = 0
  · rw [if_pos ⟨fun hd => h ⟨hd, h0⟩, h0⟩]
  · simp only [if_neg h0, apply_ite Prod.snd, ite_self]

theorem uartRegWrite_thr (h : AtRing offset c.uart16550) (value : Byte) :
    uartRegWrite offset value c = Console.reeval
      (if c.uart16550.mcr &&& 0x10 ≠ 0 then
        { c with uart16550 := uartRxPush value c.uart16550 }
      else uartSend value c) := by
  obtain ⟨hd, rfl⟩ := h
  unfold uartRegWrite
  rw [if_neg (fun h => h.1 hd), if_neg (fun h => h.1 hd), if_pos rfl]

end Register

/-- A write to the PLIC completes the source `value`. -/
def Completes (offset value : Word) (p : Plic) : Prop :=
  offset = 0x200004 ∧ value.toNat ≠ 0 ∧ value.toNat ≤ plicMaxSource ∧
    p.inService value.toNat = true

theorem completes_iff {value : Word} {p : Plic} : Completes 0x200004 value p ↔
    value.toNat ≠ 0 ∧ value.toNat ≤ plicMaxSource ∧ p.claimed &&& bit value.toNat ≠ 0 := by
  unfold Completes
  simp only [true_and]
  refine and_congr_right fun _ => and_congr_right fun hle => ?_
  have hlt : value.toNat < 32 := by
    unfold plicMaxSource at hle
    omega
  rw [Ne, and_bit_eq_zero hlt, Bool.not_eq_false]
  rfl

/-- Completing a source ends its service, and recomputes the pending bit of the
UART alone. -/
theorem plicWrite_complete {u : Uart16550} {offset value : Word} {p : Plic}
    (h : Completes offset value p) : plicWrite (v16550Reeval u) offset value p =
      if value.toNat = plicUartSource then
        v16550Reeval u { p with claimed := p.claimed &&& ~~~bit value.toNat }
      else { p with claimed := p.claimed &&& ~~~bit value.toNat } := by
  obtain rfl : offset = 0x200004 := h.1
  show plicComplete (v16550Reeval u) value p = _
  rw [plicComplete, if_pos (completes_iff.mp h)]

/-- Any other write leaves the pending and in-service bits alone. -/
theorem plicWrite_other {u : Uart16550} {offset value : Word} {p : Plic}
    (h : ¬ Completes offset value p) :
    (plicWrite (v16550Reeval u) offset value p).pending = p.pending ∧
      (plicWrite (v16550Reeval u) offset value p).claimed = p.claimed := by
  by_cases ho : offset = 0x200004
  · subst ho
    have he : plicWrite (v16550Reeval u) 0x200004 value p = p := by
      show plicComplete (v16550Reeval u) value p = p
      rw [plicComplete, if_neg fun hc => h (completes_iff.mpr hc)]
    rw [he]
    exact ⟨rfl, rfl⟩
  · unfold plicWrite
    simp only [if_neg ho]
    split
    · split <;> exact ⟨rfl, rfl⟩
    · split
      · split <;> exact ⟨rfl, rfl⟩
      · split
        · split <;> exact ⟨rfl, rfl⟩
        · exact ⟨rfl, rfl⟩

end P4Hyp
