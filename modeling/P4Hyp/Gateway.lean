import P4Hyp.Lib.Run
import P4Hyp.Uart

/-!
# The gateways of the PLIC

The devices raise and lower their lines and the guest claims and completes, in any
order.  A source is handed out once for each complete, and one that is raised
while it is in service stays pending.
-/

namespace P4Hyp

/-- The PLIC, and the UART that `plic_write` asks for its line. -/
structure Gateway where
  plic : Plic
  uart : Uart16550

inductive GatewayEvent
  /-- `plic_set_pending`. -/
  | line (source : Nat) (asserted : Bool)
  /-- The UART changes; whether it sets its line is an event of its own. -/
  | uart (u : Uart16550)
  /-- The guest reads a register; the claim is one of them. -/
  | read (offset : Word)
  | write (offset value : Word)

def gatewayFire (g : Gateway) : GatewayEvent → Option Gateway
  | .line source asserted =>
      if 1 ≤ source ∧ source ≤ plicMaxSource then
        some { g with plic := plicSetPending source asserted g.plic }
      else none
  | .uart u => some { g with uart := u }
  | .read offset => some { g with plic := (plicRead offset g.plic).2 }
  | .write offset value =>
    some { g with plic := plicWrite (v16550Reeval g.uart) offset value g.plic }

/-- A claim that returns the source `n`. -/
def Claims (n : Nat) (g : Gateway) (e : GatewayEvent) : Prop :=
  e = .read 0x200004 ∧ (plicRead 0x200004 g.plic).1.toNat = n

/-- A complete of the source `n`, which is in service. -/
def CompletesSource (n : Nat) (g : Gateway) : GatewayEvent → Prop
  | .write offset value => Completes offset value g.plic ∧ value.toNat = n
  | _ => False

theorem plicRead_claim (p : Plic) : (plicRead 0x200004 p).1.toNat = plicPeek p := by
  have hlt : plicPeek p < 2 ^ 32 := by
    rcases plicPeek_claimable p with h | ⟨-, hle, -⟩
    · omega
    · unfold plicMaxSource at hle
      omega
  show (BitVec.ofNat 32 (plicPeek p)).toNat = _
  rw [BitVec.toNat_ofNat]
  exact Nat.mod_eq_of_lt hlt

theorem Claims.claimable {n : Nat} {g : Gateway} {e : GatewayEvent} (h : Claims n g e)
    (hn : n ≠ 0) : n < 32 ∧ g.plic.inService n = false := by
  obtain ⟨-, hret⟩ := h
  rw [plicRead_claim] at hret
  rcases plicPeek_claimable g.plic with h0 | ⟨-, hle, -, -, hc, -⟩
  · exact absurd (hret.symm.trans h0) hn
  · rw [hret] at hle hc
    have hlt : n < 32 := Nat.lt_succ_of_le hle
    exact ⟨hlt, (and_bit_eq_zero hlt).mp hc⟩

section Step

variable {n : Nat} {g g' : Gateway} {e : GatewayEvent}

theorem gatewayFire_line {asserted : Bool} (hf : gatewayFire g (.line n asserted) = some g') :
    (1 ≤ n ∧ n ≤ plicMaxSource) ∧ g' = { g with plic := plicSetPending n asserted g.plic } := by
  simp only [gatewayFire] at hf
  split at hf
  · exact ⟨‹_›, (Option.some.inj hf).symm⟩
  · cases hf

theorem Claims.inService (h : Claims n g e) (hn : n ≠ 0) (hf : gatewayFire g e = some g') :
    g'.plic.inService n = true := by
  obtain ⟨hlt, -⟩ := h.claimable hn
  obtain ⟨rfl, hret⟩ := h
  obtain rfl := Option.some.inj hf
  rw [plicRead_claim] at hret
  show (plicRead 0x200004 g.plic).2.inService n = true
  rcases plicRead_cases 0x200004 g.plic with he | ⟨-, -, he⟩
  · -- a claim that changes nothing returns 0
    have hzero : plicPeek g.plic ≠ 0 := by
      rw [hret]
      exact hn
    have hset : (plicRead 0x200004 g.plic).2 =
        { g.plic with pending := g.plic.pending &&& ~~~bit (plicPeek g.plic),
                      claimed := g.plic.claimed ||| bit (plicPeek g.plic) } := by
      simp [plicRead, hzero]
    rw [hset, hret]
    show (g.plic.claimed ||| bit n).getLsbD n = true
    rw [getLsbD_or_bit hlt, decide_eq_true rfl, Bool.or_true]
  · rw [he, hret]
    show (g.plic.claimed ||| bit n).getLsbD n = true
    rw [getLsbD_or_bit hlt, decide_eq_true rfl, Bool.or_true]

theorem inService_plicRead (hlt : n < 32) (offset : Word) {p : Plic} (hs : p.inService n = true) :
    (plicRead offset p).2.inService n = true := by
  rcases plicRead_cases offset p with he | ⟨-, -, he⟩
  · rw [he]
    exact hs
  · rw [he]
    show (p.claimed ||| bit _).getLsbD n = true
    rw [getLsbD_or_bit hlt, show p.claimed.getLsbD n = true from hs, Bool.true_or]

theorem inService_plicWrite {u : Uart16550} {offset value : Word} {p : Plic} (hlt : n < 32)
    (hs : p.inService n = true) (hc : ¬ (Completes offset value p ∧ value.toNat = n)) :
    (plicWrite (v16550Reeval u) offset value p).inService n = true := by
  by_cases h : Completes offset value p
  · have hne : n ≠ value.toNat := fun he => hc ⟨h, he.symm⟩
    have hkept : (p.claimed &&& ~~~bit value.toNat).getLsbD n = true := by
      rw [getLsbD_and_not_bit hlt, show p.claimed.getLsbD n = true from hs, decide_eq_false hne]
      rfl
    rw [plicWrite_complete h]
    split
    · rw [inService_v16550Reeval]
      exact hkept
    · exact hkept
  · rw [Plic.inService, (plicWrite_other h).2]
    exact hs

/-- Only its own complete ends a source's service. -/
theorem inService_step (hlt : n < 32) (hs : g.plic.inService n = true)
    (hc : ¬ CompletesSource n g e) (hf : gatewayFire g e = some g') :
    g'.plic.inService n = true := by
  cases e with
  | line source asserted =>
      obtain ⟨-, rfl⟩ := gatewayFire_line hf
      rw [inService_plicSetPending]
      exact hs
  | uart u =>
      obtain rfl := Option.some.inj hf
      exact hs
  | read offset =>
      obtain rfl := Option.some.inj hf
      exact inService_plicRead hlt offset hs
  | write offset value =>
      obtain rfl := Option.some.inj hf
      exact inService_plicWrite hlt hs hc

/-- A claim takes a source that is not in service. -/
theorem isPending_plicRead (hlt : n < 32) (offset : Word) {p : Plic} (hs : p.inService n = true)
    (hp : p.isPending n = true) : (plicRead offset p).2.isPending n = true := by
  rcases plicRead_cases offset p with he | ⟨-, hne, he⟩
  · rw [he]
    exact hp
  · rw [he]
    show (p.pending &&& ~~~bit (plicPeek p)).getLsbD n = true
    have hn : n ≠ plicPeek p := by
      rintro rfl
      obtain ⟨-, -, -, -, hc, -⟩ := (plicPeek_claimable p).resolve_left hne
      rw [Plic.inService, (and_bit_eq_zero hlt).mp hc] at hs
      cases hs
    rw [getLsbD_and_not_bit hlt, show p.pending.getLsbD n = true from hp, decide_eq_false hn]
    rfl

theorem isPending_plicWrite {u : Uart16550} {offset value : Word} {p : Plic} (hlt : n < 32)
    (hp : p.isPending n = true)
    (hu : Completes offset value p → value.toNat = n → n = plicUartSource → uartLine u = true) :
    (plicWrite (v16550Reeval u) offset value p).isPending n = true := by
  by_cases h : Completes offset value p
  · rw [plicWrite_complete h]
    split
    · rename_i hv
      rw [isPending_v16550Reeval hlt]
      split
      · rename_i hn
        exact hu h (hv.trans hn.symm) hn
      · exact hp
    · exact hp
  · rw [Plic.isPending, (plicWrite_other h).1]
    exact hp

/-- The pending bit of a source in service falls only when its device lowers the
line, or when the UART's is recomputed on the complete. -/
theorem isPending_step (hlt : n < 32) (hs : g.plic.inService n = true)
    (hp : g.plic.isPending n = true) (hd : e ≠ .line n false)
    (hu : CompletesSource n g e → n = plicUartSource → uartLine g.uart = true)
    (hf : gatewayFire g e = some g') : g'.plic.isPending n = true := by
  cases e with
  | line source asserted =>
      obtain ⟨-, rfl⟩ := gatewayFire_line hf
      show (plicSetPending source asserted g.plic).isPending n = true
      rw [isPending_plicSetPending hlt]
      split
      · rename_i he
        cases asserted with
        | false => exact absurd (he ▸ rfl) hd
        | true => rfl
      · exact hp
  | uart u =>
      obtain rfl := Option.some.inj hf
      exact hp
  | read offset =>
      obtain rfl := Option.some.inj hf
      exact isPending_plicRead hlt offset hs hp
  | write offset value =>
      obtain rfl := Option.some.inj hf
      exact isPending_plicWrite hlt hp fun h hv hn => hu ⟨h, hv⟩ hn

/-- A write to the complete register that names no source in service. -/
theorem fire_spurious {value : Word} (h : ¬ Completes 0x200004 value g.plic) :
    gatewayFire g (.write 0x200004 value) = some g := by
  have he : plicWrite (v16550Reeval g.uart) 0x200004 value g.plic = g.plic := by
    show plicComplete (v16550Reeval g.uart) value g.plic = g.plic
    rw [plicComplete, if_neg fun hc => h (completes_iff.mpr hc)]
  show some { g with plic := _ } = some g
  rw [he]

end Step

/-! ## Whole runs -/

section Runs

variable {n : Nat} {g₀ g : Gateway} {h : List (Gateway × GatewayEvent)}

/-- A source stays in service until its complete. -/
theorem inService_run (hrun : Run gatewayFire g₀ h g) (hlt : n < 32)
    (hs : g₀.plic.inService n = true) (hc : Run.Meets (fun g e => ¬ CompletesSource n g e) h) :
    g.plic.inService n = true := by
  apply Run.stateInvariant _ (fun g => g.plic.inService n = true) hs ?_ hrun hc
  intro s e s' hI hno hf
  exact inService_step hlt hI hno hf

/-- So does its pending bit, while the device leaves the line up. -/
theorem isPending_run (hrun : Run gatewayFire g₀ h g) (hlt : n < 32)
    (hs : g₀.plic.inService n = true) (hp : g₀.plic.isPending n = true)
    (hc : Run.Meets (fun g e => ¬ CompletesSource n g e ∧ e ≠ .line n false) h) :
    g.plic.inService n = true ∧ g.plic.isPending n = true := by
  apply Run.stateInvariant _ (fun g => g.plic.inService n = true ∧ g.plic.isPending n = true)
    ⟨hs, hp⟩ ?_ hrun hc
  rintro s e s' ⟨hI, hpend⟩ ⟨hno, hline⟩ hf
  exact ⟨inService_step hlt hI hno hf,
    isPending_step hlt hI hpend hline (fun hcs _ => absurd hcs hno) hf⟩

end Runs

/-- What the gateways owe over the run `h`. -/
structure GatewayOk (h : List (Gateway × GatewayEvent)) : Prop where
  /-- Between two claims of a source there is a complete of it. -/
  exclusive : ∀ h₁ h₂ h₃ p₁ p₂ n, h = h₁ ++ p₁ :: (h₂ ++ p₂ :: h₃) → n ≠ 0 → Claims n p₁.1 p₁.2 →
    Claims n p₂.1 p₂.2 → ∃ p ∈ h₂, CompletesSource n p.1 p.2
  /-- Completing what is not in service changes nothing. -/
  spurious : ∀ p ∈ h, ∀ value, p.2 = .write 0x200004 value →
    ¬ (1 ≤ value.toNat ∧ value.toNat ≤ plicMaxSource ∧ p.1.plic.inService value.toNat = true) →
      gatewayFire p.1 p.2 = some p.1
  /-- A source raised in service is pending after the complete, unless its device
  has lowered it or, for the UART, its line is down by then. -/
  kept : ∀ h₁ h₂ h₃ g₁ g₂ e₂ n g', h = h₁ ++ (g₁, .line n true) :: (h₂ ++ (g₂, e₂) :: h₃) →
    g₁.plic.inService n = true →
    Run.Meets (fun g e => ¬ CompletesSource n g e ∧ e ≠ .line n false) h₂ →
    CompletesSource n g₂ e₂ → (n = plicUartSource → uartLine g₂.uart = true) →
    gatewayFire g₂ e₂ = some g' → g'.plic.isPending n = true

/-- The part of a run between two of its steps. -/
theorem run_between {g₀ g : Gateway} {h₁ h₂ h₃ : List (Gateway × GatewayEvent)}
    {p₁ p₂ : Gateway × GatewayEvent}
    (hrun : Run gatewayFire g₀ (h₁ ++ p₁ :: (h₂ ++ p₂ :: h₃)) g) :
    ∃ g', gatewayFire p₁.1 p₁.2 = some g' ∧ Run gatewayFire g' h₂ p₂.1 := by
  obtain ⟨t, -, hrest⟩ := hrun.split
  obtain ⟨rfl, g', hfire, hrest⟩ := hrest.of_cons
  obtain ⟨t', hmid, hrest⟩ := hrest.split
  obtain ⟨rfl, -⟩ := hrest.of_cons
  exact ⟨g', hfire, hmid⟩

theorem gateway_run {g₀ g : Gateway} {h : List (Gateway × GatewayEvent)}
    (hrun : Run gatewayFire g₀ h g) : GatewayOk h where
  exclusive := by
    rintro h₁ h₂ h₃ p₁ p₂ n rfl hn hc₁ hc₂
    obtain ⟨g', hfire, hmid⟩ := run_between hrun
    by_contra hno
    have hfree : Run.Meets (fun g e => ¬ CompletesSource n g e) h₂ :=
      fun p hp hcs => hno ⟨p, hp, hcs⟩
    have hserved := inService_run hmid (hc₁.claimable hn).1 (hc₁.inService hn hfire) hfree
    rw [(hc₂.claimable hn).2] at hserved
    cases hserved
  spurious := by
    rintro ⟨g, e⟩ - value rfl hno
    apply fire_spurious
    rintro ⟨-, h0, hle, hs⟩
    exact hno ⟨Nat.one_le_iff_ne_zero.mpr h0, hle, hs⟩
  kept := by
    rintro h₁ h₂ h₃ g₁ g₂ e₂ n g' rfl hs hmeets hc hu hf
    obtain ⟨g'', hfire, hmid⟩ := run_between hrun
    obtain ⟨⟨-, hle⟩, rfl⟩ := gatewayFire_line hfire
    have hlt : n < 32 := Nat.lt_succ_of_le hle
    have hraised : (plicSetPending n true g₁.plic).isPending n = true := by
      rw [isPending_plicSetPending hlt, if_pos rfl]
    have hserved : (plicSetPending n true g₁.plic).inService n = true := by
      rw [inService_plicSetPending]
      exact hs
    obtain ⟨hs₂, hp₂⟩ := isPending_run hmid hlt hserved hraised hmeets
    exact isPending_step hlt hs₂ hp₂ (fun he => by rw [he] at hc; exact hc) (fun _ => hu) hf

/-- The disk's source, raised again while it is in service. -/
def raisedInService : List GatewayEvent :=
  [.write 0x2c 1, .write 0x2000 0x800, .line plicVirtioBlkSource true, .read 0x200004,
    .line plicVirtioBlkSource true, .write 0x200004 11, .read 0x200004]

theorem gateway_run_raised : ∃ h g, Run gatewayFire ⟨.reset, .reset⟩ h g ∧ h.length = 7 ∧
    g.plic.inService plicVirtioBlkSource = true ∧ GatewayOk h := by
  obtain ⟨h, g, hrun, hd⟩ := Run.exists_of_play gatewayFire ⟨.reset, .reset⟩ raisedInService
    (fun r => decide (r.1.length = 7 ∧ r.2.plic.inService plicVirtioBlkSource = true)) true
    (by decide +kernel)
  obtain ⟨hl, hs⟩ := of_decide_eq_true hd
  exact ⟨h, g, hrun, hl, hs, gateway_run hrun⟩

end P4Hyp
