import P4Hyp.Lib.Memory

/-!
# The microSD card

`hyp_sd_read` and `hyp_sd_write` pass one call each to ESP-IDF's SD driver.  The
driver is not part of the monitor: `accepts k write sector count` stands for
whether its `k`-th call comes back `ESP_OK`, so a run meets any pattern of
successes and failures.  A call that does moves exactly the sectors it names.
-/

namespace P4Hyp

def hypBlkSectorSize : Nat := 512

structure Sd where
  sReady : Bool
  capacity : Word
  sectors : Nat → Fin hypBlkSectorSize → Byte
  /-- Driver calls made so far. -/
  calls : Nat
  accepts : Nat → Bool → Word → Word → Bool

namespace Sd

def hypSdReady (sd : Sd) : Bool := sd.sReady

def hypSdSectorCount (sd : Sd) : Word := if sd.sReady then sd.capacity else 0

/-- Whether call `k` of `hyp_sd_read` or `hyp_sd_write` succeeds. -/
def grants (sd : Sd) (k : Nat) (write : Bool) (sector count : Word) : Bool :=
  sd.sReady && sd.accepts k write sector count

/-- The card's bytes from the start of `sector` on. -/
def bytesFrom (sd : Sd) (sector : Nat) (i : Nat) : Byte :=
  sd.sectors (sector + i / hypBlkSectorSize) ⟨i % hypBlkSectorSize, Nat.mod_lt _ (by decide)⟩

/-- The card's contents with `count` sectors from `sector` on replaced by
`src`. -/
def putSectors (c : Nat → Fin hypBlkSectorSize → Byte) (sector count : Nat) (src : Nat → Byte) :
    Nat → Fin hypBlkSectorSize → Byte :=
  fun s o =>
    if sector ≤ s ∧ s < sector + count then src ((s - sector) * hypBlkSectorSize + o.val) else c s o

def hypSdRead (sector count : Word) (dst : Nat → Byte) (sd : Sd) : Bool × (Nat → Byte) × Sd :=
  if !sd.sReady then (false, dst, sd)
  else
    let called := { sd with calls := sd.calls + 1 }
    if sd.accepts sd.calls false sector count then
      (true,
        fun i => if i < count.toNat * hypBlkSectorSize then sd.bytesFrom sector.toNat i else dst i,
        called)
    else (false, dst, called)

def hypSdWrite (sector count : Word) (src : Nat → Byte) (sd : Sd) : Bool × Sd :=
  if !sd.sReady then (false, sd)
  else
    let called := { sd with calls := sd.calls + 1 }
    if sd.accepts sd.calls true sector count then
      (true, { called with sectors := putSectors sd.sectors sector.toNat count.toNat src })
    else (false, called)

/-- The card never accepts a call that goes past its end. -/
def Bounded (sd : Sd) : Prop :=
  ∀ k write sector count, sd.accepts k write sector count = true →
    sector.toNat + count.toNat ≤ sd.capacity.toNat

theorem Bounded.congr {sd sd' : Sd} (h : sd.Bounded) (ha : sd'.accepts = sd.accepts)
    (hc : sd'.capacity = sd.capacity) : sd'.Bounded := by
  intro k write sector count hok
  rw [ha] at hok
  rw [hc]
  exact h k write sector count hok

theorem Bounded.of_grants {sd : Sd} (h : sd.Bounded) {k : Nat} {write : Bool} {sector count : Word}
    (hg : sd.grants k write sector count = true) :
    sector.toNat + count.toNat ≤ sd.capacity.toNat := by
  simp only [grants, Bool.and_eq_true] at hg
  exact h k write sector count hg.2

/-! ## Runs of sectors -/

theorem bytesFrom_add (sd : Sd) (sector n i : Nat) :
    sd.bytesFrom (sector + n) i = sd.bytesFrom sector (n * hypBlkSectorSize + i) := by
  have hd : (n * hypBlkSectorSize + i) / hypBlkSectorSize = n + i / hypBlkSectorSize := by
    unfold hypBlkSectorSize
    omega
  have hm : (n * hypBlkSectorSize + i) % hypBlkSectorSize = i % hypBlkSectorSize := by
    unfold hypBlkSectorSize
    omega
  unfold bytesFrom
  simp only [hd, hm, Nat.add_assoc]

theorem bytesFrom_congr {sd sd' : Sd} (h : sd'.sectors = sd.sectors) (sector : Nat) :
    sd'.bytesFrom sector = sd.bytesFrom sector := by
  funext i
  simp only [bytesFrom, h]

theorem putSectors_zero (c : Nat → Fin hypBlkSectorSize → Byte) (sector : Nat) (f : Nat → Byte) :
    putSectors c sector 0 f = c := by
  funext s o
  exact if_neg (by omega)

theorem putSectors_outside {c : Nat → Fin hypBlkSectorSize → Byte} {sector count s : Nat}
    {f : Nat → Byte} (h : ¬ (sector ≤ s ∧ s < sector + count)) :
    putSectors c sector count f s = c s := by
  funext o
  exact if_neg h

theorem putSectors_congr {c : Nat → Fin hypBlkSectorSize → Byte} {sector count : Nat}
    {f g : Nat → Byte} (h : ∀ i < count * hypBlkSectorSize, f i = g i) :
    putSectors c sector count f = putSectors c sector count g := by
  funext s o
  unfold putSectors
  by_cases hs : sector ≤ s ∧ s < sector + count
  · rw [if_pos hs, if_pos hs]
    refine h _ ?_
    have ho := o.isLt
    unfold hypBlkSectorSize at ho ⊢
    omega
  · rw [if_neg hs, if_neg hs]

/-- Writing one run of sectors and then the one that follows it is writing both
at once. -/
theorem putSectors_next (c : Nat → Fin hypBlkSectorSize → Byte) (sector a b : Nat)
    (f g : Nat → Byte) :
    putSectors (putSectors c sector a f) (sector + a) b g =
      putSectors c sector (a + b) fun i =>
        if i < a * hypBlkSectorSize then f i else g (i - a * hypBlkSectorSize) := by
  funext s o
  have ho := o.isLt
  unfold putSectors hypBlkSectorSize at *
  by_cases h1 : sector ≤ s ∧ s < sector + a
  · rw [if_neg (by omega), if_pos h1, if_pos (by omega)]
    exact (if_pos (by omega)).symm
  · by_cases h2 : sector + a ≤ s ∧ s < sector + a + b
    · have hi : (s - (sector + a)) * 512 + o.val = (s - sector) * 512 + o.val - a * 512 := by omega
      rw [if_pos h2, if_pos (by omega), hi]
      exact (if_neg (by omega)).symm
    · rw [if_neg h2, if_neg h1, if_neg (by omega)]

/-! ## The two driver calls -/

theorem hypSdRead_ok {sector count : Word} {sd : Sd} (dst : Nat → Byte)
    (h : sd.grants sd.calls false sector count = true) :
    hypSdRead sector count dst sd =
      (true,
        fun i => if i < count.toNat * hypBlkSectorSize then sd.bytesFrom sector.toNat i else dst i,
        { sd with calls := sd.calls + 1 }) := by
  simp only [grants, Bool.and_eq_true] at h
  simp [hypSdRead, h.1, h.2]

theorem hypSdRead_fail {sector count : Word} {sd : Sd} (dst : Nat → Byte)
    (h : sd.grants sd.calls false sector count = false) :
    ∃ k, hypSdRead sector count dst sd = (false, dst, { sd with calls := k }) := by
  by_cases hr : sd.sReady = true
  · simp only [grants, hr, Bool.true_and] at h
    exact ⟨sd.calls + 1, by simp [hypSdRead, hr, h]⟩
  · refine ⟨sd.calls, ?_⟩
    unfold hypSdRead
    rw [if_pos (by simpa using hr)]

theorem hypSdWrite_ok {sector count : Word} {sd : Sd} (src : Nat → Byte)
    (h : sd.grants sd.calls true sector count = true) :
    hypSdWrite sector count src sd =
      (true, { sd with
        calls := sd.calls + 1,
        sectors := putSectors sd.sectors sector.toNat count.toNat src }) := by
  simp only [grants, Bool.and_eq_true] at h
  simp [hypSdWrite, h.1, h.2]

theorem hypSdWrite_fail {sector count : Word} {sd : Sd} (src : Nat → Byte)
    (h : sd.grants sd.calls true sector count = false) :
    ∃ k, hypSdWrite sector count src sd = (false, { sd with calls := k }) := by
  by_cases hr : sd.sReady = true
  · simp only [grants, hr, Bool.true_and] at h
    exact ⟨sd.calls + 1, by simp [hypSdWrite, hr, h]⟩
  · refine ⟨sd.calls, ?_⟩
    unfold hypSdWrite
    rw [if_pos (by simpa using hr)]

end Sd

end P4Hyp
