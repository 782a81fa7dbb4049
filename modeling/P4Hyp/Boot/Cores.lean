import P4Hyp.Boot.Load
import P4Hyp.Lib.Fair
import P4Hyp.Pmp

/-!
# Both cores at boot

Core 0 stores the guest into memory byte by byte, comes up, and releases core 1, which
waits for it with nothing between them but two flags.
-/

namespace P4Hyp

/-- Where `hyp_load_guest` goes on. -/
inductive LoadStep
  | kernel
  | dtb
  | windows (ws : List GuestWindow)
  | cmdline
  /-- Behind the `memset` of `patch_guest_cmdline`. -/
  | replacement (a : Word)
  | loaded (b : Bool)

inductive LoaderPc
  | load (next : LoadStep)
  /-- About to store byte `i` of `n`. -/
  | storing (a n : Word) (f : Nat → Byte) (i : Nat) (lines : List String) (next : LoadStep)
  /-- In `main_task`, waiting for both cores. -/
  | waiting
  | appMain
  /-- About to set `guest_image_ready`. -/
  | release
  | service
  | returned

inductive GuestCorePc
  /-- On its way to `__wrap_xPortStartScheduler`. -/
  | startup
  /-- Reading `guest_image_ready`. -/
  | spinning
  | pmp
  /-- Stopped for good by a PMP that did not take. -/
  | parked
  | interrupts
  | start
  /-- In `linux_start`. -/
  | launch
  | guest (pc a0 a1 : Word)
  deriving DecidableEq

inductive HostCore
  | core0
  | core1
  deriving DecidableEq

structure Bringup where
  load : Loading
  loader : LoaderPc
  core1 : GuestCorePc
  /-- `port_uxCoreStartupDone[1]` -/
  coreStartupDone : Bool
  guestLoaded : Bool
  guestImageReady : Bool
  linuxRunning : Bool
  pmp : Pmp
  /-- What both cores print behind the loading. -/
  lines : List String

/-- What the boot meets: the flash, the macro that writes a PMP entry, and the results of
`hyp_sd_init` and `hyp_virtio_blk_init`. -/
structure BoardEnv where
  flash : PartitionTable
  set : Nat → Word → Byte → Pmp → Pmp
  sd : Bool
  blk : Bool

def pmpEntery : Nat := 5

def hypInumTimer : Nat := 20
def hypInumUart : Nat := 21

/-- `esp_err_to_name`. -/
def EspErr.name : EspErr → String
  | ok => "ESP_OK"
  | fail => "ESP_FAIL"
  | invalidArg => "ESP_ERR_INVALID_ARG"
  | invalidState => "ESP_ERR_INVALID_STATE"

namespace Bringup

def print (s : Bringup) (line : String) : Bringup := { s with lines := s.lines ++ [line] }

def reset (m : Mem) (p : Pmp) : Bringup :=
  ⟨⟨m, []⟩, .load .kernel, .startup, false, false, false, false, p, []⟩

/-- Where `patch_dtb_window` finds its placeholder. -/
def dtbPlace (needle : Vector Byte 8) (m : Mem) : Option Nat :=
  if dtbTotal m < 8 ∨ dtbTotal m > 0x00100000 then none
  else m.search dtbAddress needle.toList ((dtbTotal m).toNat - 7)

/-- A round of the loop over `guest_windows`. -/
def windowStep (t : PartitionTable) (w : GuestWindow) (ws : List GuestWindow) (l : Loading) :
    LoaderPc × Loading :=
  match windowMapFromFlash t w l with
  | (.error e, l) =>
      (.load (.windows ws), l.print
        ("W: " ++ w.label ++ ": " ++ e.name ++ " (no " ++ w.mountpoint ++ " mount)\n"))
  | (.ok (va, span), l) =>
      match dtbPlace w.placeholder l.mem with
      | none =>
          (.load (.loaded false), l.print ("E: " ++ w.label ++ " mapped at 0x" ++ hex08 va ++
            " but its DTB placeholder was not found -- guest would read the wrong address\n"))
      | some i =>
          (.storing (dtbAddress + BitVec.ofNat 32 i) 8 (fun j => (be32 va ++ be32 span).getD j 0) 0
            ["I: " ++ w.label ++ " XIP from flash at 0x" ++ hex08 va ++ " (" ++ kilobytes span ++
              ") -> " ++ w.mountpoint ++ "\n"] (.windows ws), l)

/-- `patch_guest_cmdline` up to its `memset`. -/
def cmdlineStep (span : Word) (l : Loading) : LoaderPc × Loading :=
  match l.mem.search linuxBaseAddress cmdlineNeedle (span.toNat - cmdlineNeedle.length) with
  | none => (.load (.loaded true), l.print "I: Guest command line left as built\n")
  | some i =>
      let a := linuxBaseAddress + BitVec.ofNat 32 i
      match l.mem.strlen a with
      -- `strlen` does not come back
      | none => (.load .cmdline, l)
      | some original =>
          if cmdlineReplacement.length > original then
            (.load (.loaded true), l.print "I: Guest command line left as built\n")
          else (.storing a (BitVec.ofNat 32 original) (fun _ => 0) 0 [] (.replacement a), l)

/-- One step of `hyp_load_guest`, up to its next store. -/
def loadStep (t : PartitionTable) (l : Loading) : LoadStep → LoaderPc × Loading
  | .kernel =>
      match partitionSource t "kernel" 0 with
      | .error e => (.load (.loaded false), l.print ("E: kernel: " ++ e.name ++ "\n"))
      | .ok (n, f) => (.storing linuxBaseAddress n f 0 ["I: Copied Linux Image to PSRAM\n"] .dtb, l)
  | .dtb =>
      match partitionSource t "dtb" 0 with
      | .error e => (.load (.loaded false), l.print ("E: dtb: " ++ e.name ++ "\n"))
      | .ok (n, f) => (.storing dtbAddress n f 0 ["I: Copied DTB to PSRAM\n"] (.windows guestWindows), l)
  | .windows [] => (.load .cmdline, l)
  | .windows (w :: ws) => windowStep t w ws l
  | .cmdline => cmdlineStep cmdlineSpan l
  | .replacement a =>
      (.storing a (BitVec.ofNat 32 cmdlineReplacement.length) (fun j => cmdlineReplacement.getD j 0) 0
        ["I: Patched guest command line\n"] (.loaded true), l)
  | .loaded _ => (.waiting, l)

/-- `hyp_sd_init` and `hyp_virtio_blk_init`, as `app_main` calls them. -/
def devices (env : BoardEnv) (s : Bringup) : Bringup :=
  if !env.sd then s.print "W: sd: no card; the guest gets no block device\n"
  else if !env.blk then s.print "W: virtio-blk: not offered to the guest\n"
  else s

/-- The state with the loading gone on. -/
def resume (s : Bringup) (r : LoaderPc × Loading) : Bringup := { s with loader := r.1, load := r.2 }

theorem devices_load (env : BoardEnv) (s : Bringup) : (devices env s).load = s.load := by
  unfold devices
  split
  · rfl
  · split <;> rfl

/-- A step of core 0. -/
def loaderStep (env : BoardEnv) (s : Bringup) : Bringup :=
  match s.loader with
  | .load (.loaded b) => { s with guestLoaded := b, loader := .waiting }
  | .load next => s.resume (loadStep env.flash s.load next)
  | .storing a n f i lines next =>
      if i < n.toNat then
        { s with
          load := { s.load with mem := s.load.mem.store8 (a + BitVec.ofNat 32 i) (f i) },
          loader := .storing a n f (i + 1) lines next }
      else { s with load := { s.load with lines := s.load.lines ++ lines }, loader := .load next }
  | .waiting => if s.coreStartupDone then { s with loader := .appMain } else s
  | .appMain =>
      if !s.guestLoaded then
        { s with loader := .returned }.print "E: guest was not loaded; core 1 stays parked\n"
      else { devices env s with loader := .release }
  | .release => { s with guestImageReady := true, loader := .service }.print
    "W: Core 0: guest released\n"
  | .service => s
  | .returned => s

/-- A step of core 1, `hyp_guest_core_entry`. -/
def guestCoreStep (env : BoardEnv) (s : Bringup) : Bringup :=
  match s.core1 with
  | .startup => { s with coreStartupDone := true, core1 := .spinning }
  | .spinning => if s.guestImageReady then { s with core1 := .pmp } else s
  | .pmp =>
      let r := pmpSetRwxRegion env.set pmpEntery linuxBaseAddress linuxSize s.pmp
      if r.1 ≠ .ok then { s with pmp := r.2, core1 := .parked }.print
        ("E: pmp: " ++ r.1.name ++ "\n")
      else { s with pmp := r.2, core1 := .interrupts }.print "I: Core 1: PMP RWX on guest window\n"
  | .parked => s
  | .interrupts =>
      { s with core1 := .start }.print
        ("I: Core 1: interrupts armed (timer=" ++ toString hypInumTimer ++
        " uart=" ++ toString hypInumUart ++ ")\n")
  | .start => { s with linuxRunning := true, core1 := .launch }.print
    "W: Starting Linux on core 1\n"
  | .launch => { s with core1 := .guest linuxBaseAddress 0 dtbAddress }
  | .guest _ _ _ => s

def step (env : BoardEnv) : HostCore → Bringup → Bringup
  | .core0 => loaderStep env
  | .core1 => guestCoreStep env

end Bringup

/-! ## What is left of the loading -/

/-- The result of `hyp_load_guest` from here on. -/
def LoadStep.finish (t : PartitionTable) : LoadStep → Loading → Option (Bool × Loading)
  | .kernel, l => hypLoadGuest t l
  | .dtb, l => loadDtb t l
  | .windows ws, l => loadWindows t ws l
  | .cmdline, l => loadCmdline l
  | .replacement a, l =>
      some (true, { l with mem := l.mem.copy a cmdlineReplacement }.print
        "I: Patched guest command line\n")
  | .loaded b, l => some (b, l)

/-- The result when the stores behind byte `i` are still to come. -/
def LoaderPc.finish (t : PartitionTable) : LoaderPc → Loading → Option (Bool × Loading)
  | .load next, l => next.finish t l
  | .storing a n f i lines next, l =>
      next.finish t ⟨l.mem.fill (a + BitVec.ofNat 32 i) (n.toNat - i) fun j => f (i + j),
        l.lines ++ lines⟩
  | _, _ => none

theorem LoaderPc.finish_start (t : PartitionTable) (a n : Word) (f : Nat → Byte)
    (lines : List String) (next : LoadStep) (l : Loading) : (LoaderPc.storing a n f 0 lines next).finish t l =
      next.finish t ⟨l.mem.fill a n.toNat f, l.lines ++ lines⟩ := by
  simp [LoaderPc.finish]

/-- A byte stored is one byte less to fill. -/
theorem fill_step (m : Mem) (a n : Word) (f : Nat → Byte) {i : Nat} (hi : i < n.toNat) :
    (m.store8 (a + BitVec.ofNat 32 i) (f i)).fill (a + BitVec.ofNat 32 (i + 1)) (n.toNat - (i + 1))
        (fun j => f (i + 1 + j)) =
      m.fill (a + BitVec.ofNat 32 i) (n.toNat - i) fun j => f (i + j) := by
  have hn := n.isLt
  have hnext : a + BitVec.ofNat 32 (i + 1) = a + BitVec.ofNat 32 i + BitVec.ofNat 32 1 := by
    rw [BitVec.ofNat_add, BitVec.add_assoc]
  rw [Mem.store8, hnext, Mem.fill_fill_next (by omega), show 1 + (n.toNat - (i + 1)) =
    n.toNat - i by omega]
  refine Mem.fill_congr fun j _ => ?_
  by_cases hj : j < 1
  · rw [if_pos hj, show j = 0 by omega]
    rfl
  · rw [if_neg hj, show i + 1 + (j - 1) = i + j by omega]

theorem patchDtbWindow_place (needle : Vector Byte 8) (va span : Word) (m : Mem) :
    patchDtbWindow needle va span m =
      match Bringup.dtbPlace needle m with
      | none => (false, m)
      | some i => (true, m.copy (dtbAddress + BitVec.ofNat 32 i) (be32 va ++ be32 span)) := by
  unfold patchDtbWindow Bringup.dtbPlace
  by_cases hsize : dtbTotal m < 8 ∨ dtbTotal m > 0x00100000
  · rw [if_pos hsize, if_pos hsize]
  · cases m.search dtbAddress needle.toList ((dtbTotal m).toNat - 7) with
    | none => simp only [if_neg hsize]
    | some i => simp only [if_neg hsize]

theorem windowStep_finish (t : PartitionTable) (w : GuestWindow) (ws : List GuestWindow)
    (l : Loading) :
    (Bringup.windowStep t w ws l).1.finish t (Bringup.windowStep t w ws l).2 =
      loadWindows t (w :: ws) l := by
  unfold Bringup.windowStep loadWindows
  cases windowMapFromFlash t w l with
  | mk r l' =>
      cases r with
      | error e => rfl
      | ok r =>
          dsimp only
          rw [patchDtbWindow_place]
          cases Bringup.dtbPlace w.placeholder l'.mem with
          | none => rfl
          | some i =>
              dsimp only
              rw [LoaderPc.finish_start]
              rfl

theorem cmdlineStep_finish (t : PartitionTable) {span : Word} (hspan : span = cmdlineSpan)
    (l : Loading) :
    (Bringup.cmdlineStep span l).1.finish t (Bringup.cmdlineStep span l).2 = loadCmdline l := by
  unfold loadCmdline
  rw [← hspan]
  unfold Bringup.cmdlineStep patchGuestCmdline
  cases hs : l.mem.search linuxBaseAddress cmdlineNeedle (span.toNat - cmdlineNeedle.length) with
  | none => rfl
  | some i =>
      dsimp only
      cases hn : l.mem.strlen (linuxBaseAddress + BitVec.ofNat 32 i) with
      | none =>
          have hnone : patchGuestCmdline span l.mem = none := by
            unfold patchGuestCmdline
            rw [hs]
            dsimp only
            rw [hn]
          show loadCmdline l = none
          rw [loadCmdline, ← hspan, hnone]
          rfl
      | some n =>
          dsimp only
          by_cases hle : cmdlineReplacement.length > n
          · rw [if_pos hle, if_pos hle]
            rfl
          · rw [if_neg hle, if_neg hle]
            dsimp only
            rw [LoaderPc.finish_start, BitVec.toNat_ofNat,
              Nat.mod_eq_of_lt (Mem.strlen_eq_some.mp hn).1]
            show some (true, Loading.print ⟨_, l.lines ++ []⟩ _) = _
            rw [List.append_nil]
            rfl

theorem loadStep_finish (t : PartitionTable) (l : Loading) {st : LoadStep}
    (hst : ∀ b, st ≠ .loaded b) :
    (Bringup.loadStep t l st).1.finish t (Bringup.loadStep t l st).2 = st.finish t l := by
  cases st with
  | kernel =>
      unfold Bringup.loadStep LoadStep.finish hypLoadGuest partitionCpToPsram
      cases partitionSource t "kernel" 0 with
      | error e => rfl
      | ok r =>
          dsimp only
          rw [LoaderPc.finish_start]
          rfl
  | dtb =>
      unfold Bringup.loadStep LoadStep.finish loadDtb partitionCpToPsram
      cases partitionSource t "dtb" 0 with
      | error e => rfl
      | ok r =>
          dsimp only
          rw [LoaderPc.finish_start]
          rfl
  | windows ws =>
      cases ws with
      | nil => rfl
      | cons w ws => exact windowStep_finish t w ws l
  | cmdline => exact cmdlineStep_finish t rfl l
  | replacement a =>
      unfold Bringup.loadStep
      rw [LoaderPc.finish_start]
      rfl
  | loaded b => exact absurd rfl (hst b)

/-! ## Every interleaving -/

/-- What is known of the result `r` of `hyp_load_guest` while core 0 is at this place. -/
def LoaderPc.Result (t : PartitionTable) (r : Option (Bool × Loading)) (loaded : Bool)
    (l : Loading) :
    LoaderPc → Prop
  | .load next => next.finish t l = r
  | .storing a n f i lines next => (LoaderPc.storing a n f i lines next).finish t l = r
  | .waiting => r = some (loaded, l)
  | .appMain => r = some (loaded, l)
  | .release => r = some (true, l)
  | .service => r = some (true, l)
  | .returned => r = some (false, l)

/-- What holds while core 1 is where it is: it waits, or the guest is complete. -/
def CoreOneOk (env : BoardEnv) (r : Option (Bool × Loading)) (p : Pmp) (s : Bringup) : Prop :=
  let set := pmpSetRwxRegion env.set pmpEntery linuxBaseAddress linuxSize p
  match s.core1 with
  | .startup => s.pmp = p ∧ s.linuxRunning = false
  | .spinning => s.pmp = p ∧ s.linuxRunning = false
  | .pmp => r = some (true, s.load) ∧ s.pmp = p ∧ s.linuxRunning = false
  | .parked => r = some (true, s.load) ∧ set.1 ≠ .ok ∧ s.linuxRunning = false
  | .interrupts => r = some (true, s.load) ∧ set = (.ok, s.pmp) ∧ s.linuxRunning = false
  | .start => r = some (true, s.load) ∧ set = (.ok, s.pmp) ∧ s.linuxRunning = false
  | .launch => r = some (true, s.load) ∧ set = (.ok, s.pmp) ∧ s.linuxRunning = true
  | .guest pc a0 a1 => r = some (true, s.load) ∧ set = (.ok, s.pmp) ∧ s.linuxRunning = true ∧
      pc = linuxBaseAddress ∧ a0 = 0 ∧ a1 = dtbAddress

/-- Core 1 is past its loop. -/
def GuestCorePc.released : GuestCorePc → Bool
  | startup => false
  | spinning => false
  | _ => true

structure BootInv (env : BoardEnv) (r : Option (Bool × Loading)) (p : Pmp) (s : Bringup) :
    Prop where
  result : s.loader.Result env.flash r s.guestLoaded s.load
  ready : s.guestImageReady = true ↔ s.loader = .service
  released : s.core1.released = true → s.guestImageReady = true
  started : s.core1 ≠ .startup → s.coreStartupDone = true
  coreOne : CoreOneOk env r p s

section Interleavings

variable {env : BoardEnv} {r : Option (Bool × Loading)} {p : Pmp} {s : Bringup}

/-- Core 1 sees nothing of core 0 before it is released. -/
theorem CoreOneOk.congr {s' : Bringup} (h : CoreOneOk env r p s) (hwait : s.core1.released = false)
    (hcore : s'.core1 = s.core1) (hpmp : s'.pmp = s.pmp) (hrun : s'.linuxRunning = s.linuxRunning) :
    CoreOneOk env r p s' := by
  unfold CoreOneOk at h ⊢
  rw [hcore, hpmp, hrun]
  cases hc : s.core1 with
  | startup => simpa [hc] using h
  | spinning => simpa [hc] using h
  | _ => simp [hc, GuestCorePc.released] at hwait

/-- Core 0 leaves core 1's registers alone. -/
theorem loaderStep_core1 (env : BoardEnv) (s : Bringup) :
    (Bringup.loaderStep env s).core1 = s.core1 ∧ (Bringup.loaderStep env s).pmp = s.pmp ∧
      (Bringup.loaderStep env s).linuxRunning = s.linuxRunning ∧
      (Bringup.loaderStep env s).coreStartupDone = s.coreStartupDone := by
  unfold Bringup.loaderStep
  split
  · exact ⟨rfl, rfl, rfl, rfl⟩
  · exact ⟨rfl, rfl, rfl, rfl⟩
  · split <;> exact ⟨rfl, rfl, rfl, rfl⟩
  · split <;> exact ⟨rfl, rfl, rfl, rfl⟩
  · split
    · exact ⟨rfl, rfl, rfl, rfl⟩
    · unfold Bringup.devices
      split
      · exact ⟨rfl, rfl, rfl, rfl⟩
      · split <;> exact ⟨rfl, rfl, rfl, rfl⟩
  · exact ⟨rfl, rfl, rfl, rfl⟩
  · exact ⟨rfl, rfl, rfl, rfl⟩
  · exact ⟨rfl, rfl, rfl, rfl⟩

/-- Core 0 is in `hyp_load_guest`. -/
def LoaderPc.loading : LoaderPc → Bool
  | load _ => true
  | storing .. => true
  | _ => false

theorem LoaderPc.result_of_loading {pc : LoaderPc} {t : PartitionTable} {b : Bool} {l : Loading}
    (hpc : pc.loading = true) (h : pc.finish t l = r) : pc.Result t r b l := by
  cases pc with
  | load next => exact h
  | storing a n f i lines next => exact h
  | _ => cases hpc

theorem cmdlineStep_loading (span : Word) (l : Loading) :
    (Bringup.cmdlineStep span l).1.loading = true := by
  unfold Bringup.cmdlineStep
  split
  · rfl
  · dsimp only
    split
    · rfl
    · split <;> rfl

theorem loadStep_loading (t : PartitionTable) (l : Loading) {st : LoadStep}
    (hst : ∀ b, st ≠ .loaded b) :
    (Bringup.loadStep t l st).1.loading = true := by
  unfold Bringup.loadStep
  split
  · split <;> rfl
  · split <;> rfl
  · rfl
  · unfold Bringup.windowStep
    split
    · rfl
    · split <;> rfl
  · exact cmdlineStep_loading cmdlineSpan l
  · rfl
  · exact absurd rfl (hst _)

theorem loaderStep_load {next : LoadStep} (hl : s.loader = .load next)
    (hne : ∀ b, next ≠ .loaded b) :
    Bringup.loaderStep env s = s.resume (Bringup.loadStep env.flash s.load next) := by
  unfold Bringup.loaderStep
  rw [hl]
  cases next with
  | loaded b => exact absurd rfl (hne b)
  | _ => rfl

theorem loaderStep_load_result {next : LoadStep} (hl : s.loader = .load next)
    (hne : ∀ b, next ≠ .loaded b) (h : next.finish env.flash s.load = r) :
    (Bringup.loaderStep env s).loader.Result env.flash r (Bringup.loaderStep env s).guestLoaded
      (Bringup.loaderStep env s).load := by
  rw [loaderStep_load hl hne, Bringup.resume]
  exact LoaderPc.result_of_loading (loadStep_loading env.flash s.load hne)
    ((loadStep_finish env.flash s.load hne).trans h)

/-- What is left of the loading stays the same, and is done in the end. -/
theorem loaderStep_result (h : s.loader.Result env.flash r s.guestLoaded s.load) :
    (Bringup.loaderStep env s).loader.Result env.flash r (Bringup.loaderStep env s).guestLoaded
      (Bringup.loaderStep env s).load := by
  cases hl : s.loader with
  | load next =>
      rw [hl] at h
      by_cases hb : ∃ b, next = .loaded b
      · obtain ⟨b, rfl⟩ := hb
        unfold Bringup.loaderStep
        rw [hl]
        exact h.symm
      · exact loaderStep_load_result hl (fun b he => hb ⟨b, he⟩) h
  | storing a n f i lines next =>
      unfold Bringup.loaderStep
      rw [hl] at h ⊢
      by_cases hi : i < n.toNat
      · simp only [if_pos hi]
        show LoaderPc.finish _ _ _ = r
        rw [← h]
        show LoadStep.finish _ _ _ = LoadStep.finish _ _ _
        rw [fill_step s.load.mem a n f hi]
      · simp only [if_neg hi]
        show LoadStep.finish _ _ _ = r
        rw [← h]
        show _ = LoadStep.finish _ _ _
        rw [Nat.sub_eq_zero_of_le (Nat.le_of_not_lt hi), Mem.fill_zero]
  | waiting =>
      unfold Bringup.loaderStep
      rw [hl] at h ⊢
      dsimp only
      split
      · exact h
      · rw [hl]
        exact h
  | appMain =>
      unfold Bringup.loaderStep
      rw [hl] at h ⊢
      dsimp only
      cases hg : s.guestLoaded with
      | false =>
          rw [hg] at h
          exact h
      | true =>
          rw [hg] at h
          rw [Bringup.devices_load]
          exact h
  | release =>
      unfold Bringup.loaderStep
      rw [hl] at h ⊢
      exact h
  | service =>
      have hsame : Bringup.loaderStep env s = s := by
        unfold Bringup.loaderStep
        rw [hl]
      rw [hsame, hl]
      rwa [hl] at h
  | returned =>
      have hsame : Bringup.loaderStep env s = s := by
        unfold Bringup.loaderStep
        rw [hl]
      rw [hsame, hl]
      rwa [hl] at h

theorem devices_ready (env : BoardEnv) (s : Bringup) :
    (Bringup.devices env s).guestImageReady = s.guestImageReady := by
  unfold Bringup.devices
  split
  · rfl
  · split <;> rfl

/-- Core 0 sets `guest_image_ready` on its way into the service loop. -/
theorem loaderStep_ready (h : s.guestImageReady = true ↔ s.loader = .service) :
    (Bringup.loaderStep env s).guestImageReady = true ↔
      (Bringup.loaderStep env s).loader = .service := by
  have hnot (hne : s.loader ≠ .service) : ¬ s.guestImageReady = true := fun hr => hne (h.mp hr)
  cases hl : s.loader with
  | load next =>
      have hno := hnot (by rw [hl]; exact LoaderPc.noConfusion)
      by_cases hb : ∃ b, next = .loaded b
      · obtain ⟨b, rfl⟩ := hb
        unfold Bringup.loaderStep
        rw [hl]
        exact iff_of_false hno LoaderPc.noConfusion
      · have hne : ∀ b, next ≠ .loaded b := fun b he => hb ⟨b, he⟩
        rw [loaderStep_load hl hne]
        refine iff_of_false hno fun hserve => ?_
        have hbusy := loadStep_loading env.flash s.load hne
        rw [show (Bringup.loadStep env.flash s.load next).1 = .service from hserve] at hbusy
        cases hbusy
  | storing a n f i lines next =>
      have hno := hnot (by rw [hl]; exact LoaderPc.noConfusion)
      unfold Bringup.loaderStep
      rw [hl]
      dsimp only
      split
      · exact iff_of_false hno LoaderPc.noConfusion
      · exact iff_of_false hno LoaderPc.noConfusion
  | waiting =>
      have hno := hnot (by rw [hl]; exact LoaderPc.noConfusion)
      unfold Bringup.loaderStep
      rw [hl]
      dsimp only
      split
      · exact iff_of_false hno LoaderPc.noConfusion
      · exact h
  | appMain =>
      have hno := hnot (by rw [hl]; exact LoaderPc.noConfusion)
      unfold Bringup.loaderStep
      rw [hl]
      dsimp only
      split
      · exact iff_of_false hno LoaderPc.noConfusion
      · refine iff_of_false ?_ LoaderPc.noConfusion
        rw [← devices_ready env s] at hno
        exact hno
  | release =>
      unfold Bringup.loaderStep
      rw [hl]
      exact iff_of_true rfl rfl
  | service =>
      unfold Bringup.loaderStep
      rw [hl]
      exact h
  | returned =>
      unfold Bringup.loaderStep
      rw [hl]
      exact h

theorem loaderStep_inv (hi : BootInv env r p s) : BootInv env r p (Bringup.loaderStep env s) := by
  by_cases hserve : s.loader = .service
  · have hsame : Bringup.loaderStep env s = s := by
      unfold Bringup.loaderStep
      rw [hserve]
    rw [hsame]
    exact hi
  · obtain ⟨hcore, hpmp, hrun, hdone⟩ := loaderStep_core1 env s
    have hwait : s.core1.released = false := by
      rw [← Bool.not_eq_true]
      exact fun h => hserve (hi.ready.mp (hi.released h))
    refine ⟨loaderStep_result hi.result, loaderStep_ready hi.ready, fun h => ?_, fun h => ?_,
      hi.coreOne.congr hwait hcore hpmp hrun⟩
    · rw [hcore, hwait] at h
      cases h
    · rw [hcore] at h
      rw [hdone]
      exact hi.started h

theorem guestCoreStep_inv (hi : BootInv env r p s) :
    BootInv env r p (Bringup.guestCoreStep env s) := by
  obtain ⟨hresult, hready, hreleased, hstarted, hok⟩ := hi
  unfold CoreOneOk at hok
  unfold Bringup.guestCoreStep
  cases hc : s.core1 with
  | startup =>
      rw [hc] at hok
      exact ⟨hresult, hready, fun h => Bool.noConfusion h, fun _ => rfl, hok⟩
  | spinning =>
      rw [hc] at hok hstarted
      have hdone := hstarted GuestCorePc.noConfusion
      dsimp only
      split
      · rename_i hr
        have hloaded : s.loader.Result env.flash r s.guestLoaded s.load := hresult
        rw [hready.mp hr] at hloaded
        exact ⟨hresult, hready, fun _ => hr, fun _ => hdone, hloaded, hok⟩
      · refine ⟨hresult, hready, hreleased, fun _ => hdone, ?_⟩
        unfold CoreOneOk
        rw [hc]
        exact hok
  | pmp =>
      rw [hc] at hok hreleased hstarted
      have hdone := hstarted GuestCorePc.noConfusion
      obtain ⟨hr, rfl, hrun⟩ := hok
      dsimp only
      split
      · rename_i hne
        exact ⟨hresult, hready, hreleased, fun _ => hdone, hr, hne, hrun⟩
      · rename_i hne
        exact ⟨hresult, hready, hreleased, fun _ => hdone, hr, Prod.ext (not_not.mp hne) rfl, hrun⟩
  | parked =>
      exact ⟨hresult, hready, hreleased, hstarted, by unfold CoreOneOk; rw [hc] at hok ⊢; exact hok⟩
  | interrupts =>
      rw [hc] at hok hreleased hstarted
      exact ⟨hresult, hready, hreleased, fun _ => hstarted GuestCorePc.noConfusion, hok⟩
  | start =>
      rw [hc] at hok hreleased hstarted
      exact ⟨hresult, hready, hreleased, fun _ => hstarted GuestCorePc.noConfusion, hok.1,
        hok.2.1, rfl⟩
  | launch =>
      rw [hc] at hok hreleased hstarted
      exact ⟨hresult, hready, hreleased, fun _ => hstarted GuestCorePc.noConfusion, hok.1,
        hok.2.1, hok.2.2, rfl, rfl, rfl⟩
  | guest pc a0 a1 =>
      exact ⟨hresult, hready, hreleased, hstarted, by unfold CoreOneOk; rw [hc] at hok ⊢; exact hok⟩

theorem step_inv (k : HostCore) (hi : BootInv env r p s) :
    BootInv env r p (Bringup.step env k s) := by
  cases k with
  | core0 => exact loaderStep_inv hi
  | core1 => exact guestCoreStep_inv hi

end Interleavings

theorem reset_inv (env : BoardEnv) (m : Mem) (p : Pmp) :
    BootInv env (hypLoadGuest env.flash ⟨m, []⟩) p (.reset m p) :=
  ⟨rfl, iff_of_false Bool.false_ne_true LoaderPc.noConfusion, fun h => Bool.noConfusion h,
    fun h => absurd rfl h, rfl, rfl⟩

/-- However the cores' steps interleave, core 1 leaves its loop only behind a loading that
has succeeded and is complete, and it enters the guest at its first byte, with the blob's
address and a PMP entry that took. -/
theorem boot_coreOne (env : BoardEnv) (m : Mem) (p : Pmp) (turn : Nat → HostCore) (n : Nat) :
    CoreOneOk env (hypLoadGuest env.flash ⟨m, []⟩) p
      (scheduled (Bringup.step env) turn (.reset m p) n) :=
  (scheduled_invariant (reset_inv env m p) (fun _ _ => step_inv _) n).coreOne

end P4Hyp
