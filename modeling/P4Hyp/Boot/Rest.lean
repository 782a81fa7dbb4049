import P4Hyp.Boot.Cores

/-!
# How the boot ends

Every step of a core that changes anything brings the boot closer to its end, so both
cores come to rest under every fair schedule.
-/

namespace P4Hyp

def LoadStep.weight : LoadStep → Nat
  | kernel => 9 + guestWindows.length
  | dtb => 8 + guestWindows.length
  | windows ws => 7 + ws.length
  | cmdline => 6
  | replacement _ => 5
  | loaded _ => 4

/-- The stages that are left, and the stores that are left in this one. -/
def LoaderPc.rank : LoaderPc → Nat
  | load next => next.weight * 2 ^ 33
  | storing _ n _ i _ next => next.weight * 2 ^ 33 + 1 + (n.toNat - i)
  | waiting => 3
  | appMain => 2
  | release => 1
  | service => 0
  | returned => 0

def GuestCorePc.rank : GuestCorePc → Nat
  | startup => 6
  | spinning => 5
  | pmp => 4
  | interrupts => 3
  | start => 2
  | launch => 1
  | parked => 0
  | guest _ _ _ => 0

def Bringup.rank (s : Bringup) : Nat := s.loader.rank + s.core1.rank

theorem rank_storing {a n : Word} {f : Nat → Byte} {lines : List String} {st next : LoadStep}
    (h : next.weight < st.weight) :
    (LoaderPc.storing a n f 0 lines next).rank < (LoaderPc.load st).rank := by
  have hn := n.isLt
  simp only [LoaderPc.rank]
  omega

theorem rank_load {st next : LoadStep} (h : next.weight < st.weight) :
    (LoaderPc.load next).rank < (LoaderPc.load st).rank := by
  simp only [LoaderPc.rank]
  omega

theorem rank_waiting (b : Bool) : LoaderPc.waiting.rank < (LoaderPc.load (.loaded b)).rank := by
  simp only [LoaderPc.rank, LoadStep.weight]
  omega

theorem windowStep_rank (t : PartitionTable) (w : GuestWindow) (ws : List GuestWindow)
    (l : Loading) :
    (Bringup.windowStep t w ws l).1.rank < (LoaderPc.load (.windows (w :: ws))).rank := by
  have hws : (LoadStep.windows ws).weight < (LoadStep.windows (w :: ws)).weight :=
    Nat.add_lt_add_left (Nat.lt_succ_self _) 7
  unfold Bringup.windowStep
  split
  · exact rank_load hws
  · split
    · refine rank_load ?_
      simp only [LoadStep.weight]
      omega
    · exact rank_storing hws

/-- The search for the command line comes to an end, unless the string that it finds has
none. -/
theorem cmdlineStep_rank (span : Word) (l : Loading) :
    (Bringup.cmdlineStep span l).1.rank < (LoaderPc.load .cmdline).rank ∨
      (Bringup.cmdlineStep span l = (.load .cmdline, l) ∧ patchGuestCmdline span l.mem = none) := by
  unfold Bringup.cmdlineStep patchGuestCmdline
  cases l.mem.search linuxBaseAddress cmdlineNeedle (span.toNat - cmdlineNeedle.length) with
  | none => exact .inl (rank_load (by decide))
  | some i =>
      dsimp only
      cases l.mem.strlen (linuxBaseAddress + BitVec.ofNat 32 i) with
      | none => exact .inr ⟨rfl, rfl⟩
      | some n =>
          dsimp only
          by_cases hle : cmdlineReplacement.length > n
          · rw [if_pos hle]
            exact .inl (rank_load (by decide))
          · rw [if_neg hle]
            exact .inl (rank_storing (by simp [LoadStep.weight]))

theorem loadStep_rank (t : PartitionTable) (l : Loading) {st : LoadStep}
    (hst : ∀ b, st ≠ .loaded b) :
    (Bringup.loadStep t l st).1.rank < (LoaderPc.load st).rank ∨
      (Bringup.loadStep t l st = (.load .cmdline, l) ∧ st = .cmdline ∧
        patchGuestCmdline cmdlineSpan l.mem = none) := by
  cases st with
  | kernel =>
      refine .inl ?_
      unfold Bringup.loadStep
      dsimp only
      cases partitionSource t "kernel" 0 with
      | error e => exact rank_load (by decide)
      | ok r => exact rank_storing (by decide)
  | dtb =>
      refine .inl ?_
      unfold Bringup.loadStep
      dsimp only
      cases partitionSource t "dtb" 0 with
      | error e => exact rank_load (by decide)
      | ok r => exact rank_storing (by decide)
  | windows ws =>
      cases ws with
      | nil => exact .inl (rank_load (by decide))
      | cons w ws => exact .inl (windowStep_rank t w ws l)
  | cmdline =>
      rcases cmdlineStep_rank cmdlineSpan l with h | ⟨h, hnone⟩
      · exact .inl h
      · exact .inr ⟨h, rfl, hnone⟩
  | replacement a => exact .inl (rank_storing (by simp [LoadStep.weight]))
  | loaded b => exact absurd rfl (hst b)

/-! ## Steps -/

section Steps

variable {env : BoardEnv} {s : Bringup}

/-- Core 0 has nothing to do, or waits for core 1, or for a `strlen` that does not end. -/
def LoaderResting (s : Bringup) : Prop :=
  s.loader = .service ∨ s.loader = .returned ∨ (s.loader = .waiting ∧ s.coreStartupDone = false) ∨
    (s.loader = .load .cmdline ∧ patchGuestCmdline cmdlineSpan s.load.mem = none)

/-- Core 1 is in the guest, or stopped, or waits for core 0. -/
def GuestCoreResting (s : Bringup) : Prop :=
  (s.core1 = .spinning ∧ s.guestImageReady = false) ∨ s.core1 = .parked ∨
    ∃ pc a0 a1, s.core1 = .guest pc a0 a1

theorem loaderStep_rank (env : BoardEnv) (s : Bringup) :
    (LoaderResting s ∧ Bringup.loaderStep env s = s) ∨
      (Bringup.loaderStep env s).loader.rank < s.loader.rank := by
  cases hl : s.loader with
  | load next =>
      by_cases hb : ∃ b, next = .loaded b
      · obtain ⟨b, rfl⟩ := hb
        unfold Bringup.loaderStep
        rw [hl]
        exact .inr (rank_waiting b)
      · rw [loaderStep_load hl fun b he => hb ⟨b, he⟩]
        rcases loadStep_rank env.flash s.load fun b he => hb ⟨b, he⟩ with hlt | ⟨hsame, rfl, hnone⟩
        · exact .inr hlt
        · rw [hsame, Bringup.resume, ← hl]
          exact .inl ⟨.inr (.inr (.inr ⟨hl, hnone⟩)), rfl⟩
  | storing a n f i lines next =>
      unfold Bringup.loaderStep
      rw [hl]
      dsimp only
      by_cases hi : i < n.toNat
      · rw [if_pos hi]
        refine .inr ?_
        simp only [LoaderPc.rank]
        omega
      · rw [if_neg hi]
        refine .inr ?_
        simp only [LoaderPc.rank]
        omega
  | waiting =>
      unfold Bringup.loaderStep
      rw [hl]
      dsimp only
      cases hd : s.coreStartupDone with
      | false => exact .inl ⟨.inr (.inr (.inl ⟨hl, hd⟩)), rfl⟩
      | true => exact .inr (by simp [LoaderPc.rank])
  | appMain =>
      unfold Bringup.loaderStep
      rw [hl]
      dsimp only
      split
      · exact .inr (by simp [LoaderPc.rank, Bringup.print])
      · exact .inr (by simp [LoaderPc.rank])
  | release =>
      unfold Bringup.loaderStep
      rw [hl]
      exact .inr (by simp [LoaderPc.rank, Bringup.print])
  | service =>
      unfold Bringup.loaderStep
      rw [hl]
      exact .inl ⟨.inl hl, rfl⟩
  | returned =>
      unfold Bringup.loaderStep
      rw [hl]
      exact .inl ⟨.inr (.inl hl), rfl⟩

theorem guestCoreStep_rank (env : BoardEnv) (s : Bringup) :
    (GuestCoreResting s ∧ Bringup.guestCoreStep env s = s) ∨
      ((Bringup.guestCoreStep env s).core1.rank < s.core1.rank ∧
        (Bringup.guestCoreStep env s).loader = s.loader) := by
  unfold Bringup.guestCoreStep
  cases hc : s.core1 with
  | startup => exact .inr ⟨by simp [GuestCorePc.rank], rfl⟩
  | spinning =>
      cases hr : s.guestImageReady with
      | false => exact .inl ⟨.inl ⟨hc, hr⟩, rfl⟩
      | true => exact .inr ⟨by simp [GuestCorePc.rank], rfl⟩
  | pmp =>
      dsimp only
      split
      · exact .inr ⟨by simp [GuestCorePc.rank, Bringup.print], rfl⟩
      · exact .inr ⟨by simp [GuestCorePc.rank, Bringup.print], rfl⟩
  | parked => exact .inl ⟨.inr (.inl hc), rfl⟩
  | interrupts => exact .inr ⟨by simp [GuestCorePc.rank, Bringup.print], rfl⟩
  | start => exact .inr ⟨by simp [GuestCorePc.rank, Bringup.print], rfl⟩
  | launch => exact .inr ⟨by simp [GuestCorePc.rank], rfl⟩
  | guest pc a0 a1 => exact .inl ⟨.inr (.inr ⟨pc, a0, a1, hc⟩), rfl⟩

theorem step_rank (k : HostCore) (hne : Bringup.step env k s ≠ s) :
    (Bringup.step env k s).rank < s.rank := by
  cases k with
  | core0 =>
      rcases loaderStep_rank env s with ⟨-, h⟩ | h
      · exact absurd h hne
      · have hcore := (loaderStep_core1 env s).1
        show (Bringup.loaderStep env s).loader.rank + (Bringup.loaderStep env s).core1.rank < _
        rw [hcore]
        exact Nat.add_lt_add_right h _
  | core1 =>
      rcases guestCoreStep_rank env s with ⟨-, h⟩ | ⟨hlt, hl⟩
      · exact absurd h hne
      · show (Bringup.guestCoreStep env s).loader.rank +
          (Bringup.guestCoreStep env s).core1.rank < _
        rw [hl]
        exact Nat.add_lt_add_left hlt _

end Steps

/-! ## The end -/

/-- Where the boot comes to rest. -/
def BootEnds (env : BoardEnv) (m : Mem) (p : Pmp) (s : Bringup) : Prop :=
  match hypLoadGuest env.flash ⟨m, []⟩ with
  | some (true, l) => s.load = l ∧ s.loader = .service ∧
      if (pmpSetRwxRegion env.set pmpEntery linuxBaseAddress linuxSize p).1 = .ok then
        s.core1 = .guest linuxBaseAddress 0 dtbAddress
      else s.core1 = .parked
  | some (false, l) => s.load = l ∧ s.loader = .returned ∧ s.core1 = .spinning
  | none => s.core1 = .spinning

section Ends

variable {env : BoardEnv} {m : Mem} {p : Pmp} {s : Bringup}

theorem settled_resting (hs : Settled (Bringup.step env) s) :
    LoaderResting s ∧ GuestCoreResting s := by
  have h0 : Bringup.loaderStep env s = s := hs .core0
  have h1 : Bringup.guestCoreStep env s = s := hs .core1
  constructor
  · rcases loaderStep_rank env s with ⟨hrest, -⟩ | hlt
    · exact hrest
    · rw [h0] at hlt
      exact absurd hlt (Nat.lt_irrefl _)
  · rcases guestCoreStep_rank env s with ⟨hrest, -⟩ | ⟨hlt, -⟩
    · exact hrest
    · rw [h1] at hlt
      exact absurd hlt (Nat.lt_irrefl _)

/-- A state that no core changes is the end of the boot. -/
theorem bootEnds_of_settled (hi : BootInv env (hypLoadGuest env.flash ⟨m, []⟩) p s)
    (hs : Settled (Bringup.step env) s) : BootEnds env m p s := by
  obtain ⟨h0, h1⟩ := settled_resting hs
  have hresult := hi.result
  have hok := hi.coreOne
  unfold CoreOneOk at hok
  have hspin (hne : s.loader ≠ .service) : s.core1 = .spinning := by
    have hwait : ¬ s.core1.released = true := fun h => hne (hi.ready.mp (hi.released h))
    rcases h1 with ⟨hc, -⟩ | hc | ⟨pc, a0, a1, hc⟩
    · exact hc
    · exact absurd (by rw [hc]; rfl) hwait
    · exact absurd (by rw [hc]; rfl) hwait
  unfold BootEnds
  rcases h0 with hl | hl | ⟨hl, hd⟩ | ⟨hl, hnone⟩
  · rw [hl] at hresult
    rw [show hypLoadGuest env.flash ⟨m, []⟩ = some (true, s.load) from hresult]
    refine ⟨rfl, hl, ?_⟩
    rcases h1 with ⟨-, hr⟩ | hc | ⟨pc, a0, a1, hc⟩
    · rw [hi.ready.mpr hl] at hr
      cases hr
    · rw [hc] at hok
      rw [if_neg hok.2.1, hc]
    · rw [hc] at hok
      obtain ⟨-, hset, -, rfl, rfl, rfl⟩ := hok
      rw [if_pos (by rw [hset]), hc]
  · rw [hl] at hresult
    rw [show hypLoadGuest env.flash ⟨m, []⟩ = some (false, s.load) from hresult]
    exact ⟨rfl, hl, hspin (by rw [hl]; exact LoaderPc.noConfusion)⟩
  · have hc := hspin (by rw [hl]; exact LoaderPc.noConfusion)
    rw [hi.started (by rw [hc]; exact GuestCorePc.noConfusion)] at hd
    cases hd
  · rw [hl] at hresult
    have hloading : hypLoadGuest env.flash ⟨m, []⟩ = none := by
      rw [← show loadCmdline s.load = _ from hresult, loadCmdline, hnone]
      rfl
    rw [hloading]
    exact hspin (by rw [hl]; exact LoaderPc.noConfusion)

/-- Under every fair schedule both cores come to rest: with the guest running from what
was loaded, or, if the loading failed, with core 1 in its loop for good. -/
theorem boot_ends (env : BoardEnv) (m : Mem) (p : Pmp) {turn : Nat → HostCore} (hfair : Fair turn) :
    ∃ N s', BootEnds env m p s' ∧
      ∀ n, N ≤ n → scheduled (Bringup.step env) turn (.reset m p) n = s' := by
  obtain ⟨N, s', hi, hs, hrest⟩ := hfair.settles Bringup.rank (reset_inv env m p)
    (fun k s => step_inv k) (fun k s _ => step_rank k)
  exact ⟨N, s', bootEnds_of_settled hi hs, hrest⟩

end Ends

/-- With an empty flash the cores take turns until core 1 is in its loop and core 0 is back
from `app_main`. -/
theorem boot_ends_empty : ∃ N, ∀ n, N ≤ n →
    let s := scheduled (Bringup.step ⟨fun _ => none, plainSet, true, true⟩)
      (fun i => if i % 2 = 0 then .core0 else .core1)
      (.reset (fun _ => 0) ⟨fun _ => 0, fun _ => 0⟩) n
    s.loader = .returned ∧ s.core1 = .spinning := by
  have hfair : Fair fun i : Nat => if i % 2 = 0 then HostCore.core0 else HostCore.core1 := by
    intro k n
    cases k with
    | core0 => exact ⟨2 * n, by omega, if_pos (by omega)⟩
    | core1 => exact ⟨2 * n + 1, by omega, if_neg (by omega)⟩
  obtain ⟨N, s', ⟨-, hend⟩, hrest⟩ := boot_ends ⟨fun _ => none, plainSet, true, true⟩ (fun _ => 0)
    ⟨fun _ => 0, fun _ => 0⟩ hfair
  refine ⟨N, fun n hn => ?_⟩
  rw [hrest n hn]
  exact hend

end P4Hyp
