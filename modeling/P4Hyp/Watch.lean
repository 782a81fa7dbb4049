import P4Hyp.Fetch

/-!
# Core 0's watch over the guest

Ten times a second core 0 looks at a request for statistics, and every tenth time at
the count of traps.  What a round does depends on what it reads, which core 1 may have
left at any value.
-/

namespace P4Hyp

/-- What one round of the service loop reads of core 1. -/
structure Glance where
  /-- `hyp_stats_wanted` -/
  wanted : Bool
  /-- `hyp_trace_total` as it is compared, and as it is stored. -/
  total : Word
  stored : Word
  /-- `linux_running` -/
  running : Bool
  /-- `hyp_in_wfi` -/
  inWfi : Bool

inductive WatchLine
  | stats
  /-- The guest has taken no trap for so many seconds. -/
  | wedged (seconds : Word)
  /-- `hyp_trace_dump`, with no dumps counted before it. -/
  | traceDump
  deriving DecidableEq

/-- The local variables of the service loop. -/
structure Watch where
  lastTraps : Word
  quietTicks : Word
  ticks : Word
  reported : Bool

namespace Watch

def start : Watch := ⟨0, 0, 0, false⟩

/-- The check of every tenth round, up to the report. -/
def check (g : Glance) (w : Watch) : Watch :=
  let w := { w with ticks := 0 }
  let w := if g.total = w.lastTraps then { w with quietTicks := w.quietTicks + 1 }
    else { w with quietTicks := 0, reported := false }
  { w with lastTraps := g.stored }

/-- The check's condition for a report. -/
def wedged (g : Glance) (w : Watch) : Prop :=
  w.quietTicks ≥ 5 ∧ w.reported = false ∧ g.running = true ∧ g.inWfi = false

instance (g : Glance) (w : Watch) : Decidable (w.wedged g) := inferInstanceAs (Decidable (_ ∧ _))

/-- A round of the loop of `app_main`. -/
def round (g : Glance) (w : Watch) : List WatchLine × Watch :=
  let lines := if g.wanted then [.stats] else []
  let w := { w with ticks := w.ticks + 1 }
  if w.ticks ≥ 10 then
    let w := w.check g
    if w.wedged g then
      (lines ++ [.wedged w.quietTicks, .traceDump, .stats], { w with reported := true })
    else (lines, w)
  else (lines, w)

/-- The variables before round `n`. -/
def before (g : Nat → Glance) : Nat → Watch
  | 0 => start
  | n + 1 => (round (g n) (before g n)).2

/-- What round `n` prints. -/
def prints (g : Nat → Glance) (n : Nat) : List WatchLine := (round (g n) (before g n)).1

end Watch

/-! ## Quiet times -/

/-- What check `k` reads. -/
def glanceAt (g : Nat → Glance) (k : Nat) : Glance := g (10 * k + 9)

/-- The count of traps that the check before `k` stored. -/
def storedBefore (g : Nat → Glance) : Nat → Word
  | 0 => 0
  | k + 1 => (glanceAt g k).stored

/-- The checks, up to `k`, that have found the count of traps as it was. -/
def quietFor (g : Nat → Glance) : Nat → Nat
  | 0 => if (glanceAt g 0).total = storedBefore g 0 then 1 else 0
  | k + 1 => if (glanceAt g (k + 1)).total = storedBefore g (k + 1) then quietFor g k + 1 else 0

/-- At check `k` the guest runs outside `wfi`, and has been quiet for five checks.  The
code counts them modulo `2 ^ 32`. -/
def Overdue (g : Nat → Glance) (k : Nat) : Prop :=
  5 ≤ quietFor g k % 2 ^ 32 ∧ (glanceAt g k).running = true ∧ (glanceAt g k).inWfi = false

/-- Check `j` is in the quiet time that reaches up to `k`. -/
def SameQuiet (g : Nat → Glance) (j k : Nat) : Prop := k < j + quietFor g k

/-- A quiet time has reached up to before check `k`, and was reported. -/
def ReportedBefore (g : Nat → Glance) : Nat → Prop
  | 0 => False
  | k + 1 => ∃ j ≤ k, SameQuiet g j k ∧ Overdue g j

/-- The quiet checks up to before `k`. -/
def quietBefore (g : Nat → Glance) : Nat → Nat
  | 0 => 0
  | k + 1 => quietFor g k

/-- Check `k` is the first one in its quiet time that is overdue. -/
def FirstOverdue (g : Nat → Glance) (k : Nat) : Prop :=
  Overdue g k ∧ ∀ j < k, SameQuiet g j k → ¬ Overdue g j

section Quiet

variable {g : Nat → Glance} {k : Nat}

theorem quietFor_eq (g : Nat → Glance) (k : Nat) :
    quietFor g k = if (glanceAt g k).total = storedBefore g k then quietBefore g k + 1 else 0 := by
  cases k <;> rfl

/-- A quiet time that goes on has been reported if it had been before. -/
theorem reportedBefore_still (h : (glanceAt g k).total = storedBefore g k) :
    ReportedBefore g k ↔ ∃ j < k, SameQuiet g j k ∧ Overdue g j := by
  cases k with
  | zero =>
      constructor
      · exact False.elim
      · rintro ⟨j, hj, -⟩
        exact Nat.not_lt_zero j hj
  | succ k =>
      have hq : quietFor g (k + 1) = quietFor g k + 1 := by
        rw [quietFor_eq, if_pos h]
        rfl
      have hsame (j : Nat) : SameQuiet g j (k + 1) ↔ SameQuiet g j k := by
        unfold SameQuiet
        rw [hq]
        omega
      simp only [ReportedBefore, hsame, Nat.lt_succ_iff]

theorem reportedBefore_succ : ReportedBefore g (k + 1) ↔
    (∃ j < k, SameQuiet g j k ∧ Overdue g j) ∨ Overdue g k := by
  constructor
  · rintro ⟨j, hj, hsame, ho⟩
    rcases Nat.lt_or_eq_of_le hj with hlt | rfl
    · exact .inl ⟨j, hlt, hsame, ho⟩
    · exact .inr ho
  · rintro (⟨j, hj, hsame, ho⟩ | ho)
    · exact ⟨j, Nat.le_of_lt hj, hsame, ho⟩
    · refine ⟨k, Nat.le_refl k, ?_, ho⟩
      have hpos := ho.1
      unfold SameQuiet
      omega

/-- The loop's variables before round `n`, when `k` checks have been made. -/
structure WatchInv (g : Nat → Glance) (n k : Nat) (w : Watch) : Prop where
  ticks : w.ticks.toNat = n - 10 * k
  last : w.lastTraps = storedBefore g k
  quiet : w.quietTicks.toNat = quietBefore g k % 2 ^ 32
  reported : w.reported = true ↔ ReportedBefore g k

theorem check_still {g : Glance} {w : Watch} (h : g.total = w.lastTraps) :
    w.check g = ⟨g.stored, w.quietTicks + 1, 0, w.reported⟩ := by
  unfold Watch.check
  dsimp only
  rw [if_pos h]

theorem check_moved {g : Glance} {w : Watch} (h : g.total ≠ w.lastTraps) :
    w.check g = ⟨g.stored, 0, 0, false⟩ := by
  unfold Watch.check
  dsimp only
  rw [if_neg h]

theorem check_stored (g : Glance) (w : Watch) :
    (w.check g).lastTraps = g.stored ∧ (w.check g).ticks = 0 := by
  by_cases h : g.total = w.lastTraps
  · rw [check_still h]
    exact ⟨rfl, rfl⟩
  · rw [check_moved h]
    exact ⟨rfl, rfl⟩

theorem check_quiet {w : Watch} {n : Nat} (hi : WatchInv g n k w) :
    (w.check (glanceAt g k)).quietTicks.toNat = quietFor g k % 2 ^ 32 := by
  rw [quietFor_eq]
  by_cases hstill : (glanceAt g k).total = w.lastTraps
  · rw [check_still hstill, if_pos (hstill.trans hi.last)]
    show (w.quietTicks + 1).toNat = _
    rw [BitVec.toNat_add, hi.quiet]
    show (quietBefore g k % 2 ^ 32 + 1) % 2 ^ 32 = _
    omega
  · rw [check_moved hstill, if_neg fun h => hstill (h.trans hi.last.symm)]
    rfl

theorem check_reported {w : Watch} {n : Nat} (hi : WatchInv g n k w) :
    (w.check (glanceAt g k)).reported = true ↔ ∃ j < k, SameQuiet g j k ∧ Overdue g j := by
  by_cases hstill : (glanceAt g k).total = w.lastTraps
  · rw [check_still hstill, ← reportedBefore_still (hstill.trans hi.last)]
    exact hi.reported
  · have hq : quietFor g k = 0 := by
      rw [quietFor_eq, if_neg fun h => hstill (h.trans hi.last.symm)]
    rw [check_moved hstill]
    refine iff_of_false Bool.false_ne_true ?_
    rintro ⟨j, hj, hsame, -⟩
    unfold SameQuiet at hsame
    omega

/-- The code reports at the first overdue check of a quiet time. -/
theorem check_wedged {w : Watch} {n : Nat} (hi : WatchInv g n k w) :
    (w.check (glanceAt g k)).wedged (glanceAt g k) ↔ FirstOverdue g k := by
  have hge : (w.check (glanceAt g k)).quietTicks ≥ 5 ↔ 5 ≤ quietFor g k % 2 ^ 32 := by
    rw [← check_quiet hi]
    exact BitVec.le_def
  have hrep : (w.check (glanceAt g k)).reported = false ↔ ∀ j < k, SameQuiet g j k →
      ¬ Overdue g j := by
    rw [← Bool.not_eq_true, check_reported hi]
    simp
  unfold Watch.wedged FirstOverdue Overdue
  rw [hge, hrep]
  unfold Overdue
  tauto

theorem round_between {g : Glance} {w : Watch} (h : ¬ w.ticks + 1 ≥ 10) :
    Watch.round g w = (if g.wanted then [.stats] else [], { w with ticks := w.ticks + 1 }) := by
  unfold Watch.round
  dsimp only
  rw [if_neg h]

theorem round_check {g : Glance} {w : Watch} (h : w.ticks + 1 ≥ 10) :
    Watch.round g w =
      if (w.check g).wedged g then
        ((if g.wanted then [.stats] else []) ++
          [.wedged (w.check g).quietTicks, .traceDump, .stats], { w.check g with reported := true })
      else (if g.wanted then [.stats] else [], w.check g) := by
  unfold Watch.round
  dsimp only
  rw [if_pos h]
  rfl

theorem not_wedged_stats (b : Bool) (q : Word) :
    WatchLine.wedged q ∉ (if b then [WatchLine.stats] else []) := by
  cases b <;> simp

/-- What a round does, by what the loop's variables are. -/
theorem round_spec {w : Watch} {n : Nat} (hi : WatchInv g n k w) (hk : n / 10 = k) :
    WatchInv g (n + 1) ((n + 1) / 10) (Watch.round (g n) w).2 ∧
      ∀ q, WatchLine.wedged q ∈ (Watch.round (g n) w).1 ↔
        n = 10 * k + 9 ∧ FirstOverdue g k ∧ q.toNat = quietFor g k % 2 ^ 32 := by
  have hticks : (w.ticks + 1).toNat = n - 10 * k + 1 := by
    rw [BitVec.toNat_add, hi.ticks]
    show (n - 10 * k + 1) % 2 ^ 32 = _
    omega
  have hten : w.ticks + 1 ≥ 10 ↔ n = 10 * k + 9 := by
    show (10 : Word).toNat ≤ (w.ticks + 1).toNat ↔ _
    rw [hticks]
    show 10 ≤ _ ↔ _
    omega
  by_cases hcheck : n = 10 * k + 9
  · have hg : g n = glanceAt g k := by rw [hcheck]; rfl
    obtain ⟨hlast, hzero⟩ := check_stored (glanceAt g k) w
    have hdiv : (n + 1) / 10 = k + 1 := by omega
    rw [round_check (hten.mpr hcheck), hdiv, hg]
    by_cases hw : (w.check (glanceAt g k)).wedged (glanceAt g k)
    · have hfirst := (check_wedged hi).mp hw
      rw [if_pos hw]
      refine ⟨⟨?_, hlast, check_quiet hi, ?_⟩, fun q => ?_⟩
      · show (w.check (glanceAt g k)).ticks.toNat = _
        rw [hzero, hcheck]
        show 0 = _
        omega
      · exact iff_of_true rfl (reportedBefore_succ.mpr (.inr hfirst.1))
      · have hq : q = (w.check (glanceAt g k)).quietTicks ↔ q.toNat = quietFor g k % 2 ^ 32 := by
          rw [← check_quiet hi]
          exact BitVec.toNat_inj.symm
        simp [hcheck, hfirst, hq]
    · have hfirst := fun h => hw ((check_wedged hi).mpr h)
      rw [if_neg hw]
      refine ⟨⟨?_, hlast, check_quiet hi, ?_⟩, fun q => ?_⟩
      · show (w.check (glanceAt g k)).ticks.toNat = _
        rw [hzero, hcheck]
        show 0 = _
        omega
      · rw [check_reported hi, reportedBefore_succ, or_iff_left_of_imp]
        intro ho
        by_contra hno
        exact hfirst ⟨ho, fun j hj hsame hoj => hno ⟨j, hj, hsame, hoj⟩⟩
      · exact iff_of_false (not_wedged_stats _ q) fun h => hfirst h.2.1
  · have hdiv : (n + 1) / 10 = k := by omega
    rw [round_between (fun h => hcheck (hten.mp h)), hdiv]
    refine ⟨⟨?_, hi.last, hi.quiet, hi.reported⟩, fun q => ?_⟩
    · show (w.ticks + 1).toNat = _
      rw [hticks]
      omega
    · exact iff_of_false (not_wedged_stats _ q) fun h => hcheck h.1

theorem watchInv_before (g : Nat → Glance) (n : Nat) :
    WatchInv g n (n / 10) (Watch.before g n) := by
  induction n with
  | zero => exact ⟨rfl, rfl, rfl, iff_of_false Bool.false_ne_true id⟩
  | succ n ih => exact (round_spec ih rfl).1

/-- Whatever core 1 leaves to be read, round `n` reports a guest without traps exactly when
it makes the first check of a quiet time that finds the guest running outside `wfi` and
quiet for five checks, and prints for how many. -/
theorem watch_reports (g : Nat → Glance) (n : Nat) (q : Word) :
    WatchLine.wedged q ∈ Watch.prints g n ↔
      ∃ k, n = 10 * k + 9 ∧ FirstOverdue g k ∧ q.toNat = quietFor g k % 2 ^ 32 := by
  refine ((round_spec (watchInv_before g n) rfl).2 q).trans ⟨fun h => ⟨_, h⟩, ?_⟩
  rintro ⟨k, hn, h⟩
  obtain rfl : n / 10 = k := by omega
  exact ⟨hn, h⟩

end Quiet

end P4Hyp
