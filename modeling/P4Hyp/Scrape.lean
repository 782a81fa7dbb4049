import P4Hyp.Lib.Cstring
import P4Hyp.Lib.Pattern
import P4Hyp.Lib.Run
import P4Hyp.Lib.Text

/-!
# The monitor's statistics

The monitor on the board prints its statistics between the guest's output.  Each
read of the serial port is searched for them on its own.
-/

namespace P4Hyp

def reStats : Pattern :=
  [.bytes (ascii "HYP stats: "), .group, .bytes (ascii " traps, "), .group,
    .bytes (ascii " kcycles")]

def reDrop : Pattern := [.bytes (ascii "tx dropped: "), .group]

def reOver : Pattern := [.bytes (ascii "rx overruns: "), .group]

def reKbd : Pattern := [.bytes (ascii "keyboards: "), .group]

def reWedge : Pattern := [.bytes (ascii "no trap for "), .group, .bytes (ascii " s")]

/-- A key of `hyp`. -/
inductive Stat
  | traps | kcyc | dropped | overruns | kbd
deriving DecidableEq

namespace Stat

def all : List Stat := [traps, kcyc, dropped, overruns, kbd]

/-- Where it is printed. -/
def pattern : Stat → Pattern
  | traps => reStats
  | kcyc => reStats
  | dropped => reDrop
  | overruns => reOver
  | kbd => reKbd

/-- The group of the pattern. -/
def index : Stat → Nat
  | kcyc => 2
  | _ => 1

theorem mem_all (k : Stat) : k ∈ all := by cases k <;> decide

theorem oneLine (k : Stat) : OneLine k.pattern := by
  cases k <;> exact ⟨by decide +kernel, by decide +kernel⟩

end Stat

structure Scraped where
  hyp : Stat → Option Nat
  notice : Str
  /-- `int` has raised, and the thread that reads is gone. -/
  raised : Bool

/-- `m.group(n)`. -/
def matchGroup (m : List (List Byte)) (n : Nat) : List Byte := m.getD (n - 1) []

namespace Scraped

/-- `hyp[key] = int(...)`. -/
def set (key : Stat) (ds : List Byte) (s : Scraped) : Scraped :=
  if s.raised then s
  else if intMaxStrDigits < ds.length then { s with raised := true }
  else { s with hyp := Function.update s.hyp key (some (decimal ds)) }

/-- The group `n` of the first match, if there is one. -/
def setFrom (p : Pattern) (key : Stat) (n : Nat) (data : List Byte) (s : Scraped) : Scraped :=
  match search p data with
  | none => s
  | some m => s.set key (matchGroup m n)

def say (text : Str) (s : Scraped) : Scraped := if s.raised then s else { s with notice := text }

end Scraped

def scrape (data : List Byte) (s : Scraped) : Scraped :=
  -- the first two are of one match
  let s := s.setFrom reStats .traps 1 data
  let s := s.setFrom reStats .kcyc 2 data
  let s := s.setFrom reDrop .dropped 1 data
  let s := s.setFrom reOver .overruns 1 data
  let s := s.setFrom reKbd .kbd 1 data
  match search reWedge data with
  | none => s
  | some m =>
      s.say ("guest has taken no trap for ".toList ++ (matchGroup m 1).map chr ++
        " s -- wedged?".toList)

/-- The numbers that a read tells can be converted. -/
def Convertible (data : List Byte) : Prop :=
  ∀ k ∈ Stat.all, ∀ m ∈ search k.pattern data, (matchGroup m k.index).length ≤ intMaxStrDigits

instance (data : List Byte) : Decidable (Convertible data) :=
  inferInstanceAs (Decidable (∀ k ∈ Stat.all, ∀ m ∈ search k.pattern data, _))

/-- The number that a match tells. -/
def Stat.number (k : Stat) (m : List (List Byte)) : Nat := decimal (matchGroup m k.index)

section

variable {data : List Byte} {s : Scraped}

theorem setFrom_ok (hdata : Convertible data) (hs : s.raised = false) (k : Stat) :
    (s.setFrom k.pattern k k.index data).raised = false ∧
      (s.setFrom k.pattern k k.index data).hyp =
        Function.update s.hyp k (((search k.pattern data).map k.number).or (s.hyp k)) := by
  unfold Scraped.setFrom
  cases hm : search k.pattern data with
  | none =>
      refine ⟨hs, ?_⟩
      simp
  | some m =>
      have hlen := hdata k k.mem_all m hm
      have hset : s.set k (matchGroup m k.index) =
          { s with hyp := Function.update s.hyp k (some (k.number m)) } := by
        rw [Scraped.set, if_neg (by simp [hs]), if_neg (Nat.not_lt.mpr hlen)]
        rfl
      simp only [hset]
      exact ⟨hs, rfl⟩

theorem say_keeps (text : Str) (s : Scraped) :
    (s.say text).raised = s.raised ∧ (s.say text).hyp = s.hyp := by
  unfold Scraped.say
  split <;> exact ⟨rfl, rfl⟩

theorem scrape_ok (hdata : Convertible data) (hs : s.raised = false) :
    (scrape data s).raised = false ∧
      ∀ k, (scrape data s).hyp k = ((search k.pattern data).map k.number).or (s.hyp k) := by
  obtain ⟨hr₁, h₁⟩ := setFrom_ok hdata hs .traps
  obtain ⟨hr₂, h₂⟩ := setFrom_ok hdata hr₁ .kcyc
  obtain ⟨hr₃, h₃⟩ := setFrom_ok hdata hr₂ .dropped
  obtain ⟨hr₄, h₄⟩ := setFrom_ok hdata hr₃ .overruns
  obtain ⟨hr₅, h₅⟩ := setFrom_ok hdata hr₄ .kbd
  have hlast (s' : Scraped) (hs' : s'.raised = false) (text : List (List Byte) → Str) :
      (match search reWedge data with | none => s' | some m => s'.say (text m)).raised = false ∧
        (match search reWedge data with | none => s' | some m => s'.say (text m)).hyp = s'.hyp := by
    cases search reWedge data with
    | none => exact ⟨hs', rfl⟩
    | some m => exact ⟨(say_keeps _ s').1.trans hs', (say_keeps _ s').2⟩
  refine ⟨(hlast _ hr₅ _).1, fun k => (congrFun (hlast _ hr₅ _).2 k).trans ?_⟩
  rw [h₅, h₄, h₃, h₂, h₁]
  cases k <;> simp [Function.update]

end

/-! ## Runs of reads -/

/-- `pump_serial` with all that it has read. -/
structure Serial where
  scraped : Scraped
  stream : List Byte

def Serial.start : Serial :=
  { scraped := { hyp := fun _ => none, notice := [], raised := false }, stream := [] }

/-- One round of `pump_serial`: `ser.read` has returned `data`. -/
def serialFire (c : Serial) (data : List Byte) : Option Serial :=
  if c.scraped.raised then none
  else some { scraped := if data = [] then c.scraped else scrape data c.scraped,
              stream := c.stream ++ data }

/-- The read leaves each printed number of the statistic whole and alone, and what it
tells can be converted. -/
def CleanRead (k : Stat) (c : Serial) (data : List Byte) : Prop :=
  Piecewise k.pattern c.stream data ∧ Convertible data

/-- Once a line with the statistic has ended, and until another one has it, the number
of the line is stored. -/
def Told (k : Stat) (c : Serial) : Prop :=
  ∀ line m, LastMatch k.pattern c.stream line → search k.pattern line = some m →
    c.scraped.hyp k = some (k.number m)

/-- What is stored is what the last line with the statistic tells. -/
def Follows (k : Stat) (c : Serial) : Prop :=
  c.scraped.raised = false ∧ c.scraped.hyp k = (latest k.pattern c.stream).map k.number

theorem Follows.told {k : Stat} {c : Serial} (h : Follows k c) : Told k c := by
  intro line m hline hm
  rw [h.2, hline.latest_eq k.oneLine, hm]
  rfl

theorem follows_step {k : Stat} {c c' : Serial} {data : List Byte} (hc : Follows k c)
    (hdata : CleanRead k c data) (hf : serialFire c data = some c') : Follows k c' := by
  unfold serialFire at hf
  rw [if_neg (by simp [hc.1])] at hf
  obtain rfl := Option.some.inj hf
  obtain ⟨hpiece, hconv⟩ := hdata
  by_cases hnil : data = []
  · simpa [Follows, hnil] using hc
  · obtain ⟨hraised, hhyp⟩ := scrape_ok hconv hc.1
    unfold Follows
    simp only [if_neg hnil]
    refine ⟨hraised, ?_⟩
    rw [hhyp k, hc.2, latest_append k.oneLine hpiece]
    cases search k.pattern data <;> rfl

/-- Where every read leaves the statistic whole and alone, the monitor shows what has
been printed last. -/
theorem scrape_run {k : Stat} {c : Serial} {h : List (Serial × List Byte)}
    (hrun : Run serialFire .start h c) (hclean : Run.Meets (CleanRead k) h) :
    Run.Throughout (Told k) h c := by
  have hstart : Follows k .start :=
    ⟨rfl, by simp [Serial.start, latest, textLines, search, k.oneLine.nonempty]⟩
  obtain ⟨hall, hlast⟩ := Run.throughout (CleanRead k) hstart
    (fun _ _ _ hc hd hf => follows_step hc hd hf) hrun hclean
  exact ⟨fun p hp => (hall p hp).told, hlast.told⟩

instance (k : Stat) (c : Serial) (data : List Byte) : Decidable (CleanRead k c data) :=
  inferInstanceAs (Decidable (_ ∧ _))

/-- The statistics cut beside the number of dropped bytes. -/
def besideReads : List (List Byte) :=
  [ascii "HYP stats: 120 traps, 7 kcycles\n  uart rx overruns: 3,", ascii " tx dropped: 14",
    ascii "\n"]

theorem scrape_run_beside : ∃ h c, Run serialFire .start h c ∧ c.stream = besideReads.flatten ∧
    c.scraped.hyp .dropped = some 14 ∧ Run.Throughout (Told .dropped) h c := by
  obtain ⟨h, c, hrun, hd⟩ := Run.exists_of_play serialFire .start besideReads
    (fun r => decide (Run.Meets (CleanRead .dropped) r.1 ∧ r.2.stream = besideReads.flatten ∧
      r.2.scraped.hyp .dropped = some 14)) true (by decide +kernel)
  obtain ⟨hclean, hstream, hstored⟩ := of_decide_eq_true hd
  exact ⟨h, c, hrun, hstream, hstored, scrape_run hrun hclean⟩

/-- A read that ends between the digits: 12 bytes have been dropped, and the monitor
shows one. -/
theorem number_cut : ∃ h c, Run serialFire .start h c ∧
    c.stream = ascii "  uart rx overruns: 0, tx dropped: 12\n" ∧
    c.scraped.hyp .dropped = some 1 ∧ ¬ Told .dropped c := by
  obtain ⟨h, c, hrun, hd⟩ := Run.exists_of_play serialFire .start
    [ascii "  uart rx overruns: 0, tx dropped: 1", ascii "2\n"]
    (fun r => decide (r.2.stream = ascii "  uart rx overruns: 0, tx dropped: 12\n" ∧
      r.2.scraped.hyp .dropped = some 1)) true (by decide +kernel)
  obtain ⟨hstream, hstored⟩ := of_decide_eq_true hd
  refine ⟨h, c, hrun, hstream, hstored, fun htold => ?_⟩
  have hline : LastMatch reDrop c.stream (ascii "  uart rx overruns: 0, tx dropped: 12") := by
    refine ⟨⟨[], [], ?_, .inl rfl, by decide +kernel⟩, by decide +kernel, by decide +kernel⟩
    rw [hstream]
    decide +kernel
  have hnumber := htold _ [[0x31, 0x32]] hline (by decide +kernel)
  rw [hstored] at hnumber
  exact absurd hnumber (by decide)

end P4Hyp
