import P4Hyp.Lib.Run
import P4Hyp.Lib.Text
import P4Hyp.Mouse

/-!
# The console's keys

What is typed goes to the guest, but for Ctrl-], which takes the next key as a
local command.  Two ends of a read wait for the next one: a Ctrl-] without its
key, and what may be the start of a mouse report.
-/

namespace P4Hyp

/-- `PREFIX`, Ctrl-]. -/
def prefixKey : Byte := 0x1d

def hypStatsKey : List Byte := [0x1e]

def hypKbdTestKey : List Byte := [0x1f]

/-- `"\nresize\n"`. -/
def resizeLine : List Byte := [0x0a, 0x72, 0x65, 0x73, 0x69, 0x7a, 0x65, 0x0a]

inductive Act
  | sent (b : Byte)
  | command (ch : Char)
deriving DecidableEq

/-- The part of the monitor that keys reach. -/
structure Hypmon where
  stop : Bool
  showHelp : Bool
  /-- The bytes sent to the guest and the commands carried out, in order. -/
  done : List Act
deriving DecidableEq

def writeGuest (data : List Byte) (m : Hypmon) : Hypmon :=
  { m with done := m.done ++ data.map .sent }

/-- `command`, which returns false to quit.  What the other commands do to the
screen, the log and the board stays with the record of the command. -/
def command (ch : Char) (m : Hypmon) : Bool × Hypmon :=
  let m := { m with done := m.done ++ [.command ch] }
  if ch = 'q' then (false, m)
  else if ch = 'r' then (true, writeGuest resizeLine m)
  else if ch = 's' then (true, writeGuest hypStatsKey m)
  else if ch = 'k' then (true, writeGuest hypKbdTestKey m)
  else if ch = '?' ∨ ch = 'h' then (true, { m with showHelp := true })
  else (true, m)

/-- The loop of `route`, with the bytes not yet written. -/
def routeLoop (out : List Byte) : List Byte → Hypmon → Hypmon × Option (List Byte)
  | [], m => (writeGuest out m, none)
  | b :: bs, m =>
      if b = prefixKey then
        match bs with
        | [] => (writeGuest out m, some [b])
        | nxt :: bs =>
            if nxt = prefixKey then routeLoop (out ++ [prefixKey]) bs m
            else
              let r := command (chr nxt) (writeGuest out m)
              if r.1 then routeLoop [] bs r.2
              else ({ r.2 with stop := true }, none)
      else routeLoop (out ++ [b]) bs m

/-- `route`, with what it returns for the next read. -/
def route (data : List Byte) (m : Hypmon) : Hypmon × Option (List Byte) := routeLoop [] data m

/-- The state of `pump_keys`. -/
structure Pump where
  mon : Hypmon
  events : List MouseEvent
  pending : List Byte
deriving DecidableEq

def Pump.start : Pump :=
  { mon := { stop := false, showHelp := false, done := [] }, events := [], pending := [] }

/-- One round of the loop of `pump_keys`: `console.read` has returned `data`. -/
def pumpRead (data : List Byte) (p : Pump) : Pump :=
  if data = [] then p
  else
    let data := p.pending ++ data
    let p := { p with pending := [] }
    if p.mon.showHelp then { p with mon := { p.mon with showHelp := false } }
    else
      let r := splitMouse data
      let p := { p with events := p.events ++ r.events, pending := r.tail }
      if r.tail ≠ [] ∧ r.keys = [] then p
      else
        let routed := route r.keys p.mon
        let p := { p with mon := routed.1 }
        match routed.2 with
        | none => p
        | some extra => { p with pending := extra }

/-! ## `route` in two parts -/

/-- The keys end with a Ctrl-] whose own key is missing, and do not quit before. -/
def dangles : List Byte → Bool
  | [] => false
  | b :: bs =>
      if b = prefixKey then
        match bs with
        | [] => true
        | nxt :: bs => chr nxt ≠ 'q' && dangles bs
      else dangles bs

section Route

variable {m : Hypmon}

theorem command_quit (ch : Char) (m : Hypmon) : (command ch m).1 = true ↔ ch ≠ 'q' := by
  unfold command
  split
  · simp_all
  · repeat' split
    all_goals simp_all

theorem routeLoop_literal (out bs : List Byte) (m : Hypmon) :
    routeLoop out (prefixKey :: prefixKey :: bs) m = routeLoop (out ++ [prefixKey]) bs m := by
  rw [routeLoop, if_pos rfl, if_pos rfl]

theorem routeLoop_key {b : Byte} (hb : b ≠ prefixKey) (out bs : List Byte) (m : Hypmon) :
    routeLoop out (b :: bs) m = routeLoop (out ++ [b]) bs m := by
  rw [routeLoop.eq_def]
  exact if_neg hb

theorem routeLoop_command {nxt : Byte} (hne : nxt ≠ prefixKey) (out bs : List Byte) (m : Hypmon) :
    routeLoop out (prefixKey :: nxt :: bs) m =
      if (command (chr nxt) (writeGuest out m)).1 then
        routeLoop [] bs (command (chr nxt) (writeGuest out m)).2
      else ({ (command (chr nxt) (writeGuest out m)).2 with stop := true }, none) := by
  rw [routeLoop, if_pos rfl, if_neg hne]

/-- What `route` returns for the next read. -/
theorem routeLoop_dangles (out data : List Byte) (m : Hypmon) :
    (routeLoop out data m).2 = if dangles data then some [prefixKey] else none := by
  induction out, data, m using routeLoop.induct with
  | case1 out m => rfl
  | case2 out m => rfl
  | case3 out m bs ih =>
      rw [routeLoop_literal, ih]
      rfl
  | case4 out m nxt bs hne r hr ih =>
      rw [routeLoop_command hne, if_pos hr, ih]
      have hq : chr nxt ≠ 'q' := (command_quit _ _).mp hr
      simp [dangles, hq]
  | case5 out m nxt bs hne r hr =>
      rw [routeLoop_command hne, if_neg hr]
      have hq : ¬ chr nxt ≠ 'q' := fun h => hr ((command_quit _ _).mpr h)
      simp [dangles, Decidable.not_not.mp hq]
  | case6 out b bs m hb ih =>
      have hd : dangles (b :: bs) = dangles bs := by
        rw [dangles.eq_def]
        exact if_neg hb
      rw [routeLoop_key hb, ih, hd]

theorem writeGuest_append (xs ys : List Byte) (m : Hypmon) :
    writeGuest (xs ++ ys) m = writeGuest ys (writeGuest xs m) := by
  simp [writeGuest]

/-- What has been collected might as well have been written. -/
theorem routeLoop_write (before out data : List Byte) (m : Hypmon) :
    routeLoop (before ++ out) data m = routeLoop out data (writeGuest before m) := by
  induction out, data, m using routeLoop.induct with
  | case1 out m =>
      show (writeGuest (before ++ out) m, none) = _
      rw [writeGuest_append]
      rfl
  | case2 out m =>
      show (writeGuest (before ++ out) m, some [prefixKey]) = _
      rw [writeGuest_append]
      rfl
  | case3 out m bs ih =>
      rw [routeLoop_literal, routeLoop_literal, List.append_assoc, ih]
  | case4 out m nxt bs hne r hr ih =>
      rw [routeLoop_command hne, routeLoop_command hne, writeGuest_append]
  | case5 out m nxt bs hne r hr =>
      rw [routeLoop_command hne, routeLoop_command hne, writeGuest_append]
  | case6 out b bs m hb ih =>
      rw [routeLoop_key hb, routeLoop_key hb, List.append_assoc, ih]

theorem routeLoop_out (out data : List Byte) (m : Hypmon) :
    routeLoop out data m = route data (writeGuest out m) := by
  have := routeLoop_write out [] data m
  rwa [List.append_nil] at this

theorem routeLoop_append (out xs ys : List Byte) (m : Hypmon)
    (h : (routeLoop out xs m).1.stop = false) : routeLoop out (xs ++ ys) m =
      route ((routeLoop out xs m).2.getD [] ++ ys) (routeLoop out xs m).1 := by
  induction out, xs, m using routeLoop.induct with
  | case1 out m => exact routeLoop_out out ys m
  | case2 out m => exact routeLoop_out out (prefixKey :: ys) m
  | case3 out m bs ih =>
      rw [routeLoop_literal] at h ⊢
      rw [List.cons_append, List.cons_append, routeLoop_literal]
      exact ih h
  | case4 out m nxt bs hne r hr ih =>
      rw [routeLoop_command hne, if_pos hr] at h ⊢
      rw [List.cons_append, List.cons_append, routeLoop_command hne, if_pos hr]
      exact ih h
  | case5 out m nxt bs hne r hr =>
      rw [routeLoop_command hne, if_neg hr] at h
      cases h
  | case6 out b bs m hb ih =>
      rw [routeLoop_key hb] at h ⊢
      rw [List.cons_append, routeLoop_key hb]
      exact ih h

/-- The keys behind a cut can be routed later, together with a Ctrl-] that waits
for its own. -/
theorem route_append (xs ys : List Byte) (h : (route xs m).1.stop = false) :
    route (xs ++ ys) m = route ((route xs m).2.getD [] ++ ys) (route xs m).1 :=
  routeLoop_append [] xs ys m h

end Route

/-! ## A read and the whole stream -/

/-- A read while the help page is closed. -/
theorem pumpRead_eq {data : List Byte} {p : Pump} (hdata : data ≠ [])
    (hhelp : p.mon.showHelp = false) : pumpRead data p =
      { mon := (route (splitMouse (p.pending ++ data)).keys p.mon).1,
        events := p.events ++ (splitMouse (p.pending ++ data)).events,
        pending := (route (splitMouse (p.pending ++ data)).keys p.mon).2.getD
          (splitMouse (p.pending ++ data)).tail } := by
  unfold pumpRead
  simp only [if_neg hdata, hhelp, Bool.false_eq_true, if_false]
  split
  · rename_i hkeys
    have hnone : route [] p.mon = (p.mon, none) := by simp [route, routeLoop, writeGuest]
    rw [hkeys.2, hnone]
    rfl
  · split
    · rename_i hr
      rw [hr]
      rfl
    · rename_i extra hr
      rw [hr]
      rfl

/-- What the stream leaves unfinished: a Ctrl-] without its key, and the start of a
mouse report. -/
def heldBack (stream : List Byte) : List Byte :=
  (route (splitMouse stream).keys Pump.start.mon).2.getD [] ++ (splitMouse stream).tail

/-- The stream read whole, with everything that it leaves unfinished held. -/
def wholeRead (stream : List Byte) : Pump :=
  { pumpRead stream .start with pending := heldBack stream }

theorem wholeRead_eq (stream : List Byte) : wholeRead stream =
    { mon := (route (splitMouse stream).keys Pump.start.mon).1,
      events := (splitMouse stream).events, pending := heldBack stream } := by
  unfold wholeRead
  by_cases h : stream = []
  · subst h
    rfl
  · rw [pumpRead_eq h rfl]
    rfl

/-- The carried bytes and the read end with a Ctrl-] that waits for its key,
followed by what may be the start of a mouse report. -/
def Crossed (p : Pump) (data : List Byte) : Prop :=
  data ≠ [] ∧ ∃ s rest ks, p.pending ++ data = s ++ rest ∧ Keyed s ks ∧ HeldEsc rest ∧
    dangles ks = true

theorem crossed_iff {p : Pump} {data : List Byte} (hdata : data ≠ []) : Crossed p data ↔
    (splitMouse (p.pending ++ data)).tail ≠ [] ∧
      dangles (splitMouse (p.pending ++ data)).keys = true := by
  constructor
  · rintro ⟨-, s, rest, ks, he, hk, hheld, hd⟩
    obtain ⟨hkeys, htail⟩ := splitMouse_keyed hk hheld
    rw [he, hkeys, htail]
    refine ⟨fun hnil => ?_, hd⟩
    rw [hnil] at hheld
    exact absurd hheld.2 (by decide)
  · rintro ⟨htail, hd⟩
    obtain ⟨s, he, hk⟩ := keyed_splitMouse (p.pending ++ data)
    exact ⟨hdata, s, _, _, he, hk, (splitMouse_tail _).resolve_left htail, hd⟩

/-- A read after the stream `stream` is the end of a longer stream read whole, unless
it loses what may be the start of a report. -/
theorem pumpRead_wholeRead {stream data : List Byte} (hdata : data ≠ [])
    (hstop : (wholeRead stream).mon.stop = false)
    (hhelp : (wholeRead stream).mon.showHelp = false) (hfit : ReportsFit (stream ++ data)) :
    pumpRead data (wholeRead stream) = wholeRead (stream ++ data) ↔
      ¬ Crossed (wholeRead stream) data := by
  have hdangle : (wholeRead stream).pending =
      (route (splitMouse stream).keys Pump.start.mon).2.getD [] ++ (splitMouse stream).tail := rfl
  have hmon : (wholeRead stream).mon = (route (splitMouse stream).keys Pump.start.mon).1 := by
    rw [wholeRead_eq]
  have hevents : (wholeRead stream).events = (splitMouse stream).events := by rw [wholeRead_eq]
  generalize hd : (route (splitMouse stream).keys Pump.start.mon).2.getD [] = d at hdangle
  -- the Ctrl-] that waits goes through `split_mouse` once more
  have hagain : splitMouse ((wholeRead stream).pending ++ data) =
      { splitMouse ((splitMouse stream).tail ++ data) with
          keys := d ++ (splitMouse ((splitMouse stream).tail ++ data)).keys } := by
    rw [hdangle, List.append_assoc]
    unfold route at hd
    rw [routeLoop_dangles] at hd
    split at hd
    · subst hd
      exact splitMouse_key (by decide) _
    · subst hd
      rfl
  rw [crossed_iff hdata, pumpRead_eq hdata hhelp, wholeRead_eq (stream ++ data), heldBack,
    splitMouse_append hfit, hagain]
  have hroute := route_append (splitMouse stream).keys
    (splitMouse ((splitMouse stream).tail ++ data)).keys (hmon ▸ hstop)
  rw [hd, ← hmon] at hroute
  rw [hroute, hevents]
  simp only [Pump.mk.injEq, true_and]
  -- what is carried is one of the two, where both should be
  rw [route, routeLoop_dangles]
  cases dangles (d ++ (splitMouse ((splitMouse stream).tail ++ data)).keys) with
  | false => simp
  | true => cases (splitMouse ((splitMouse stream).tail ++ data)).tail <;> simp

/-! ## Runs of reads -/

/-- `pump_keys` with all that it has read. -/
structure Typing where
  pump : Pump
  stream : List Byte
deriving DecidableEq

/-- The loop reads until it is stopped. -/
def typingFire (c : Typing) (data : List Byte) : Option Typing :=
  if c.pump.mon.stop then none
  else some { pump := pumpRead data c.pump, stream := c.stream ++ data }

/-- The help page is closed, and no mouse report is longer than 16 bytes. -/
def KeyInput (c : Typing) (data : List Byte) : Prop :=
  c.pump.mon.showHelp = false ∧ ReportsFit (c.stream ++ data)

/-- The reads have done what one read of the whole stream does, and hold what it
leaves unfinished. -/
def AsWhole (c : Typing) : Prop := c.pump = wholeRead c.stream

theorem asWhole_step {c c' : Typing} {data : List Byte} (hc : AsWhole c)
    (hin : KeyInput c data) (hf : typingFire c data = some c') :
    AsWhole c' ↔ ¬ Crossed c.pump data := by
  unfold typingFire at hf
  split at hf
  · cases hf
  · rename_i hstop
    obtain rfl := Option.some.inj hf
    rw [Bool.not_eq_true] at hstop
    obtain ⟨hhelp, hfit⟩ := hin
    unfold AsWhole at hc ⊢
    by_cases hdata : data = []
    · subst hdata
      have hkeep : pumpRead [] c.pump = wholeRead (c.stream ++ []) := by
        rw [List.append_nil, ← hc]
        exact if_pos rfl
      exact ⟨fun _ h => h.1 rfl, fun _ => hkeep⟩
    · rw [hc] at hstop hhelp ⊢
      exact pumpRead_wholeRead hdata hstop hhelp hfit

theorem asWhole_start : AsWhole ⟨.start, []⟩ := by
  unfold AsWhole
  decide

/-- The reads of a stream are as good as one read of all of it exactly when none of
them ends with a waiting Ctrl-] followed by the start of an escape sequence. -/
theorem pumpKeys_run {c : Typing} {h : List (Typing × List Byte)}
    (hrun : Run typingFire ⟨.start, []⟩ h c) (hin : Run.Meets KeyInput h) :
    Run.Throughout AsWhole h c ↔ Run.Meets (fun c data => ¬ Crossed c.pump data) h :=
  Run.throughout_iff_within asWhole_start (fun _ _ _ hc hd hf => asWhole_step hc hd hf) hrun hin

instance (p : Pump) (data : List Byte) : Decidable (Crossed p data) :=
  if hdata : data = [] then isFalse fun h => h.1 hdata
  else decidable_of_iff _ (crossed_iff hdata).symm

/-- A short stream has no long report. -/
theorem reportsFit_short {stream : List Byte} (h : stream.length ≤ 16) : ReportsFit stream := by
  intro t ht r hr
  have := hr.length_le
  have := ht.length_le
  omega

theorem keyInput_short {h : List (Typing × List Byte)}
    (hshort : ∀ p ∈ h, p.1.pump.mon.showHelp = false ∧ (p.1.stream ++ p.2).length ≤ 16) :
    Run.Meets KeyInput h :=
  fun p hp => ⟨(hshort p hp).1, reportsFit_short (hshort p hp).2⟩

/-- Ctrl-] and its key in two reads, then a report in two. -/
def cutReads : List (List Byte) :=
  [[0x61, 0x1d], [0x74, 0x1b, 0x5b, 0x3c], [0x30, 0x3b, 0x35, 0x3b, 0x37, 0x4d, 0x62]]

theorem pumpKeys_run_cut : ∃ h c, Run typingFire ⟨.start, []⟩ h c ∧
    c.pump.mon.done = [.sent 0x61, .command 't', .sent 0x62] ∧ c.pump.events = [⟨0, 5, 7, true⟩] ∧
    Run.Throughout AsWhole h c := by
  obtain ⟨h, c, hrun, hd⟩ := Run.exists_of_play typingFire ⟨.start, []⟩ cutReads
    (fun r => decide ((∀ p ∈ r.1, p.1.pump.mon.showHelp = false ∧ (p.1.stream ++ p.2).length ≤ 16) ∧
      Run.Meets (fun c data => ¬ Crossed c.pump data) r.1 ∧
      r.2.pump.mon.done = [.sent 0x61, .command 't', .sent 0x62] ∧
      r.2.pump.events = [⟨0, 5, 7, true⟩])) true (by decide +kernel)
  obtain ⟨hshort, hmeets, hdone, hevents⟩ := of_decide_eq_true hd
  exact ⟨h, c, hrun, hdone, hevents, (pumpKeys_run hrun (keyInput_short hshort)).mpr hmeets⟩

/-- Ctrl-] and Esc typed together, then `b`: the escape is lost, and the board is
reset. -/
theorem escape_lost : ∃ h c, Run typingFire ⟨.start, []⟩ h c ∧ Run.Meets KeyInput h ∧
    c.stream = [0x1d, 0x1b, 0x62] ∧ c.pump.mon.done = [.command 'b'] ∧
    (pumpRead c.stream .start).mon.done = [.command '\x1b', .sent 0x62] := by
  obtain ⟨h, c, hrun, hd⟩ := Run.exists_of_play typingFire ⟨.start, []⟩ [[0x1d, 0x1b], [0x62]]
    (fun r => decide ((∀ p ∈ r.1, p.1.pump.mon.showHelp = false ∧ (p.1.stream ++ p.2).length ≤ 16) ∧
      r.2.stream = [0x1d, 0x1b, 0x62] ∧ r.2.pump.mon.done = [.command 'b'] ∧
      (pumpRead r.2.stream .start).mon.done = [.command '\x1b', .sent 0x62])) true
    (by decide +kernel)
  obtain ⟨hshort, hrest⟩ := of_decide_eq_true hd
  exact ⟨h, c, hrun, keyInput_short hshort, hrest⟩

end P4Hyp
