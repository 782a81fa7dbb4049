import P4Hyp.Keys

/-!
# Raw passthrough

`run_raw` treats Ctrl-] as `route` does, but carries nothing from one read to the
next: a Ctrl-] at the end of a read is sent.
-/

namespace P4Hyp

/-- The loop over one read, with what it has collected, and whether it quits. -/
def rawLoop (buf : List Byte) : List Byte → List Byte × Bool
  | [] => (buf, false)
  | b :: bs =>
      if b = prefixKey then
        match bs with
        | [] => (buf ++ [b], false)
        | nxt :: bs =>
            if nxt = prefixKey then rawLoop (buf ++ [prefixKey]) bs
            else if chr nxt = 'q' then (buf, true)
            else rawLoop buf bs
      else rawLoop (buf ++ [b]) bs

structure Raw where
  stop : Bool
  /-- What has been written to the serial port. -/
  port : List Byte
deriving DecidableEq

def Raw.start : Raw := { stop := false, port := [] }

/-- One round of the loop of `run_raw`: `console.read` has returned `data`. -/
def rawRead (data : List Byte) (s : Raw) : Raw :=
  if data = [] then s
  else
    let r := rawLoop [] data
    let s := if r.2 then { s with stop := true } else s
    if r.1 = [] then s else { s with port := s.port ++ r.1 }

def runRaw : List (List Byte) → Raw → Raw
  | [], s => s
  | data :: reads, s => if s.stop then s else runRaw reads (rawRead data s)

/-- The keys ask to quit. -/
def quits : List Byte → Bool
  | [] => false
  | b :: bs =>
      if b = prefixKey then
        match bs with
        | [] => false
        | nxt :: bs => chr nxt = 'q' || quits bs
      else quits bs

/-- Nothing but Ctrl-], each typed twice. -/
def literals : List Byte → Bool
  | [] => true
  | [_] => false
  | a :: b :: bs => a = prefixKey && b = prefixKey && literals bs

/-- No read that the loop comes to ends with a Ctrl-] whose key is missing, unless
only doubled ones follow. -/
def KeyOnTime (reads : List (List Byte)) : Prop :=
  ∀ before data after, reads = before ++ data :: after → (∀ r ∈ before, quits r = false) →
    dangles data = true → ∀ r ∈ after, literals r = true

/-! ## Byte by byte -/

/-- The loop of `run_raw` between two bytes. -/
structure Keying where
  sent : List Byte
  /-- A Ctrl-] waits for its key. -/
  held : Bool
  stop : Bool
deriving DecidableEq

namespace Keying

def press (k : Keying) (b : Byte) : Keying :=
  if k.stop then k
  else if k.held then
    if b = prefixKey then { k with sent := k.sent ++ [prefixKey], held := false }
    else if chr b = 'q' then { k with held := false, stop := true }
    else { k with held := false }
  else if b = prefixKey then { k with held := true }
  else { k with sent := k.sent ++ [b] }

/-- The end of a read. -/
def cut (k : Keying) : Keying :=
  if k.held then { k with sent := k.sent ++ [prefixKey], held := false } else k

def read (k : Keying) (data : List Byte) : Keying := (data.foldl press k).cut

def raw (k : Keying) : Raw := { stop := k.stop, port := k.sent }

end Keying

theorem rawLoop_literal (buf bs : List Byte) :
    rawLoop buf (prefixKey :: prefixKey :: bs) = rawLoop (buf ++ [prefixKey]) bs := by
  rw [rawLoop, if_pos rfl, if_pos rfl]

theorem rawLoop_key {b : Byte} (hb : b ≠ prefixKey) (buf bs : List Byte) :
    rawLoop buf (b :: bs) = rawLoop (buf ++ [b]) bs := by
  rw [rawLoop.eq_def]
  exact if_neg hb

theorem rawLoop_command {nxt : Byte} (hne : nxt ≠ prefixKey) (buf bs : List Byte) :
    rawLoop buf (prefixKey :: nxt :: bs) =
      if chr nxt = 'q' then (buf, true) else rawLoop buf bs := by
  rw [rawLoop, if_pos rfl, if_neg hne]

namespace Keying

theorem foldl_press_stop {k : Keying} (h : k.stop = true) (data : List Byte) :
    data.foldl press k = k := by
  induction data with
  | nil => rfl
  | cons b data ih => rw [List.foldl_cons, press, if_pos h, ih]

theorem press_prefix (sent : List Byte) :
    press ⟨sent, false, false⟩ prefixKey = ⟨sent, true, false⟩ := by
  simp [press]

theorem press_other {b : Byte} (hb : b ≠ prefixKey) (sent : List Byte) :
    press ⟨sent, false, false⟩ b = ⟨sent ++ [b], false, false⟩ := by
  simp [press, hb]

theorem press_held_other {b : Byte} (hb : b ≠ prefixKey) (sent : List Byte) :
    press ⟨sent, true, false⟩ b = ⟨sent, false, decide (chr b = 'q')⟩ := by
  by_cases hq : chr b = 'q' <;> simp [press, hb, hq]

/-- The loop is one press after another and the end of the read. -/
theorem rawLoop_eq (buf data : List Byte) :
    rawLoop buf data = (((⟨buf, false, false⟩ : Keying).read data).sent,
      ((⟨buf, false, false⟩ : Keying).read data).stop) := by
  unfold read
  induction buf, data using rawLoop.induct with
  | case1 buf => rfl
  | case2 buf => 
      rw [List.foldl_cons, press_prefix]
      rfl
  | case3 buf bs ih =>
      rw [rawLoop_literal, ih, List.foldl_cons, press_prefix]
      rfl
  | case4 buf nxt bs hne hq =>
      rw [rawLoop_command hne, if_pos hq, List.foldl_cons, press_prefix, List.foldl_cons,
        press_held_other hne, foldl_press_stop (decide_eq_true hq), hq]
      rfl
  | case5 buf nxt bs hne hq ih =>
      rw [rawLoop_command hne, if_neg hq, ih, List.foldl_cons, press_prefix, List.foldl_cons,
        press_held_other hne, decide_eq_false hq]
  | case6 buf b bs hb ih =>
      rw [rawLoop_key hb, ih, List.foldl_cons, press_other hb]

end Keying

/-- What has been collected might as well have been written. -/
theorem rawLoop_append (before buf data : List Byte) :
    rawLoop (before ++ buf) data = (before ++ (rawLoop buf data).1, (rawLoop buf data).2) := by
  induction buf, data using rawLoop.induct with
  | case1 buf => rfl
  | case2 buf =>
      show (before ++ buf ++ [prefixKey], false) = _
      rw [List.append_assoc]
      rfl
  | case3 buf bs ih => rw [rawLoop_literal, rawLoop_literal, List.append_assoc, ih]
  | case4 buf nxt bs hne hq => rw [rawLoop_command hne, rawLoop_command hne, if_pos hq, if_pos hq]
  | case5 buf nxt bs hne hq ih =>
      rw [rawLoop_command hne, rawLoop_command hne, if_neg hq, if_neg hq, ih]
  | case6 buf b bs hb ih => rw [rawLoop_key hb, rawLoop_key hb, List.append_assoc, ih]

/-- Empty reads and empty writes make no difference. -/
theorem rawRead_eq (data : List Byte) {s : Raw} (hstop : s.stop = false) :
    rawRead data s = { stop := (rawLoop [] data).2, port := s.port ++ (rawLoop [] data).1 } := by
  obtain ⟨stop, port⟩ := s
  subst hstop
  unfold rawRead
  by_cases hdata : data = []
  · subst hdata
    simp [rawLoop]
  · rw [if_neg hdata]
    obtain ⟨out, quit⟩ := rawLoop [] data
    cases quit <;> by_cases hnil : out = [] <;> simp [hnil]

namespace Keying

theorem rawRead_raw {k : Keying} (hheld : k.held = false) (hstop : k.stop = false)
    (data : List Byte) : rawRead data k.raw = (k.read data).raw := by
  obtain ⟨sent, held, stop⟩ := k
  subst hheld hstop
  have happ := rawLoop_append sent [] data
  rw [List.append_nil, rawLoop_eq] at happ
  obtain ⟨hsent, hstop⟩ := Prod.mk.inj happ
  rw [raw, raw, hsent, hstop]
  exact rawRead_eq data rfl

theorem cut_held (k : Keying) : k.cut.held = false := by
  unfold cut
  split
  · rfl
  · rename_i h
    exact Bool.not_eq_true _ ▸ h

theorem read_stop {k : Keying} (hheld : k.held = false) (hstop : k.stop = true)
    (data : List Byte) : k.read data = k := by
  rw [read, foldl_press_stop hstop, cut, hheld]
  rfl

theorem runRaw_raw {k : Keying} (hheld : k.held = false) (reads : List (List Byte)) :
    runRaw reads k.raw = (reads.foldl read k).raw := by
  induction reads generalizing k with
  | nil => rfl
  | cons data reads ih =>
      rw [runRaw, List.foldl_cons]
      cases hstop : k.stop with
      | true =>
          rw [read_stop hheld hstop, ← ih hheld]
          cases reads with
          | nil => exact if_pos hstop
          | cons => exact (if_pos hstop).trans (if_pos hstop).symm
      | false =>
          rw [if_neg (by simp [raw, hstop]), rawRead_raw hheld hstop]
          exact ih (cut_held _)

/-! ## Two ways to read -/

def quitKey : Byte := 0x71

theorem chr_quit (b : Byte) : chr b = 'q' ↔ b = quitKey := by
  constructor
  · intro h
    have hb := toNat_chr b
    rw [h] at hb
    exact BitVec.eq_of_toNat_eq hb.symm
  · rintro rfl
    rfl

theorem quitKey_ne : quitKey ≠ prefixKey := by decide

/-- The cut keys `c` have sent the Ctrl-] that the whole ones `w` still hold. -/
def Ahead (c w : Keying) : Prop :=
  c.sent = w.sent ++ [prefixKey] ∧ c.held = false ∧ w.held = true ∧ c.stop = false ∧ w.stop = false

/-- They have sent the same, and the cut keys hold one more. -/
def Behind (c w : Keying) : Prop :=
  c.sent = w.sent ∧ c.held = true ∧ w.held = false ∧ c.stop = false ∧ w.stop = false

/-- The Ctrl-] that the whole keys hold and the cut ones do not. -/
def lent (c w : Keying) : Nat := if w.held && !c.held then 1 else 0

/-- The two never agree again: one of them has stopped where the other sends `q`, or
the cut keys have sent a Ctrl-] too many, or a key too few. -/
def Diverged (c w : Keying) : Prop :=
  (w.stop = true ∧ w.sent.count quitKey < c.sent.count quitKey) ∨
  (c.stop = true ∧ c.sent.count quitKey < w.sent.count quitKey) ∨
  (c.stop = w.stop ∧ c.sent.count quitKey = w.sent.count quitKey ∧
    (w.sent.count prefixKey + lent c w < c.sent.count prefixKey ∨
      w.sent.count prefixKey + lent c w = c.sent.count prefixKey ∧
        c.sent.length < w.sent.length + lent c w))

theorem diverged_press {c w : Keying} (h : Diverged c w) (b : Byte) :
    Diverged (c.press b) (w.press b) := by
  obtain ⟨cs, ch, cq⟩ := c
  obtain ⟨ws, wh, wq⟩ := w
  by_cases hp : b = prefixKey
  · subst hp
    cases cq <;> cases wq <;> cases ch <;> cases wh <;>
      simp_all [Diverged, press, lent, List.count_append, quitKey_ne.symm]
  · by_cases hq : b = quitKey
    · subst hq
      cases cq <;> cases wq <;> cases ch <;> cases wh <;>
        simp_all [Diverged, press, lent, List.count_append, quitKey_ne, chr_quit] <;> omega
    · cases cq <;> cases wq <;> cases ch <;> cases wh <;>
        simp_all [Diverged, press, lent, List.count_append, chr_quit] <;> omega

theorem diverged_cut {c w : Keying} (h : Diverged c w) : Diverged c.cut w := by
  obtain ⟨cs, ch, cq⟩ := c
  obtain ⟨ws, wh, wq⟩ := w
  cases cq <;> cases wq <;> cases ch <;> cases wh <;>
    simp_all [Diverged, cut, lent, List.count_append, quitKey_ne.symm] <;> omega

theorem diverged_foldl {c w : Keying} (h : Diverged c w) (data : List Byte) :
    Diverged (data.foldl press c) (data.foldl press w) := by
  induction data generalizing c w with
  | nil => exact h
  | cons b data ih => exact ih (diverged_press h b)

theorem diverged_raw {c w : Keying} (h : Diverged c w) (hheld : c.held = false) :
    c.raw ≠ w.cut.raw := by
  obtain ⟨cs, ch, cq⟩ := c
  obtain ⟨ws, wh, wq⟩ := w
  subst hheld
  intro he
  have hsent : cs = (cut ⟨ws, wh, wq⟩).sent := congrArg Raw.port he
  rcases h with ⟨-, hlt⟩ | ⟨-, hlt⟩ | ⟨-, -, hlt⟩ <;> cases wh <;>
    simp_all [cut, lent, List.count_append, quitKey_ne.symm]

theorem ahead_press {c w : Keying} (h : Ahead c w) (b : Byte) :
    if b = prefixKey then Behind (c.press b) (w.press b) else Diverged (c.press b) (w.press b) := by
  obtain ⟨cs, ch, cq⟩ := c
  obtain ⟨ws, wh, wq⟩ := w
  obtain ⟨rfl, rfl, rfl, rfl, rfl⟩ := h
  split
  · rename_i hb
    subst hb
    simp [Behind, press]
  · rename_i hb
    rw [press_other hb, press_held_other hb]
    by_cases hq : b = quitKey <;>
      simp [Diverged, lent, hb, hq, quitKey_ne, quitKey_ne.symm, chr_quit, List.count_append]

theorem behind_press {c w : Keying} (h : Behind c w) (b : Byte) :
    if b = prefixKey then Ahead (c.press b) (w.press b) else Diverged (c.press b) (w.press b) := by
  obtain ⟨cs, ch, cq⟩ := c
  obtain ⟨ws, wh, wq⟩ := w
  obtain ⟨rfl, rfl, rfl, rfl, rfl⟩ := h
  split
  · rename_i hb
    subst hb
    simp [Ahead, press]
  · rename_i hb
    rw [press_held_other hb, press_other hb]
    by_cases hq : b = quitKey <;>
      simp [Diverged, lent, hb, hq, quitKey_ne, chr_quit, List.count_append]

theorem behind_cut {c w : Keying} (h : Behind c w) : Diverged c.cut w := by
  obtain ⟨cs, ch, cq⟩ := c
  obtain ⟨ws, wh, wq⟩ := w
  obtain ⟨rfl, rfl, rfl, rfl, rfl⟩ := h
  simp [Diverged, cut, lent, List.count_append, quitKey_ne.symm]

theorem read_ahead {c w : Keying} (h : Ahead c w) (data : List Byte) :
    if literals data then Ahead (c.read data) (data.foldl press w)
    else Diverged (c.read data) (data.foldl press w) := by
  unfold read
  induction data using literals.induct generalizing c w with
  | case1 =>
      have hcut : cut c = c := if_neg (by simp [h.2.1])
      simpa [literals, hcut] using h
  | case2 b =>
      have hb := ahead_press h b
      split at hb
      · exact behind_cut hb
      · exact diverged_cut hb
  | case3 a b data ih =>
      have ha := ahead_press h a
      by_cases hpa : a = prefixKey
      · rw [if_pos hpa] at ha
        have hb := behind_press ha b
        by_cases hpb : b = prefixKey
        · rw [if_pos hpb] at hb
          simpa [literals, hpa, hpb] using ih hb
        · rw [if_neg hpb] at hb
          simpa [literals, hpb] using diverged_cut (diverged_foldl hb data)
      · rw [if_neg hpa] at ha
        simpa [literals, hpa] using diverged_cut (diverged_foldl (diverged_press ha b) data)

theorem read_diverged {c w : Keying} (h : Diverged c w) (data : List Byte) :
    Diverged (c.read data) (data.foldl press w) :=
  diverged_cut (diverged_foldl h data)

theorem foldl_press_read (buf data : List Byte) :
    (data.foldl press ⟨buf, false, false⟩).held = dangles data ∧
      (data.foldl press ⟨buf, false, false⟩).stop = quits data := by
  induction buf, data using rawLoop.induct with
  | case1 buf => exact ⟨rfl, rfl⟩
  | case2 buf =>
      rw [List.foldl_cons, press_prefix]
      exact ⟨rfl, rfl⟩
  | case3 buf bs ih =>
      have hp : chr prefixKey ≠ 'q' := by decide
      simpa [dangles, quits, press, hp] using ih
  | case4 buf nxt bs hne hq =>
      rw [List.foldl_cons, press_prefix, List.foldl_cons, press_held_other hne,
        foldl_press_stop (decide_eq_true hq)]
      simp [dangles, quits, hq]
  | case5 buf nxt bs hne hq ih =>
      rw [List.foldl_cons, press_prefix, List.foldl_cons, press_held_other hne,
        decide_eq_false hq]
      simpa [dangles, quits, hq] using ih
  | case6 buf b bs hb ih =>
      rw [List.foldl_cons, press_other hb, dangles.eq_def, quits.eq_def]
      simpa [hb] using ih

theorem agree_diverged {c w : Keying} (h : Diverged c w) (hheld : c.held = false)
    (reads : List (List Byte)) :
    (reads.foldl read c).raw ≠ (reads.flatten.foldl press w).cut.raw := by
  induction reads generalizing c w with
  | nil => exact diverged_raw h hheld
  | cons data reads ih =>
      rw [List.foldl_cons, List.flatten_cons, List.foldl_append]
      exact ih (read_diverged h data) (cut_held _)

theorem agree_ahead {c w : Keying} (h : Ahead c w) (reads : List (List Byte)) :
    (reads.foldl read c).raw = (reads.flatten.foldl press w).cut.raw ↔
      ∀ data ∈ reads, literals data = true := by
  induction reads generalizing c w with
  | nil =>
      obtain ⟨hsent, -, hw, hc, hs⟩ := h
      simp [raw, cut, hw, hsent, hc, hs]
  | cons data reads ih =>
      rw [List.foldl_cons, List.flatten_cons, List.foldl_append, List.forall_mem_cons]
      have hread := read_ahead h data
      by_cases hl : literals data = true
      · rw [if_pos hl] at hread
        rw [ih hread]
        exact ⟨fun hr => ⟨hl, hr⟩, And.right⟩
      · rw [if_neg hl] at hread
        exact ⟨fun he => absurd he (agree_diverged hread (cut_held _) reads), fun hr => absurd hr.1 hl⟩

theorem keyOnTime_cons (data : List Byte) (reads : List (List Byte)) :
    KeyOnTime (data :: reads) ↔ (dangles data = true → ∀ r ∈ reads, literals r = true) ∧
      (quits data = false → KeyOnTime reads) := by
  constructor
  · intro h
    refine ⟨h [] data reads rfl (fun r hr => absurd hr (List.not_mem_nil)), ?_⟩
    intro hq before data' after he hb
    exact h (data :: before) data' after (by rw [he]; rfl) (List.forall_mem_cons.mpr ⟨hq, hb⟩)
  · rintro ⟨hhead, htail⟩ before data' after he hb
    cases before with
    | nil =>
        obtain ⟨rfl, rfl⟩ := List.cons.inj he
        exact hhead
    | cons x before =>
        obtain ⟨rfl, rfl⟩ := List.cons.inj he
        obtain ⟨hq, hb⟩ := List.forall_mem_cons.mp hb
        exact htail hq before data' after rfl hb

theorem literals_dangles {data : List Byte} (h : literals data = true) : dangles data = false := by
  induction data using literals.induct with
  | case1 => rfl
  | case2 => cases h
  | case3 a b data ih =>
      simp only [literals, Bool.and_eq_true, decide_eq_true_eq] at h
      obtain ⟨⟨rfl, rfl⟩, hl⟩ := h
      simp [dangles, ih hl]

theorem keyOnTime_literals {reads : List (List Byte)} (h : ∀ r ∈ reads, literals r = true) :
    KeyOnTime reads := by
  rintro before data after rfl - hd
  rw [literals_dangles (h data (by simp))] at hd
  cases hd

theorem dangles_quits {data : List Byte} (h : dangles data = true) : quits data = false := by
  induction data using dangles.induct with
  | case1 => cases h
  | case2 => rfl
  | case3 nxt bs ih =>
      simp only [dangles, if_true, Bool.and_eq_true, decide_eq_true_eq] at h
      simp [quits, h.1, ih h.2]
  | case4 b bs hb ih =>
      rw [dangles.eq_def] at h
      rw [quits.eq_def]
      simp only [if_neg hb] at h ⊢
      exact ih h

theorem read_same {k : Keying} (hheld : k.held = false) (hstop : k.stop = false)
    (data : List Byte) : if dangles data then Ahead (k.read data) (data.foldl press k)
      else k.read data = data.foldl press k ∧ (k.read data).stop = quits data := by
  obtain ⟨buf, held, stop⟩ := k
  subst hheld hstop
  obtain ⟨hheld, hstop⟩ := foldl_press_read buf data
  unfold read
  generalize data.foldl press ⟨buf, false, false⟩ = k at hheld hstop
  split
  · rename_i hd
    rw [hd] at hheld
    rw [dangles_quits hd] at hstop
    rw [cut, if_pos hheld]
    exact ⟨rfl, rfl, hheld, hstop, hstop⟩
  · rename_i hd
    rw [cut, if_neg (by rwa [hheld])]
    exact ⟨rfl, hstop⟩

theorem agree_same {k : Keying} (hheld : k.held = false) (reads : List (List Byte)) :
    (reads.foldl read k).raw = (reads.flatten.foldl press k).cut.raw ↔
      k.stop = true ∨ KeyOnTime reads := by
  induction reads generalizing k with
  | nil =>
      have hcut : k.cut = k := if_neg (by simp [hheld])
      have hnil : KeyOnTime [] := fun before _ _ he => by simp at he
      simp [hcut, hnil]
  | cons data reads ih =>
      rw [List.foldl_cons, List.flatten_cons, List.foldl_append]
      cases hstop : k.stop with
      | true =>
          rw [read_stop hheld hstop, foldl_press_stop hstop, ih hheld]
          simp [hstop]
      | false =>
          have hread := read_same hheld hstop data
          rw [keyOnTime_cons]
          by_cases hd : dangles data = true
          · rw [if_pos hd] at hread
            rw [agree_ahead hread]
            simp only [hd, dangles_quits hd, true_implies, Bool.false_eq_true, false_or]
            exact ⟨fun hl => ⟨hl, keyOnTime_literals hl⟩, And.left⟩
          · rw [if_neg hd] at hread
            have hnext := ih (k := k.read data) (cut_held _)
            rw [← hread.1, hnext, hread.2]
            cases quits data <;> simp [hd]

end Keying

/-- The reads are as good as one read of all the keys exactly when each Ctrl-] comes
together with its key. -/
theorem runRaw_cut_iff (reads : List (List Byte)) :
    runRaw reads .start = runRaw [reads.flatten] .start ↔ KeyOnTime reads := by
  have hcut := Keying.runRaw_raw (k := ⟨[], false, false⟩) rfl reads
  have hwhole := Keying.runRaw_raw (k := ⟨[], false, false⟩) rfl [reads.flatten]
  have hagree := Keying.agree_same (k := ⟨[], false, false⟩) rfl reads
  show runRaw reads (Keying.raw ⟨[], false, false⟩) =
    runRaw [reads.flatten] (Keying.raw ⟨[], false, false⟩) ↔ _
  rw [hcut, hwhole]
  exact hagree.trans (or_iff_right (by decide))

/-- Ctrl-] and `q`, one key a read: both are sent, and the loop goes on. -/
theorem quit_key_sent :
    runRaw [[0x1d], [0x71]] .start = { stop := false, port := [0x1d, 0x71] } ∧
    runRaw [[0x1d, 0x71]] .start = { stop := true, port := [] } ∧
    ¬ ∀ reads, runRaw reads .start = runRaw [reads.flatten] .start := by
  refine ⟨by decide, by decide, fun h => ?_⟩
  exact absurd (h [[0x1d], [0x71]]) (by decide)

end P4Hyp
