import P4Hyp.Screen.Growth
import P4Hyp.Screen.Pen
import P4Hyp.Screen.Resync
import P4Hyp.Screen.Scroll

/-!
# Private sequences

A sequence with one of the prefixes `<`, `=`, `>` and `?`, or with an intermediate character, is
not the standard one with the same final.  The prefix is taken off before the parameters are
read, and then only the set and the reset of modes ask for it.
-/

namespace P4Hyp

/-! ## Attributes -/

/-- The parameters of SGR that `_sgr` knows. -/
def SgrKnown (v : Nat) : Prop :=
  v ∈ [0, 1, 2, 3, 4, 5, 7, 22, 23, 24, 25, 27, 38, 39, 48, 49] ∨ 30 ≤ v ∧ v ≤ 37 ∨
    40 ≤ v ∧ v ≤ 47 ∨ 90 ≤ v ∧ v ≤ 97 ∨ 100 ≤ v ∧ v ≤ 107

instance (v : Nat) : Decidable (SgrKnown v) := inferInstanceAs (Decidable (_ ∨ _ ∨ _ ∨ _ ∨ _))

/-- What a parameter that stands alone does. -/
inductive SgrOp
  | reset
  | attr (on : Bool) (m : BitVec 6) (hm : m ≠ 0)
  | fg (n : Int)
  | bg (n : Int)

def SgrOp.apply : SgrOp → Style → Style
  | reset, _ => .default
  | attr on m _, t => { t with attr := if on then t.attr ||| m else t.attr &&& ~~~m }
  | fg n, t => { t with fg := n }
  | bg n, t => { t with bg := n }

/-- `sgrOne` as one of these, if it knows the parameter. -/
def sgrOp (v : Nat) : Option SgrOp :=
  if v = 0 then some .reset
  else if v = 1 then some (.attr true Style.bold (by decide))
  else if v = 2 then some (.attr true Style.dim (by decide))
  else if v = 3 then some (.attr true Style.italic (by decide))
  else if v = 4 then some (.attr true Style.underline (by decide))
  else if v = 5 then some (.attr true Style.blink (by decide))
  else if v = 7 then some (.attr true Style.reverse (by decide))
  else if v = 22 then some (.attr false (Style.bold ||| Style.dim) (by decide))
  else if v = 23 then some (.attr false Style.italic (by decide))
  else if v = 24 then some (.attr false Style.underline (by decide))
  else if v = 25 then some (.attr false Style.blink (by decide))
  else if v = 27 then some (.attr false Style.reverse (by decide))
  else if 30 ≤ v ∧ v ≤ 37 then some (.fg (v - 30))
  else if v = 39 then some (.fg Style.defaultFg)
  else if 40 ≤ v ∧ v ≤ 47 then some (.bg (v - 40))
  else if v = 49 then some (.bg Style.defaultBg)
  else if 90 ≤ v ∧ v ≤ 97 then some (.fg (v - 90 + 8))
  else if 100 ≤ v ∧ v ≤ 107 then some (.bg (v - 100 + 8))
  else none

/-- A part of a style: one attribute or one colour. -/
inductive StylePart
  | bit (i : Fin 6)
  | foreground
  | background

namespace StylePart

/-- The styles agree on the part. -/
def Agree : StylePart → Style → Style → Prop
  | bit i, t, u => t.attr[i] = u.attr[i]
  | foreground, t, u => t.fg = u.fg
  | background, t, u => t.bg = u.bg

end StylePart

section Parts

variable {c : StylePart} {t u : Style} {v : Nat} {p : List Nat}

theorem sgrOne_eq (v : Nat) (t : Style) :
    sgrOne v t = ((sgrOp v).map (SgrOp.apply · t)).getD t := by
  have hite {c : Prop} [Decidable c] (o : SgrOp) (x : Option SgrOp) :
      ((if c then some o else x).map (SgrOp.apply · t)).getD t =
        if c then o.apply t else (x.map (SgrOp.apply · t)).getD t := by
    split <;> rfl
  unfold sgrOne sgrOp
  simp only [hite]
  rfl

theorem sgrOp_eq_none : sgrOp v = none ↔ ¬ (SgrKnown v ∧ v ≠ 38 ∧ v ≠ 48) := by
  have hite {c : Prop} [Decidable c] (o : SgrOp) (x : Option SgrOp) :
      (if c then some o else x) = none ↔ ¬ c ∧ x = none := by
    split <;> simp [*]
  unfold sgrOp SgrKnown
  simp only [hite, List.mem_cons, List.not_mem_nil, or_false, and_true]
  omega

/-- An operation leaves styles in agreement on what they agree on. -/
theorem agree_apply (h : c.Agree t u) (o : SgrOp) : c.Agree (o.apply t) (o.apply u) := by
  cases o with
  | reset => cases c <;> rfl
  | attr on m hm =>
      cases c with
      | bit i =>
          have hbit : t.attr[i] = u.attr[i] := h
          cases on with
          | false =>
              show (t.attr &&& ~~~m)[i] = (u.attr &&& ~~~m)[i]
              simp only [Fin.getElem_fin, BitVec.getElem_and] at hbit ⊢
              rw [hbit]
          | true =>
              show (t.attr ||| m)[i] = (u.attr ||| m)[i]
              simp only [Fin.getElem_fin, BitVec.getElem_or] at hbit ⊢
              rw [hbit]
      | foreground => exact h
      | background => exact h
  | fg n =>
      cases c with
      | foreground => rfl
      | bit i => exact h
      | background => exact h
  | bg n =>
      cases c with
      | background => rfl
      | bit i => exact h
      | foreground => exact h

/-- And brings them into agreement on something. -/
theorem apply_agree (o : SgrOp) : ∃ c : StylePart, ∀ t u, c.Agree (o.apply t) (o.apply u) := by
  cases o with
  | reset => exact ⟨.foreground, fun _ _ => rfl⟩
  | attr on m hm =>
      obtain ⟨i, hi⟩ : ∃ i : Fin 6, m[i] = true := by
        by_contra hno
        refine hm (BitVec.eq_of_getElem_eq fun i hlt => ?_)
        have hbit : m[i] = false := Bool.eq_false_iff.mpr fun he => hno ⟨⟨i, hlt⟩, he⟩
        exact hbit.trans (BitVec.getElem_zero hlt).symm
      refine ⟨.bit i, fun t u => ?_⟩
      rw [Fin.getElem_fin] at hi
      cases on with
      | false =>
          show (t.attr &&& ~~~m)[i] = (u.attr &&& ~~~m)[i]
          simp [hi]
      | true =>
          show (t.attr ||| m)[i] = (u.attr ||| m)[i]
          simp [hi]
  | fg n => exact ⟨.foreground, fun _ _ => rfl⟩
  | bg n => exact ⟨.background, fun _ _ => rfl⟩

theorem sgrOne_unknown (h : ¬ SgrKnown v) (t : Style) : sgrOne v t = t := by
  rw [sgrOne_eq, sgrOp_eq_none.mpr fun hk => h hk.1]
  rfl

theorem agree_sgrRun (h : c.Agree t u) (p : List Nat) : c.Agree (sgrRun p t) (sgrRun p u) := by
  suffices hall : ∀ (fuel : Nat) (p : List Nat) (t u : Style), c.Agree t u →
      c.Agree (sgrLoop fuel p t) (sgrLoop fuel p u) from hall _ _ _ _ h
  intro fuel
  induction fuel with
  | zero => exact fun _ _ _ h => h
  | succ fuel ih =>
      intro p t u h
      cases p with
      | nil => exact h
      | cons v rest =>
          rw [sgrLoop, sgrLoop]
          split
          · exact ih _ _ _ (agree_apply h (.fg _))
          · split
            · exact ih _ _ _ (agree_apply h (.bg _))
            · apply ih
              rw [sgrOne_eq, sgrOne_eq]
              cases sgrOp v with
              | none => exact h
              | some o => exact agree_apply h o

theorem sgrRun_unknown (h : ∀ v ∈ p, ¬ SgrKnown v) (t : Style) : sgrRun p t = t := by
  induction p generalizing t with
  | nil => rfl
  | cons v p ih =>
      obtain ⟨hv, hp⟩ := List.forall_mem_cons.mp h
      have hplain : v ≠ 38 ∧ v ≠ 48 := by
        constructor <;> (rintro rfl; exact hv (by decide))
      rw [sgrRun_plain hplain, sgrOne_unknown hv]
      exact ih hp t

/-- With a known parameter the list brings all styles into agreement on something. -/
theorem sgrRun_agree (h : ∃ v ∈ p, SgrKnown v) :
    ∃ c : StylePart, ∀ t u, c.Agree (sgrRun p t) (sgrRun p u) := by
  induction p with
  | nil =>
      obtain ⟨v, hv, -⟩ := h
      cases hv
  | cons v p ih =>
      by_cases hfg : v = 38
      · subst hfg
        refine ⟨.foreground, fun t u => ?_⟩
        rw [sgrRun_fg, sgrRun_fg]
        refine agree_sgrRun ?_ _
        exact rfl
      · by_cases hbg : v = 48
        · subst hbg
          refine ⟨.background, fun t u => ?_⟩
          rw [sgrRun_bg, sgrRun_bg]
          refine agree_sgrRun ?_ _
          exact rfl
        · simp only [sgrRun_plain ⟨hfg, hbg⟩]
          cases ho : sgrOp v with
          | some o =>
              obtain ⟨c, hc⟩ := apply_agree o
              refine ⟨c, fun t u => agree_sgrRun ?_ p⟩
              rw [sgrOne_eq, sgrOne_eq, ho]
              exact hc t u
          | none =>
              have hv : ¬ SgrKnown v := fun hk => sgrOp_eq_none.mp ho ⟨hk, hfg, hbg⟩
              obtain ⟨w, hw, hknown⟩ := h
              have hrest : w ∈ p := (List.mem_cons.mp hw).resolve_left fun he => hv (he ▸ hknown)
              obtain ⟨c, hc⟩ := ih ⟨w, hrest, hknown⟩
              exact ⟨c, fun t u => hc _ _⟩

end Parts

namespace Screen

/-! ## Modes -/

/-- The modes that `_mode` knows. -/
def ModeKnown (m : Nat) : Prop := m = 7 ∨ m = 25 ∨ IsAltMode m ∨ m = 1048

instance (m : Nat) : Decidable (ModeKnown m) := inferInstanceAs (Decidable (_ ∨ _ ∨ _ ∨ _))

section Modes

variable {α σ : Type*} {f : σ → α → σ} {m : α} {p : List α}

/-- Steps that do nothing. -/
theorem foldl_still {s : σ} (h : ∀ m ∈ p, f s m = s) : p.foldl f s = s := by
  induction p with
  | nil => rfl
  | cons m p ih =>
      obtain ⟨hm, hp⟩ := List.forall_mem_cons.mp h
      rw [List.foldl_cons, hm]
      exact ih hp

/-- What one step brings about and none undoes holds behind them. -/
theorem foldl_reaches {I : σ → Prop} (hm : m ∈ p) (hset : ∀ s, I (f s m))
    (hkeep : ∀ s k, I s → I (f s k)) (s : σ) : I (p.foldl f s) := by
  obtain ⟨before, after, rfl⟩ := List.append_of_mem hm
  rw [List.foldl_append, List.foldl_cons]
  exact List.foldlRecOn after f (hset _) fun t ht k _ => hkeep t k ht

end Modes

section Modes

variable {s : Screen} {on : Bool} {p : List Nat}

theorem mode_unknown (h : ∀ m ∈ p, ¬ ModeKnown m) (on : Bool) (s : Screen) : s.mode p on = s := by
  refine foldl_still fun m hm => ?_
  have hno := h m hm
  simp only [ModeKnown, not_or] at hno
  rw [modeOne, if_neg hno.1, if_neg hno.2.1, if_neg hno.2.2.1, if_neg hno.2.2.2]

theorem ansiMode_unknown (h : 4 ∉ p) (on : Bool) (s : Screen) : s.ansiMode p on = s :=
  foldl_still fun m hm => if_neg fun he : m = 4 => h (he ▸ hm)

theorem ansiMode_reaches (h : 4 ∈ p) (on : Bool) (s : Screen) : (s.ansiMode p on).insertMode = on :=
  foldl_reaches (I := fun s => s.insertMode = on) h (fun _ => rfl) (fun t k ht => by
    show (t.ansiModeOne on k).insertMode = on
    unfold ansiModeOne
    split
    · rfl
    · exact ht) s

end Modes

/-! ## Sequences -/

/-- The sequence has a private prefix and is not the set or the reset of private modes, or it has an
intermediate character. -/
def Sequence.Private (q : Sequence) : Prop :=
  (∃ c ∈ q.parm.head?, c = '<' ∨ c = '=' ∨ c = '>' ∨
      c = '?' ∧ ∀ on, Csi.of (chr q.final) ≠ .mode on) ∨ q.inter ≠ []

/-- Rows and columns allow for the scrolling region with some size of the screen. -/
def RegionFits (m : Nat × Nat) : Prop := m.2 = 0 ∨ max 1 m.1 < m.2

instance (m : Nat × Nat) : Decidable (RegionFits m) := inferInstanceAs (Decidable (_ ∨ _))

/-- The standard sequence with the same final and parameters does something on some screen. -/
def Sequence.Acts (q : Sequence) : Prop :=
  match Csi.of (chr q.final) with
  | .unknown | .report => False
  | .mode _ =>
      ∃ p ∈ parmsOf 0 1 q.parm, if q.parm.head? == some '?' then ∃ m ∈ p, ModeKnown m else 4 ∈ p
  | .sgr => ∃ p ∈ parmsOf 0 1 q.parm, ∃ v ∈ p, SgrKnown v
  | .decstbm => ∃ m ∈ pairOf 0 q.parm, RegionFits m
  | _ => True

/-- Nothing has changed but what the parser keeps of the sequence, and the count of those that are
not known. -/
def Swallowed (s t : Screen) : Prop :=
  t = { s with parm := t.parm, inter := t.inter, unknown := t.unknown,
               unknownSeqs := t.unknownSeqs }

/-- A screen between two characters or sequences of the guest. -/
structure Ground (s : Screen) : Prop where
  reached : ∃ rows cols limit h bs, Run feedFire ⟨init rows cols limit, []⟩ h ⟨s, bs⟩
  raised : s.raised = none
  ground : s.state = .text

/-- The sequence is swallowed wherever it comes, if it is a private one. -/
def Ignored (q : Sequence) : Prop := q.Private → ∀ s, Ground s → Swallowed s (s.bytes q.bytes)

section Sequences

variable {s t : Screen} {q : Sequence} {p : List Nat}

theorem Ground.ok (h : Ground s) : s.Ok none := by
  obtain ⟨rows, cols, limit, h', bs, hrun⟩ := h.reached
  have hsound := sound_run hrun
  show s.Ok none
  rw [← h.raised]
  exact hsound.1

/-- Bytes of ASCII lead from a new screen to one. -/
theorem ground_bytes {rows cols : Int} {limit : Nat} {bs : List Byte} (hne : bs ≠ [])
    (hb : ∀ b ∈ bs, b.toNat < 0x80) (hr : ((init rows cols limit).bytes bs).raised = none)
    (hs : ((init rows cols limit).bytes bs).state = .text) :
      Ground ((init rows cols limit).bytes bs) where
  reached := by
    obtain ⟨h, hrun⟩ := feed_run (s := init rows cols limit) hne rfl .start
    rw [feed_ascii rfl hb] at hrun
    exact ⟨rows, cols, limit, _, _, hrun⟩
  raised := hr
  ground := hs

theorem Swallowed.same {β : Type*} (h : Swallowed s t) (f : Screen → β)
    (hf : ∀ parm inter unknown unknownSeqs, f { s with parm, inter, unknown, unknownSeqs } = f s) :
    f t = f s :=
  (congrArg f h).trans (hf _ _ _ _)

/-! ### Those that do nothing -/

theorem parmsOf_ne_nil {parm : Str} (hp : parmsOf 0 1 parm = some p) : p ≠ [] := by
  have hne : parmPieces parm ≠ [] := List.splitOn_ne_nil _ _
  unfold parmsOf at hp
  split at hp
  · cases hp
  · obtain rfl := Option.some.inj hp
    exact List.append_ne_nil_of_left_ne_nil (by simpa using hne) _

theorem regionOf_none {rows : Nat} {m : Nat × Nat} (h : ¬ RegionFits m) :
    regionOf rows m.1 m.2 = none := by
  simp only [RegionFits, not_or] at h
  unfold regionOf
  simp only
  rw [if_neg h.1, if_neg]
  split <;> omega

theorem regionOf_fits {m : Nat × Nat} (h : RegionFits m) :
    ∃ rows, 0 < rows ∧ regionOf rows m.1 m.2 ≠ none := by
  refine ⟨max (max 1 m.1 + 1) m.2, by omega, ?_⟩
  unfold regionOf
  simp only
  rw [if_pos]
  · exact Option.some_ne_none _
  · unfold RegionFits at h
    split <;> split <;> omega

theorem effect_still (hr : ¬ Raises (chr q.final) q.parm) (ha : ¬ q.Acts) (s : Screen)
    (hs : s.state = .text) :
    Swallowed s (q.effect s) := by
  have hground : { s with state := .text, parm := q.parm, inter := q.inter } =
      { s with parm := q.parm, inter := q.inter } := by rw [← hs]
  have hsome : ∃ p, parmsOf 0 1 q.parm = some p :=
    Option.ne_none_iff_exists'.mp fun hnone => hr (.inl (parmsOf_eq_none.mp hnone))
  obtain ⟨p, hp⟩ := hsome
  rw [Sequence.effect, hground]
  simp only [dispatch, hp]
  unfold control
  unfold Sequence.Acts at ha
  cases hc : Csi.of (chr q.final) with
  | mode on =>
      simp only [hc, hp, Option.mem_def, Option.some.injEq, exists_eq_left'] at ha
      show Swallowed s (if priv _ then mode p on _ else ansiMode p on _)
      unfold priv
      split
      · rename_i hpriv
        rw [if_pos hpriv] at ha
        rw [mode_unknown fun m hm hk => ha ⟨m, hm, hk⟩]
        rfl
      · rename_i hpriv
        rw [if_neg hpriv] at ha
        rw [ansiMode_unknown ha]
        rfl
  | sgr =>
      simp only [hc, hp, Option.mem_def, Option.some.injEq, exists_eq_left'] at ha
      have hne : p ≠ [] := parmsOf_ne_nil hp
      show Swallowed s (sgr p _)
      rw [sgr_eq hne, sgrRun_unknown fun v hv hk => ha ⟨v, hv, hk⟩]
      rfl
  | decstbm =>
      simp only [hc] at ha
      have hpair : pairOf 0 q.parm ≠ none := fun hnone => hr ((pairOf_eq_none.mp hnone).imp_right
        fun hlong => ⟨.inr hc, hlong⟩)
      obtain ⟨m, hm⟩ := Option.ne_none_iff_exists'.mp hpair
      have hno : regionOf s.rows m.1 m.2 = none := regionOf_none fun hfits => ha ⟨m, hm, hfits⟩
      show Swallowed s (setMargins _)
      simp only [setMargins, hm, hno]
      rfl
  | unknown => rfl
  | report => rfl
  | _ =>
      simp only [hc, not_true_eq_false] at ha

/-! ### Those that do something -/

/-- Two characters in the first row of a small screen. -/
def cornered : Screen :=
  { init 2 2 10 with
    grid := [[⟨'x', .default⟩, ⟨'x', .default⟩], blankRow 2]
    cx := 1
    pendingWrap := true
    lastCh := some 'x' }

/-- A screen of which all modes, attributes and colours have been changed, in the alternate buffer. -/
def altered : Screen :=
  { init 2 2 10 with
    altGrid := some (newGrid 2 2)
    style := { attr := 0x3f, fg := 0, bg := 0 }
    autowrap := false
    insertMode := true
    cursorVisible := false
    saved := some { cx := 0, cy := 0, style := { attr := 0x3f, fg := 0, bg := 0 }, graphics := false,
                    shifted := false }
    parm := ['?', '1', '0', '4', '9'] }

theorem ground_cornered : Ground cornered := by
  have he : cornered = (init 2 2 10).bytes [0x78, 0x78] := by decide +kernel
  rw [he]
  exact ground_bytes (List.cons_ne_nil _ _) (by decide) (by decide +kernel) (by decide +kernel)

theorem ground_altered : Ground altered := by
  have he : altered = (init 2 2 10).bytes
      ([0x1b, 0x5b, 0x31, 0x3b, 0x32, 0x3b, 0x33, 0x3b, 0x34, 0x3b, 0x35, 0x3b, 0x37, 0x3b, 0x33, 0x30,
          0x3b, 0x34, 0x30, 0x6d] ++ [0x1b, 0x5b, 0x34, 0x68] ++
        [0x1b, 0x5b, 0x3f, 0x37, 0x3b, 0x32, 0x35, 0x6c] ++
        [0x1b, 0x5b, 0x3f, 0x31, 0x30, 0x34, 0x39, 0x68]) := by decide +kernel
  rw [he]
  exact ground_bytes (by decide) (by decide) (by decide +kernel) (by decide +kernel)

theorem newline_cy (s : Screen) : s.cy ≤ s.newline.cy := by
  show s.cy ≤ (if s.cy = s.bot then scrollUp 1 _ else if s.cy + 1 < s.rows then _ else _).cy
  split
  · exact Nat.le_refl _
  · split
    · exact Nat.le_succ _
    · exact Nat.le_refl _

theorem put_cy (ch : Char) (s : Screen) : s.cy ≤ (s.put ch).cy := by
  have hhere (t : Screen) : (t.putHere ch).cy = t.cy := by
    unfold putHere advance shiftRow
    split <;> split <;> rfl
  unfold put
  split
  · rw [hhere]
    exact newline_cy { s with cx := 0 }
  · rw [hhere]

/-- On the screen with the two characters they change something, whatever the count. -/
theorem control_acts {final : Char} {n : Nat} {P I : Str} (hn : 0 < n)
    (hm : ∀ on, Csi.of final ≠ .mode on)
    (hk : Csi.of final ≠ .unknown ∧ Csi.of final ≠ .report ∧ Csi.of final ≠ .sgr ∧
      Csi.of final ≠ .decstbm)
    (p : List Nat) :
    ¬ Swallowed cornered (control final p n { cornered with parm := P, inter := I }) := by
  intro h
  unfold control at h
  cases hc : Csi.of final with
  | mode on => exact hm on hc
  | cup =>
      rw [hc] at h
      replace h : Swallowed cornered (moveTo { cornered with parm := P, inter := I }) := h
      unfold moveTo at h
      split at h
      · exact Bool.false_ne_true (h.same Screen.pendingWrap fun _ _ _ _ => rfl)
      · exact Option.some_ne_none _ (h.same Screen.raised fun _ _ _ _ => rfl)
  | cuu | cud | cuf | cub | cha | vpa | ed | el =>
      rw [hc] at h
      exact Bool.false_ne_true (h.same Screen.pendingWrap fun _ _ _ _ => rfl)
  | cnl | cpl | il | dl | restore =>
      rw [hc] at h
      exact Nat.zero_ne_one (h.same Screen.cx fun _ _ _ _ => rfl)
  | save =>
      rw [hc] at h
      exact Option.some_ne_none _ (h.same Screen.saved fun _ _ _ _ => rfl)
  | su =>
      rw [hc] at h
      have hlines := h.same Screen.linesOut fun _ _ _ _ => rfl
      replace hlines : (scrollUp n { cornered with parm := P, inter := I }).linesOut = 0 := hlines
      rw [scrollUp_linesOut, if_pos ⟨rfl, rfl⟩] at hlines
      exact absurd hn (Nat.not_lt.mpr (Nat.le_trans (Nat.le_add_left n _) hlines.le))
  | sd =>
      rw [hc] at h
      replace h : Swallowed cornered (scrollDown n { cornered with parm := P, inter := I }) := h
      have hok : Ok { cornered with parm := P, inter := I } none := { ground_cornered.ok with }
      have hblank := (scrollDown_moves hok n).filled 0 (Nat.le_refl 0) (Nat.zero_le _)
        (show 0 < 0 + n by omega)
      rw [h.same Screen.grid fun _ _ _ _ => rfl] at hblank
      exact absurd (show cornered.grid[0]? = some (blankRow 2) from hblank) (by decide)
  | ich =>
      rw [hc] at h
      have hmin : min n (2 - 1) = min 1 (2 - 1) := by omega
      replace h : Swallowed cornered (draw (Grid.onRow 0 (times (min n (2 - 1)) cornered.insertBlank))
        { cornered with parm := P, inter := I }) := h
      rw [hmin] at h
      exact absurd (show (insertChars 1 cornered).grid = cornered.grid from
        h.same Screen.grid fun _ _ _ _ => rfl) (by decide)
  | dch =>
      rw [hc] at h
      have hmin : min n (2 - 1) = min 1 (2 - 1) := by omega
      replace h : Swallowed cornered (draw (Grid.onRow 0 fun row =>
        times (min n (2 - 1)) (popInsert 1 row.length Cell.blank) row)
        { cornered with parm := P, inter := I }) := h
      rw [hmin] at h
      exact absurd (show (deleteChars 1 cornered).grid = cornered.grid from
        h.same Screen.grid fun _ _ _ _ => rfl) (by decide)
  | ech =>
      rw [hc] at h
      have hmin : min 2 (1 + n) = 2 := by omega
      replace h : Swallowed cornered (blankCells 1 (min 2 (1 + n))
        { cornered with parm := P, inter := I }) := h
      rw [hmin] at h
      exact absurd (show (blankCells 1 2 cornered).grid = cornered.grid from
        h.same Screen.grid fun _ _ _ _ => rfl) (by decide)
  | rep =>
      rw [hc] at h
      obtain ⟨k, hk⟩ : ∃ k, min n (2 * 2) = k + 1 := ⟨min n (2 * 2) - 1, by omega⟩
      replace h : Swallowed cornered ((put 'x')^[min n (2 * 2)] { cornered with parm := P, inter := I }) := h
      rw [hk, Function.iterate_succ_apply] at h
      have hrow := h.same Screen.cy fun _ _ _ _ => rfl
      have hdown : 1 ≤ ((put 'x')^[k] (put 'x' { cornered with parm := P, inter := I })).cy :=
        Function.Iterate.rec (fun t : Screen => 1 ≤ t.cy) (Nat.le_refl 1)
          (fun t ht => ht.trans (put_cy 'x' t)) k
      rw [hrow] at hdown
      exact absurd hdown (by decide)
  | unknown => exact hk.1 hc
  | report => exact hk.2.1 hc
  | sgr => exact hk.2.2.1 hc
  | decstbm => exact hk.2.2.2 hc

/-- One parameter keeps what each of the modes keeps. -/
theorem modeOne_keeps {on : Bool} {I : Screen → Prop} (h₇ : ∀ t, I t → I { t with autowrap := on })
    (h₂₅ : ∀ t, I t → I { t with cursorVisible := on }) (halt : ∀ t, I t → I (t.altScreen on))
    (h₁₀₄₈ : ∀ t, I t → I (if on then t.saveCursor else t.restoreCursor)) (t : Screen) (m : Nat)
    (ht : I t) : I (t.modeOne on m) := by
  unfold modeOne
  split
  · exact h₇ t ht
  · split
    · exact h₂₅ t ht
    · split
      · exact halt t ht
      · split
        · exact h₁₀₄₈ t ht
        · exact ht

theorem restoreCursor_modes (s : Screen) : s.restoreCursor.autowrap = s.autowrap ∧
    s.restoreCursor.cursorVisible = s.cursorVisible := by
  unfold restoreCursor
  split
  · exact ⟨rfl, rfl⟩
  · exact ⟨rfl, rfl⟩

theorem altScreen_modes (on : Bool) (s : Screen) : (s.altScreen on).autowrap = s.autowrap ∧
    (s.altScreen on).cursorVisible = s.cursorVisible := by
  unfold altScreen
  split
  · split
    · exact ⟨rfl, rfl⟩
    · exact ⟨rfl, rfl⟩
  · split
    · exact ⟨rfl, rfl⟩
    · exact restoreCursor_modes _

theorem restoreCursor_inAlt (s : Screen) : s.restoreCursor.inAlt = s.inAlt := by
  unfold restoreCursor
  split <;> rfl

theorem altScreen_inAlt (on : Bool) (s : Screen) : (s.altScreen on).inAlt = on := by
  cases on with
  | true =>
      unfold altScreen
      rw [if_pos rfl]
      split
      · assumption
      · rfl
  | false =>
      cases hg : s.altGrid with
      | none =>
          rw [altScreen_outside hg, inAlt, hg]
          rfl
      | some g =>
          rw [altScreen_leave hg, restoreCursor_inAlt]
          rfl

/-- What a mode brings about on all screens, and none undoes, is different on one of the two. -/
theorem field_acts {m : Nat} {f : Screen → Bool} {on v : Bool} (hm : m ∈ p)
    (hset : ∀ s : Screen, f (s.modeOne on m) = v)
    (hkeep : ∀ (s : Screen) k, f s = v → f (s.modeOne on k) = v)
    (hf : ∀ (s : Screen) parm inter unknown unknownSeqs,
      f { s with parm, inter, unknown, unknownSeqs } = f s)
    (hne : f cornered ≠ f altered) (P I : Str) :
    ¬ (Swallowed cornered (mode p on { cornered with parm := P, inter := I }) ∧
      Swallowed altered (mode p on { altered with parm := P, inter := I })) := by
  rintro ⟨h₁, h₂⟩
  have hreach := foldl_reaches (I := fun t => f t = v) hm hset hkeep
  exact hne (((h₁.same f (hf _)).symm.trans (hreach _)).trans ((h₂.same f (hf _)).symm.trans (hreach _)).symm)

/-- A known mode makes a difference to one of the two screens. -/
theorem mode_acts {m : Nat} (hm : m ∈ p) (hk : ModeKnown m) (on : Bool) (P I : Str) :
    ¬ (Swallowed cornered (mode p on { cornered with parm := P, inter := I }) ∧
      Swallowed altered (mode p on { altered with parm := P, inter := I })) := by
  rcases hk with rfl | rfl | halt | rfl
  · refine field_acts (f := autowrap) hm (fun _ => rfl) (modeOne_keeps ?_ ?_ ?_ ?_)
      (fun _ _ _ _ _ => rfl) (by decide) P I
    · exact fun _ _ => rfl
    · exact fun _ ht => ht
    · exact fun t ht => (altScreen_modes on t).1.trans ht
    · intro t ht
      split
      · exact ht
      · exact (restoreCursor_modes t).1.trans ht
  · refine field_acts (f := cursorVisible) hm (fun _ => rfl) (modeOne_keeps ?_ ?_ ?_ ?_)
      (fun _ _ _ _ _ => rfl) (by decide) P I
    · exact fun _ ht => ht
    · exact fun _ _ => rfl
    · exact fun t ht => (altScreen_modes on t).2.trans ht
    · intro t ht
      split
      · exact ht
      · exact (restoreCursor_modes t).2.trans ht
  · refine field_acts (f := inAlt) (v := on) hm (fun t => ?_) (modeOne_keeps ?_ ?_ ?_ ?_)
      (fun _ _ _ _ _ => rfl) (by decide) P I
    · rw [modeOne_alt halt, altScreen_inAlt]
    · exact fun _ ht => ht
    · exact fun _ ht => ht
    · exact fun t _ => altScreen_inAlt on t
    · intro t ht
      split
      · exact ht
      · exact (restoreCursor_inAlt t).trans ht
  · cases on with
    | true =>
        refine field_acts (f := fun t => t.saved.isSome) hm (fun _ => rfl)
          (modeOne_keeps ?_ ?_ ?_ ?_) (fun _ _ _ _ _ => rfl) (by decide) P I
        · exact fun _ ht => ht
        · exact fun _ ht => ht
        · intro t ht
          unfold altScreen
          rw [if_pos rfl]
          split
          · exact ht
          · rfl
        · exact fun _ _ => rfl
    | false =>
        have hback (t : Screen) :
            (t.restoreCursor.saved.isSome || t.restoreCursor.cx == 0) = true := by
          cases hs : t.saved with
          | none => rw [restoreCursor_none hs, Bool.or_eq_true]; exact .inr rfl
          | some c => rw [restoreCursor_some hs, Bool.or_eq_true]; exact .inl (by rw [hs]; rfl)
        refine field_acts (f := fun t => t.saved.isSome || t.cx == 0) (v := true) hm (fun t => ?_)
          (modeOne_keeps ?_ ?_ ?_ ?_) (fun _ _ _ _ _ => rfl) (by decide) P I
        · exact hback t
        · exact fun _ ht => ht
        · exact fun _ ht => ht
        · intro t ht
          cases hg : t.altGrid with
          | none => rwa [altScreen_outside hg]
          | some g =>
              rw [altScreen_leave hg]
              exact hback _
        · exact fun t _ => hback t

theorem ansiMode_acts (h : 4 ∈ p) (on : Bool) (P I : Str) :
    ¬ (Swallowed cornered (ansiMode p on { cornered with parm := P, inter := I }) ∧
      Swallowed altered (ansiMode p on { altered with parm := P, inter := I })) := by
  rintro ⟨h₁, h₂⟩
  have hoff := (ansiMode_reaches h on _).symm.trans (h₁.same insertMode fun _ _ _ _ => rfl)
  have hon := (ansiMode_reaches h on _).symm.trans (h₂.same insertMode fun _ _ _ _ => rfl)
  exact absurd (hoff.symm.trans hon) (by decide)

theorem sgr_acts (h : ∃ v ∈ p, SgrKnown v) (P I : Str) :
    ¬ (Swallowed cornered (sgr p { cornered with parm := P, inter := I }) ∧
      Swallowed altered (sgr p { altered with parm := P, inter := I })) := by
  rintro ⟨h₁, h₂⟩
  have hne : p ≠ [] := by
    obtain ⟨v, hv, -⟩ := h
    exact List.ne_nil_of_mem hv
  obtain ⟨c, hc⟩ := sgrRun_agree h
  rw [sgr_eq hne] at h₁ h₂
  have hs₁ : sgrRun p cornered.style = cornered.style := h₁.same Screen.style fun _ _ _ _ => rfl
  have hs₂ : sgrRun p altered.style = altered.style := h₂.same Screen.style fun _ _ _ _ => rfl
  have hagree := hc cornered.style altered.style
  rw [hs₁, hs₂] at hagree
  cases c with
  | bit i =>
      have hall : ∀ i : Fin 6, cornered.style.attr[i] ≠ altered.style.attr[i] := by decide
      exact hall i hagree
  | foreground => exact absurd (show cornered.style.fg = altered.style.fg from hagree) (by decide)
  | background => exact absurd (show cornered.style.bg = altered.style.bg from hagree) (by decide)

/-- A region that fits moves the cursor to its first column. -/
theorem setMargins_acts {m : Nat × Nat} {P : Str} (hm : pairOf 0 P = some m)
    (hf : RegionFits m) (I : Str) :
    ∃ s, Ground s ∧ ¬ Swallowed s (setMargins { s with parm := P, inter := I }) := by
  obtain ⟨rows, hpos, hr⟩ := regionOf_fits hf
  obtain ⟨region, hr⟩ := Option.ne_none_iff_exists'.mp hr
  refine ⟨(init rows 2 10).bytes [0x09],
    ground_bytes (List.cons_ne_nil _ _) (by decide) rfl rfl, fun h => ?_⟩
  have hrows : ((init rows 2 10).bytes [0x09]).rows = rows := by
    show (max 1 (rows : Int)).toNat = rows
    omega
  unfold setMargins at h
  simp only [hm, hrows, hr] at h
  have hcx : ((init rows 2 10).bytes [0x09]).cx = 1 := by
    show min ((0 / 8 + 1) * 8) (atLeastOne 2 - 1) = 1
    decide
  have hstart := h.same Screen.cx fun _ _ _ _ => rfl
  rw [hcx] at hstart
  exact Nat.zero_ne_one hstart

theorem effect_acts (hr : ¬ Raises (chr q.final) q.parm) (ha : q.Acts) :
    ∃ s, Ground s ∧ ¬ Swallowed s (q.effect s) := by
  obtain ⟨p, hp⟩ : ∃ p, parmsOf 0 1 q.parm = some p :=
    Option.ne_none_iff_exists'.mp fun hnone => hr (.inl (parmsOf_eq_none.mp hnone))
  have heffect {s : Screen} (hs : Ground s) : q.effect s = control (chr q.final) p
      (if p.headD 0 = 0 then 1 else p.headD 0) { s with parm := q.parm, inter := q.inter } := by
    have hground : { s with state := .text, parm := q.parm, inter := q.inter } =
        { s with parm := q.parm, inter := q.inter } := by rw [← hs.ground]
    rw [Sequence.effect, hground]
    simp only [dispatch, hp]
  -- one of the two screens shows it
  have heither {f : Screen → Screen}
      (h : ¬ (Swallowed cornered (f { cornered with parm := q.parm, inter := q.inter }) ∧
        Swallowed altered (f { altered with parm := q.parm, inter := q.inter })))
      (hf : ∀ s : Screen, control (chr q.final) p (if p.headD 0 = 0 then 1 else p.headD 0)
        { s with parm := q.parm, inter := q.inter } =
          f { s with parm := q.parm, inter := q.inter }) :
      ∃ s, Ground s ∧ ¬ Swallowed s (q.effect s) := by
    by_contra hno
    refine h ⟨?_, ?_⟩
    · rw [← hf, ← heffect ground_cornered]
      exact not_not.mp fun hn => hno ⟨_, ground_cornered, hn⟩
    · rw [← hf, ← heffect ground_altered]
      exact not_not.mp fun hn => hno ⟨_, ground_altered, hn⟩
  unfold Sequence.Acts at ha
  cases hc : Csi.of (chr q.final) with
  | mode on =>
      simp only [hc, hp, Option.mem_def, Option.some.injEq, exists_eq_left'] at ha
      split at ha
      · rename_i hpriv
        obtain ⟨m, hm, hk⟩ := ha
        refine heither (mode_acts hm hk on q.parm q.inter) fun s => ?_
        rw [control, hc]
        exact if_pos hpriv
      · rename_i hpriv
        refine heither (ansiMode_acts ha on q.parm q.inter) fun s => ?_
        rw [control, hc]
        exact if_neg hpriv
  | sgr =>
      simp only [hc, hp, Option.mem_def, Option.some.injEq, exists_eq_left'] at ha
      refine heither (sgr_acts ha q.parm q.inter) fun s => ?_
      rw [control, hc]
  | decstbm =>
      simp only [hc] at ha
      obtain ⟨m, hm, hf⟩ := ha
      obtain ⟨s, hs, hacts⟩ := setMargins_acts hm hf q.inter
      refine ⟨s, hs, ?_⟩
      rw [heffect hs, control, hc]
      exact hacts
  | unknown | report => simp only [hc] at ha
  | _ =>
      refine ⟨cornered, ground_cornered, ?_⟩
      rw [heffect ground_cornered]
      refine control_acts ?_ ?_ ?_ p
      · split <;> omega
      · simp [hc]
      · simp [hc]

/-- A private sequence is swallowed everywhere exactly if it does not raise and the standard one does
nothing. -/
theorem ignored_iff (q : Sequence) :
    Ignored q ↔ (q.Private → ¬ Raises (chr q.final) q.parm ∧ ¬ q.Acts) := by
  refine forall_congr' fun _ => ⟨fun h => ?_, fun h s hs => ?_⟩
  · have hr : ¬ Raises (chr q.final) q.parm := by
      have hswallowed := h cornered ground_cornered
      rw [bytes_sequence rfl rfl] at hswallowed
      exact (effect_raised ground_cornered.ok).mp (hswallowed.same Screen.raised fun _ _ _ _ => rfl)
    refine ⟨hr, fun ha => ?_⟩
    obtain ⟨s, hs, hacts⟩ := effect_acts hr ha
    have hswallowed := h s hs
    rw [bytes_sequence hs.raised hs.ground] at hswallowed
    exact hacts hswallowed
  · rw [bytes_sequence hs.raised hs.ground]
    exact effect_still h.1 h.2 s hs.ground

end Sequences

/-- `ESC [ > 4 ; 2 m`. -/
def keySequence : Sequence where
  parameters := [0x3e, 0x34, 0x3b, 0x32]
  final := 0x6d
  parameters_ok := by decide
  final_ok := redSequence.final_ok

/-- It sets the keys of a terminal, and here underline and dim. -/
theorem private_underlines : keySequence.Private ∧ ¬ Ignored keySequence ∧
    ((init 3 20 10).bytes (0x61 :: keySequence.bytes)).style =
      { Style.default with attr := Style.underline ||| Style.dim } := by
  have hprivate : keySequence.Private := .inl ⟨'>', by decide, .inr (.inr (.inl rfl))⟩
  refine ⟨hprivate, fun h => ?_, by decide +kernel⟩
  have hground : Ground ((init 3 20 10).bytes [0x61]) :=
    ground_bytes (List.cons_ne_nil _ _) (by decide) (by decide +kernel) (by decide +kernel)
  have hstyle := (h hprivate _ hground).same Screen.style fun _ _ _ _ => rfl
  revert hstyle
  decide +kernel

end Screen

end P4Hyp
