import P4Hyp.Screen.Alternate
import P4Hyp.Screen.Shape

/-!
# The numbers of the transcript

A line has its number by where it is: in the history, or in a row of the primary
grid.  Time stamps hang on it, so it must not change when the line scrolls off.
-/

namespace P4Hyp
namespace Screen

theorem Ok.fits {s : Screen} {r : Option Exn} (h : s.Ok r) : s.history.Fits := h.linesOut

/-- The line is on the primary grid, under the number `i`. -/
def Visible (s : Screen) (t : Str) (i : Nat) : Prop := s.linesOut ≤ i ∧ (t, i) ∈ s.allLinesWithIds

/-- The rows that a full clear keeps, from the one of the number `i` on. -/
def leaving (s : Screen) (i : Nat) : List Str :=
  ((s.grid.drop (i - s.linesOut)).map rowText).filter (· ≠ [])

/-- No blank row stands above one that is not. -/
def NoGap (s : Screen) : Prop := [] ∉ withoutBlankEnd (s.grid.map rowText)

/-- Lines keep their numbers, as far as the history keeps the lines. -/
structure KeepsIds (f : Feeding) : Prop where
  scrolled : ∀ n t i, f.screen.top = 0 → f.screen.bot + 1 = f.screen.rows →
    f.screen.Visible t i → i < f.screen.linesOut + n →
    f.screen.linesOut + n ≤ i + f.screen.scrollbackLimit →
    (t, i) ∈ (f.screen.scrollUp n).history.numbered
  cleared : ∀ mode t i, 2 ≤ mode → f.screen.Visible t i → t ≠ [] →
    (f.screen.leaving i).length ≤ f.screen.scrollbackLimit →
    (t, i) ∈ (f.screen.eraseDisplay mode).history.numbered
  history : ∀ h f', Run feedFire f h f' → ∀ t i, (t, i) ∈ f.screen.history.numbered →
    (t, i) ∈ f'.screen.history.numbered ∨ i < f'.screen.history.evicted

section Lines

variable {s : Screen} {r : Option Exn} {t : Str} {i : Nat}

theorem withoutBlankEnd_prefix (rows : List Str) : withoutBlankEnd rows <+: rows :=
  List.rdropWhile_prefix _ _

/-- In the primary buffer a visible line is in the row that its number says. -/
theorem visible_iff (h : s.Ok r) (halt : s.altGrid = none) : s.Visible t i ↔
    s.linesOut ≤ i ∧ (withoutBlankEnd (s.grid.map rowText))[i - s.linesOut]? = some t := by
  have hprim : s.primary = s.grid := by rw [primary, halt]; rfl
  unfold Visible allLinesWithIds
  rw [hprim, List.mem_append, List.mk_mem_zipIdx_iff_le_and_getElem?_sub,
    List.mk_mem_zipIdx_iff_le_and_getElem?_sub]
  constructor
  · rintro ⟨hle, hold | hnew⟩
    · -- the numbers of the history end below
      have hlt := (List.getElem?_eq_some_iff.mp hold.2).1
      have hfit := h.linesOut
      omega
    · exact hnew
  · exact fun hnew => ⟨hnew.1, .inr hnew⟩

theorem visible_row (h : s.Ok r) (halt : s.altGrid = none) (hv : s.Visible t i) :
    s.linesOut ≤ i ∧ (s.grid.map rowText)[i - s.linesOut]? = some t := by
  obtain ⟨hle, hget⟩ := (visible_iff h halt).mp hv
  obtain ⟨blanks, hrows⟩ := withoutBlankEnd_prefix (s.grid.map rowText)
  refine ⟨hle, ?_⟩
  rw [← hrows, List.getElem?_append_left (List.getElem?_eq_some_iff.mp hget).1]
  exact hget

/-! ## Scrolling the full screen -/

theorem scrollUpOne_full (h : s.Ok r) (htop : s.top = 0) (hbot : s.bot + 1 = s.rows) :
    s.scrollUpOne.grid = s.grid.tail ++ [blankRow s.cols] := by
  have hlen := h.grid.rows
  have hrows := h.rows
  show (popInsert s.top s.bot _ s.grid).getD s.grid = _
  rw [popInsert, if_pos (by omega), htop, List.eraseIdx_zero, List.take_of_length_le,
    List.drop_of_length_le]
  · rfl
  · rw [List.length_tail]
    omega
  · rw [List.length_tail]
    omega

/-- The rows leave in their order, and blank ones after them. -/
theorem scrollUp_full (h : s.Ok r) (halt : s.altGrid = none) (htop : s.top = 0)
    (hbot : s.bot + 1 = s.rows) (n : Nat) : (s.scrollUp n).history =
      s.history.append s.scrollbackLimit
        (((s.grid ++ List.replicate n (blankRow s.cols)).take n).map rowText) := by
  induction n generalizing s with
  | zero =>
      show s.history = s.history.append _ []
      rw [History.append_nil h.limit]
  | succ n ih =>
      have hkeep : (!s.inAlt && s.top == 0) = true := by simp [inAlt, halt, htop]
      have hgrid := scrollUpOne_full h htop hbot
      have hne : s.grid ≠ [] := by
        apply List.ne_nil_of_length_pos
        rw [h.grid.rows]
        exact h.rows
      obtain ⟨row, rows, hg⟩ := List.exists_cons_of_ne_nil hne
      have hone : s.scrollUpOne.history = s.history.append s.scrollbackLimit [rowText row] := by
        rw [scrollUpOne_keep hkeep, htop, hg]
        rfl
      show (scrollUp n s.scrollUpOne).history = _
      rw [ih h.scrollUpOne halt htop hbot, hone, hgrid, hg]
      show History.append s.scrollbackLimit _ (History.append s.scrollbackLimit _ _) = _
      rw [History.append_append]
      congr 1
      show [rowText row] ++ List.map rowText ((rows ++ [blankRow s.cols] ++
        List.replicate n (blankRow s.cols)).take n) = _
      rw [List.append_assoc, List.singleton_append, List.singleton_append, ← List.replicate_succ]
      rfl

theorem scrolled_kept {n : Nat} (h : s.Ok r) (halt : s.altGrid = none) (htop : s.top = 0)
    (hbot : s.bot + 1 = s.rows) (hv : s.Visible t i) (hleaves : i < s.linesOut + n)
    (hkept : s.linesOut + n ≤ i + s.scrollbackLimit) :
    (t, i) ∈ (s.scrollUp n).history.numbered := by
  obtain ⟨hle, hrow⟩ := visible_row h halt hv
  obtain ⟨y, rfl⟩ := Nat.exists_eq_add_of_le hle
  rw [Nat.add_sub_cancel_left] at hrow
  have hy : y < s.grid.length := by
    have := (List.getElem?_eq_some_iff.mp hrow).1
    rwa [List.length_map] at this
  rw [scrollUp_full h halt htop hbot]
  apply History.mem_numbered_append h.fits
  · rw [List.getElem?_map, List.getElem?_take_of_lt (by omega), List.getElem?_append_left hy,
      ← List.getElem?_map]
    exact hrow
  · rw [List.length_map, List.length_take, List.length_append, List.length_replicate]
    omega

/-! ## Clearing it -/

/-- The rows below the last one that is not blank do not count. -/
theorem leaving_eq (s : Screen) (i : Nat) :
    s.leaving i = ((withoutBlankEnd (s.grid.map rowText)).drop (i - s.linesOut)).filter (· ≠ []) := by
  have hsplit := List.rdropWhile_append_rtakeWhile (p := (· == [])) (l := s.grid.map rowText)
  have hblank : ∀ n, (((s.grid.map rowText).rtakeWhile (· == [])).drop n).filter (· ≠ []) = [] := by
    intro n
    apply List.filter_eq_nil_iff.mpr
    intro u hu
    have := List.mem_rtakeWhile_imp (List.mem_of_mem_drop hu)
    simpa using this
  rw [leaving, List.map_drop, ← hsplit, List.drop_append, List.filter_append, hblank,
    List.append_nil, hsplit]
  rfl

/-- A visible line that is not blank is one of those that leave. -/
theorem mem_leaving (h : s.Ok r) (halt : s.altGrid = none) (hv : s.Visible t i) (ht : t ≠ []) :
    t ∈ s.leaving i := by
  obtain ⟨-, hget⟩ := (visible_iff h halt).mp hv
  have hfirst : ((withoutBlankEnd (s.grid.map rowText)).drop (i - s.linesOut))[0]? = some t := by
    rw [List.getElem?_drop]
    exact hget
  rw [leaving_eq, List.mem_filter]
  exact ⟨List.mem_of_getElem? hfirst, decide_eq_true ht⟩

theorem cleared_eq (s : Screen) :
    s.cleared = (withoutBlankEnd (s.grid.map rowText)).filter (· ≠ []) := by
  have h := s.leaving_eq s.linesOut
  rw [leaving, Nat.sub_self, List.drop_zero, List.drop_zero] at h
  exact h

theorem cleared_kept {mode : Nat} (h : s.Ok r) (halt : s.altGrid = none) (hgap : s.NoGap)
    (hm : 2 ≤ mode) (hv : s.Visible t i) (hkept : (s.leaving i).length ≤ s.scrollbackLimit) :
    (t, i) ∈ (s.eraseDisplay mode).history.numbered := by
  obtain ⟨hle, hget⟩ := (visible_iff h halt).mp hv
  obtain ⟨y, rfl⟩ := Nat.exists_eq_add_of_le hle
  have hall : ∀ l : List Str, l <:+ withoutBlankEnd (s.grid.map rowText) →
      l.filter (· ≠ []) = l := by
    intro l hl
    apply List.filter_eq_self.mpr
    intro u hu
    exact decide_eq_true fun he => hgap (he ▸ hl.subset hu)
  rw [leaving_eq, Nat.add_sub_cancel_left, hall _ (List.drop_suffix _ _), List.length_drop] at hkept
  have hin : s.inAlt = false := by simp [inAlt, halt]
  rw [eraseDisplay_keep hin hm, cleared_eq, hall _ (List.suffix_refl _)]
  rw [Nat.add_sub_cancel_left] at hget
  exact History.mem_numbered_append h.fits hget hkept

theorem withoutBlankEnd_last {rows init : List Str} (h : withoutBlankEnd rows = init ++ [t]) :
    t ≠ [] := by
  have hne : rows.rdropWhile (· == []) ≠ [] := by
    rw [show rows.rdropWhile (· == []) = _ from h]
    exact List.append_ne_nil_of_right_ne_nil _ (List.cons_ne_nil _ _)
  have hlast := List.rdropWhile_last_not _ _ hne
  have hget : (rows.rdropWhile (· == [])).getLast hne = t := by
    simp only [show rows.rdropWhile (· == []) = _ from h, List.getLast_concat]
  rw [hget] at hlast
  exact fun ht => hlast (beq_iff_eq.mpr ht)

/-- With a gap the last row gets a smaller number. -/
theorem cleared_moved (h : s.Ok r) (halt : s.altGrid = none) (hlimit : s.scrollbackLimit ≠ 0)
    (hgap : ¬ s.NoGap) : ∃ t i, s.Visible t i ∧ t ≠ [] ∧
      (s.leaving i).length ≤ s.scrollbackLimit ∧ (t, i) ∉ (s.eraseDisplay 2).history.numbered := by
  have hblank : [] ∈ withoutBlankEnd (s.grid.map rowText) := not_not.mp hgap
  obtain ⟨init, t, hrows⟩ :=
    (List.eq_nil_or_concat' (withoutBlankEnd (s.grid.map rowText))).resolve_left
      (List.ne_nil_of_mem hblank)
  have ht : t ≠ [] := withoutBlankEnd_last hrows
  have hfew : s.cleared.length < init.length + 1 := by
    have hlt : s.cleared.length < (withoutBlankEnd (s.grid.map rowText)).length := by
      rw [cleared_eq]
      exact List.length_filter_lt_length_iff_exists.mpr ⟨[], hblank, by simp⟩
    rwa [hrows, List.length_append, List.length_singleton] at hlt
  refine ⟨t, s.linesOut + init.length, (visible_iff h halt).mpr ⟨Nat.le_add_right _ _, ?_⟩, ht, ?_,
    fun hmem => ?_⟩
  · rw [Nat.add_sub_cancel_left, hrows, List.getElem?_concat_length]
  · rw [leaving_eq, Nat.add_sub_cancel_left, hrows, List.drop_left]
    exact (List.length_filter_le _ _).trans (Nat.one_le_iff_ne_zero.mpr hlimit)
  · have hin : s.inAlt = false := by simp [inAlt, halt]
    rw [eraseDisplay_keep hin (Nat.le_refl _)] at hmem
    have hlt : s.linesOut + init.length < s.linesOut + s.cleared.length :=
      h.fits.append.lt_total hmem
    omega

/-! ## Whole streams -/

section History

variable {R : Screen → Screen → Prop}

/-- A relation that looks at the history only. -/
def OfHistory (R : Screen → Screen → Prop) : Prop :=
  ∀ {s t : Screen}, t.scrollback = s.scrollback → t.linesOut = s.linesOut →
    t.scrollbackLimit = s.scrollbackLimit → R s t

theorem Frame.modeOne_any (hR : Frame R) (hh : OfHistory R) (on : Bool) (m : Nat) (s : Screen) :
    R s (s.modeOne on m) := by
  by_cases hm : IsAltMode m
  · rw [modeOne_alt hm]
    cases on with
    | true =>
        unfold altScreen
        rw [if_pos rfl]
        split <;> exact hh rfl rfl rfl
    | false =>
        cases hg : s.altGrid with
        | none =>
            rw [altScreen_outside hg]
            exact hR.refl s
        | some g =>
            have hback : R s { s with grid := g, altGrid := none, top := 0, bot := s.rows - 1 } :=
              hh rfl rfl rfl
            rw [altScreen_leave hg]
            exact hR.trans hback (hR.restoreCursor _)
  · exact hR.modeOne hm s fun _ _ _ => hh rfl rfl rfl

theorem Frame.mode_any (hR : Frame R) (hh : OfHistory R) (params : List Nat) (on : Bool)
    (s : Screen) :
    R s (s.mode params on) := by
  induction params generalizing s with
  | nil => exact hR.refl s
  | cons m params ih => exact hR.trans (hR.modeOne_any hh on m s) (ih _)

/-- It holds across every byte, those that reset the screen or switch the buffer too. -/
theorem Frame.byte_any (hR : Frame R) (hh : OfHistory R) (b : Byte) (s : Screen) :
    R s (s.byte b) := by
  by_cases hr : Resets s b
  · rw [byte_reset hr]
    exact hh rfl rfl rfl
  · by_cases hs : ∃ on, SwitchesBuffer on s b
    · obtain ⟨on, hs⟩ := hs
      obtain ⟨p, -, he⟩ := byte_switch hs
      have ht : R s { s with state := .text } := hR.fields
      rw [he]
      exact hR.trans ht (hR.mode_any hh p on _)
    · exact hR.byte hr (fun on hon => hs ⟨on, hon⟩) fun _ _ => hh rfl rfl rfl

end History

theorem extends_frame : Frame fun s t => s.history.Extends t.history where
  refl _ := .refl _
  trans := .trans
  cursor := extends_of_eq rfl rfl
  draw _ _ := extends_of_eq rfl rfl
  scrollUpOne s := (parks_scrollUpOne s).grows
  fields := extends_of_eq rfl rfl
  clear s mode hm := (parks_clear s mode hm).grows

/-- Whatever the byte, the history only grows at its end. -/
theorem extends_byte (b : Byte) (s : Screen) : s.history.Extends (s.byte b).history :=
  extends_frame.byte_any (fun hs hl _ => extends_of_eq hs hl) b s

theorem extends_step {f f' : Feeding} {e : FeedEvent} (hf : feedFire f e = some f') :
    f.screen.history.Extends f'.screen.history := by
  cases e with
  | feed data =>
      obtain ⟨-, rfl⟩ := feedFire_feed hf
      exact extends_of_eq rfl rfl
  | byte =>
      obtain ⟨b, bs, -, rfl⟩ := feedFire_byte hf
      exact extends_byte _ _
  | resize rows cols =>
      obtain ⟨-, rfl⟩ := feedFire_resize hf
      unfold resize
      simp only
      split <;> exact extends_of_eq rfl rfl

end Lines

/-- Lines keep their numbers exactly where a full clear finds no gap. -/
theorem keepsIds_iff {rows cols : Int} {limit : Nat} {f : Feeding} {h : List (Feeding × FeedEvent)}
    (hrun : Run feedFire ⟨init rows cols limit, []⟩ h f) (halt : f.screen.altGrid = none) :
    KeepsIds f ↔ f.screen.NoGap ∨ f.screen.scrollbackLimit = 0 := by
  have hok := (sound_run hrun).1
  constructor
  · intro hk
    by_contra hnot
    rw [not_or] at hnot
    obtain ⟨t, i, hv, ht, hleaving, hmoved⟩ := cleared_moved hok halt hnot.2 hnot.1
    exact hmoved (hk.cleared 2 t i (Nat.le_refl _) hv ht hleaving)
  · intro hgap
    refine ⟨fun n t i htop hbot hv => scrolled_kept hok halt htop hbot hv,
      fun mode t i hm hv ht hleaving => ?_, fun h' f' hrun' t i hmem => ?_⟩
    · rcases hgap with hgap | hzero
      · exact cleared_kept hok halt hgap hm hv hleaving
      · rw [hzero, Nat.le_zero, List.length_eq_zero_iff] at hleaving
        have hmem := mem_leaving hok halt hv ht
        rw [hleaving] at hmem
        cases hmem
    · have hext : f.screen.history.Extends f'.screen.history :=
        Run.stateInvariant (fun _ _ => True) (fun f' => f.screen.history.Extends f'.screen.history)
          (.refl _) (fun _ _ _ hx _ hf => hx.trans (extends_step hf)) hrun' fun _ _ => trivial
      exact hext.numbered hok.fits hmem

/-- Two lines, one behind the other. -/
theorem keepsIds_iff_lines : ∃ h f, Run feedFire ⟨init 3 5 10, []⟩ h f ∧ h.length = 5 ∧
    KeepsIds f := by
  obtain ⟨h, f, hrun, hd⟩ := Run.exists_of_play feedFire ⟨init 3 5 10, []⟩
    (.feed [0x61, 0x0d, 0x0a, 0x62] :: rounds 4)
    (fun r => decide (r.1.length = 5 ∧ r.2.screen.altGrid = none ∧
      [] ∉ withoutBlankEnd (r.2.screen.grid.map rowText))) true (by decide +kernel)
  obtain ⟨hlen, halt, hgap⟩ := of_decide_eq_true hd
  exact ⟨h, f, hrun, hlen, (keepsIds_iff hrun halt).mpr (.inl hgap)⟩

/-- With a blank line between them `ESC [ 2 J` gives the second another number. -/
theorem clear_renumbers : ∃ h f, Run feedFire ⟨init 3 5 10, []⟩ h f ∧
    f.screen.altGrid = none ∧ f.screen.allLinesWithIds = [(['a'], 0), ([], 1), (['b'], 2)] ∧
    (f.screen.feed [0x1b, 0x5b, 0x32, 0x4a]).allLinesWithIds = [(['a'], 0), (['b'], 1)] ∧
    ¬ KeepsIds f := by
  obtain ⟨h, f, hrun, hd⟩ := Run.exists_of_play feedFire ⟨init 3 5 10, []⟩
    (.feed [0x61, 0x0d, 0x0a, 0x0d, 0x0a, 0x62] :: rounds 6)
    (fun r => decide (r.2.screen.altGrid = none ∧
      r.2.screen.allLinesWithIds = [(['a'], 0), ([], 1), (['b'], 2)] ∧
      (r.2.screen.feed [0x1b, 0x5b, 0x32, 0x4a]).allLinesWithIds = [(['a'], 0), (['b'], 1)] ∧
      r.2.screen.linesOut = 0 ∧ (r.2.screen.leaving 2).length ≤ r.2.screen.scrollbackLimit ∧
      (['b'], 2) ∉ (r.2.screen.eraseDisplay 2).history.numbered)) true (by decide +kernel)
  obtain ⟨halt, hlines, hafter, hout, hleaving, hmoved⟩ := of_decide_eq_true hd
  refine ⟨h, f, hrun, halt, hlines, hafter, fun hk => hmoved ?_⟩
  apply hk.cleared 2 _ 2 (Nat.le_refl _) ⟨by rw [hout]; decide, ?_⟩ (by decide) hleaving
  rw [hlines]
  decide

end Screen
end P4Hyp
