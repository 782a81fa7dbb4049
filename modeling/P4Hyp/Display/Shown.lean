import P4Hyp.Display.Paint

/-!
# What the terminal shows

After any run of paints and of changes of the window, a paint for the size that the window has
leaves the whole frame on the terminal, whichever of its rows were sent.
-/

namespace P4Hyp

/-! ## The cursor -/

namespace Frame

variable {f : Frame}

/-- The cursor is put inside the frame. -/
theorem cursorPosition_inside {r c : Nat} (hrows : minRows ≤ f.rows) (hcols : minCols ≤ f.cols)
    (h : f.cursorPosition = some (r, c)) : 0 < r ∧ r ≤ f.rows ∧ 0 < c ∧ c ≤ f.cols := by
  have hheight := paneRows_eq hrows
  have hwidth := paneCols_eq hcols
  unfold minRows at hrows
  unfold minCols at hcols
  unfold cursorPosition paneOrigin sidebarW at h
  dsimp only at h
  split at h
  · cases h
  · split at h
    · split at h
      · obtain ⟨rfl, rfl⟩ := Prod.mk.inj (Option.some.inj h)
        omega
      · cases h
    · split at h
      · cases h
      · split at h
        · cases h
        · have hoff : (if f.timestamps then 10 else 0) ≤ 10 := by split <;> omega
          obtain ⟨rfl, rfl⟩ := Prod.mk.inj (Option.some.inj h)
          omega

end Frame

/-- The terminal shows the frame: its rows, of which the last column has been erased, and the
cursor where it belongs. -/
structure Showing (f : Frame) (t : Screen) : Prop where
  rows : f.render.map (fun rows => rows.map fun row => shownCells (rowCells row)) = some t.grid
  visible : t.cursorVisible = f.cursorPosition.isSome
  cursor : ∀ p ∈ f.cursorPosition, (t.cy + 1, t.cx + 1) = p

namespace Screen

/-- What holds of the terminal between paints. -/
structure Idle (s : Screen) : Prop where
  ready : s.Ready
  style : s.style = .default

theorem Drawn.idle {s t : Screen} (h : Drawn s .default t) : Idle t := ⟨h.ready, h.style⟩

theorem Idle.drawn {s : Screen} (h : s.Idle) : Drawn s .default s := h.style ▸ Drawn.refl h.ready

section Cursor

variable {s t : Screen} {f : P4Hyp.Frame}

theorem Drawn.showCursor (h : Drawn s .default t) (on : Bool) :
    Idle (t.bytes (encode (showCursor on))) ∧ Beneath s (t.bytes (encode (showCursor on))) ∧
      (t.bytes (encode (showCursor on))).cursorVisible = on ∧
      (t.bytes (encode (showCursor on))).grid = t.grid ∧
        (t.bytes (encode (showCursor on))).cy = t.cy ∧
      (t.bytes (encode (showCursor on))).cx = t.cx := by
  obtain ⟨parm, inter, he⟩ := bytes_showCursor h.ready.ok.raised h.ready.state on
  rw [P4Hyp.showCursor, he]
  exact ⟨⟨{ h.ready with ok := { h.ready.ok with } }, h.style⟩, { h.kept with }, rfl, rfl, rfl, rfl⟩

/-- The end of a paint leaves the rows alone. -/
theorem bytes_placeCursor (h : Drawn s .default t) (hrows : minRows ≤ f.rows ∧ f.rows < 2 ^ 16)
    (hcols : minCols ≤ f.cols ∧ f.cols < 2 ^ 16) :
    Idle (t.bytes (encode f.placeCursor)) ∧ Beneath s (t.bytes (encode f.placeCursor)) ∧
      (t.bytes (encode f.placeCursor)).grid = t.grid ∧
      ((t.bytes (encode f.placeCursor)).cursorVisible =
        if f.cursorPosition.isSome then true else s.cursorVisible) ∧
      (f.rows = t.rows → f.cols = t.cols → ∀ p ∈ f.cursorPosition,
        ((t.bytes (encode f.placeCursor)).cy + 1, (t.bytes (encode f.placeCursor)).cx + 1) =
          p) := by
  unfold P4Hyp.Frame.placeCursor
  cases hpos : f.cursorPosition with
  | none =>
      have hlegible : Legible f.rows := legible_of_lt hrows.2
      have hmove := h.moveTo hlegible (legible_of_lt (n := 1) (by decide))
      obtain ⟨parm, inter, he⟩ := bytes_moveTo h.ready.ok.raised h.ready.state hlegible
        (legible_of_lt (n := 1) (by decide))
      refine ⟨hmove.idle, hmove.kept, ?_, hmove.visible, fun _ _ p hp => by cases hp⟩
      dsimp only
      rw [he]
  | some p =>
      obtain ⟨r, c⟩ := p
      obtain ⟨hr, hr', hc, hc'⟩ := P4Hyp.Frame.cursorPosition_inside hrows.1 hcols.1 hpos
      have hlr : Legible r := legible_of_lt (by omega)
      have hlc : Legible c := legible_of_lt (by omega)
      obtain ⟨hidle, hkept, hvisible, hgrid, hcy, hcx⟩ := (h.moveTo hlr hlc).showCursor true
      obtain ⟨parm, inter, he⟩ := bytes_moveTo h.ready.ok.raised h.ready.state hlr hlc
      dsimp only
      rw [encode_append, bytes_append]
      refine ⟨hidle, hkept, ?_, hvisible, ?_⟩
      · rw [hgrid, he]
      · intro hrows' hcols' p hp
        obtain rfl := Option.some.inj hp
        rw [hcy, hcx, he]
        refine Prod.ext ?_ ?_
        · show min (max 1 r) t.rows - 1 + 1 = r
          omega
        · show min (max 1 c) t.cols - 1 + 1 = c
          omega

end Cursor

/-! ## One paint -/

section Paint

variable {f : P4Hyp.Frame} {t : Screen} {rows : List (List Span)}

/-- A paint of any size leaves the terminal able to read the next. -/
theorem paint_idle (h : t.Idle) (hf : f.Clear) (hrender : f.render = some rows)
    (hrows : minRows ≤ f.rows ∧ f.rows < 2 ^ 16) (hcols : minCols ≤ f.cols ∧ f.cols < 2 ^ 16)
      (force : Bool)
    (prev : List Str) : Idle (t.bytes (encode (f.paint rows force prev))) ∧
      Beneath t (t.bytes (encode (f.paint rows force prev))) := by
  obtain ⟨hidle, hkept, -⟩ := h.drawn.showCursor false
  have hdrawn : Drawn (t.bytes (encode (P4Hyp.showCursor false))) .default _ :=
    hidle.drawn
  have hlen : 0 + rows.length < 2 ^ 16 := by
    rw [P4Hyp.Frame.length_render hrows.1 hrender, Nat.zero_add]
    exact hrows.2
  have hpainted := hdrawn.paintRows force prev hlen (P4Hyp.Frame.clean_render hf hrender)
  obtain ⟨hidle', hkept', -⟩ := bytes_placeCursor hpainted hrows hcols
  rw [P4Hyp.Frame.paint, encode_append, encode_append, bytes_append, bytes_append]
  exact ⟨hidle', hkept.trans hkept'⟩

/-- What shows every line of a frame's rows shows their cells, and nothing else. -/
theorem grid_of_showsLine {s : Screen} (hlen : t.grid.length = rows.length) (hpos : 0 < s.cols)
    (hrows : ∀ row ∈ rows, CleanRow row ∧ (rowCells row).length = s.cols)
    (h : ∀ i l, (rows.map rowStr)[i]? = some l → ShowsLine s t i l) :
    t.grid = rows.map fun row => shownCells (rowCells row) := by
  refine List.ext_getElem? fun i => ?_
  rw [List.getElem?_map]
  cases hrow : rows[i]? with
  | none =>
      rw [List.getElem?_eq_none_iff] at hrow
      rw [Option.map_none, List.getElem?_eq_none_iff]
      omega
  | some row =>
      have hl : (rows.map rowStr)[i]? = some (rowStr row) := by
        rw [List.getElem?_map, hrow]
        rfl
      obtain ⟨hclean, hwidth⟩ := hrows row (List.mem_of_getElem? hrow)
      rw [h i _ hl, lineCells_rowStr hpos hclean hwidth]
      rfl

/-- A paint of the terminal's size shows the frame, if the rows that are remembered are shown. -/
theorem paint_showing (h : t.Idle) (hf : f.Clear) (hrender : f.render = some rows)
    (hrows : f.rows = t.rows)
    (hcols : f.cols = t.cols) (hsize : Display.Fitting t.rows t.cols) {prev : List Str}
    (hprev : ∀ i l, prev[i]? = some l → ShowsLine t t i l) (force : Bool) :
    Showing f (t.bytes (encode (f.paint rows force prev))) ∧
      ∀ i l, (rows.map rowStr)[i]? = some l →
        ShowsLine t (t.bytes (encode (f.paint rows force prev))) i l := by
  obtain ⟨hrows₁, hrows₂, hcols₁, hcols₂⟩ := hsize
  obtain ⟨hidle, hkept, hhidden, hgrid, -⟩ := h.drawn.showCursor false
  generalize ht : t.bytes (encode (P4Hyp.showCursor false)) = s at hidle hkept hhidden hgrid
  have hlen : rows.length = s.rows := by
    rw [P4Hyp.Frame.length_render (hrows ▸ hrows₁) hrender, hrows, hkept.rows]
  have hclean : ∀ row ∈ rows, CleanRow row ∧ (rowCells row).length = s.cols := by
    intro row hmem
    refine ⟨P4Hyp.Frame.clean_render hf hrender row hmem, ?_⟩
    rw [rowCells_length, P4Hyp.Frame.width_render (hcols ▸ hcols₁) hrender row hmem,
      hcols, hkept.cols]
  have hfits (i : Nat) (l : Str) (hl : (rows.map rowStr)[i]? = some l) : Fits s (0 + i) l := by
    rw [List.getElem?_map] at hl
    obtain ⟨row, hrow, rfl⟩ := Option.map_eq_some_iff.mp hl
    have hi := (List.getElem?_eq_some_iff.mp hrow).1
    obtain ⟨hrow', hwidth⟩ := hclean row (List.mem_of_getElem? hrow)
    exact ⟨by omega, row, hrow', hwidth, rfl⟩
  have hbefore (j : Nat) (l : Str) (_ : 0 ≤ j) (hl : prev[j]? = some l) : ShowsLine s s j l := by
    have hshown := hprev j l hl
    rwa [ShowsLine, ← hkept.cols, ← hgrid] at hshown
  obtain ⟨hdrawn, -, hshown⟩ := (draws_terminal (hkept.rows ▸ hrows₂)).redrawFrom force
    hidle.drawn hfits hbefore
  rw [← bytes_paintRows] at hdrawn
  obtain ⟨-, -, hgrid', hvisible, hcursor⟩ :=
    bytes_placeCursor hdrawn ⟨hrows ▸ hrows₁, hrows ▸ hrows₂⟩ ⟨hcols ▸ hcols₁, hcols ▸ hcols₂⟩
  simp only [← bytes_paintRows, Nat.zero_add] at hshown
  have hbytes : t.bytes (encode (f.paint rows force prev)) =
      (s.bytes (encode (paintRows force prev 0 (rows.map rowStr)))).bytes
        (encode f.placeCursor) := by
    rw [P4Hyp.Frame.paint, encode_append, encode_append, bytes_append, bytes_append, ht]
  rw [hbytes]
  refine ⟨⟨?_, ?_, ?_⟩, ?_⟩
  · have hheight := hdrawn.ready.ok.grid.rows.trans (hdrawn.kept.rows.trans hlen.symm)
    rw [hrender, Option.map_some, hgrid',
      grid_of_showsLine hheight hidle.ready.ok.cols hclean hshown]
  · rw [hvisible, hhidden]
    cases f.cursorPosition.isSome <;> rfl
  · refine hcursor ?_ ?_
    · rw [hrows, hdrawn.kept.rows, hkept.rows]
    · rw [hcols, hdrawn.kept.cols, hkept.cols]
  · intro i l hl
    rw [ShowsLine, hgrid', ← hkept.cols]
    exact hshown i l hl

end Paint

end Screen

/-! ## Opening and closing -/

namespace Screen

section Modes

variable {s t : Screen}

/-- `ESC [ ? m h` and `ESC [ ? m l`. -/
theorem bytes_setMode (hr : t.raised = none) (hs : t.state = .text) {params : Str} {m : Nat}
    (hparams : ∀ c ∈ params, isSgrParam c = true) (hpriv : params.head? = some '?')
    (hm : parmsOf 0 1 params = some [m]) (on : Bool) :
    t.bytes (encode (csi params (if on then 'h' else 'l'))) =
      modeOne on { t with parm := params, inter := [] } m := by
  have hdispatch (final : Char) (hfinal : final.isAlpha = true) (hc : Csi.of final = .mode on) :
      t.bytes (encode (csi params final)) =
        modeOne on { t with parm := params, inter := [] } m := by
    have hp : priv { t with state := .text, parm := params, inter := [] } = true := by
      rw [priv, hpriv]
      rfl
    rw [bytes_csi hr hs hparams hfinal, dispatch]
    dsimp only
    rw [hm]
    dsimp only
    rw [control, hc]
    dsimp only
    rw [if_pos hp, ← hs]
    rfl
  cases on with
  | true => exact hdispatch 'h' (by decide) rfl
  | false => exact hdispatch 'l' (by decide) rfl

theorem Idle.collect (h : s.Idle) (parm inter : Str) : Idle { s with parm, inter } :=
  ⟨{ h.ready with ok := { h.ready.ok with } }, h.style⟩

/-- What `save_cursor` keeps. -/
def slot (s : Screen) : SavedCursor :=
  { cx := s.cx, cy := s.cy, style := s.style, graphics := s.graphics, shifted := s.shifted }

/-- The grid of `s`, its cursor and its transcript, while the alternate buffer is in use. -/
structure Parked (s t : Screen) : Prop where
  altGrid : t.altGrid = some s.grid
  saved : t.saved = some s.slot
  scrollback : t.scrollback = s.scrollback
  linesOut : t.linesOut = s.linesOut

theorem Parked.beneath {u : Screen} (h : Parked s t) (hu : Beneath t u) : Parked s u := by
  have hne : t.altGrid ≠ none := by
    rw [h.altGrid]
    exact Option.some_ne_none _
  obtain ⟨hscroll, hlines⟩ := hu.still hne
  exact ⟨hu.altGrid.trans h.altGrid, hu.saved.trans h.saved, hscroll.trans h.scrollback,
    hlines.trans h.linesOut⟩

/-- The alternate buffer takes nothing of what text needs. -/
theorem Idle.altScreen (h : s.Idle) : Idle (s.altScreen true) ∧ (s.altScreen true).rows = s.rows ∧
    (s.altScreen true).cols = s.cols ∧
    (s.altGrid = none → Parked s (s.altScreen true)) := by
  have hok := h.ready.ok.altScreen true
  by_cases halt : s.inAlt = true
  · have he : s.altScreen true = s := by rw [Screen.altScreen, if_pos rfl, if_pos halt]
    rw [he]
    refine ⟨h, rfl, rfl, fun hnone => ?_⟩
    rw [inAlt, hnone] at halt
    cases halt
  · have he : s.altScreen true = { saveCursor s with
        altGrid := some s.grid, grid := newGrid s.rows s.cols, cx := 0, cy := 0, top := 0,
        bot := s.rows - 1 } := by
      rw [Screen.altScreen, if_pos rfl, if_neg halt]
    rw [he] at hok ⊢
    exact ⟨⟨{ h.ready with ok := hok }, h.style⟩,
      rfl, rfl, fun _ => ⟨rfl, rfl, rfl, rfl⟩⟩

theorem Idle.clear (h : s.Idle) : Idle (s.eraseDisplay 2) ∧ Beneath s (s.eraseDisplay 2) := by
  have hok := h.ready.ok.eraseDisplay 2
  exact ⟨⟨{ h.ready with ok := hok }, h.style⟩, beneath_frame.eraseDisplay 2 s⟩

/-- A mode that the terminal does not know. -/
theorem bytes_unknownMode (h : s.Idle) {params : Str} {m : Nat}
    (hparams : ∀ c ∈ params, isSgrParam c = true)
    (hpriv : params.head? = some '?') (hp : parmsOf 0 1 params = some [m])
    (hm : m ≠ 7 ∧ m ≠ 25 ∧ ¬ IsAltMode m ∧ m ≠ 1048) (on : Bool) :
    s.bytes (encode (csi params (if on then 'h' else 'l'))) =
      { s with parm := params, inter := [] } := by
  rw [bytes_setMode h.ready.ok.raised h.ready.state hparams hpriv hp, modeOne, if_neg hm.1,
    if_neg hm.2.1, if_neg hm.2.2.1, if_neg hm.2.2.2]

theorem bytes_mouse (h : s.Idle) (on : Bool) :
    (∃ parm inter, s.bytes (encode (csi "?1000".toList (if on then 'h' else 'l'))) =
      { s with parm, inter }) ∧
      ∃ parm inter, s.bytes (encode (csi "?1006".toList (if on then 'h' else 'l'))) =
        { s with parm, inter } :=
  ⟨⟨_, _, bytes_unknownMode h (m := 1000) (List.all_eq_true.mp (by decide)) rfl (by decide) (by decide) on⟩,
    ⟨_, _, bytes_unknownMode h (m := 1006) (List.all_eq_true.mp (by decide)) rfl (by decide) (by decide) on⟩⟩

theorem bytes_buffer (h : s.Idle) (on : Bool) :
    s.bytes (encode (csi "?1049".toList (if on then 'h' else 'l'))) =
      Screen.altScreen on { s with parm := "?1049".toList, inter := [] } :=
  (bytes_setMode h.ready.ok.raised h.ready.state (List.all_eq_true.mp (by decide)) rfl (by decide) on).trans
    (modeOne_alt (.inr rfl) _)

/-- Opening leaves a cleared screen, with the one before parked. -/
theorem bytes_opening (h : s.Idle) : Idle (s.bytes (encode Display.opening)) ∧
    (s.bytes (encode Display.opening)).rows = s.rows ∧
      (s.bytes (encode Display.opening)).cols = s.cols ∧
    (s.altGrid = none → Parked s (s.bytes (encode Display.opening))) := by
  obtain ⟨hentered, hrows, hcols, hparked⟩ := (h.collect "?1049".toList []).altScreen
  generalize hs₁ : Screen.altScreen true { s with parm := "?1049".toList, inter := [] } = s₁
    at hentered hrows hcols hparked
  obtain ⟨hclear, hkept⟩ := (hentered.collect "2".toList []).clear
  generalize hs₂ : eraseDisplay 2 { s₁ with parm := "2".toList, inter := [] } = s₂ at hclear hkept
  obtain ⟨⟨parm₃, inter₃, hs₃⟩, -⟩ := bytes_mouse hclear true
  obtain ⟨-, parm₄, inter₄, hs₄⟩ := bytes_mouse (hclear.collect parm₃ inter₃) true
  have herase : s₁.bytes (encode (csi "2".toList 'J')) = s₂ := by
    rw [bytes_csi hentered.ready.ok.raised hentered.ready.state (List.all_eq_true.mp (by decide)) (by decide),
      ← hentered.ready.state]
    exact hs₂
  have hall : s.bytes (encode Display.opening) = { s₂ with parm := parm₄, inter := inter₄ } := by
    rw [Display.opening, encode_append, encode_append, encode_append, bytes_append, bytes_append,
      bytes_append]
    rw [show s.bytes (encode (csi "?1049".toList 'h')) =
      s₁ from (bytes_buffer h true).trans hs₁, herase]
    rw [show s₂.bytes (encode (csi "?1000".toList 'h')) = _ from hs₃]
    exact hs₄
  rw [hall]
  refine ⟨hclear.collect parm₄ inter₄, hkept.rows.trans hrows,
    hkept.cols.trans hcols, fun hnone => ?_⟩
  exact { (show Parked s s₁ from { hparked hnone with }).beneath { hkept with } with }

end Modes

end Screen

/-! ## Runs -/

namespace Display

open Screen

/-- Between events: the terminal reads text, and in step with the window the rows that are
remembered are on it. -/
structure Kept (d : Display) : Prop where
  idle : d.term.Idle
  window : Fitting d.term.rows d.term.cols
  size : Fitting d.rows d.cols
  shown : d.InStep → ∀ i l, d.prev[i]? = some l → ShowsLine d.term d.term i l

section Run

variable {t : Screen} {d d' : Display} {e : DisplayEvent} {rows : List (List Span)}

theorem start_term (h : t.Idle) : (start t).term = t.bytes (encode opening) := by
  exact h.ready.feed_csi _ _ (by decide)

theorem inStep_start (h : t.Idle) (hsize : Fitting t.rows t.cols) : (start t).InStep := by
  obtain ⟨-, hrows, hcols, -⟩ := bytes_opening h
  rw [← start_term h] at hrows hcols
  exact ⟨(Nat.max_eq_right hsize.1).trans hrows.symm,
    (Nat.max_eq_right hsize.2.2.1).trans hcols.symm⟩

theorem kept_start (h : t.Idle) (hsize : Fitting t.rows t.cols) : (start t).Kept := by
  obtain ⟨hidle, hrows, hcols, -⟩ := bytes_opening h
  rw [← start_term h] at hidle hrows hcols
  have hstep := inStep_start h hsize
  have hwindow : Fitting (start t).term.rows (start t).term.cols := by
    rw [hrows, hcols]
    exact hsize
  exact ⟨hidle, hwindow, by rw [hstep.1, hstep.2]; exact hwindow, fun _ i l hl => by cases hl⟩

/-- A paint ends in ASCII. -/
theorem feed_paint (h : t.Idle) (f : P4Hyp.Frame) (rows : List (List Span)) (force : Bool)
    (prev : List Str) :
    t.feed (encode (f.paint rows force prev)) = t.bytes (encode (f.paint rows force prev)) := by
  rw [P4Hyp.Frame.paint, P4Hyp.Frame.placeCursor]
  cases f.cursorPosition with
  | none => exact h.ready.feed_csi _ _ (by decide)
  | some p =>
      dsimp only
      rw [← List.append_assoc]
      exact h.ready.feed_csi _ _ (by decide)

theorem fire_paint {f : P4Hyp.Frame} (h : f.rows = d.rows ∧ f.cols = d.cols)
    (hrender : f.render = some rows) (force : Bool) : fire d (.paint f force) =
      some { d with prev := rows.map rowStr, term := d.term.feed (encode (f.paint rows force d.prev)) } := by
  rw [fire, if_pos h, hrender]
  rfl

/-- What a paint does, and when. -/
theorem of_fire_paint {f : P4Hyp.Frame} {force : Bool} (h : fire d (.paint f force) = some d') :
    (f.rows = d.rows ∧ f.cols = d.cols) ∧ ∃ rows, f.render = some rows ∧
      d' = { d with prev := rows.map rowStr, term := d.term.feed (encode (f.paint rows force d.prev)) } := by
  rw [fire] at h
  split at h
  · obtain ⟨rows, hrender, rfl⟩ := Option.map_eq_some_iff.mp h
    exact ⟨‹_›, rows, hrender, rfl⟩
  · cases h

/-- What a paint leaves beneath it, and that the next can be read. -/
theorem paint_kept {f : P4Hyp.Frame} (h : d.Kept) (hf : f.Clear) (hrender : f.render = some rows)
    (hsizes : f.rows = d.rows ∧ f.cols = d.cols) (force : Bool) :
    Idle (d.term.feed (encode (f.paint rows force d.prev))) ∧
      Beneath d.term (d.term.feed (encode (f.paint rows force d.prev))) := by
  obtain ⟨hr, hr', hc, hc'⟩ := h.size
  rw [← hsizes.1] at hr hr'
  rw [← hsizes.2] at hc hc'
  rw [feed_paint h.idle]
  exact paint_idle h.idle hf hrender ⟨hr, hr'⟩ ⟨hc, hc'⟩ force d.prev

/-- A paint in step with the window shows its frame. -/
theorem paint_shown {f : P4Hyp.Frame} (h : d.Kept) (hf : f.Clear) (hrender : f.render = some rows)
    (hsizes : f.rows = d.rows ∧ f.cols = d.cols) (hstep : d.InStep) (force : Bool) :
    Showing f (d.term.feed (encode (f.paint rows force d.prev))) ∧
      ∀ i l, (rows.map rowStr)[i]? = some l →
        ShowsLine d.term (d.term.feed (encode (f.paint rows force d.prev))) i l := by
  rw [feed_paint h.idle]
  exact paint_showing h.idle hf hrender (hsizes.1.trans hstep.1) (hsizes.2.trans hstep.2) h.window
    (h.shown hstep) force

/-- Painting does not change the terminal's size. -/
theorem inStep_paint {f : P4Hyp.Frame} (h : d.Kept) (hf : f.Clear) (hrender : f.render = some rows)
    (hsizes : f.rows = d.rows ∧ f.cols = d.cols) (force : Bool) :
    InStep { d with prev := rows.map rowStr, term := d.term.feed (encode (f.paint rows force d.prev)) } ↔
      d.InStep := by
  have hunder := (paint_kept h hf hrender hsizes force).2
  rw [InStep, InStep, hunder.rows, hunder.cols]

theorem resize_idle (h : t.Idle) (rows cols : Int) : Idle (t.resize rows cols) := by
  have hok := h.ready.ok.resize rows cols
  unfold Screen.resize at hok ⊢
  dsimp only at hok ⊢
  split
  · exact h
  · rename_i hne
    rw [if_neg hne] at hok
    exact ⟨{ h.ready with ok := hok }, h.style⟩

theorem resize_size {rows cols : Nat} (h : Fitting rows cols) :
    (t.resize rows cols).rows = rows ∧ (t.resize rows cols).cols = cols := by
  obtain ⟨hr, -, hc, -⟩ := h
  unfold minRows at hr
  unfold minCols at hc
  have hrows : atLeastOne rows = rows := by
    unfold atLeastOne
    omega
  have hcols : atLeastOne cols = cols := by
    unfold atLeastOne
    omega
  unfold Screen.resize
  simp only [hrows, hcols]
  split
  · rename_i hsame
    exact ⟨hsame.1.symm, hsame.2.symm⟩
  · exact ⟨rfl, rfl⟩

theorem resize_same (h : Fitting t.rows t.cols) : t.resize t.rows t.cols = t := by
  obtain ⟨hr, -, hc, -⟩ := h
  unfold minRows at hr
  unfold minCols at hc
  unfold Screen.resize atLeastOne
  exact if_pos (by omega)

/-- One event. -/
theorem Kept.step (h : d.Kept) (ho : Orderly d e) (hf : fire d e = some d') : d'.Kept := by
  cases e with
  | window rows cols =>
      obtain rfl := Option.some.inj hf
      obtain ⟨hstep, hfit⟩ := ho
      obtain ⟨hrows, hcols⟩ := resize_size (t := d.term) hfit
      refine ⟨resize_idle h.idle _ _, by rw [hrows, hcols]; exact hfit, h.size, ?_⟩
      rintro ⟨hr, hc⟩
      have hsame : d.term.resize rows cols = d.term := by
        rw [← hstep.1.symm.trans (hr.trans hrows), ← hstep.2.symm.trans (hc.trans hcols)]
        exact resize_same h.window
      dsimp only
      rw [hsame]
      exact h.shown hstep
  | check =>
      obtain rfl := Option.some.inj hf
      split
      · exact h
      · have hr := Nat.max_eq_right h.window.1
        have hc := Nat.max_eq_right h.window.2.2.1
        refine ⟨h.idle, h.window, ?_, fun _ i l hl => by cases hl⟩
        dsimp only
        rw [hr, hc]
        exact h.window
  | paint f force =>
      obtain ⟨hsizes, rows, hrender, rfl⟩ := of_fire_paint hf
      obtain ⟨hidle, hunder⟩ := paint_kept h ho hrender hsizes force
      refine ⟨hidle, by rw [hunder.rows, hunder.cols]; exact h.window,
        h.size, fun hstep i l hl => ?_⟩
      have hsync := (inStep_paint h ho hrender hsizes force).mp hstep
      have hshown := (paint_shown h ho hrender hsizes hsync force).2 i l hl
      rwa [ShowsLine, ← hunder.cols] at hshown

theorem kept_run {h : List (Display × DisplayEvent)} (ht : t.Idle) (hsize : Fitting t.rows t.cols)
    (hrun : Run fire (start t) h d) (ho : Run.Meets Orderly h) : d.Kept :=
  Run.stateInvariant Orderly Kept (kept_start ht hsize)
    (fun _ _ _ hk ho hf => hk.step ho hf) hrun ho

/-- A paint in step with the window shows its frame, whichever of the rows it sends. -/
theorem painted_run {h : List (Display × DisplayEvent)} {f : P4Hyp.Frame} {force : Bool}
    (ht : t.Idle)
    (hsize : Fitting t.rows t.cols) (hrun : Run fire (start t) (h ++ [(d, .paint f force)]) d')
    (ho : Run.Meets Orderly (h ++ [(d, .paint f force)])) (hstep : d'.InStep) :
    ∃ rows, f.render = some rows ∧ d'.term = d.term.feed (encode (f.paint rows force d.prev)) ∧
      ∀ force, Showing f (d.term.feed (encode (f.paint rows force d.prev))) := by
  obtain ⟨hrun', hf⟩ := hrun.of_snoc
  obtain ⟨hmeets, (hclear : f.Clear)⟩ := Run.meets_snoc.mp ho
  have hkept := kept_run ht hsize hrun' hmeets
  obtain ⟨hsizes, rows, hrender, rfl⟩ := of_fire_paint hf
  have hsync := (inStep_paint hkept hclear hrender hsizes force).mp hstep
  exact ⟨rows, hrender, rfl, fun force => (paint_shown hkept hclear hrender hsizes hsync force).1⟩

theorem showing_run {h : List (Display × DisplayEvent)} {f : P4Hyp.Frame} {force : Bool}
    (ht : t.Idle)
    (hsize : Fitting t.rows t.cols) (hrun : Run fire (start t) (h ++ [(d, .paint f force)]) d')
    (ho : Run.Meets Orderly (h ++ [(d, .paint f force)])) (hstep : d'.InStep) :
      Showing f d'.term := by
  obtain ⟨rows, -, hterm, hshown⟩ := painted_run ht hsize hrun ho hstep
  rw [hterm]
  exact hshown force

/-- The frame that has been painted last is on the terminal as a whole, whichever of its rows were
sent, just as if they all had been. -/
theorem paints_show {h : List (Display × DisplayEvent)} {f : P4Hyp.Frame} {force : Bool}
    (ht : t.Idle)
    (hsize : Fitting t.rows t.cols) (hrun : Run fire (start t) (h ++ [(d, .paint f force)]) d')
    (ho : Run.Meets Orderly (h ++ [(d, .paint f force)])) (hstep : d'.InStep) :
    Showing f d'.term ∧ ∃ rows, f.render = some rows ∧
      d'.term.grid = (d.term.feed (encode (f.paint rows true d.prev))).grid := by
  obtain ⟨rows, hrender, hterm, hshown⟩ := painted_run ht hsize hrun ho hstep
  rw [hterm]
  refine ⟨hshown force, rows, hrender, ?_⟩
  -- a frame leaves one grid only
  exact Option.some.inj ((hshown force).rows.symm.trans (hshown true).rows)

end Run

theorem idle_init (rows cols : Int) (limit : Nat) : Idle (Screen.init rows cols limit) :=
  ⟨ready_init rows cols limit, rfl⟩

theorem clear_smallest : Frame.smallest.Clear where
  screen := plain_init 5 17 10
  colours row hrow a ha := by
    rw [List.eq_of_mem_replicate hrow] at ha
    rw [List.eq_of_mem_replicate ha]
    decide
  stamps i t ht := by cases ht
  port := by decide
  notice := by decide

theorem fitting_smallest :
    Fitting (Screen.init 8 40 10).rows (Screen.init 8 40 10).cols := by decide

/-- Two paints of the smallest terminal, the second of which sends no row. -/
theorem paints_show_smallest : ∃ d d', Run fire (start (Screen.init 8 40 10))
      [(start (Screen.init 8 40 10), .paint Frame.smallest true),
        (d, .paint Frame.smallest false)] d' ∧
    Showing Frame.smallest d'.term ∧ ∃ rows, Frame.smallest.render = some rows ∧
      d'.term.grid = (d.term.feed (encode (Frame.smallest.paint rows true d.prev))).grid := by
  have hidle := idle_init 8 40 10
  have hkept := kept_start hidle fitting_smallest
  obtain ⟨rows, hrender⟩ := Frame.exists_render Frame.counted_smallest
  have hfirst : fire (start (Screen.init 8 40 10)) (.paint Frame.smallest true) = some _ :=
    fire_paint ⟨rfl, rfl⟩ hrender true
  have hkept' := hkept.step (e := .paint Frame.smallest true) clear_smallest hfirst
  have hrun := (Run.start.step hfirst).step
    (fire_paint (f := Frame.smallest) ⟨rfl, rfl⟩ hrender false)
  have hstep := (inStep_paint hkept clear_smallest hrender ⟨rfl, rfl⟩ true).mpr
    (inStep_start hidle fitting_smallest)
  refine ⟨_, _, hrun, paints_show hidle fitting_smallest hrun ?_ ?_⟩
  · exact Run.meets_snoc.mpr ⟨Run.meets_snoc.mpr ⟨Run.meets_nil _, clear_smallest⟩, clear_smallest⟩
  · exact (inStep_paint hkept' clear_smallest hrender ⟨rfl, rfl⟩ false).mpr hstep

end Display

end P4Hyp
