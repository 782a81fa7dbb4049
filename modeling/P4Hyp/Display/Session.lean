import P4Hyp.Display.Shown

/-!
# A session

The program draws in the terminal's other buffer, and gives the terminal back as it found it.
-/

namespace P4Hyp

namespace Screen

/-- The terminal `u` shows again what `t` did. -/
structure Restored (t u : Screen) : Prop where
  idle : u.Idle
  grid : u.grid = t.grid
  altGrid : u.altGrid = none
  cx : u.cx = t.cx
  cy : u.cy = t.cy
  scrollback : u.scrollback = t.scrollback
  linesOut : u.linesOut = t.linesOut
  visible : u.cursorVisible = true

section Closing

variable {s t : Screen}

/-- Leaving the buffer takes the cursor from the slot. -/
theorem Parked.leave (h : Parked t s) (ht : t.Idle) (hs : s.Idle) (hrows : s.rows = t.rows)
    (hcols : s.cols = t.cols) (hvisible : s.cursorVisible = true) :
      Restored t (s.altScreen false) := by
  have hx := ht.ready.ok.cx
  have hy := ht.ready.ok.cy
  have hok := hs.ready.ok.altScreen false
  have hleave : s.altScreen false =
      { s with grid := t.grid, altGrid := none, top := 0, bot := s.rows - 1, cx := min t.cx (s.cols - 1),
               cy := min t.cy (s.rows - 1), style := t.style, graphics :=
                 t.graphics, shifted := t.shifted,
               pendingWrap := false } :=
    (altScreen_leave h.altGrid).trans
      (restoreCursor_some (s := { s with grid := t.grid, altGrid := none, top := 0, bot := s.rows - 1 })
        h.saved)
  rw [hleave] at hok ⊢
  exact {
    idle := ⟨⟨hok, hs.ready.state, hs.ready.pending, ht.ready.graphics, ht.ready.shifted,
      hs.ready.insertMode⟩, ht.style⟩
    grid := rfl
    altGrid := rfl
    cx := by
      show min t.cx (s.cols - 1) = t.cx
      omega
    cy := by
      show min t.cy (s.rows - 1) = t.cy
      omega
    scrollback := h.scrollback
    linesOut := h.linesOut
    visible := hvisible }

theorem bytes_closing (h : Parked t s) (ht : t.Idle) (hs : s.Idle) (hrows : s.rows = t.rows)
    (hcols : s.cols = t.cols) : Restored t (s.bytes (encode Display.closing)) := by
  obtain ⟨-, parm₁, inter₁, hs₁⟩ := bytes_mouse hs false
  have hidle₁ := hs.collect parm₁ inter₁
  obtain ⟨⟨parm₂, inter₂, hs₂⟩, -⟩ := bytes_mouse hidle₁ false
  have hidle₂ := hidle₁.collect parm₂ inter₂
  obtain ⟨hidle₃, hbeneath, hvisible, -⟩ := hidle₂.drawn.showCursor true
  have hparked : Parked t (bytes { s with parm := parm₂, inter := inter₂ } (encode (showCursor true))) :=
    (show Parked t { s with parm := parm₂, inter := inter₂ }
      from { h with }).beneath { hbeneath with }
  have hleave := bytes_buffer hidle₃ false
  have hall : s.bytes (encode Display.closing) = altScreen false
      { bytes { s with parm := parm₂, inter := inter₂ } (encode (showCursor true)) with
        parm := "?1049".toList, inter := [] } := by
    rw [Display.closing, encode_append, encode_append, encode_append, bytes_append, bytes_append,
      bytes_append]
    rw [show s.bytes (encode (csi "?1006".toList 'l')) = _ from hs₁]
    rw [show bytes { s with parm := parm₁, inter := inter₁ } (encode (csi "?1000".toList 'l')) =
      _ from hs₂]
    exact hleave
  rw [hall]
  exact Parked.leave { hparked with } ht (hidle₃.collect _ _) (hbeneath.rows.trans hrows)
    (hbeneath.cols.trans hcols) hvisible

end Closing

end Screen

namespace Display

open Screen

section Session

variable {t : Screen} {d d' : Display} {e : DisplayEvent} {h : List (Display × DisplayEvent)}

/-- The window keeps its size. -/
def KeepsSize (_ : Display) (e : DisplayEvent) : Prop := ∀ rows cols, e ≠ .window rows cols

theorem beneath_step (h : d.Kept) (ho : Orderly d e) (hsize : KeepsSize d e)
    (hf : fire d e = some d') :
    Beneath d.term d'.term := by
  cases e with
  | window rows cols => exact absurd rfl (hsize rows cols)
  | check =>
      obtain rfl := Option.some.inj hf
      split <;> exact .refl _
  | paint f force =>
      obtain ⟨hsizes, rows, hrender, rfl⟩ := of_fire_paint hf
      exact (paint_kept h ho hrender hsizes force).2

/-- However much has been painted, the program leaves the terminal as it was. -/
theorem session_restores (ht : t.Idle) (hsize : Fitting t.rows t.cols) (halt : t.altGrid = none)
    (hrun : Run fire (start t) h d) (ho : Run.Meets Orderly h) (hkeeps : Run.Meets KeepsSize h) :
    Restored t (d.term.feed (encode closing)) := by
  obtain ⟨hopened, hrows, hcols, hparked⟩ := bytes_opening ht
  rw [← start_term ht] at hopened hrows hcols hparked
  have hinv : d.Kept ∧ Beneath (start t).term d.term := by
    refine Run.stateInvariant (fun d e => Orderly d e ∧ KeepsSize d e)
      (fun d => d.Kept ∧ Beneath (start t).term d.term) ⟨kept_start ht hsize, .refl _⟩ ?_ hrun
      fun p hp => ⟨ho p hp, hkeeps p hp⟩
    rintro d e d' ⟨hk, hb⟩ ⟨ho, hsize⟩ hf
    exact ⟨hk.step ho hf, hb.trans (beneath_step hk ho hsize hf)⟩
  obtain ⟨hkept, hbeneath⟩ := hinv
  rw [show d.term.feed (encode closing) = d.term.bytes (encode closing) from
    hkept.idle.ready.feed_csi _ _ (by decide)]
  exact bytes_closing ((hparked halt).beneath hbeneath) ht hkept.idle (hbeneath.rows.trans hrows)
    (hbeneath.cols.trans hcols)

end Session

/-- A prompt on the terminal, and one paint over it. -/
theorem session_restores_prompt :
    ∃ t d, t.grid[0]?.bind (·[0]?) = some { ch := '$', style := .default } ∧
    Run fire (start t) ([] ++ [(start t, .paint Frame.smallest true)]) d ∧
    Restored t (d.term.feed (encode closing)) := by
  have hready := (ready_init 8 40 10).put '$'
  have hidle : Idle ((Screen.init 8 40 10).put '$') := ⟨hready, rfl⟩
  obtain ⟨rows, hrender⟩ := Frame.exists_render Frame.counted_smallest
  have hfire : fire (start ((Screen.init 8 40 10).put '$')) (.paint Frame.smallest true) = some _ :=
    fire_paint ⟨rfl, rfl⟩ hrender true
  have hrun := Run.start.step hfire
  refine ⟨_, _, by decide, hrun, session_restores hidle (by decide) rfl hrun ?_ ?_⟩
  · exact Run.meets_snoc.mpr ⟨Run.meets_nil _, clear_smallest⟩
  · refine Run.meets_snoc.mpr ⟨Run.meets_nil _, fun rows cols he => ?_⟩
    cases he

end Display

end P4Hyp
