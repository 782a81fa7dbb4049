import P4Hyp.Display.Row

/-!
# The rows of a frame

Every row that `render` assembles is made of styles that a terminal reads and of text without
control characters, and is as wide as the terminal.
-/

namespace P4Hyp

/-! ## Text -/

instance (t : Str) : Decidable (PlainText t) := List.decidableBAll _ t

theorem not_isControl_blank : ¬ IsControl ' ' := by decide

theorem not_isControl_rule : ¬ IsControl '─' := by decide

theorem plainText_bar : PlainText ['│'] := by decide

theorem plainText_nil : PlainText [] := fun c hc => by cases hc

theorem plainText_ofList {t : Str} (h : PlainText t) : PlainText (String.ofList t).toList := by
  rw [String.toList_ofList]
  exact h

theorem plainText_take {t : Str} (h : PlainText t) (n : Nat) : PlainText (t.take n) :=
  fun c hc => h c (List.mem_of_mem_take hc)

theorem plainText_numeral {t : Str} (h : Numeral t) : PlainText t := by
  intro c hc hctl
  have hnum := h c hc
  unfold isNumeral at hnum
  rcases Bool.or_eq_true_iff.mp hnum with hd | hd
  · obtain ⟨hlo, hhi⟩ := Char.isDigit_iff_toNat.mp hd
    change 48 ≤ c.toNat at hlo
    change c.toNat ≤ 57 at hhi
    unfold IsControl at hctl
    omega
  · have hall : ".e+-".toList.all (fun c => decide (¬ IsControl c)) = true := by decide
    exact of_decide_eq_true (List.all_eq_true.mp hall c (List.contains_iff_mem.mp hd)) hctl

theorem plainText_decimalStr (n : Nat) : PlainText (decimalStr n) :=
  plainText_numeral (numeral_decimalStr n)

theorem plainText_intercalate {sep : Str} {ts : List Str} (hsep : PlainText sep)
    (h : ∀ t ∈ ts, PlainText t) :
    PlainText (sep.intercalate ts) := by
  induction ts with
  | nil => exact plainText_nil
  | cons t ts ih =>
      have ht := h t List.mem_cons_self
      cases ts with
      | nil => simpa [List.intercalate] using ht
      | cons u ts =>
          have hrest := ih fun u hu => h u (List.mem_cons_of_mem t hu)
          have he : sep.intercalate (t :: u :: ts) = t ++ (sep ++ sep.intercalate (u :: ts)) := by
            simp [List.intercalate]
          rw [he]
          exact plainText_append ht (plainText_append hsep hrest)

/-! ## Counts -/

theorem plainText_humanFrom {units : List Str} (h : ∀ u ∈ units, PlainText u) (n : ℚ) :
    PlainText (humanFrom units n) := by
  induction units generalizing n with
  | nil => exact plainText_append (plainText_numeral (numeral_wholeStr n)) (by decide)
  | cons unit units ih =>
      rw [humanFrom]
      split
      · refine plainText_append ?_ (h unit List.mem_cons_self)
        split
        · exact plainText_numeral (numeral_tenthsStr n)
        · exact plainText_numeral (numeral_wholeStr n)
      · exact ih (fun u hu => h u (List.mem_cons_of_mem unit hu)) _

theorem plainText_human {n : Nat} {text : Str} (h : human n = some text) : PlainText text := by
  obtain ⟨x, -, rfl⟩ := Option.map_eq_some_iff.mp h
  exact plainText_humanFrom (by decide) x

theorem plainText_mbps {n : Nat} {text : Str} (h : mbps n = some text) : PlainText text := by
  obtain ⟨x, -, rfl⟩ := Option.map_eq_some_iff.mp h
  exact plainText_append (plainText_numeral (numeral_generalStr _)) (by decide)

/-- A count with its unit. -/
theorem plainText_count {n : Nat} {unit t : Str} {texts : List Str} (hunit : PlainText unit)
    (h : (human n).map (fun t => [t ++ unit]) = some texts) (ht : t ∈ texts) : PlainText t := by
  obtain ⟨count, hcount, rfl⟩ := Option.map_eq_some_iff.mp h
  rw [List.mem_singleton.mp ht]
  exact plainText_append (plainText_human hcount) hunit

/-! ## Lines -/

theorem cleanRow_append {r t : List Span} (hr : CleanRow r) (ht : CleanRow t) : CleanRow (r ++ t) :=
  fun p hp => (List.mem_append.mp hp).elim (hr p) (ht p)

theorem cleanRow_singleton {sgr : Sgr} {text : Str} (hs : sgr.Pen) (ht : PlainText text) :
    CleanRow [⟨sgr, text⟩] := fun p hp => by
  rw [List.mem_singleton.mp hp]
  exact ⟨hs, ht⟩

/-- With the codes in order, the row is clean if its characters are. -/
theorem cleanRow_of_plain {row : List Span} (hpens : ∀ p ∈ row, p.sgr.Pen)
    (hplain : PlainText (rowChars row)) :
    CleanRow row :=
  fun p hp => ⟨hpens p hp, fun c hc => hplain c (List.mem_flatMap.mpr ⟨p, hp, hc⟩)⟩

namespace Line

variable {ln : Line}

def Clean (ln : Line) : Prop := CleanRow ln.parts

theorem new_clean (width : Nat) : (new width).Clean := fun p hp => by cases hp

theorem Clean.add (h : ln.Clean) {text : Str} {sgr : Sgr} (ht : PlainText text) (hs : sgr.Pen) :
    (ln.add text sgr).Clean := by
  unfold Line.add
  split
  · exact h
  · exact cleanRow_append h (cleanRow_singleton hs (plainText_take ht _))

theorem Clean.pad (h : ln.Clean) (upto : Nat) {ch : Char} {sgr : Sgr} (hc : ¬ IsControl ch)
    (hs : sgr.Pen) :
    (ln.pad upto ch sgr).Clean := by
  unfold Line.pad
  dsimp only
  split
  · refine h.add (fun c hc' => ?_) hs
    rw [List.eq_of_mem_replicate hc']
    exact hc
  · exact h

theorem Clean.fill (h : ln.Clean) : ln.fill.Clean := h.pad _ (by decide) Sgr.pen_none

theorem Clean.addStyled (h : ln.Clean) {row : List Span} (hrow : CleanRow row) (width : Nat) :
    (ln.addStyled row width).Clean := by
  unfold Line.addStyled
  split
  · exact h
  · exact cleanRow_append h hrow

/-- The codes of a row of the guest's screen. -/
theorem pens_addRuns {cells : List Cell} (h : ∀ p ∈ ln.parts, p.sgr.Pen)
    (hcells : ∀ a ∈ cells, a.style.Legible) : ∀ p ∈ (addRuns cells ln).parts, p.sgr.Pen := by
  induction cells, ln using addRuns.induct with
  | case1 ln =>
      rw [addRuns]
      exact h
  | case2 cell rest ln ih =>
      rw [addRuns]
      refine ih ?_ fun a ha =>
        hcells a (List.mem_cons_of_mem cell ((List.dropWhile_sublist _).subset ha))
      unfold add
      split
      · exact h
      · intro p hp
        rcases List.mem_append.mp hp with hp | hp
        · exact h p hp
        · rw [List.mem_singleton.mp hp]
          exact (sgrFor_style (hcells cell List.mem_cons_self)).1

end Line

/-! ## Styles -/

theorem pen_of {params : Str} (h : ∀ c ∈ params, isSgrParam c = true) {p : List Nat}
    (hp : parmsOf 0 1 params = some p) (hne : p ≠ []) : (Sgr.of params h).Pen :=
  .inr ⟨params, h, p, rfl, hp, hne⟩

theorem pen_border : sBorder.Pen := pen_of _ (p := [38, 5, 240]) (by decide) (by decide)
theorem pen_title : sTitle.Pen := pen_of _ (p := [1]) (by decide) (by decide)
theorem pen_head : sHead.Pen := pen_of _ (p := [1, 36]) (by decide) (by decide)
theorem pen_dim : sDim.Pen := pen_of _ (p := [38, 5, 245]) (by decide) (by decide)
theorem pen_keyHot : sKeyHot.Pen := pen_of _ (p := [1, 33]) (by decide) (by decide)
theorem pen_note : sNote.Pen := pen_of _ (p := [1, 33]) (by decide) (by decide)

namespace Frame

/-- What comes from outside has no control characters, and the guest's colours can be read. -/
structure Clear (f : Frame) : Prop where
  screen : f.screen.Plain
  colours : ∀ row ∈ f.screen.grid, ∀ a ∈ row, a.style.Legible
  stamps : f.StampsPlain
  port : PlainText f.port
  notice : PlainText f.notice

section Rows

variable {f : Frame} {height width : Nat}

theorem plainText_header (h : f.Clear) {text : Str} (ht : f.header = some text) :
    PlainText text := by
  obtain ⟨rate, hrate, ht⟩ := Option.bind_eq_some_iff.mp ht
  obtain ⟨traps, htraps, ht⟩ := Option.bind_eq_some_iff.mp ht
  obtain rfl := Option.some.inj ht
  refine plainText_intercalate (by decide) fun t ht => ?_
  simp only [List.mem_append, List.mem_cons, List.not_mem_nil, or_false] at ht
  rcases ht with (((((rfl | rfl | rfl | rfl | rfl) | ht) | ht) | ht) | ht)
  · decide
  · exact h.port
  · exact plainText_mbps hrate
  · exact plainText_append (plainText_append (plainText_decimalStr _) (by decide))
      (plainText_decimalStr _)
  · split <;> decide
  · cases hn : f.traps with
    | none =>
        rw [hn] at htraps
        obtain rfl := Option.some.inj htraps
        cases ht
    | some n =>
        rw [hn] at htraps
        exact plainText_count (by decide) htraps ht
  · split at ht
    · split at ht
      · cases ht
      · rw [List.mem_singleton.mp ht]
        exact plainText_append (by decide) (plainText_decimalStr _)
    · cases ht
  · split at ht
    · rw [List.mem_singleton.mp ht]
      decide
    · cases ht
  · split at ht
    · rw [List.mem_singleton.mp ht]
      decide
    · cases ht

theorem plainText_footer {text : Str} (ht : f.footer = some text) : PlainText text := by
  obtain ⟨rx, hrx, ht⟩ := Option.bind_eq_some_iff.mp ht
  obtain ⟨linesOut, hlines, ht⟩ := Option.bind_eq_some_iff.mp ht
  obtain ⟨rate, hrate, ht⟩ := Option.bind_eq_some_iff.mp ht
  obtain rfl := Option.some.inj ht
  refine plainText_append (plainText_append (by decide) (by decide)) ?_
  refine plainText_intercalate (by decide) fun t ht => ?_
  simp only [List.mem_append, List.mem_cons, List.not_mem_nil, or_false] at ht
  rcases ht with ((((rfl | rfl) | ht) | ht) | rfl) | ht
  · exact plainText_append (plainText_human hrx) (by decide)
  · exact plainText_append (plainText_human hlines) (by decide)
  · split at ht
    · rw [List.mem_singleton.mp ht]
      decide
    · cases ht
  · split at hrate
    · exact plainText_count (by decide) hrate ht
    · obtain rfl := Option.some.inj hrate
      cases ht
  · exact plainText_append (plainText_append (plainText_append (by decide) (plainText_decimalStr _))
      (by decide)) (plainText_decimalStr _)
  · split at ht
    · rw [List.mem_singleton.mp ht]
      exact plainText_append (by decide) (plainText_decimalStr _)
    · cases ht

theorem clean_borderRow {left right : Char} {text : Str} {style : Sgr} (hl : ¬ IsControl left)
    (hr : ¬ IsControl right) (ht : PlainText text) (hs : style.Pen) :
    CleanRow (f.borderRow left right text style) := by
  have hone {c : Char} (hc : ¬ IsControl c) (t : Str) (ht : PlainText t) : PlainText (c :: t) := by
    intro d hd
    rcases List.mem_cons.mp hd with rfl | hd
    · exact hc
    · exact ht d hd
  have hleft := (Line.new_clean f.cols).add (hone hl [' '] (by decide)) pen_border
  have htext := (hleft.add (plainText_take ht (f.cols - 4)) hs).add (show PlainText [' '] by decide)
    pen_border
  exact (htext.pad (f.cols - 1) not_isControl_rule pen_border).add
    (hone hr [] (by decide)) pen_border

theorem clean_helpRow {body : Str} (h : PlainText body) : CleanRow (f.helpRow body) := by
  have hleft := (Line.new_clean f.cols).add plainText_bar pen_border
  have hbody := (hleft.add h Sgr.pen_none).pad (f.cols - 1) not_isControl_blank Sgr.pen_none
  exact hbody.add plainText_bar pen_border

theorem clean_separatorRow : CleanRow f.separatorRow := by
  have hleft := (Line.new_clean f.cols).add (show PlainText ['├'] by decide) pen_border
  have hmid := (hleft.pad (1 + sidebarW) not_isControl_rule pen_border).add
    (show PlainText [if f.showHelp then '─' else '┴'] by split <;> decide) pen_border
  exact (hmid.pad (f.cols - 1) not_isControl_rule pen_border).add
    (show PlainText ['┤'] by decide) pen_border

theorem clean_paneRow {side : Str × Sgr} {pane : List Span} (ht : PlainText side.1)
    (hs : side.2.Pen) (hpane : CleanRow pane) : CleanRow (f.paneRow side pane) := by
  have hleft := (Line.new_clean f.cols).add plainText_bar pen_border
  have hside := (hleft.add (plainText_take ht sidebarW) hs).pad (1 + sidebarW) not_isControl_blank
    Sgr.pen_none
  have hmid := (hside.add plainText_bar pen_border).addStyled hpane f.paneCols
  exact (hmid.pad (f.cols - 1) not_isControl_blank Sgr.pen_none).add plainText_bar pen_border

theorem plainText_help : ∀ t ∈ help, PlainText t.toList := by
  simp only [help, List.forall_mem_cons]
  repeat' apply And.intro
  all_goals first
    | exact plainText_ofList (by decide +kernel)
    | exact fun t ht => by cases ht

theorem plainText_helpRows : ∀ t ∈ helpRows height width, PlainText t := by
  intro t ht
  rcases List.mem_append.mp (List.mem_of_mem_take ht) with ht | ht
  · obtain ⟨line, hline, rfl⟩ := List.mem_map.mp ht
    have hadd : rowStr ((Line.new width).add line.toList .none).build =
        if width ≤ 0 ∨ line.toList = [] then [] else line.toList.take width := by
      rw [Line.add]
      show rowStr (if width ≤ 0 ∨ line.toList = [] then _ else _ : Line).build = _
      split
      · rfl
      · exact List.append_nil _
    rw [hadd]
    split
    · exact plainText_nil
    · exact plainText_take (plainText_help line hline) width
  · rw [List.eq_of_mem_replicate ht]
    exact fun c hc => by cases hc

theorem clean_sidebarRows : ∀ side ∈ sidebarRows height, PlainText side.1 ∧ side.2.Pen := by
  have hup {rows more : List (Str × Sgr)} {n : Nat} (hr : ∀ s ∈ rows, PlainText s.1 ∧ s.2.Pen)
      (hm : ∀ s ∈ more, PlainText s.1 ∧ s.2.Pen) :
        ∀ s ∈ upTo n rows more, PlainText s.1 ∧ s.2.Pen := by
    intro s hs
    rcases List.mem_append.mp hs with hs | hs
    · exact hr s hs
    · exact hm s (List.mem_of_mem_take hs)
  have htitle : ∀ s ∈ [(" actions  Ctrl+] then:".toList, sTitle)], PlainText s.1 ∧ s.2.Pen := by
    intro s hs
    rw [List.mem_singleton.mp hs]
    exact ⟨by decide, pen_title⟩
  have hactions : ∀ a ∈ actions,
      PlainText ("   ".toList ++ [a.key] ++ "   ".toList ++ a.label.toList) := by
    decide +kernel
  have hkeys : ∀ s ∈ actions.map (fun a =>
      ("   ".toList ++ [a.key] ++ "   ".toList ++ a.label.toList,
      if a.hot then sKeyHot else sLabel)), PlainText s.1 ∧ s.2.Pen := by
    intro s hs
    obtain ⟨a, ha, rfl⟩ := List.mem_map.mp hs
    refine ⟨hactions a ha, ?_⟩
    show (if a.hot then sKeyHot else sLabel).Pen
    split
    · exact pen_keyHot
    · exact Sgr.pen_none
  have hrest : ∀ s ∈ [([], sDim), (" Esc  console".toList, sDim), (" PgUp scroll".toList, sDim)],
      PlainText s.1 ∧ s.2.Pen := by
    intro s hs
    simp only [List.mem_cons, List.not_mem_nil, or_false] at hs
    rcases hs with rfl | rfl | rfl
    · exact ⟨by decide, pen_dim⟩
    · exact ⟨by decide, pen_dim⟩
    · exact ⟨by decide, pen_dim⟩
  intro s hs
  rcases List.mem_append.mp hs with hs | hs
  · exact hup (hup htitle hkeys) hrest s hs
  · rw [List.eq_of_mem_replicate hs]
    exact ⟨plainText_nil, Sgr.pen_none⟩

theorem pens_fill {ln : Line} (h : ∀ p ∈ ln.parts, p.sgr.Pen) : ∀ p ∈ ln.fill.build, p.sgr.Pen := by
  unfold Line.fill Line.pad Line.build Line.add
  dsimp only
  split
  · split
    · exact h
    · intro p hp
      rcases List.mem_append.mp hp with hp | hp
      · exact h p hp
      · rw [List.mem_singleton.mp hp]
        exact Sgr.pen_none
  · exact h

theorem clean_paneContents (h : f.Clear) : ∀ row ∈ f.paneContents height width, CleanRow row := by
  have hblanks : ∀ p ∈ blanks width, p.sgr.Pen := fun p hp => by
    rw [List.mem_singleton.mp hp]
    exact Sgr.pen_none
  intro row hrow
  refine cleanRow_of_plain ?_ (paneContents_plain height width h.screen h.stamps row hrow)
  unfold paneContents at hrow
  split at hrow
  · obtain ⟨y, -, rfl⟩ := List.mem_map.mp hrow
    split
    · exact hblanks
    · rename_i cells hcells
      refine pens_fill (Line.pens_addRuns (fun p hp => by cases hp) fun a ha => ?_)
      exact h.colours cells (List.mem_of_getElem? hcells) a (List.mem_of_mem_take ha)
  · rcases List.mem_append.mp hrow with hrow | hrow
    · obtain ⟨⟨text, stamp⟩, -, rfl⟩ := List.mem_map.mp hrow
      have hadd {ln : Line} {t : Str} {sgr : Sgr} (hln : ∀ p ∈ ln.parts, p.sgr.Pen) (hs : sgr.Pen) :
          ∀ p ∈ (ln.add t sgr).parts, p.sgr.Pen := by
        unfold Line.add
        split
        · exact hln
        · intro p hp
          rcases List.mem_append.mp hp with hp | hp
          · exact hln p hp
          · rw [List.mem_singleton.mp hp]
            exact hs
      unfold logRow
      refine pens_fill (hadd ?_ Sgr.pen_none)
      split
      · exact hadd (fun p hp => by cases hp) pen_dim
      · exact fun p hp => by cases hp
    · rw [List.eq_of_mem_replicate hrow]
      exact hblanks

/-- The rows of `render`, kind by kind. -/
theorem forall_render {P : List Span → Prop} {rows : List (List Span)}
    (hrender : f.render = some rows)
    (hborder : ∀ left right text style, ¬ IsControl left → ¬ IsControl right → style.Pen →
      f.header = some text ∨ f.footer = some text ∨ text = f.notice →
        P (f.borderRow left right text style))
    (hhelp : ∀ body, PlainText body → P (f.helpRow body))
    (hpane : ∀ side pane, side ∈ sidebarRows f.paneRows ∨ side = ([], .none) →
      pane ∈ f.paneContents f.paneRows f.paneCols → P (f.paneRow side pane))
    (hsep : P f.separatorRow) : ∀ row ∈ rows, P row := by
  obtain ⟨top, bottom, htop, hbottom, rfl⟩ := render_eq_some hrender
  intro row hrow
  simp only [assemble, List.mem_append, List.mem_singleton] at hrow
  rcases hrow with ((rfl | hrow) | rfl) | rfl
  · exact hborder _ _ _ _ (by decide) (by decide) pen_head (.inl htop)
  · split at hrow
    · obtain ⟨r, -, rfl⟩ := List.mem_map.mp hrow
      refine hhelp _ ?_
      rw [List.getD_eq_getElem?_getD]
      cases hb : (helpRows f.paneRows (f.cols - 2))[r]? with
      | none => exact plainText_nil
      | some body => exact plainText_helpRows body (List.mem_of_getElem? hb)
    · obtain ⟨r, hr, rfl⟩ := List.mem_map.mp hrow
      have hlt : r < (f.paneContents f.paneRows f.paneCols).length := by
        rw [(paneContents_width f f.paneRows f.paneCols).1]
        exact List.mem_range.mp hr
      refine hpane _ _ ?_ ?_
      · rw [List.getD_eq_getElem?_getD]
        cases hs : (sidebarRows f.paneRows)[r]? with
        | none => exact .inr rfl
        | some side => exact .inl (List.mem_of_getElem? hs)
      · rw [List.getD_eq_getElem?_getD, List.getElem?_eq_getElem hlt, Option.getD_some]
        exact List.getElem_mem hlt
  · exact hsep
  · unfold Frame.bottom at hbottom
    split at hbottom
    · obtain rfl := Option.some.inj hbottom
      exact hborder _ _ _ _ (by decide) (by decide) pen_note (.inr (.inr rfl))
    · obtain ⟨text, htext, rfl⟩ := Option.map_eq_some_iff.mp hbottom
      exact hborder _ _ _ _ (by decide) (by decide) pen_dim (.inr (.inl htext))

theorem clean_render (h : f.Clear) {rows : List (List Span)} (hrender : f.render = some rows) :
    ∀ row ∈ rows, CleanRow row := by
  refine forall_render hrender ?_ (fun body hbody => clean_helpRow hbody) ?_ clean_separatorRow
  · rintro left right text style hl hr hs (ht | ht | rfl)
    · exact clean_borderRow hl hr (plainText_header h ht) hs
    · exact clean_borderRow hl hr (plainText_footer ht) hs
    · exact clean_borderRow hl hr h.notice hs
  · rintro side pane hside hpane
    have hpane' := clean_paneContents h pane hpane
    rcases hside with hside | rfl
    · exact clean_paneRow (clean_sidebarRows side hside).1 (clean_sidebarRows side hside).2 hpane'
    · exact clean_paneRow plainText_nil Sgr.pen_none hpane'

end Rows

end Frame
end P4Hyp
