import P4Hyp.Display.Text
import P4Hyp.Screen.Pen

/-!
# Parameters and styles

The numbers that are written into a control sequence are read out of it again, and the code that
is written for a cell's style sets that style.
-/

namespace P4Hyp

/-! ## Decimal parameters -/

/-- `";".join("%d" % n for n in ns)`. -/
def parmStr (ns : List Nat) : Str := [';'].intercalate (ns.map decimalStr)

/-- The number has no more digits than `int` reads. -/
def Legible (n : Nat) : Prop := (decimalStr n).length ≤ intMaxStrDigits

instance (n : Nat) : Decidable (Legible n) := inferInstanceAs (Decidable (_ ≤ _))

theorem legible_of_lt {n : Nat} (h : n < 2 ^ 16) : Legible n := by
  have hfive : (decimalStr n).length ≤ 5 :=
    (Nat.length_toDigits_le_iff (by decide) (by decide)).mpr (by omega)
  exact hfive.trans (by decide)

theorem decimalStr_ne_nil (n : Nat) : decimalStr n ≠ [] := Nat.toDigits_ne_nil

theorem isAsciiDigit_decimalStr {n : Nat} {c : Char} (h : c ∈ decimalStr n) :
    isAsciiDigit c = true := by
  have hd := Nat.isDigit_of_mem_toDigits (by decide) (by decide) h
  simpa [isAsciiDigit, Char.isDigit, Char.le_def] using hd

theorem parmValue_decimalStr (default n : Nat) : parmValue default (decimalStr n) = n := by
  rw [parmValue, if_pos ⟨decimalStr_ne_nil n, List.all_eq_true.mpr fun c => isAsciiDigit_decimalStr⟩]
  exact Nat.ofDigitChars_ten_toDigits

theorem not_tooLong_decimalStr {n : Nat} (h : Legible n) : tooLong (decimalStr n) = false := by
  rw [tooLong, Bool.and_eq_false_iff]
  exact .inr (decide_eq_false (Nat.not_lt.mpr h))

theorem parmStr_cons {ns : List Nat} (h : ns ≠ []) (n : Nat) :
    parmStr (n :: ns) = decimalStr n ++ ';' :: parmStr ns := by
  obtain ⟨m, ns, rfl⟩ := List.exists_cons_of_ne_nil h
  simp [parmStr, List.intercalate]

theorem parmStr_singleton (n : Nat) : parmStr [n] = decimalStr n := by
  simp [parmStr, List.intercalate]

theorem mem_parmStr {ns : List Nat} {c : Char} (h : c ∈ parmStr ns) :
    isAsciiDigit c = true ∨ c = ';' := by
  induction ns with
  | nil => cases h
  | cons n ns ih =>
      by_cases hns : ns = []
      · subst hns
        rw [parmStr_singleton] at h
        exact .inl (isAsciiDigit_decimalStr h)
      · rw [parmStr_cons hns, List.mem_append, List.mem_cons] at h
        rcases h with h | h | h
        · exact .inl (isAsciiDigit_decimalStr h)
        · exact .inr h
        · exact ih h

theorem isSgrParam_parmStr {ns : List Nat} {c : Char} (h : c ∈ parmStr ns) :
    isSgrParam c = true := by
  rcases mem_parmStr h with hd | rfl
  · have hdigit : c.isDigit = true := by simpa [isAsciiDigit, Char.isDigit, Char.le_def] using hd
    rw [isSgrParam, hdigit]
    rfl
  · rfl

theorem parmPieces_parmStr {ns : List Nat} (h : ns ≠ []) :
    parmPieces (parmStr ns) = ns.map decimalStr := by
  have hdigit (c : Char) (hc : isAsciiDigit c = true) : c ∉ ['?', '<', '>', '='] ∧ c ≠ ';' := by
    simp only [isAsciiDigit, Bool.and_eq_true, decide_eq_true_eq] at hc
    constructor
    · intro hm
      simp only [List.mem_cons, List.not_mem_nil, or_false] at hm
      rcases hm with rfl | rfl | rfl | rfl <;> exact absurd hc (by decide)
    · rintro rfl
      exact absurd hc (by decide)
  have hdrop : (parmStr ns).dropWhile (· ∈ ['?', '<', '>', '=']) = parmStr ns := by
    cases hs : parmStr ns with
    | nil => rfl
    | cons c s =>
        have hc : c ∈ parmStr ns := by rw [hs]; exact List.mem_cons_self
        refine List.dropWhile_cons_of_neg ?_
        rw [decide_eq_true_eq]
        rcases mem_parmStr hc with hd | rfl
        · exact (hdigit c hd).1
        · decide
  rw [parmPieces, hdrop, parmStr]
  refine List.splitOn_intercalate ';' (fun p hp hm => ?_) (by simpa using h)
  obtain ⟨n, -, rfl⟩ := List.mem_map.mp hp
  exact (hdigit ';' (isAsciiDigit_decimalStr hm)).2 rfl

/-- The numbers come back, and where there are too few of them the default. -/
theorem parmsOf_parmStr {ns : List Nat} (hne : ns ≠ []) (hns : ∀ n ∈ ns, Legible n)
    (default count : Nat) :
    parmsOf default count (parmStr ns) =
      some (ns ++ List.replicate (count - ns.length) default) := by
  have hvalues : (ns.map decimalStr).map (parmValue default) = ns := by
    rw [List.map_map]
    exact (List.map_congr_left fun n _ => parmValue_decimalStr default n).trans (List.map_id ns)
  rw [parmsOf, parmPieces_parmStr hne, if_neg, hvalues]
  rw [Bool.not_eq_true, List.any_eq_false]
  intro p hp
  obtain ⟨n, hn, rfl⟩ := List.mem_map.mp hp
  rw [not_tooLong_decimalStr (hns n hn)]
  exact Bool.false_ne_true

/-! ## Styles -/

namespace Sgr

/-- The parameters of the code. -/
def parm (g : Sgr) : Str := (g.code.drop 2).dropLast

/-- What the code makes of the default. -/
def style (g : Sgr) : Style :=
  if g.code = [] then .default else sgrRun ((parmsOf 0 1 g.parm).getD []) .default

/-- No code, or one of attributes that can be read. -/
def Pen (g : Sgr) : Prop :=
  g = .none ∨ ∃ params h p, g = .of params h ∧ parmsOf 0 1 params = some p ∧ p ≠ []

theorem parm_of (params : Str) (h : ∀ c ∈ params, isSgrParam c = true) :
    (Sgr.of params h).parm = params := by
  simp [parm, Sgr.of]

theorem style_of {params : Str} {h : ∀ c ∈ params, isSgrParam c = true} {p : List Nat}
    (hp : parmsOf 0 1 params = some p) : (Sgr.of params h).style = sgrRun p .default := by
  rw [style, if_neg (by simp [Sgr.of]), parm_of, hp, Option.getD_some]

theorem pen_none : Pen .none := .inl rfl

end Sgr

namespace Screen

variable {s : Screen}

/-- A list of attributes. -/
theorem bytes_sgr (hr : s.raised = none) (hs : s.state = .text) {params : Str} {p : List Nat}
    (h : ∀ c ∈ params, isSgrParam c = true) (hp : parmsOf 0 1 params = some p) (hne : p ≠ []) :
    s.bytes (encode (Sgr.of params h).code) =
      { s with style := sgrRun p s.style, parm := params, inter := [] } := by
  show s.bytes (encode (csi params 'm')) = _
  rw [bytes_csi hr hs h (by decide), dispatch]
  dsimp only
  rw [hp]
  dsimp only
  show sgr p _ = _
  rw [sgr_eq hne, ← hs]

/-- A code sets its style. -/
theorem bytes_pen (hr : s.raised = none) (hs : s.state = .text) (hstyle : s.style = .default)
    {g : Sgr} (hg : g.Pen) : ∃ parm inter, s.bytes (encode g.code) =
      { s with style := g.style, parm, inter } := by
  rcases hg with rfl | ⟨params, h, p, rfl, hp, hne⟩
  · refine ⟨s.parm, s.inter, ?_⟩
    show s = { s with style := .default }
    rw [← hstyle]
  · refine ⟨params, [], ?_⟩
    rw [bytes_sgr hr hs h hp hne, Sgr.style_of hp, hstyle]

/-- And the reset takes any style away. -/
theorem bytes_reset (hr : s.raised = none) (hs : s.state = .text) :
    ∃ parm inter, s.bytes (encode sgrReset.code) = { s with style := .default, parm, inter } :=
  ⟨['0'], [], bytes_sgr hr hs _ (p := [0]) (by decide) (by decide)⟩

end Screen

/-! ## The style of a cell -/

/-- The attributes that `sgr_for` has a code for. -/
def attrItems (attr : BitVec 6) : List SgrItem :=
  (if attr &&& Style.bold ≠ 0 then [.plain 1 (by decide)] else []) ++
  (if attr &&& Style.dim ≠ 0 then [.plain 2 (by decide)] else []) ++
  (if attr &&& Style.italic ≠ 0 then [.plain 3 (by decide)] else []) ++
  (if attr &&& Style.underline ≠ 0 then [.plain 4 (by decide)] else []) ++
  (if attr &&& Style.reverse ≠ 0 then [.plain 7 (by decide)] else [])

def styleItems (t : Style) : List SgrItem :=
  attrItems t.attr ++
  (if 0 ≤ t.fg then [.indexed false t.fg.toNat] else []) ++
  (if 0 ≤ t.bg then [.indexed true t.bg.toNat] else [])

/-- The style as it is shown: blinking is not, and a negative colour is the default. -/
def Style.shown (t : Style) : Style :=
  { attr := t.attr &&& ~~~Style.blink
    fg := if 0 ≤ t.fg then t.fg else Style.defaultFg
    bg := if 0 ≤ t.bg then t.bg else Style.defaultBg }

/-- The colours can be read back. -/
def Style.Legible (t : Style) : Prop := P4Hyp.Legible t.fg.toNat ∧ P4Hyp.Legible t.bg.toNat

instance (t : Style) : Decidable t.Legible := inferInstanceAs (Decidable (_ ∧ _))

theorem sgrCodes_items (t : Style) : sgrCodes t = (styleItems t).map fun i => parmStr i.params := by
  have hplain (v : Nat) (h : v ≠ 38 ∧ v ≠ 48) (p : Prop) [Decidable p] :
      (if p then [SgrItem.plain v h] else []).map (fun i => parmStr i.params) =
        if p then [decimalStr v] else [] := by
    split
    · exact congrArg (· :: []) (parmStr_singleton v)
    · rfl
  have hindexed (background : Bool) (n : Nat) (p : Prop) [Decidable p] :
      (if p then [SgrItem.indexed background n] else []).map (fun i => parmStr i.params) =
        if p then [decimalStr (SgrItem.selector background) ++ ";5;".toList ++ decimalStr n]
          else [] := by
    split
    · show [parmStr [SgrItem.selector background, 5, n]] = _
      rw [parmStr_cons (by simp), parmStr_cons (by simp), parmStr_singleton, List.append_assoc]
      rfl
    · rfl
  simp only [styleItems, attrItems, List.map_append, hplain, hindexed]
  rfl

theorem parmStr_append {a b : List Nat} (ha : a ≠ []) (hb : b ≠ []) :
    parmStr (a ++ b) = parmStr a ++ ';' :: parmStr b := by
  induction a with
  | nil => exact absurd rfl ha
  | cons n a ih =>
      by_cases hne : a = []
      · subst hne
        rw [List.singleton_append, parmStr_cons hb, parmStr_singleton]
      · rw [List.cons_append, parmStr_cons (List.append_ne_nil_of_left_ne_nil hne b), ih hne,
          parmStr_cons hne, List.append_assoc, List.cons_append]

/-- Items joined one by one are joined as a whole. -/
theorem parmStr_items (items : List SgrItem) :
    [';'].intercalate (items.map fun i => parmStr i.params) = parmStr (sgrParams items) := by
  induction items with
  | nil => rfl
  | cons i items ih =>
      cases items with
      | nil => simp [List.intercalate, sgrParams]
      | cons j items =>
          have hne : sgrParams (j :: items) ≠ [] :=
            List.append_ne_nil_of_left_ne_nil j.params_ne_nil _
          rw [show sgrParams (i :: j :: items) = i.params ++ sgrParams (j :: items) from rfl,
            parmStr_append i.params_ne_nil hne, ← ih]
          simp [List.intercalate]

theorem styleItems_shown (t : Style) :
    (styleItems t).foldl (fun t i => i.apply t) .default = t.shown := by
  have hattr : ∀ attr : BitVec 6, (attrItems attr).foldl (fun t i => i.apply t) .default =
      { Style.default with attr := attr &&& ~~~Style.blink } := by decide
  have hfg (u : Style) : (if 0 ≤ t.fg then [SgrItem.indexed false t.fg.toNat] else []).foldl
      (fun t i => i.apply t) u = { u with fg := if 0 ≤ t.fg then t.fg else u.fg } := by
    split
    · show { u with fg := ((t.fg.toNat : Nat) : Int) } = _
      rw [Int.toNat_of_nonneg ‹_›]
    · rfl
  have hbg (u : Style) : (if 0 ≤ t.bg then [SgrItem.indexed true t.bg.toNat] else []).foldl
      (fun t i => i.apply t) u = { u with bg := if 0 ≤ t.bg then t.bg else u.bg } := by
    split
    · show { u with bg := ((t.bg.toNat : Nat) : Int) } = _
      rw [Int.toNat_of_nonneg ‹_›]
    · rfl
  rw [styleItems, List.foldl_append, List.foldl_append, hattr, hfg, hbg]
  rfl

theorem styleItems_legible {t : Style} (h : t.Legible) :
    ∀ n ∈ sgrParams (styleItems t), Legible n := by
  have hsmall (n : Nat) (hn : n < 100) : Legible n := legible_of_lt (by omega)
  have hone {i : SgrItem} (hi : i ∈ styleItems t) :
      (∃ v hv, i = .plain v hv ∧ v < 100) ∨ (∃ b n, i = .indexed b n ∧ Legible n) := by
    have hite {p : Prop} [Decidable p] {j : SgrItem} (hm : i ∈ if p then [j] else []) : i = j := by
      split at hm
      · exact List.mem_singleton.mp hm
      · cases hm
    simp only [styleItems, attrItems, List.mem_append] at hi
    rcases hi with (((((hi | hi) | hi) | hi) | hi) | hi) | hi
    · exact .inl ⟨1, by decide, hite hi, by decide⟩
    · exact .inl ⟨2, by decide, hite hi, by decide⟩
    · exact .inl ⟨3, by decide, hite hi, by decide⟩
    · exact .inl ⟨4, by decide, hite hi, by decide⟩
    · exact .inl ⟨7, by decide, hite hi, by decide⟩
    · exact .inr ⟨false, _, hite hi, h.1⟩
    · exact .inr ⟨true, _, hite hi, h.2⟩
  intro n hn
  obtain ⟨i, hi, hn⟩ := List.mem_flatMap.mp hn
  rcases hone hi with ⟨v, hv, rfl, hlt⟩ | ⟨b, m, rfl, hm⟩
  · rw [List.mem_singleton.mp hn]
    exact hsmall v hlt
  · rcases List.mem_cons.mp hn with rfl | hn
    · exact hsmall _ (by cases b <;> decide)
    · rcases List.mem_cons.mp hn with rfl | hn
      · exact hsmall 5 (by decide)
      · rw [List.mem_singleton.mp hn]
        exact hm

/-- The code of a cell sets the cell's style, but for blinking. -/
theorem sgrFor_style {cell : Cell} (h : cell.style.Legible) :
    (sgrFor cell).Pen ∧ (sgrFor cell).style = cell.style.shown := by
  have hcodes := sgrCodes_items cell.style
  have hshown := styleItems_shown cell.style
  by_cases hnil : styleItems cell.style = []
  · rw [hnil] at hshown
    rw [sgrFor, if_pos (by rw [hcodes, hnil]; rfl)]
    exact ⟨Sgr.pen_none, hshown⟩
  · have hne : sgrParams (styleItems cell.style) ≠ [] := by
      obtain ⟨i, items, hi⟩ := List.exists_cons_of_ne_nil hnil
      rw [hi]
      exact List.append_ne_nil_of_left_ne_nil i.params_ne_nil _
    have hparms : parmsOf 0 1 ([';'].intercalate (sgrCodes cell.style)) =
        some (sgrParams (styleItems cell.style)) := by
      have hlen := List.length_pos_iff.mpr hne
      rw [hcodes, parmStr_items, parmsOf_parmStr hne (styleItems_legible h),
        Nat.sub_eq_zero_of_le hlen, List.replicate_zero, List.append_nil]
    rw [sgrFor, if_neg (by rw [hcodes]; simpa using hnil)]
    refine ⟨.inr ⟨_, _, _, rfl, hparms, hne⟩, ?_⟩
    have hrun := sgrRun_items (styleItems cell.style) [] .default
    rw [List.append_nil, sgrRun_nil] at hrun
    rw [Sgr.style_of hparms, hrun, hshown]

end P4Hyp
