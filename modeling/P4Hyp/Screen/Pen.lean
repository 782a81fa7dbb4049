import P4Hyp.Screen.Parse

/-!
# Attributes in lists

One sequence may set several attributes and colours.  A colour of 38 or 48 takes the parameters
behind it along, and the loop goes on behind them.
-/

namespace P4Hyp

/-! ## The loop -/

/-- The loop with the rounds that `_sgr` can need. -/
def sgrRun (params : List Nat) (t : Style) : Style := sgrLoop params.length params t

section Run

variable {v : Nat} {rest : List Nat}

theorem sgrColour_length (rest : List Nat) : (sgrColour rest).2.length ≤ rest.length := by
  unfold sgrColour
  split <;> simp only [List.length_drop, List.length_cons] <;> omega

/-- More rounds than parameters make no difference. -/
theorem sgrLoop_fuel {fuel : Nat} {params : List Nat} (h : params.length ≤ fuel) (t : Style) :
    sgrLoop fuel params t = sgrRun params t := by
  unfold sgrRun
  suffices hall : ∀ (n m : Nat) (params : List Nat) (t : Style), params.length ≤ n →
      params.length ≤ m → sgrLoop n params t = sgrLoop m params t from hall _ _ _ _ h le_rfl
  intro n
  induction n with
  | zero =>
      intro m params t hn _
      rw [List.length_eq_zero_iff.mp (Nat.le_zero.mp hn)]
      cases m <;> rfl
  | succ n ih =>
      intro m params t hn hm
      cases params with
      | nil => cases m <;> rfl
      | cons v rest =>
          obtain ⟨m, rfl⟩ : ∃ k, m = k + 1 := ⟨m - 1, by rw [List.length_cons] at hm; omega⟩
          rw [List.length_cons] at hn hm
          have hcolour := sgrColour_length rest
          rw [sgrLoop, sgrLoop, ih m _ _ (by omega) (by omega), ih m _ _ (by omega) (by omega),
            ih m rest _ (by omega) (by omega)]

theorem sgrRun_nil (t : Style) : sgrRun [] t = t := rfl

theorem sgrRun_fg (rest : List Nat) (t : Style) :
    sgrRun (38 :: rest) t = sgrRun (sgrColour rest).2 { t with fg := (sgrColour rest).1 } := by
  rw [sgrRun, List.length_cons, sgrLoop, if_pos rfl, sgrLoop_fuel (sgrColour_length rest)]

theorem sgrRun_bg (rest : List Nat) (t : Style) :
    sgrRun (48 :: rest) t = sgrRun (sgrColour rest).2 { t with bg := (sgrColour rest).1 } := by
  rw [sgrRun, List.length_cons, sgrLoop, if_neg (by decide), if_pos rfl,
    sgrLoop_fuel (sgrColour_length rest)]

theorem sgrRun_plain (h : v ≠ 38 ∧ v ≠ 48) (rest : List Nat) (t : Style) :
    sgrRun (v :: rest) t = sgrRun rest (sgrOne v t) := by
  rw [sgrRun, List.length_cons, sgrLoop, if_neg h.1, if_neg h.2]
  rfl

end Run

/-! ## Whole items -/

/-- A parameter that stands alone, or a colour with all of its arguments. -/
inductive SgrItem
  | plain (v : Nat) (h : v ≠ 38 ∧ v ≠ 48)
  | indexed (background : Bool) (index : Nat)
  | direct (background : Bool) (r g b : Nat)

namespace SgrItem

/-- 38 or 48. -/
def selector (background : Bool) : Nat := if background then 48 else 38

def params : SgrItem → List Nat
  | plain v _ => [v]
  | indexed background index => [selector background, 5, index]
  | direct background r g b => [selector background, 2, r, g, b]

def setColour (background : Bool) (n : Nat) (t : Style) : Style :=
  if background then { t with bg := n } else { t with fg := n }

/-- What the item means; of the three components of a colour the first is kept. -/
def apply : SgrItem → Style → Style
  | plain v _, t => sgrOne v t
  | indexed background index, t => setColour background index t
  | direct background r _ _, t => setColour background r t

theorem params_ne_nil (i : SgrItem) : i.params ≠ [] := by
  cases i <;> exact List.cons_ne_nil _ _

/-- An item is taken as a whole, whatever comes behind it. -/
theorem sgrRun_item (i : SgrItem) (rest : List Nat) (t : Style) :
    sgrRun (i.params ++ rest) t = sgrRun rest (i.apply t) := by
  cases i with
  | plain v h => exact sgrRun_plain h rest t
  | indexed background index =>
      cases background with
      | false => exact sgrRun_fg (5 :: index :: rest) t
      | true => exact sgrRun_bg (5 :: index :: rest) t
  | direct background r g b =>
      cases background with
      | false => exact sgrRun_fg (2 :: r :: g :: b :: rest) t
      | true => exact sgrRun_bg (2 :: r :: g :: b :: rest) t

end SgrItem

/-- The parameters of items, one behind the other. -/
def sgrParams (items : List SgrItem) : List Nat := items.flatMap SgrItem.params

theorem sgrRun_items (items : List SgrItem) (rest : List Nat) (t : Style) :
    sgrRun (sgrParams items ++ rest) t = sgrRun rest (items.foldl (fun t i => i.apply t) t) := by
  induction items generalizing t with
  | nil => rfl
  | cons i items ih =>
      show sgrRun (i.params ++ sgrParams items ++ rest) t = _
      rw [List.append_assoc, SgrItem.sgrRun_item, ih]
      rfl

namespace Screen

theorem sgr_eq {params : List Nat} (h : params ≠ []) (s : Screen) :
    s.sgr params = { s with style := sgrRun params s.style } := by
  rw [sgr]
  simp only [if_neg h]
  rfl

/-- The list `a` of items and then `b` have one effect in one sequence and in two, every item of `a`
has its own, and a colour sets that colour. -/
structure SgrSplits (a : List SgrItem) (b : List Nat) (s : Screen) : Prop where
  append : s.sgr (sgrParams a ++ b) = (s.sgr (sgrParams a)).sgr b
  items : s.sgr (sgrParams a) = { s with style := a.foldl (fun t i => i.apply t) s.style }
  indexed : ∀ background index, s.sgr (SgrItem.indexed background index).params =
    { s with style := SgrItem.setColour background index s.style }
  direct : ∀ background r g b, s.sgr (SgrItem.direct background r g b).params =
    { s with style := SgrItem.setColour background r s.style }

theorem sgr_items {items : List SgrItem} (h : items ≠ []) (s : Screen) :
    s.sgr (sgrParams items) = { s with style := items.foldl (fun t i => i.apply t) s.style } := by
  have hne : sgrParams items ≠ [] := by
    obtain ⟨i, items, rfl⟩ := List.exists_cons_of_ne_nil h
    exact List.append_ne_nil_of_left_ne_nil i.params_ne_nil _
  have hrun := sgrRun_items items [] s.style
  rw [List.append_nil, sgrRun_nil] at hrun
  rw [sgr_eq hne, hrun]

theorem sgr_item (i : SgrItem) (s : Screen) :
    s.sgr i.params = { s with style := i.apply s.style } := by
  have hone := sgr_items (List.cons_ne_nil i []) s
  rwa [sgrParams, List.flatMap_singleton] at hone

theorem sgr_splits {a : List SgrItem} {b : List Nat} (ha : a ≠ []) (hb : b ≠ []) (s : Screen) :
    SgrSplits a b s where
  append := by
    rw [sgr_items ha, sgr_eq hb, sgr_eq (List.append_ne_nil_of_right_ne_nil _ hb), sgrRun_items]
  items := sgr_items ha s
  indexed _ _ := sgr_item _ s
  direct _ _ _ _ := sgr_item _ s

/-- Colours whose arguments would be attributes, and bold behind them. -/
theorem sgr_splits_colours : SgrSplits [.indexed false 5, .direct true 4 7 1] [1] (init 3 10 10) :=
  sgr_splits (List.cons_ne_nil _ _) (List.cons_ne_nil _ _) _

end Screen
end P4Hyp
