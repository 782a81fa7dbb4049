import P4Hyp.Lib.Memory
import Mathlib.Data.List.Infix
import Mathlib.Data.List.TakeWhile

/-!
# Patterns over bytes

Python's patterns of literal bytes and groups of digits.  No literal that follows a
group starts with a digit, so a group is as long as the digits are, and never
gives one back.

A text that arrives in pieces is searched piece by piece.  Where the cuts leave the
lines with a match alone, that finds what the last of these lines says.
-/

namespace P4Hyp

/-- `\d` of a pattern over bytes. -/
def isDigit (c : Byte) : Bool := 0x30 ≤ c.toNat && c.toNat ≤ 0x39

/-- `int` of a string of digits. -/
def decimal (ds : List Byte) : Nat := ds.foldl (fun n c => 10 * n + (c.toNat - 0x30)) 0

/-- The rest of `s` after the literal `p`. -/
def literal (p s : List Byte) : Option (List Byte) :=
  if p.isPrefixOf s then some (s.drop p.length) else none

/-- `(\d+)`; what follows it in the pattern is no digit. -/
def digits (s : List Byte) : Option (List Byte × List Byte) :=
  if s.takeWhile isDigit = [] then none else some (s.takeWhile isDigit, s.dropWhile isDigit)

section

variable {s rest d p : List Byte} {c : Byte}

theorem literal_eq_some : literal p s = some rest ↔ s = p ++ rest := by
  unfold literal
  constructor
  · intro h
    split at h
    · rename_i hp
      obtain ⟨t, rfl⟩ := List.isPrefixOf_iff_prefix.mp hp
      obtain rfl := Option.some.inj h
      rw [List.drop_left]
    · cases h
  · rintro rfl
    rw [if_pos (List.isPrefixOf_iff_prefix.mpr (List.prefix_append p rest)), List.drop_left]

theorem digits_some (h : digits s = some (d, rest)) :
    (d ≠ [] ∧ ∀ c ∈ d, isDigit c = true) ∧ s = d ++ rest := by
  unfold digits at h
  split at h
  · cases h
  · rename_i hne
    obtain ⟨rfl, rfl⟩ := Prod.mk.inj (Option.some.inj h)
    exact ⟨⟨hne, fun c hc => List.all_eq_true.mp List.all_takeWhile c hc⟩,
      List.takeWhile_append_dropWhile.symm⟩

theorem digits_append (hne : d ≠ []) (hd : ∀ c ∈ d, isDigit c = true) (hc : isDigit c = false) :
    digits (d ++ c :: rest) = some (d, c :: rest) := by
  have htake : (d ++ c :: rest).takeWhile isDigit = d := by
    rw [List.takeWhile_append_of_pos hd]
    simp [hc]
  have hdrop : (d ++ c :: rest).dropWhile isDigit = c :: rest := by
    rw [List.dropWhile_append_of_pos hd]
    simp [hc]
  rw [digits, htake, hdrop, if_neg hne]

/-- A literal and a group stop at a byte that they cannot contain. -/
theorem literal_line (hc : c ∉ p) :
    literal p (s ++ c :: rest) = (literal p s).map (· ++ c :: rest) := by
  cases h : literal p s with
  | some t =>
      obtain rfl := literal_eq_some.mp h
      exact literal_eq_some.mpr (List.append_assoc p t _)
  | none =>
      cases h' : literal p (s ++ c :: rest) with
      | none => rfl
      | some t =>
          exfalso
          have hp : p <+: s ++ c :: rest := ⟨t, (literal_eq_some.mp h').symm⟩
          rcases List.prefix_or_prefix_of_prefix hp (List.prefix_append s _)
            with ⟨u, rfl⟩ | ⟨u, rfl⟩
          · rw [literal_eq_some.mpr rfl] at h
            cases h
          · have hu : u <+: c :: rest := (List.prefix_append_right_inj s).mp hp
            cases u with
            | nil =>
                rw [List.append_nil, literal_eq_some.mpr (List.append_nil s).symm] at h
                cases h
            | cons x u =>
                obtain rfl := (List.cons_prefix_cons.mp hu).1
                exact hc (by simp)

theorem digits_line (hc : isDigit c = false) :
    digits (s ++ c :: rest) = (digits s).map fun r => (r.1, r.2 ++ c :: rest) := by
  have htake : (s ++ c :: rest).takeWhile isDigit = s.takeWhile isDigit := by
    rw [List.takeWhile_append]
    split
    · rename_i h
      rw [(List.takeWhile_prefix isDigit).eq_of_length h, List.takeWhile_cons_of_neg (by simp [hc]),
        List.append_nil]
    · rfl
  have hdrop : (s ++ c :: rest).dropWhile isDigit = s.dropWhile isDigit ++ c :: rest := by
    rw [List.dropWhile_append]
    split
    · rename_i h
      rw [List.isEmpty_iff.mp h]
      simp [hc]
    · rfl
  unfold digits
  rw [htake, hdrop]
  split <;> rfl

end

/-! ## Patterns -/

inductive Part
  | bytes (s : List Byte)
  | group
deriving DecidableEq

abbrev Pattern := List Part

/-- The groups of the match at the front of the data. -/
def matchAt : Pattern → List Byte → Option (List (List Byte))
  | [], _ => some []
  | .bytes l :: p, s => (literal l s).bind (matchAt p)
  | .group :: p, s => (digits s).bind fun r => (matchAt p r.2).map (r.1 :: ·)

/-- The groups of the first match. -/
def search (p : Pattern) : List Byte → Option (List (List Byte))
  | [] => matchAt p []
  | b :: s => (matchAt p (b :: s)).or (search p s)

def newlineByte : Byte := 0x0a

/-- The lines of a text, what follows the last line feed included. -/
def textLines (s : List Byte) : List (List Byte) := s.splitOn newlineByte

def firstLine (s : List Byte) : List Byte := (textLines s).headD []

def laterLines (s : List Byte) : List (List Byte) := (textLines s).tail

/-- What follows the last line feed. -/
def lastLine (s : List Byte) : List Byte := (textLines s).getLastD []

def Part.breaks : Part → Bool
  | .bytes l => l.contains newlineByte
  | .group => false

/-- A match is not empty, and stays on a line. -/
structure OneLine (p : Pattern) : Prop where
  nonempty : matchAt p [] = none
  onLine : ∀ part ∈ p, part.breaks = false

section Search

variable {p : Pattern} {s l rest : List Byte}

theorem matchAt_line (hp : ∀ part ∈ p, part.breaks = false) :
    matchAt p (s ++ newlineByte :: rest) = matchAt p s := by
  induction p generalizing s with
  | nil => rfl
  | cons part p ih =>
      have hrest {s : List Byte} : matchAt p (s ++ newlineByte :: rest) = matchAt p s :=
        ih fun q hq => hp q (List.mem_cons_of_mem part hq)
      cases part with
      | bytes l =>
          have hl : newlineByte ∉ l := by simpa [Part.breaks] using hp (.bytes l) List.mem_cons_self
          rw [matchAt, literal_line hl, matchAt]
          cases literal l s with
          | none => rfl
          | some t => exact hrest
      | group =>
          rw [matchAt, digits_line (by decide), matchAt]
          cases digits s with
          | none => rfl
          | some r =>
              show (matchAt p (r.2 ++ newlineByte :: rest)).map (r.1 :: ·) = _
              rw [hrest]
              rfl

/-- The first line, and what follows it. -/
theorem textLines_cons (s : List Byte) : ∃ l ls, textLines s = l :: ls ∧
    (ls = [] ∧ s = l ∨ ∃ rest, s = l ++ newlineByte :: rest ∧ textLines rest = ls) := by
  induction s with
  | nil => exact ⟨[], [], rfl, .inl ⟨rfl, rfl⟩⟩
  | cons b s ih =>
      obtain ⟨l, ls, hs, h⟩ := ih
      unfold textLines at hs ⊢
      rw [List.splitOn_cons_eq_if_modifyHead]
      by_cases hb : b = newlineByte
      · subst hb
        exact ⟨[], s.splitOn newlineByte, by simp, .inr ⟨s, rfl, rfl⟩⟩
      · rw [if_neg (by simpa using hb), hs]
        refine ⟨b :: l, ls, rfl, ?_⟩
        rcases h with ⟨hls, rfl⟩ | ⟨rest, rfl, hrest⟩
        · exact .inl ⟨hls, rfl⟩
        · exact .inr ⟨rest, rfl, hrest⟩

/-- The first match is on the first line that has one. -/
theorem search_textLines (hp : OneLine p) (s : List Byte) :
    search p s = (textLines s).findSome? (search p) := by
  induction s with
  | nil => simp [textLines]
  | cons b s ih =>
      rw [search, ih]
      by_cases hb : b = newlineByte
      · subst hb
        have hline : matchAt p (newlineByte :: s) = none :=
          (matchAt_line (s := []) hp.onLine).trans hp.nonempty
        have hnil : search p [] = none := hp.nonempty
        simp [textLines, List.splitOn_cons_eq_if_modifyHead, hline, hnil]
      · obtain ⟨l, ls, hs, h⟩ := textLines_cons s
        have hbs : textLines (b :: s) = (b :: l) :: ls := by
          unfold textLines at hs ⊢
          rw [List.splitOn_cons_eq_if_modifyHead, if_neg (by simpa using hb), hs]
          rfl
        have hmatch : matchAt p (b :: s) = matchAt p (b :: l) := by
          rcases h with ⟨-, rfl⟩ | ⟨rest, rfl, -⟩
          · rfl
          · exact matchAt_line (s := b :: l) hp.onLine
        rw [hs, hbs, hmatch, List.findSome?_cons, List.findSome?_cons, search]
        cases matchAt p (b :: l) <;> cases search p l <;> rfl

theorem textLines_eq (s : List Byte) : textLines s = firstLine s :: laterLines s := by
  obtain ⟨l, ls, hs, -⟩ := textLines_cons s
  rw [firstLine, laterLines, hs]
  rfl

/-- A text behind another one continues its last line. -/
theorem textLines_append (s t : List Byte) : ∃ ls, textLines s = ls ++ [lastLine s] ∧
    textLines (s ++ t) = ls ++ (lastLine s ++ firstLine t) :: laterLines t := by
  suffices h : ∃ ls last, textLines s = ls ++ [last] ∧
      textLines (s ++ t) = ls ++ (last ++ firstLine t) :: laterLines t by
    obtain ⟨ls, last, hs, ht⟩ := h
    have hlast : lastLine s = last := by simp [lastLine, hs]
    exact ⟨ls, hlast ▸ hs, hlast ▸ ht⟩
  induction s with
  | nil => exact ⟨[], [], rfl, textLines_eq t⟩
  | cons b s ih =>
      obtain ⟨ls, last, hs, ht⟩ := ih
      unfold textLines at hs ht ⊢
      rw [List.cons_append, List.splitOn_cons_eq_if_modifyHead, List.splitOn_cons_eq_if_modifyHead,
        hs, ht]
      by_cases hb : b = newlineByte
      · rw [if_pos (by simpa using hb), if_pos (by simpa using hb)]
        exact ⟨[] :: ls, last, rfl, rfl⟩
      · rw [if_neg (by simpa using hb), if_neg (by simpa using hb)]
        cases ls with
        | nil => exact ⟨[], b :: last, rfl, rfl⟩
        | cons l ls => exact ⟨(b :: l) :: ls, last, rfl, rfl⟩

/-- A match begins in the first part and does not end with it. -/
def Cut (p : Pattern) (s t : List Byte) : Prop :=
  ∃ v, v ≠ [] ∧ v <:+ s ∧ matchAt p (v ++ t) ≠ matchAt p v

instance (p : Pattern) (s t : List Byte) : Decidable (Cut p s t) :=
  decidable_of_iff (∃ v ∈ s.tails, v ≠ [] ∧ matchAt p (v ++ t) ≠ matchAt p v)
    ⟨fun ⟨v, hv, hne, h⟩ => ⟨v, hne, (List.mem_tails v s).mp hv, h⟩,
      fun ⟨v, hne, hv, h⟩ => ⟨v, (List.mem_tails v s).mpr hv, hne, h⟩⟩

theorem search_append (hp : OneLine p) {s t : List Byte} (h : ¬ Cut p s t) :
    search p (s ++ t) = (search p s).or (search p t) := by
  induction s with
  | nil => rw [search, hp.nonempty, Option.none_or, List.nil_append]
  | cons b s ih =>
      have hs : ¬ Cut p s t := fun ⟨v, hne, hv, hm⟩ =>
        h ⟨v, hne, hv.trans (List.suffix_cons b s), hm⟩
      have hb : matchAt p (b :: s ++ t) = matchAt p (b :: s) := by
        by_contra hm
        exact h ⟨b :: s, List.cons_ne_nil b s, List.suffix_refl _, hm⟩
      rw [List.cons_append, search, ← List.cons_append, hb, ih hs, search, Option.or_assoc]

/-- What the last line with a match holds. -/
def latest (p : Pattern) (s : List Byte) : Option (List (List Byte)) :=
  (textLines s).reverse.findSome? (search p)

/-- The piece `t` of a text that follows `s` is searched as well as the whole lines: no
two of its lines have a match, and unless a later one has, no match and no line with
two of them is cut in front of it. -/
structure Piecewise (p : Pattern) (s t : List Byte) : Prop where
  one : (textLines t).Pairwise fun l l' => search p l = none ∨ search p l' = none
  whole : (∀ l ∈ laterLines t, search p l = none) → ¬ Cut p (lastLine s) (firstLine t) ∧
    (search p (lastLine s) = none ∨ search p (firstLine t) = none)

instance (p : Pattern) (s t : List Byte) : Decidable (Piecewise p s t) :=
  decidable_of_iff (((textLines t).Pairwise fun l l' => search p l = none ∨ search p l' = none) ∧
    ((∀ l ∈ laterLines t, search p l = none) → ¬ Cut p (lastLine s) (firstLine t) ∧
      (search p (lastLine s) = none ∨ search p (firstLine t) = none)))
    ⟨fun h => ⟨h.1, h.2⟩, fun h => ⟨h.1, h.2⟩⟩

theorem findSome?_reverse_one {α β : Type*} {f : α → Option β} {l : List α}
    (h : l.Pairwise fun a b => f a = none ∨ f b = none) :
    l.reverse.findSome? f = l.findSome? f := by
  induction l with
  | nil => rfl
  | cons a l ih =>
      obtain ⟨ha, hl⟩ := List.pairwise_cons.mp h
      rw [List.reverse_cons, List.findSome?_append, ih hl, List.findSome?_singleton,
        List.findSome?_cons]
      cases hf : f a with
      | none => exact Option.or_none
      | some b =>
          have hnone : l.findSome? f = none :=
            List.findSome?_eq_none_iff.mpr fun x hx => (ha x hx).resolve_left (by simp [hf])
          rw [hnone]
          rfl

theorem findSome?_snoc {α β : Type*} (f : α → Option β) (l : List α) (x : α) :
    (l ++ [x]).reverse.findSome? f = (f x).or (l.reverse.findSome? f) := by
  rw [List.reverse_append, List.findSome?_append, List.reverse_singleton, List.findSome?_singleton]

/-- A piece that is searched on its own tells what the whole text would. -/
theorem latest_append (hp : OneLine p) {s t : List Byte} (h : Piecewise p s t) :
    latest p (s ++ t) = (search p t).or (latest p s) := by
  obtain ⟨ls, hs, ht⟩ := textLines_append s t
  have hone := h.one
  rw [textLines_eq t] at hone
  obtain ⟨hfirst, hlater⟩ := List.pairwise_cons.mp hone
  have hold : latest p s = (search p (lastLine s)).or (ls.reverse.findSome? (search p)) := by
    rw [latest, hs, findSome?_snoc]
  have hpiece : search p t = (search p (firstLine t)).or ((laterLines t).findSome? (search p)) := by
    rw [search_textLines hp, textLines_eq, List.findSome?_cons]
    cases search p (firstLine t) <;> rfl
  have hnew : latest p (s ++ t) = ((laterLines t).findSome? (search p)).or
      ((search p (lastLine s ++ firstLine t)).or (ls.reverse.findSome? (search p))) := by
    rw [latest, ht, ← List.singleton_append, ← List.append_assoc, List.reverse_append,
      List.findSome?_append, findSome?_snoc, findSome?_reverse_one hlater]
  rw [hold, hpiece, hnew]
  cases hl : (laterLines t).findSome? (search p) with
  | some m =>
      -- the match of the piece is on a later line, and on no other
      obtain ⟨l, hmem, hm⟩ := List.exists_of_findSome?_eq_some hl
      have hnone : search p (firstLine t) = none :=
        (hfirst l hmem).resolve_right (by simp [hm])
      rw [hnone]
      rfl
  | none =>
      obtain ⟨hcut, hpart⟩ := h.whole (List.findSome?_eq_none_iff.mp hl)
      rw [search_append hp hcut]
      rcases hpart with hnone | hnone
      · rw [hnone, Option.none_or, Option.none_or, Option.none_or, Option.or_none]
      · rw [hnone, Option.none_or, Option.none_or, Option.none_or, Option.or_none]

/-- `line` is the last line of `s` that has a match, and it has ended. -/
structure LastMatch (p : Pattern) (s line : List Byte) : Prop where
  split : ∃ before after, s = before ++ line ++ newlineByte :: after ∧
    (before = [] ∨ ∃ text, before = text ++ [newlineByte]) ∧ search p after = none
  onLine : newlineByte ∉ line
  found : search p line ≠ none

theorem LastMatch.latest_eq (hp : OneLine p) {s line : List Byte} (h : LastMatch p s line) :
    latest p s = search p line := by
  obtain ⟨before, after, rfl, hbefore, hafter⟩ := h.split
  have hlines : ∃ ls, textLines (before ++ line ++ newlineByte :: after) =
      ls ++ line :: textLines after := by
    rcases hbefore with rfl | ⟨text, rfl⟩
    · refine ⟨[], ?_⟩
      exact List.splitOn_append_cons_self_of_not_mem h.onLine after
    · refine ⟨textLines text, ?_⟩
      unfold textLines
      rw [List.append_assoc, List.append_assoc, List.singleton_append,
        List.splitOn_append_cons_self, List.splitOn_append_cons_self_of_not_mem h.onLine]
  obtain ⟨ls, hls⟩ := hlines
  rw [search_textLines hp] at hafter
  have hnone : (textLines after).reverse.findSome? (search p) = none := by
    rw [List.findSome?_eq_none_iff] at hafter ⊢
    exact fun l hl => hafter l (List.mem_reverse.mp hl)
  rw [latest, hls, ← List.singleton_append, ← List.append_assoc, List.reverse_append,
    List.findSome?_append, hnone, Option.none_or, findSome?_snoc]
  cases hf : search p line with
  | none => exact absurd hf h.found
  | some m => rfl

end Search

end P4Hyp
