import P4Hyp.Lib.Text

/-!
# Text with style codes

A styled row is a list of spans.  Its string has a code before each span that has
a style and a reset after it; `plain` takes them out again.
-/

namespace P4Hyp

def escChar : Char := Char.ofNat 0x1b

/-- `[0-9;?]`. -/
def isSgrParam (c : Char) : Bool := c.isDigit || c == ';' || c == '?'

/-- The length of what `\x1b\[[0-9;?]*[a-zA-Z]` matches at the start. -/
def sgrMatch : Str → Option Nat
  | e :: '[' :: s =>
      if e = escChar then
        match s.dropWhile isSgrParam with
        | c :: _ => if c.isAlpha then some ((s.takeWhile isSgrParam).length + 3) else none
        | [] => none
      else none
  | _ => none

/-- `re.sub` of that pattern by the empty string, after `skip` more characters of a
match. -/
def plainFrom : Nat → Str → Str
  | _, [] => []
  | skip + 1, _ :: s => plainFrom skip s
  | 0, c :: s =>
      match sgrMatch (c :: s) with
      | some n => plainFrom (n - 1) s
      | none => c :: plainFrom 0 s

def plain (s : Str) : Str := plainFrom 0 s

/-- A style code, or none. -/
structure Sgr where
  code : Str
  ok : code = [] ∨ ∃ params final, code = escChar :: '[' :: (params ++ [final]) ∧
    (∀ c ∈ params, isSgrParam c = true) ∧ final.isAlpha = true

def Sgr.none : Sgr := ⟨[], .inl rfl⟩

/-- The code with these parameters. -/
def Sgr.of (params : Str) (h : ∀ c ∈ params, isSgrParam c = true) : Sgr :=
  ⟨escChar :: '[' :: (params ++ ['m']), .inr ⟨params, 'm', rfl, h, rfl⟩⟩

def sgrReset : Sgr := .of ['0'] (List.all_eq_true.1 (by decide))

structure Span where
  sgr : Sgr
  text : Str

namespace Span

def str (p : Span) : Str :=
  if p.sgr.code = [] then p.text else p.sgr.code ++ p.text ++ sgrReset.code

end Span

/-- `"".join(parts)`. -/
def rowStr (row : List Span) : Str := row.flatMap Span.str

/-- The characters without the codes. -/
def rowChars (row : List Span) : Str := row.flatMap Span.text

/-! ## Taking the codes out -/

theorem plainFrom_skip (s t : Str) : plainFrom s.length (s ++ t) = plain t := by
  induction s with
  | nil => rfl
  | cons c s ih => exact ih

theorem isSgrParam_of_isAlpha {c : Char} (h : c.isAlpha = true) : isSgrParam c = false := by
  rw [Bool.eq_false_iff]
  intro hp
  have hrange : 65 ≤ c.val.toNat ∧ c.val.toNat ≤ 90 ∨ 97 ≤ c.val.toNat ∧ c.val.toNat ≤ 122 := by
    have h : (decide (c.val ≥ 'A'.val ∧ c.val ≤ 'Z'.val) || c.val ≥ 'a'.val && c.val ≤ 'z'.val) =
      true := h
    simpa [UInt32.le_iff_toNat_le] using h
  have hparam : (48 ≤ c.val.toNat ∧ c.val.toNat ≤ 57 ∨ c = ';') ∨ c = '?' := by
    simpa [isSgrParam, Char.isDigit, UInt32.le_iff_toNat_le] using hp
  rcases hparam with (hd | rfl) | rfl
  · omega
  · revert hrange
    decide
  · revert hrange
    decide

/-- A whole code is one match. -/
theorem sgrMatch_code {params : Str} {final : Char} (hparams : ∀ c ∈ params, isSgrParam c = true)
    (hfinal : final.isAlpha = true) (t : Str) :
    sgrMatch (escChar :: '[' :: (params ++ [final] ++ t)) = some (params.length + 3) := by
  have hp := isSgrParam_of_isAlpha hfinal
  have hdrop : (params ++ [final] ++ t).dropWhile isSgrParam = final :: t := by
    rw [List.append_assoc, List.dropWhile_append_of_pos hparams]
    exact List.dropWhile_cons_of_neg (by rw [hp]; exact Bool.false_ne_true)
  have htake : (params ++ [final] ++ t).takeWhile isSgrParam = params := by
    rw [List.append_assoc, List.takeWhile_append_of_pos hparams]
    show params ++ (final :: t).takeWhile isSgrParam = params
    rw [List.takeWhile_cons_of_neg (by rw [hp]; exact Bool.false_ne_true), List.append_nil]
  unfold sgrMatch
  simp only [if_true, hdrop, hfinal, htake]

theorem plain_sgr (g : Sgr) (t : Str) : plain (g.code ++ t) = plain t := by
  obtain ⟨code, hcode⟩ := g
  rcases hcode with rfl | ⟨params, final, rfl, hparams, hfinal⟩
  · rfl
  · show plainFrom 0 (escChar :: '[' :: (params ++ [final] ++ t)) = plain t
    rw [plainFrom, sgrMatch_code hparams hfinal]
    have hskip := plainFrom_skip ('[' :: (params ++ [final])) t
    rw [List.length_cons, List.length_append] at hskip
    exact hskip

theorem plain_append_text {s : Str} (h : escChar ∉ s) (t : Str) :
    plain (s ++ t) = s ++ plain t := by
  induction s with
  | nil => rfl
  | cons c s ih =>
      rw [List.mem_cons, not_or] at h
      have hnone : sgrMatch (c :: (s ++ t)) = none := by
        unfold sgrMatch
        split
        · rename_i heq
          rw [if_neg]
          exact fun he => h.1 (by rw [(List.cons.inj heq).1, he])
        · rfl
      show plainFrom 0 (c :: (s ++ t)) = c :: (s ++ plain t)
      rw [plainFrom, hnone]
      exact congrArg (c :: ·) (ih h.2)

theorem plain_rowStr {row : List Span} (h : escChar ∉ rowChars row) :
    plain (rowStr row) = rowChars row := by
  induction row with
  | nil => rfl
  | cons p row ih =>
      have hchars : rowChars (p :: row) = p.text ++ rowChars row := rfl
      rw [hchars, List.mem_append, not_or] at h
      have hstr : rowStr (p :: row) = p.str ++ rowStr row := rfl
      rw [hstr, hchars, Span.str]
      split
      · rw [plain_append_text h.1, ih h.2]
      · rw [List.append_assoc, List.append_assoc, plain_sgr, plain_append_text h.1,
          plain_sgr, ih h.2]

end P4Hyp
