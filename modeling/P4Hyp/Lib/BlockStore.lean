import Mathlib.Data.List.OfFn
import P4Hyp.Lib.Simulation

/-!
# A store of blocks

Runs of blocks are read and written whole.  A write that fails leaves the blocks
that it names as it pleases, so what a block holds is known from the last write that
names it, unless that one failed.
-/

namespace P4Hyp

variable {α : Type*}

inductive BlockOp (α : Type*)
  | read (start : Nat) (data : List α)
  | write (start : Nat) (data : List α)
  | failed (start count : Nat)

/-- The contents with `data` from `start` on. -/
def overlay (start : Nat) (data : List α) (c : Nat → α) (s : Nat) : α :=
  if start ≤ s then data[s - start]?.getD (c s) else c s

inductive BlockStep : (Nat → α) → BlockOp α → (Nat → α) → Prop
  | read {c start data} : (∀ i, i < data.length → data[i]? = some (c (start + i))) →
      BlockStep c (.read start data) c
  | write {c start data} : BlockStep c (.write start data) (overlay start data c)
  | failed {c c' start count} : (∀ s, ¬ (start ≤ s ∧ s < start + count) → c' s = c s) →
      BlockStep c (.failed start count) c'

/-- What is known of a block. -/
inductive Content (α : Type*)
  | initial
  | known (v : α)
  | unknown

/-- The block holds `v`, if it held `v₀` at first. -/
def Content.Holds (v₀ v : α) : Content α → Prop
  | initial => v = v₀
  | known w => v = w
  | unknown => True

/-- What is known of block `s` after an operation. -/
def BlockOp.learn (s : Nat) (k : Content α) : BlockOp α → Content α
  | read _ _ => k
  | write start data =>
      if start ≤ s then
        match data[s - start]? with
        | some v => .known v
        | none => k
      else k
  | failed start count => if start ≤ s ∧ s < start + count then .unknown else k

/-- What the operations tell of block `s`. -/
def lastWritten (ops : List (BlockOp α)) (s : Nat) : Content α :=
  ops.foldl (fun k op => op.learn s k) .initial

theorem BlockStep.learn {c c' : Nat → α} {op : BlockOp α} (h : BlockStep c op c') {s : Nat} {v₀ : α}
    {k : Content α} (hk : k.Holds v₀ (c s)) : (op.learn s k).Holds v₀ (c' s) := by
  cases h with
  | read _ => exact hk
  | @write start data =>
      by_cases hs : start ≤ s
      · simp only [overlay, BlockOp.learn, if_pos hs]
        cases hd : data[s - start]? with
        | none => exact hk
        | some v => rfl
      · simp only [overlay, BlockOp.learn, if_neg hs]
        exact hk
  | @failed _ start count hc =>
      by_cases hs : start ≤ s ∧ s < start + count
      · simp only [BlockOp.learn, if_pos hs]
        trivial
      · simp only [BlockOp.learn, if_neg hs]
        rw [hc s hs]
        exact hk

/-- The store holds what the operations tell of it. -/
theorem Steps.lastWritten {c c' : Nat → α} {ops : List (BlockOp α)} (h : Steps BlockStep c ops c')
    (s : Nat) : (lastWritten ops s).Holds (c s) (c' s) := by
  have hall : ∀ {v₀ : α} {k : Content α}, k.Holds v₀ (c s) →
      (ops.foldl (fun k op => op.learn s k) k).Holds v₀ (c' s) := by
    induction h with
    | nil => exact id
    | cons hstep _ ih => exact fun hk => ih (hstep.learn hk)
  exact hall rfl

end P4Hyp
