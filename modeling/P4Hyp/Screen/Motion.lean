import P4Hyp.Screen.Resync

/-!
# Motion by rows

CUU, CUD, CNL and CPL stop at a margin of the scrolling region, and absolute addressing can
put the cursor beyond it.
-/

namespace P4Hyp

/-- The motions by a number of rows. -/
inductive Motion
  | cuu
  | cud
  | cnl
  | cpl
deriving DecidableEq

namespace Motion

def csi : Motion → Csi
  | cuu => .cuu
  | cud => .cud
  | cnl => .cnl
  | cpl => .cpl

def up : Motion → Bool
  | cuu | cpl => true
  | cud | cnl => false

end Motion

namespace Screen

/-- The count of the sequence, which is 1 where it says none or 0. -/
def Sequence.count (q : Sequence) : Option Nat :=
  (parmsOf 0 1 q.parm).map fun p => if p.headD 0 = 0 then 1 else p.headD 0

/-- The cursor does not start beyond the margin that it moves to. -/
def WithinMargin (m : Motion) (s : Screen) : Prop := if m.up then s.top ≤ s.cy else s.cy ≤ s.bot

instance (m : Motion) (s : Screen) : Decidable (WithinMargin m s) :=
  inferInstanceAs (Decidable (if m.up = true then s.top ≤ s.cy else s.cy ≤ s.bot))

/-- Where the cursor goes: not beyond the margin, or the edge of the screen if it starts
beyond the margin. -/
def moveLimit (m : Motion) (n : Nat) (s : Screen) : Nat :=
  if m.up then max (if WithinMargin m s then s.top else 0) (s.cy - n)
  else min (if WithinMargin m s then s.bot else s.rows - 1) (s.cy + n)

/-- From `s` to `t` the cursor has moved by `n` rows or to the limit, and not the other way. -/
structure MovedBy (m : Motion) (n : Nat) (s t : Screen) : Prop where
  row : t.cy = moveLimit m n s
  up : m.up = true → t.cy ≤ s.cy
  down : m.up = false → s.cy ≤ t.cy

section Motion

variable {s : Screen} {q : Sequence} {m : Motion} {n : Nat}

theorem effect_count (hn : q.count = some n) : ∃ p, q.effect s =
    control (chr q.final) p n { s with state := .text, parm := q.parm, inter := q.inter } := by
  obtain ⟨p, hp, rfl⟩ := Option.map_eq_some_iff.mp hn
  refine ⟨p, ?_⟩
  simp only [Sequence.effect, dispatch, hp]

/-- The margin is the limit wherever the cursor starts. -/
theorem effect_row (hm : Csi.of (chr q.final) = m.csi) (hn : q.count = some n) :
    (q.effect s).cy = if m.up then max s.top (s.cy - n) else min s.bot (s.cy + n) := by
  obtain ⟨p, he⟩ := effect_count (s := s) hn
  rw [he]
  unfold control
  rw [hm]
  cases m <;> rfl

/-- They move as they should exactly when the cursor does not start beyond the margin. -/
theorem movedBy_iff (hok : s.Ok none) (hs : s.state = .text) (hm : Csi.of (chr q.final) = m.csi)
    (hn : q.count = some n) : MovedBy m n s (s.bytes q.bytes) ↔ WithinMargin m s := by
  have hrow := effect_row (s := s) hm hn
  have hbot := hok.bot
  have hcy := hok.cy
  rw [bytes_sequence hok.raised hs]
  constructor
  · rintro ⟨-, hup, hdown⟩
    unfold WithinMargin
    cases hu : m.up with
    | true =>
        have hle := hup hu
        rw [hrow, hu, if_pos rfl] at hle
        rw [if_pos rfl]
        omega
    | false =>
        have hle := hdown hu
        rw [hrow, hu, if_neg Bool.false_ne_true] at hle
        rw [if_neg Bool.false_ne_true]
        omega
  · intro hw
    refine ⟨?_, fun hu => ?_, fun hu => ?_⟩
    · rw [hrow, moveLimit, if_pos hw, if_pos hw]
    · rw [WithinMargin, hu, if_pos rfl] at hw
      rw [hrow, hu, if_pos rfl]
      omega
    · rw [WithinMargin, hu, if_neg Bool.false_ne_true] at hw
      rw [hrow, hu, if_neg Bool.false_ne_true]
      omega

end Motion

/-- `ESC [ 2 A`. -/
def upTwo : Sequence where
  parameters := [0x32]
  final := 0x41
  parameters_ok := by decide
  final_ok := by decide

/-- The cursor in the last row of a region of rows 2 to 5. -/
theorem movedBy_iff_inside :
    MovedBy .cuu 2 ((init 6 10 10).bytes [0x1b, 0x5b, 0x32, 0x3b, 0x35, 0x72, 0x0a, 0x0a, 0x0a])
      (((init 6 10 10).bytes [0x1b, 0x5b, 0x32, 0x3b, 0x35, 0x72, 0x0a, 0x0a, 0x0a]).bytes
        upTwo.bytes) := by
  exact (movedBy_iff ((ok_init 6 10 10).bytes [0x1b, 0x5b, 0x32, 0x3b, 0x35, 0x72, 0x0a, 0x0a, 0x0a]
    (by decide +kernel))
    (by decide +kernel) rfl (by decide)).mpr (by decide +kernel)

/-- From the first row, above a region that starts with row 3, CUU moves down to the region. -/
theorem cuu_moves_down :
    let s := (init 6 10 10).bytes
      [0x1b, 0x5b, 0x33, 0x3b, 0x35, 0x72, 0x1b, 0x5b, 0x31, 0x3b, 0x31, 0x48]
    s.state = .text ∧ s.cy = 0 ∧ (s.bytes upTwo.bytes).cy = 2 ∧
      ¬ MovedBy .cuu 2 s (s.bytes upTwo.bytes) := by
  refine ⟨by decide +kernel, by decide +kernel, by decide +kernel, fun h => ?_⟩
  have hup := h.up rfl
  revert hup
  decide +kernel

end Screen
end P4Hyp
