import P4Hyp.Screen.Shape
import P4Hyp.Screen.Tag

/-!
# Whole sequences after broken ones

The guest's output loses bytes, so a control sequence may be cut short by the next
one.  A sequence is taken as one from the ground state, and from no other.
-/

namespace P4Hyp
namespace Screen

/-- `ESC [`, parameters and intermediates, and a final character. -/
structure Sequence where
  parameters : List Byte
  final : Byte
  parameters_ok : ∀ c ∈ parameters, 0x20 ≤ c.toNat ∧ c.toNat ≤ 0x3f
  final_ok : 0x40 ≤ final.toNat ∧ final.toNat ≤ 0x7e

namespace Sequence

def bytes (q : Sequence) : List Byte := 0x1b :: 0x5b :: (q.parameters ++ [q.final])

def parm (q : Sequence) : Str := (q.parameters.filter fun c => 0x30 ≤ c.toNat).map chr

def inter (q : Sequence) : Str := (q.parameters.filter fun c => c.toNat < 0x30).map chr

/-- The sequence's effect. -/
def effect (q : Sequence) (s : Screen) : Screen :=
  dispatch (chr q.final) { s with state := .text, parm := q.parm, inter := q.inter }

end Sequence

/-- The screen when every byte of `p` has been processed, those held back too. -/
def settle (s : Screen) (p : List Byte) : Screen := { s with pending := [] }.bytes (s.pending ++ p)

/-- The byte is taken for a character and written to a cell. -/
def Writes (s : Screen) (b : Byte) : Prop :=
  s.raised = none ∧ s.state = .text ∧ TextByte.of b = .graphic

/-- After `p` the sequence `q` is taken as one. -/
structure Taken (s : Screen) (p : List Byte) (q : Sequence) : Prop where
  returns : (s.feed (p ++ q.bytes)).raised = none
  ground : (s.feed (p ++ q.bytes)).state = .text
  effect : s.feed (p ++ q.bytes) = q.effect (s.settle p)
  unwritten : ∀ before b after, q.bytes = before ++ b :: after →
    ¬ Writes ((s.settle p).bytes before) b

/-! ## Held back bytes -/

theorem feed_sequence (s : Screen) (p : List Byte) (q : Sequence) :
    s.feed (p ++ q.bytes) = if s.raised.isSome then s else (s.settle p).bytes q.bytes := by
  have hne : p ++ q.bytes ≠ [] := List.append_ne_nil_of_right_ne_nil _ (List.cons_ne_nil _ _)
  have hascii : q.final.toNat < 0x80 := by
    have := q.final_ok
    omega
  have hheld : heldLen (s.pending ++ (p ++ q.bytes)) = 0 := by
    have happ : s.pending ++ (p ++ q.bytes) =
        (s.pending ++ p ++ (0x1b :: 0x5b :: q.parameters)) ++ [q.final] := by
      simp [Sequence.bytes]
    rw [happ]
    exact heldLen_ascii hascii _
  unfold feed
  by_cases hr : s.raised.isSome
  · simp [hr]
  · have hbody : s.body (p ++ q.bytes) = s.pending ++ p ++ q.bytes := by
      rw [body, hheld, Nat.sub_zero, List.take_length, List.append_assoc]
    have hnone : s.held (p ++ q.bytes) = [] := by
      rw [held, hheld, Nat.sub_zero, List.drop_length]
    rw [if_neg (by simp [hne, hr]), if_neg hr, hbody, hnone, bytes_append]
    rfl

/-! ## From the ground state -/

section Ground

variable {s : Screen} {q : Sequence}

/-- Collecting parameters and intermediates. -/
theorem bytes_parameters (cs : List Byte) (hcs : ∀ c ∈ cs, 0x20 ≤ c.toNat ∧ c.toNat ≤ 0x3f)
    (hr : s.raised = none) (hs : s.state = .csi) : s.bytes cs =
      { s with parm := s.parm ++ (cs.filter fun c => 0x30 ≤ c.toNat).map chr,
               inter := s.inter ++ (cs.filter fun c => c.toNat < 0x30).map chr } := by
  induction cs generalizing s with
  | nil => simp [bytes]
  | cons c cs ih =>
      obtain ⟨hlo, hhi⟩ := hcs c List.mem_cons_self
      have hcs' : ∀ c ∈ cs, 0x20 ≤ c.toNat ∧ c.toNat ≤ 0x3f :=
        fun d hd => hcs d (List.mem_cons_of_mem _ hd)
      have hone : s.consume c = s.csiByte c := by
        rw [consume, hr, byte, hs]
        rfl
      show (s.consume c).bytes cs = _
      by_cases hp : 0x30 ≤ c.toNat
      · have hc : s.csiByte c = { s with parm := s.parm ++ [chr c] } := by
          rw [csiByte, if_pos ⟨hp, hhi⟩]
        rw [hone, hc, ih hcs' (s := { s with parm := s.parm ++ [chr c] }) hr hs]
        simp [hp, Nat.not_lt.mpr hp]
      · have hc : s.csiByte c = { s with inter := s.inter ++ [chr c] } := by
          rw [csiByte, if_neg (by omega), if_pos (by omega)]
        rw [hone, hc, ih hcs' (s := { s with inter := s.inter ++ [chr c] }) hr hs]
        simp [hp, Nat.lt_of_not_le hp]

/-- The start of a sequence, up to some of its parameters. -/
theorem bytes_start (hr : s.raised = none) (hs : s.state = .text) (cs : List Byte)
    (hcs : ∀ c ∈ cs, 0x20 ≤ c.toNat ∧ c.toNat ≤ 0x3f) : s.bytes (0x1b :: 0x5b :: cs) =
      { s with state := .csi, parm := (cs.filter fun c => 0x30 ≤ c.toNat).map chr,
               inter := (cs.filter fun c => c.toNat < 0x30).map chr } := by
  have hesc : s.byte 0x1b = { s with state := .esc, parm := [], inter := [] } := by
    rw [byte, hs]
    rfl
  have hcsi : byte 0x5b { s with state := .esc, parm := [], inter := [] } =
      { s with state := .csi, parm := [], inter := [] } := rfl
  rw [bytes_cons hr, hesc, bytes_cons (s := { s with state := .esc, parm := [], inter := [] }) hr,
    hcsi, bytes_parameters cs hcs (s := { s with state := .csi, parm := [], inter := [] }) hr rfl]
  rfl

/-- From the ground state a sequence has its effect. -/
theorem bytes_sequence (hr : s.raised = none) (hs : s.state = .text) :
    s.bytes q.bytes = q.effect s := by
  have hsplit : q.bytes = (0x1b :: 0x5b :: q.parameters) ++ [q.final] := rfl
  have hfinal := q.final_ok
  rw [hsplit, bytes_append, bytes_start hr hs _ q.parameters_ok]
  show bytes { s with state := .csi, parm := q.parm, inter := q.inter } [q.final] = _
  rw [bytes_cons (s := { s with state := .csi, parm := q.parm, inter := q.inter }) hr]
  show csiByte q.final { s with state := .csi, parm := q.parm, inter := q.inter } = _
  rw [csiByte, if_neg (by omega), if_neg (by omega)]
  rfl

/-- None of its bytes is taken for a character. -/
theorem sequence_unwritten (hr : s.raised = none) (hs : s.state = .text) {before after : List Byte}
    {b : Byte} (hq : q.bytes = before ++ b :: after) : ¬ Writes (s.bytes before) b := by
  rintro ⟨-, hstate, hgraphic⟩
  match before, hq with
  | [], hq =>
      obtain ⟨rfl, -⟩ := List.cons.inj hq
      cases hgraphic
  | [c], hq =>
      obtain ⟨rfl, -⟩ := List.cons.inj hq
      rw [bytes_cons hr, byte, hs] at hstate
      cases hstate
  | c :: d :: before, hq =>
      obtain ⟨hc, htail⟩ := List.cons.inj hq
      obtain ⟨hd, hlong⟩ := List.cons.inj htail
      rw [← hc, ← hd] at hstate
      have hpre : before <+: q.parameters := by
        have hle : before.length ≤ q.parameters.length := by
          have := congrArg List.length (show _ = before ++ b :: after from hlong)
          simp only [List.length_append, List.length_cons, List.length_nil] at this
          omega
        exact List.prefix_of_prefix_length_le ⟨b :: after, hlong.symm⟩ (List.prefix_append _ _) hle
      rw [bytes_start hr hs before fun c hc => q.parameters_ok c (hpre.subset hc)] at hstate
      cases hstate

/-- The effect is an exception or not, by the parameters. -/
theorem effect_raised (h : s.Ok none) : (q.effect s).raised = none ↔
    ¬ Raises (chr q.final) q.parm := by
  have hok : Ok { s with state := .text, parm := q.parm, inter := q.inter } none := { h with }
  constructor
  · intro hnone hr
    rw [Sequence.effect,
      dispatch_raises (s := { s with state := .text, parm := q.parm, inter := q.inter })
      hr] at hnone
    cases hnone
  · exact fun hr => (hok.dispatch hr).raised

/-- From any other state but an OSC, the escape only ends what was going on. -/
theorem esc_ends (hs : s.state ≠ .text) (hosc : s.state ≠ .osc) : (s.byte 0x1b).state = .text := by
  unfold byte
  cases hstate : s.state with
  | text => exact absurd hstate hs
  | osc => exact absurd hstate hosc
  | esc => rfl
  | csi => exact dispatch_state _ _
  | charset => rfl
  | hash => rfl

end Ground

/-- A sequence is taken as one exactly where it starts in the ground state and its
parameters are well formed. -/
theorem taken_iff {rows cols : Int} {limit : Nat} {s : Screen} {h : List (Feeding × FeedEvent)}
    {p : List Byte} {q : Sequence} (hrun : Run feedFire ⟨init rows cols limit, []⟩ h ⟨s, []⟩)
    (hosc : (s.settle p).state ≠ .osc) :
    Taken s p q ↔ (s.settle p).raised = none ∧ (s.settle p).state = .text ∧
      ¬ Raises (chr q.final) q.parm := by
  have hpend : Sound { s with pending := [] } := ⟨{ (sound_run hrun).1 with }, (sound_run hrun).2⟩
  have hsound : (s.settle p).Sound := hpend.bytes _
  -- an exception before the sequence is seen by the caller
  have hraised (he : (s.settle p).raised.isSome = true) :
      (s.feed (p ++ q.bytes)).raised.isSome = true := by
    rw [feed_sequence]
    split
    · assumption
    · rw [bytes_raised he]
      exact he
  have hfeed (hr : (s.settle p).raised = none) :
      s.feed (p ++ q.bytes) = (s.settle p).bytes q.bytes := by
    rw [feed_sequence, if_neg]
    intro he
    have hstay : s.settle p = { s with pending := [] } :=
      bytes_raised (s := { s with pending := [] }) he _
    rw [hstay] at hr
    exact absurd (hr ▸ he : (none : Option Exn).isSome = true) (by decide)
  constructor
  · intro ht
    have hr : (s.settle p).raised = none := by
      by_contra hne
      have := hraised (Option.isSome_iff_ne_none.mpr hne)
      rw [ht.returns] at this
      cases this
    have hstate : (s.settle p).state = .text := by
      by_contra hne
      have hsplit : q.bytes = [0x1b] ++ 0x5b :: (q.parameters ++ [q.final]) := rfl
      have hone : (s.settle p).bytes [0x1b] = (s.settle p).byte 0x1b := bytes_cons hr _ _
      cases hb : ((s.settle p).byte 0x1b).raised with
      | none =>
          apply ht.unwritten _ _ _ hsplit
          rw [hone]
          exact ⟨hb, esc_ends hne hosc, rfl⟩
      | some e =>
          have hlost : (s.settle p).bytes q.bytes = (s.settle p).byte 0x1b := by
            rw [hsplit, bytes_append, hone, bytes_raised (by rw [hb]; rfl)]
          have := ht.returns
          rw [hfeed hr, hlost, hb] at this
          cases this
    refine ⟨hr, hstate, ?_⟩
    rw [← effect_raised (hr ▸ hsound.1), ← ht.effect]
    exact ht.returns
  · rintro ⟨hr, hstate, hq⟩
    have heff : s.feed (p ++ q.bytes) = q.effect (s.settle p) :=
      (hfeed hr).trans (bytes_sequence hr hstate)
    exact {
      returns := by
        rw [heff]
        exact (effect_raised (hr ▸ hsound.1)).mpr hq
      ground := by
        rw [heff]
        exact dispatch_state _ _
      effect := heff
      unwritten := fun _ _ _ hsplit => sequence_unwritten hr hstate hsplit }

/-- `ESC [ 3 1 m`. -/
def redSequence : Sequence where
  parameters := [0x33, 0x31]
  final := 0x6d
  parameters_ok := by decide
  final_ok := by decide

theorem taken_iff_red : Taken (init 2 5 10) [0x61] redSequence :=
  (taken_iff .start (by decide)).mpr (by decide +kernel)

/-- Behind a lone escape the same sequence is printed. -/
theorem sequence_printed : (settle (init 2 5 10) [0x1b]).state ≠ .osc ∧
    ¬ Taken (init 2 5 10) [0x1b] redSequence ∧
    ((init 2 5 10).feed ([0x1b] ++ redSequence.bytes)).allLines = [['[', '3', '1', 'm']] := by
  refine ⟨by decide, fun h => ?_, by decide +kernel⟩
  exact h.unwritten [0x1b] 0x5b [0x33, 0x31, 0x6d] rfl ⟨rfl, rfl, rfl⟩

end Screen
end P4Hyp
