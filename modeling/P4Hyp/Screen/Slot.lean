import P4Hyp.Screen.Alternate
import P4Hyp.Screen.Shape

/-!
# The cursor across the alternate buffer

Entering the alternate buffer saves the cursor in the slot that ESC `7`, CSI `s` and mode
1048 save it in, and leaving it restores what is there.
-/

namespace P4Hyp
namespace Screen

/-- What leaving the alternate buffer restores the cursor from. -/
structure SlotKept (s t : Screen) : Prop where
  rows : t.rows = s.rows
  cols : t.cols = s.cols
  altGrid : t.altGrid = s.altGrid
  saved : t.saved = s.saved

section Slot

variable {s t u : Screen} {b : Byte}

theorem SlotKept.refl (s : Screen) : SlotKept s s := ⟨rfl, rfl, rfl, rfl⟩

theorem SlotKept.trans (h₁ : SlotKept s t) (h₂ : SlotKept t u) : SlotKept s u where
  rows := h₂.rows.trans h₁.rows
  cols := h₂.cols.trans h₁.cols
  altGrid := h₂.altGrid.trans h₁.altGrid
  saved := h₂.saved.trans h₁.saved

theorem slotKept_frame : Frame SlotKept where
  refl := .refl
  trans := .trans
  cursor := ⟨rfl, rfl, rfl, rfl⟩
  draw _ _ := ⟨rfl, rfl, rfl, rfl⟩
  scrollUpOne _ := ⟨rfl, rfl, rfl, rfl⟩
  fields := ⟨rfl, rfl, rfl, rfl⟩
  clear s mode hm := by
    rw [eraseDisplay, if_neg (by omega), if_neg (by omega)]
    exact ⟨rfl, rfl, rfl, rfl⟩

/-- Inside the alternate buffer, modes keep the slot unless one of them is a save. -/
theorem slotKept_nested {params : List Nat} (h : s.altGrid ≠ none) (hsave : 1048 ∉ params) :
    SlotKept s (s.mode params true) := by
  induction params generalizing s with
  | nil => exact .refl s
  | cons m params ih =>
      rw [List.mem_cons, not_or] at hsave
      have hone : SlotKept s (s.modeOne true m) := by
        by_cases hm : IsAltMode m
        · have halt : s.inAlt = true := Option.isSome_iff_ne_none.mpr h
          rw [modeOne_alt hm, altScreen, if_pos rfl, if_pos halt]
          exact .refl s
        · exact slotKept_frame.modeOne hm s fun _ he => absurd he.symm hsave.1
      exact hone.trans (ih (hone.altGrid ▸ h) hsave.2)

/-- Inside the alternate buffer, a byte that does not leave it and does not save the cursor
keeps the slot. -/
theorem slotKept_byte (halt : s.altGrid ≠ none) (hr : ¬ Resets s b)
    (hoff : ¬ SwitchesBuffer false s b) (hsave : ¬ Saves s b) : SlotKept s (s.byte b) := by
  by_cases hon : SwitchesBuffer true s b
  · obtain ⟨hstate, hc, hpriv, p, hp, -⟩ := hon
    have ht : SlotKept s { s with state := .text } := slotKept_frame.fields
    have h1048 : 1048 ∉ p := fun hm => hsave (.inr ⟨hstate, p, hp, .inr ⟨hc, hpriv, hm⟩⟩)
    rw [byte_mode hstate hc hpriv hp]
    exact ht.trans (slotKept_nested halt h1048)
  · refine slotKept_frame.byte hr (fun on => ?_) fun h => absurd h hsave
    cases on with
    | false => exact hoff
    | true => exact hon

end Slot

/-- The byte ends CSI `? 1049` with the final character `final`. -/
def Ends1049 (final : Byte) (s : Screen) (b : Byte) : Prop :=
  s.state = .csi ∧ s.parm = ['?', '1', '0', '4', '9'] ∧ b = final

instance (final : Byte) (s : Screen) (b : Byte) : Decidable (Ends1049 final s b) :=
  inferInstanceAs (Decidable (_ ∧ _ ∧ _))

/-- The event does not save the cursor. -/
def SavesNothing (f : Feeding) (e : FeedEvent) : Prop := ¬ NextByte Saves f e

instance (f : Feeding) (e : FeedEvent) : Decidable (SavesNothing f e) :=
  inferInstanceAs (Decidable (¬ _))

/-- The cursor's position, its attributes and colours, and the character set. -/
structure SameCursor (s t : Screen) : Prop where
  cx : t.cx = s.cx
  cy : t.cy = s.cy
  style : t.style = s.style
  graphics : t.graphics = s.graphics
  shifted : t.shifted = s.shifted

section Bytes

variable {s t : Screen} {b : Byte} {r : Option Exn}

theorem parms1049 : parmsOf 0 1 ['?', '1', '0', '4', '9'] = some [1049] := by decide

theorem byte_leave1049 (he : Ends1049 0x6c s b) :
    s.byte b = altScreen false { s with state := .text } := by
  obtain ⟨hstate, hparm, rfl⟩ := he
  have hc : Csi.of (chr 0x6c) = .mode false := by decide
  have hpriv : s.priv = true := by rw [priv, hparm]; decide
  rw [byte_mode hstate hc hpriv (hparm ▸ parms1049)]
  show modeOne false _ 1049 = _
  exact modeOne_alt (.inr rfl) _

/-- Entering parks the grid, and fills the slot. -/
theorem byte_enter1049 (halt : s.altGrid = none) (he : Ends1049 0x68 s b) : SlotKept
    { s with
      altGrid := some s.grid
      saved := some { cx := s.cx, cy := s.cy, style := s.style, graphics := s.graphics,
                      shifted := s.shifted } } (s.byte b) := by
  obtain ⟨hstate, hparm, rfl⟩ := he
  have hc : Csi.of (chr 0x68) = .mode true := by decide
  have hpriv : s.priv = true := by rw [priv, hparm]; decide
  have hin : ¬ s.inAlt = true := by rw [inAlt, halt]; decide
  rw [byte_mode hstate hc hpriv (hparm ▸ parms1049)]
  show SlotKept _ (modeOne true { s with state := .text } 1049)
  rw [modeOne_alt (.inr rfl), altScreen, if_pos rfl]
  show SlotKept _ (if s.inAlt = true then _ else _)
  rw [if_neg hin]
  exact ⟨rfl, rfl, rfl, rfl⟩

/-- Leaving takes the cursor from the slot. -/
theorem altScreen_restores {g : Grid Cell} {c : SavedCursor} (hg : s.altGrid = some g)
    (hc : s.saved = some c) (hx : c.cx < s.cols) (hy : c.cy < s.rows) :
    SameCursor { s with cx := c.cx, cy := c.cy, style := c.style, graphics := c.graphics,
                        shifted := c.shifted } (s.altScreen false) := by
  have hc' : ({ s with grid := g, altGrid := none, top := 0, bot := s.rows - 1 } : Screen).saved =
      some c :=
    hc
  rw [altScreen_leave hg, restoreCursor_some hc']
  exact ⟨Nat.min_eq_left (Nat.le_sub_one_of_lt hx),
    Nat.min_eq_left (Nat.le_sub_one_of_lt hy), rfl, rfl, rfl⟩

end Bytes

/-! ## Whole streams -/

section Runs

variable {f₀ f₁ f f' : Feeding} {e : FeedEvent} {h : List (Feeding × FeedEvent)}

theorem slotKept_step (halt : f.screen.altGrid ≠ none) (hstay : StaysInAlt f e)
    (hsave : SavesNothing f e) (hf : feedFire f e = some f') : SlotKept f.screen f'.screen := by
  cases e with
  | feed data =>
      obtain ⟨-, rfl⟩ := feedFire_feed hf
      exact slotKept_frame.fields
  | byte =>
      obtain ⟨b, bs, hleft, rfl⟩ := feedFire_byte hf
      obtain ⟨hr, hoff, -⟩ := hstay
      exact slotKept_byte halt (mt (nextByte_iff hleft).mpr hr) (mt (nextByte_iff hleft).mpr hoff)
        (mt (nextByte_iff hleft).mpr hsave)
  | resize rows cols => cases hstay.2.2

/-- The slot keeps what entering put there. -/
theorem slotKept_run (halt : f₀.screen.altGrid ≠ none) (hrun : Run feedFire f₀ h f)
    (hstay : Run.Meets StaysInAlt h) (hsave : Run.Meets SavesNothing h) :
    SlotKept f₀.screen f.screen := by
  apply Run.stateInvariant (fun f e => StaysInAlt f e ∧ SavesNothing f e)
    (fun f => SlotKept f₀.screen f.screen) (.refl _) ?_ hrun fun p hp => ⟨hstay p hp, hsave p hp⟩
  intro s e s' hkept hs hf
  refine hkept.trans (slotKept_step ?_ hs.1 hs.2 hf)
  rw [hkept.altGrid]
  exact halt

/-- A program that does not save the cursor leaves the alternate buffer with the cursor that it
entered it with. -/
theorem leaves_as_entered {rows cols : Int} {limit : Nat} {h₁ : List (Feeding × FeedEvent)}
    (hreach : Run feedFire ⟨init rows cols limit, []⟩ h₁ f₁) (hprimary : f₁.screen.altGrid = none)
    (henter : NextByte (Ends1049 0x68) f₁ .byte) (hfire : feedFire f₁ .byte = some f₀)
    (hrun : Run feedFire f₀ h f) (hstay : Run.Meets StaysInAlt h) (hsave : Run.Meets SavesNothing h)
    (hleave : NextByte (Ends1049 0x6c) f .byte) (hfire' : feedFire f .byte = some f') :
    SameCursor f₁.screen f'.screen := by
  have hok := (sound_run hreach).1
  obtain ⟨b, bs, hleft, rfl⟩ := feedFire_byte hfire
  obtain ⟨b', bs', hleft', rfl⟩ := feedFire_byte hfire'
  have hslot := byte_enter1049 hprimary ((nextByte_iff hleft).mp henter)
  have hkept := slotKept_run (by rw [hslot.altGrid]; exact Option.some_ne_none _) hrun hstay hsave
  have hall := hslot.trans hkept
  show SameCursor f₁.screen (f.screen.byte b')
  rw [byte_leave1049 ((nextByte_iff hleft').mp hleave)]
  have hx : f₁.screen.cx < f.screen.cols := by rw [hall.cols]; exact hok.cx
  have hy : f₁.screen.cy < f.screen.rows := by rw [hall.rows]; exact hok.cy
  obtain ⟨hcx, hcy, hstyle, hgraphics, hshifted⟩ :=
    altScreen_restores (s := { f.screen with state := .text }) hall.altGrid hall.saved hx hy
  exact ⟨hcx, hcy, hstyle, hgraphics, hshifted⟩

end Runs

/-- A red letter, and a program that sends `inside` between entering and leaving. -/
def altSession (inside : List Byte) : List Byte :=
  [0x1b, 0x5b, 0x33, 0x31, 0x6d, 0x61] ++ altSequence 0x68 ++ inside ++ altSequence 0x6c

/-- CSI `2 H` and a restore of the cursor, inside. -/
theorem leaves_as_entered_moved : ∃ h₁ f₁ f₀ h f f', Run feedFire ⟨init 4 5 10, []⟩ h₁ f₁ ∧
    feedFire f₁ .byte = some f₀ ∧ Run feedFire f₀ h f ∧ h.length = 14 ∧ feedFire f .byte = some f' ∧
    f₁.screen.cx = 1 ∧ SameCursor f₁.screen f'.screen := by
  obtain ⟨h₁, f₁, hreach, hd⟩ := Run.exists_of_play feedFire ⟨init 4 5 10, []⟩
    (.feed (altSession [0x1b, 0x5b, 0x32, 0x48, 0x78, 0x1b, 0x38]) :: rounds 13)
    (fun r => decide (r.2.screen.altGrid = none ∧ r.2.screen.cx = 1 ∧
      NextByte (Ends1049 0x68) r.2 .byte ∧
      ∃ f₀ ∈ feedFire r.2 .byte, ∃ q ∈ Run.play feedFire [] f₀ (rounds 14), q.1.length = 14 ∧
        Run.Meets StaysInAlt q.1 ∧ Run.Meets SavesNothing q.1 ∧ NextByte (Ends1049 0x6c) q.2 .byte ∧
        ∃ f' ∈ feedFire q.2 .byte, f'.screen.cx = 1)) true (by decide +kernel)
  obtain ⟨hprimary, hx, henter, f₀, hfire, q, hplay, hlen, hstay, hsave, hleave, f', hfire', -⟩ :=
    of_decide_eq_true hd
  have hrun := Run.of_play .start hplay
  exact ⟨h₁, f₁, f₀, q.1, q.2, f', hreach, hfire, hrun, hlen, hfire', hx,
    leaves_as_entered hreach hprimary henter hfire hrun hstay hsave hleave hfire'⟩

/-- ESC `7` inside takes the slot, and leaving puts the cursor where it was then. -/
theorem leaves_as_saved : ∃ h₁ f₁ f₀ h f f', Run feedFire ⟨init 4 5 10, []⟩ h₁ f₁ ∧
    f₁.screen.altGrid = none ∧ NextByte (Ends1049 0x68) f₁ .byte ∧ feedFire f₁ .byte = some f₀ ∧
    Run feedFire f₀ h f ∧ Run.Meets StaysInAlt h ∧ NextByte (Ends1049 0x6c) f .byte ∧
    feedFire f .byte = some f' ∧ ¬ SameCursor f₁.screen f'.screen := by
  obtain ⟨h₁, f₁, hreach, hd⟩ := Run.exists_of_play feedFire ⟨init 4 5 10, []⟩
    (.feed (altSession [0x1b, 0x5b, 0x32, 0x48, 0x1b, 0x37]) :: rounds 13)
    (fun r => decide (r.2.screen.altGrid = none ∧ NextByte (Ends1049 0x68) r.2 .byte ∧
      ∃ f₀ ∈ feedFire r.2 .byte, ∃ q ∈ Run.play feedFire [] f₀ (rounds 13),
        Run.Meets StaysInAlt q.1 ∧ NextByte (Ends1049 0x6c) q.2 .byte ∧
        ∃ f' ∈ feedFire q.2 .byte, f'.screen.cy ≠ r.2.screen.cy)) true (by decide +kernel)
  obtain ⟨hprimary, henter, f₀, hfire, q, hplay, hstay, hleave, f', hfire', hcy⟩ :=
    of_decide_eq_true hd
  exact ⟨h₁, f₁, f₀, q.1, q.2, f', hreach, hprimary, henter, hfire, Run.of_play .start hplay, hstay,
    hleave, hfire', fun h => hcy h.cy⟩

end Screen
end P4Hyp
