import P4Hyp.Lib.Cstring
import P4Hyp.Lib.Slice
import P4Hyp.VirtioBlk.Confine

/-!
# Patching the guest before it starts

Core 0 writes the address of the mapped root file system into the device tree, and
rewrites the kernel's command line, both in the memory the guest will run from.  Each
place is found by its contents.
-/

namespace P4Hyp

def dtbAddress : Word := 0x49F00000

/-- The word at `a`, most significant byte first. -/
def Mem.loadBe32 (m : Mem) (a : Word) : Word := m a ++ m (a + 1) ++ m (a + 2) ++ m (a + 3)

/-- The size the blob declares of itself. -/
def dtbTotal (m : Mem) : Word := m.loadBe32 (dtbAddress + 4)

def patchDtbWindow (needle : Vector Byte 8) (address span : Word) (m : Mem) : Bool × Mem :=
  if dtbTotal m < 8 ∨ dtbTotal m > 0x00100000 then (false, m)
  else
    -- the rounds of `i + 8 <= total`
    match m.search dtbAddress needle.toList ((dtbTotal m).toNat - 7) with
    | none => (false, m)
    | some i => (true, m.copy (dtbAddress + BitVec.ofNat 32 i) (be32 address ++ be32 span))

def cmdlineNeedle : List Byte := ascii "root=/dev/vda rw earlycon="

def cmdlineReplacement : List Byte :=
  ascii "earlycon=uart8250,mmio,0x10000000 console=ttyS0 keep_bootcon"

/-- `patch_guest_cmdline`, `none` where `strlen` finds no end. -/
def patchGuestCmdline (span : Word) (m : Mem) : Option (Bool × Mem) :=
  -- the rounds of `i + needle_len < span`
  match m.search linuxBaseAddress cmdlineNeedle (span.toNat - cmdlineNeedle.length) with
  | none => some (false, m)
  | some i =>
      let a := linuxBaseAddress + BitVec.ofNat 32 i
      match m.strlen a with
      | none => none
      | some original =>
          if cmdlineReplacement.length > original then some (false, m)
          else some (true, (m.fill a original fun _ => 0).copy a cmdlineReplacement)

theorem cmdlineNeedle_length : cmdlineNeedle.length = 26 := by decide

/-! ## The device tree -/

/-- The window's address and span stand where the placeholder was, if there is one. -/
structure DtbPatched (needle : Vector Byte 8) (address span : Word) (m : Mem) : Prop where
  succeeds : (patchDtbWindow needle address span m).1 = true ↔
    8 ≤ (dtbTotal m).toNat ∧ (dtbTotal m).toNat ≤ 2 ^ 20 ∧ ∃ i, i + 8 ≤ (dtbTotal m).toNat ∧
      m.bytes (dtbAddress + BitVec.ofNat 32 i) 8 = needle.toList
  patched : (patchDtbWindow needle address span m).1 = true →
    ∃ i, i + 8 ≤ (dtbTotal m).toNat ∧ m.FirstAt dtbAddress needle.toList i ∧
      (∀ x, ¬ Covers (dtbAddress + BitVec.ofNat 32 i) 8 x →
        (patchDtbWindow needle address span m).2 x = m x) ∧
      (patchDtbWindow needle address span m).2.bytes (dtbAddress + BitVec.ofNat 32 i) 8 =
        be32 address ++ be32 span
  failed : (patchDtbWindow needle address span m).1 = false →
    (patchDtbWindow needle address span m).2 = m

theorem dtbTotal_bad (m : Mem) : dtbTotal m < 8 ∨ dtbTotal m > 0x00100000 ↔
    ¬ (8 ≤ (dtbTotal m).toNat ∧ (dtbTotal m).toNat ≤ 2 ^ 20) := by
  have hgt : dtbTotal m > 0x00100000 ↔ 2 ^ 20 < (dtbTotal m).toNat := BitVec.lt_def
  have hlt : dtbTotal m < 8 ↔ (dtbTotal m).toNat < 8 := BitVec.lt_def
  rw [hgt, hlt]
  omega

theorem patchDtbWindow_patched (needle : Vector Byte 8) (address span : Word) (m : Mem) :
    DtbPatched needle address span m := by
  have hlen : needle.toList.length = 8 := Vector.length_toList
  by_cases hbad : dtbTotal m < 8 ∨ dtbTotal m > 0x00100000
  · have h : patchDtbWindow needle address span m = (false, m) := if_pos hbad
    rw [dtbTotal_bad] at hbad
    constructor
    · rw [h]
      exact iff_of_false Bool.false_ne_true fun ⟨hlo, hhi, _⟩ => hbad ⟨hlo, hhi⟩
    · rw [h]
      exact fun ht => absurd ht Bool.false_ne_true
    · rw [h]
      exact fun _ => rfl
  · have hgood := not_not.mp fun hn => hbad ((dtbTotal_bad m).mpr hn)
    cases hs : m.search dtbAddress needle.toList ((dtbTotal m).toNat - 7) with
    | none =>
        have h : patchDtbWindow needle address span m = (false, m) := by
          unfold patchDtbWindow
          rw [if_neg hbad, hs]
        rw [Mem.search_eq_none, hlen] at hs
        constructor
        · rw [h]
          exact iff_of_false Bool.false_ne_true fun ⟨_, _, i, hi, hf⟩ => hs i (by omega) hf
        · rw [h]
          exact fun ht => absurd ht Bool.false_ne_true
        · rw [h]
          exact fun _ => rfl
    | some i =>
        have h : patchDtbWindow needle address span m =
            (true, m.copy (dtbAddress + BitVec.ofNat 32 i) (be32 address ++ be32 span)) := by
          unfold patchDtbWindow
          rw [if_neg hbad, hs]
        obtain ⟨hi, hfirst⟩ := Mem.search_eq_some.mp hs
        constructor
        · rw [h]
          have hfound := hfirst.found
          rw [hlen] at hfound
          exact iff_of_true rfl ⟨hgood.1, hgood.2, i, by omega, hfound⟩
        · rw [h]
          intro _
          refine ⟨i, by omega, hfirst, fun x hx => ?_, ?_⟩
          · have hx' : ¬ Covers (dtbAddress + BitVec.ofNat 32 i)
              (be32 address ++ be32 span).length x := by
              rwa [List.length_append, be32_length, be32_length]
            exact Mem.copy_outside hx'
          · have hcopy : (be32 address ++ be32 span).length ≤ 2 ^ 32 := show 8 ≤ 2 ^ 32 by decide
            exact Mem.bytes_copy hcopy
        · rw [h]
          exact fun hf => absurd hf.symm Bool.false_ne_true

/-! ## The command line -/

/-- The first occurrence of the search string lies in the span, and a string of `n` bytes
starts there that the replacement fits in. -/
structure CmdlineFits (m : Mem) (span : Word) (i n : Nat) : Prop where
  inside : i + cmdlineNeedle.length ≤ span.toNat
  first : m.FirstAt linuxBaseAddress cmdlineNeedle i
  strlen : m.strlen (linuxBaseAddress + BitVec.ofNat 32 i) = some n
  fits : cmdlineReplacement.length ≤ n

/-- The replacement stands where the first string that starts with the search string was, if
it fits. -/
structure CmdlinePatched (span : Word) (m : Mem) : Prop where
  succeeds : (∃ m', patchGuestCmdline span m = some (true, m')) ↔ ∃ i n, CmdlineFits m span i n
  patched : ∀ m', patchGuestCmdline span m = some (true, m') → ∃ i n, CmdlineFits m span i n ∧
    (∀ x, ¬ Covers (linuxBaseAddress + BitVec.ofNat 32 i) n x → m' x = m x) ∧
    m'.IsString (linuxBaseAddress + BitVec.ofNat 32 i) cmdlineReplacement
  failed : ∀ m', patchGuestCmdline span m = some (false, m') → m' = m

/-- The first occurrence ends with the span. -/
def CmdlineLast (span : Word) (m : Mem) : Prop :=
  ∃ i n, CmdlineFits m span i n ∧ i + cmdlineNeedle.length = span.toNat

/-- The code succeeds at the first occurrence, unless it ends with the span. -/
theorem patchGuestCmdline_true {span : Word} {m m' : Mem} :
    patchGuestCmdline span m = some (true, m') ↔ ∃ i n, CmdlineFits m span i n ∧
      i + cmdlineNeedle.length < span.toNat ∧
      m' = (m.fill (linuxBaseAddress + BitVec.ofNat 32 i) n fun _ => 0).copy
        (linuxBaseAddress + BitVec.ofNat 32 i) cmdlineReplacement := by
  unfold patchGuestCmdline
  constructor
  · intro h
    cases hs : m.search linuxBaseAddress cmdlineNeedle (span.toNat - cmdlineNeedle.length) with
    | none => rw [hs] at h; cases h
    | some i =>
        rw [hs] at h
        dsimp only at h
        obtain ⟨hi, hfirst⟩ := Mem.search_eq_some.mp hs
        cases hn : m.strlen (linuxBaseAddress + BitVec.ofNat 32 i) with
        | none => rw [hn] at h; cases h
        | some n =>
            rw [hn] at h
            dsimp only at h
            split at h
            · cases h
            · rename_i hfits
              exact ⟨i, n, ⟨by omega, hfirst, hn, Nat.le_of_not_lt hfits⟩, by omega,
                (Prod.mk.inj (Option.some.inj h)).2.symm⟩
  · rintro ⟨i, n, ⟨-, hfirst, hn, hfits⟩, hlt, rfl⟩
    rw [Mem.search_eq_some.mpr ⟨Nat.lt_sub_of_add_lt hlt, hfirst⟩]
    dsimp only
    rw [hn]
    dsimp only
    rw [if_neg (Nat.not_lt_of_le hfits)]

theorem patchGuestCmdline_false {span : Word} {m m' : Mem}
    (h : patchGuestCmdline span m = some (false, m')) : m' = m := by
  unfold patchGuestCmdline at h
  split at h
  · exact (Prod.mk.inj (Option.some.inj h)).2.symm
  · dsimp only at h
    split at h
    · cases h
    · split at h
      · exact (Prod.mk.inj (Option.some.inj h)).2.symm
      · cases h

theorem cmdlinePatched_iff (span : Word) (m : Mem) :
    CmdlinePatched span m ↔ ¬ CmdlineLast span m := by
  constructor
  · rintro h ⟨i, n, hfits, hlast⟩
    obtain ⟨m', hm'⟩ := h.succeeds.mpr ⟨i, n, hfits⟩
    obtain ⟨j, k, hfits', hlt, -⟩ := patchGuestCmdline_true.mp hm'
    have hij := hfits.first.unique hfits'.first
    omega
  · intro h
    refine ⟨⟨?_, ?_⟩, ?_, fun m' => patchGuestCmdline_false⟩
    · rintro ⟨m', hm'⟩
      obtain ⟨i, n, hfits, -, -⟩ := patchGuestCmdline_true.mp hm'
      exact ⟨i, n, hfits⟩
    · rintro ⟨i, n, hfits⟩
      have hlt := Nat.lt_of_le_of_ne hfits.inside fun he => h ⟨i, n, hfits, he⟩
      exact ⟨_, patchGuestCmdline_true.mpr ⟨i, n, hfits, hlt, rfl⟩⟩
    · intro m' hm'
      obtain ⟨i, n, hfits, -, rfl⟩ := patchGuestCmdline_true.mp hm'
      refine ⟨i, n, hfits, fun x hx => ?_,
        Mem.isString_overwrite hfits.strlen hfits.fits (by decide)⟩
      rw [Mem.copy_outside fun hc => hx (covers_mono hfits.fits hc), Mem.fill_outside hx]

/-- Both patches go where they should exactly when the command line's search string does not
end with the span. -/
theorem guestPatches_iff (needle : Vector Byte 8) (address span cmdlineSpan : Word) (m : Mem) :
    DtbPatched needle address span m ∧ CmdlinePatched cmdlineSpan m ↔
      ¬ CmdlineLast cmdlineSpan m := by
  rw [cmdlinePatched_iff]
  exact and_iff_right (patchDtbWindow_patched needle address span m)

/-- A kernel whose command line starts 26 bytes before the end of the span. -/
def lastCmdline : Mem := fun a =>
  (cmdlineNeedle ++ List.replicate 40 0x78).getD (a - 0x483fffe6).toNat 0

theorem lastCmdline_before {j : Nat} (hj : j < 0x3fffe6) :
    lastCmdline (linuxBaseAddress + BitVec.ofNat 32 j) = 0 := by
  unfold lastCmdline
  have hfar : 66 ≤ (linuxBaseAddress + BitVec.ofNat 32 j - 0x483fffe6).toNat := by
    rw [BitVec.toNat_sub, BitVec.toNat_add, BitVec.toNat_ofNat]
    show 66 ≤ (2 ^ 32 - 0x483fffe6 + (0x48000000 + j % 2 ^ 32) % 2 ^ 32) % 2 ^ 32
    omega
  rw [List.getD_eq_getElem?_getD, List.getElem?_eq_none]
  · rfl
  · rw [List.length_append, List.length_replicate, cmdlineNeedle_length]
    exact hfar

/-- With that kernel the boot's call leaves the command line as built. -/
theorem guestPatches_last :
    ¬ (DtbPatched (Vector.replicate 8 0) 0 0 lastCmdline ∧
      CmdlinePatched 0x00400000 lastCmdline) := by
  rintro ⟨-, h⟩
  refine (cmdlinePatched_iff _ _).mp h ⟨0x3fffe6, 66, ⟨?_, ⟨?_, ?_⟩, ?_, ?_⟩, ?_⟩
  · decide
  · decide
  · intro j hj heq
    have hfirst := Mem.bytes_eq_iff.mp heq 0 (by decide)
    rw [BitVec.add_zero, lastCmdline_before hj] at hfirst
    exact absurd hfirst (by decide)
  · exact Mem.strlen_eq_some.mpr ⟨by decide, by decide, by decide⟩
  · decide
  · decide

end P4Hyp
