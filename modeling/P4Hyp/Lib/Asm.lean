import Mathlib.Data.List.Basic
import P4Hyp.Lib.Memory

/-!
# Straight-line RV32 code

The instructions of which trap entries are made: they store registers to a frame,
load them back, and move values between registers and CSRs.  What a CSR keeps of a
value written to it is up to the hart.
-/

namespace P4Hyp

/-- The general registers by number, the CSRs, and memory. -/
structure Machine (κ : Type*) where
  x : Nat → Word
  csr : κ → Word
  mem : Mem

namespace Machine

variable {κ : Type*}

/-- Register 0 reads as zero. -/
def read (r : Nat) (s : Machine κ) : Word := if r = 0 then 0 else s.x r

def write (r : Nat) (v : Word) (s : Machine κ) : Machine κ :=
  if r = 0 then s else { s with x := fun i => if i = r then v else s.x i }

@[simp] theorem write_csr (r : Nat) (v : Word) (s : Machine κ) : (s.write r v).csr = s.csr := by
  unfold write
  split <;> rfl

@[simp] theorem write_mem (r : Nat) (v : Word) (s : Machine κ) : (s.write r v).mem = s.mem := by
  unfold write
  split <;> rfl

theorem write_x {r : Nat} (hr : r ≠ 0) (v : Word) (s : Machine κ) (i : Nat) :
    (s.write r v).x i = if i = r then v else s.x i := by
  rw [write, if_neg hr]

theorem read_eq {r : Nat} (hr : r ≠ 0) (s : Machine κ) : s.read r = s.x r := if_neg hr

theorem read_write_ne {r i : Nat} (h : i ≠ r) (v : Word) (s : Machine κ) :
    (s.write r v).read i = s.read i := by
  unfold read
  by_cases hr : r = 0
  · rw [write, if_pos hr]
  · rw [write_x hr, if_neg h]

end Machine

inductive Insn (κ : Type*)
  | sw (rs2 offset rs1 : Nat)
  | lw (rd offset rs1 : Nat)
  | addi (rd rs1 : Nat) (imm : Word)
  | mv (rd rs1 : Nat)
  | la (rd : Nat) (a : Word)
  | csrrw (rd : Nat) (csr : κ) (rs1 : Nat)
  | csrr (rd : Nat) (csr : κ)
  | csrw (csr : κ) (rs1 : Nat)

section Exec

variable {κ : Type*} [DecidableEq κ] (keeps : κ → Word → Word)

def Insn.step (s : Machine κ) : Insn κ → Machine κ
  | sw rs2 offset rs1 =>
      { s with mem := s.mem.store32 (s.read rs1 + BitVec.ofNat 32 offset) (s.read rs2) }
  | lw rd offset rs1 => s.write rd (s.mem.load32 (s.read rs1 + BitVec.ofNat 32 offset))
  | addi rd rs1 imm => s.write rd (s.read rs1 + imm)
  | mv rd rs1 => s.write rd (s.read rs1)
  | la rd a => s.write rd a
  | csrrw rd csr rs1 =>
      { s with csr := fun c => if c = csr then keeps csr (s.read rs1) else s.csr c }.write rd
        (s.csr csr)
  | csrr rd csr => s.write rd (s.csr csr)
  | csrw csr rs1 =>
      { s with csr := fun c => if c = csr then keeps csr (s.read rs1) else s.csr c }

def exec (is : List (Insn κ)) (s : Machine κ) : Machine κ := is.foldl (Insn.step keeps) s

theorem exec_append (is js : List (Insn κ)) (s : Machine κ) :
    exec keeps (is ++ js) s = exec keeps js (exec keeps is s) := List.foldl_append

end Exec

/-! ## Words stored at offsets -/

/-- Store words one after another, each at its offset from `a`. -/
def storeWords (a : Word) : List (Nat × Word) → Mem → Mem
  | [], m => m
  | (o, v) :: ws, m => storeWords a ws (m.store32 (a + BitVec.ofNat 32 o) v)

theorem storeWords_append (a : Word) (ws ws' : List (Nat × Word)) (m : Mem) :
    storeWords a (ws ++ ws') m = storeWords a ws' (storeWords a ws m) := by
  induction ws generalizing m with
  | nil => rfl
  | cons w ws ih => exact ih _

/-- Offsets of distinct words, so many bytes from the base at most. -/
structure WordOffsets (n : Nat) (os : List Nat) : Prop where
  aligned : ∀ o ∈ os, o % 4 = 0
  inside : ∀ o ∈ os, o + 4 ≤ n
  nodup : os.Nodup

theorem WordOffsets.perm {n : Nat} {os os' : List Nat} (h : WordOffsets n os)
    (hp : os'.Perm os) : WordOffsets n os' where
  aligned o ho := h.aligned o (hp.mem_iff.mp ho)
  inside o ho := h.inside o (hp.mem_iff.mp ho)
  nodup := hp.nodup_iff.mpr h.nodup

theorem WordOffsets.sublist {n : Nat} {os os' : List Nat} (h : WordOffsets n os)
    (hs : os'.Sublist os) : WordOffsets n os' where
  aligned o ho := h.aligned o (hs.subset ho)
  inside o ho := h.inside o (hs.subset ho)
  nodup := h.nodup.sublist hs

section Words

variable {a : Word} {n o : Nat} {v : Word} {ws : List (Nat × Word)} {m : Mem}

theorem apart_words {p : Nat} (ho : o % 4 = 0) (hp : p % 4 = 0) (hne : o ≠ p)
    (hon : o + 4 ≤ 2 ^ 32) (hpn : p + 4 ≤ 2 ^ 32) :
    Apart (a + BitVec.ofNat 32 o) 4 (a + BitVec.ofNat 32 p) 4 := by
  by_cases hlt : o < p
  · exact apart_of_offsets (by omega) hpn
  · exact (apart_of_offsets (by omega) hon).symm

/-- Stores at other offsets leave a word alone. -/
theorem load32_storeWords_other (ho : o % 4 = 0) (hon : o + 4 ≤ 2 ^ 32)
    (hw : ∀ w ∈ ws, w.1 % 4 = 0 ∧ w.1 + 4 ≤ 2 ^ 32 ∧ w.1 ≠ o) :
    (storeWords a ws m).load32 (a + BitVec.ofNat 32 o) = m.load32 (a + BitVec.ofNat 32 o) := by
  induction ws generalizing m with
  | nil => rfl
  | cons w ws ih =>
      obtain ⟨p, v⟩ := w
      obtain ⟨hal, hin, hne⟩ := hw (p, v) List.mem_cons_self
      show (storeWords a ws (m.store32 (a + BitVec.ofNat 32 p) v)).load32 _ = _
      rw [ih fun w' hw' => hw w' (List.mem_cons_of_mem _ hw')]
      exact Mem.load32_congr (Mem.agreeOn_fill (apart_words ho hal hne.symm hon hin))

/-- Each word stored is there to be loaded. -/
theorem load32_storeWords (hn : n ≤ 2 ^ 32) (hos : WordOffsets n (ws.map Prod.fst))
    (hmem : (o, v) ∈ ws) : (storeWords a ws m).load32 (a + BitVec.ofNat 32 o) = v := by
  induction ws generalizing m with
  | nil => exact absurd hmem List.not_mem_nil
  | cons w ws ih =>
      obtain ⟨p, u⟩ := w
      obtain ⟨hal, hin, hnd⟩ := hos
      rw [List.map_cons] at hal hin hnd
      rw [List.nodup_cons] at hnd
      show (storeWords a ws (m.store32 (a + BitVec.ofNat 32 p) u)).load32 _ = v
      rcases List.mem_cons.mp hmem with heq | hmem
      · obtain ⟨rfl, rfl⟩ := Prod.mk.inj heq
        have ho := hal o List.mem_cons_self
        have hon := hin o List.mem_cons_self
        rw [load32_storeWords_other ho (Nat.le_trans hon hn), Mem.load32_store32]
        intro w' hw'
        have hw'' : w'.1 ∈ ws.map Prod.fst := List.mem_map_of_mem hw'
        refine ⟨hal _ (List.mem_cons_of_mem _ hw''),
          Nat.le_trans (hin _ (List.mem_cons_of_mem _ hw'')) hn, ?_⟩
        rintro rfl
        exact hnd.1 hw''
      · exact ih ⟨fun o' h' => hal o' (List.mem_cons_of_mem _ h'),
          fun o' h' => hin o' (List.mem_cons_of_mem _ h'), hnd.2⟩ hmem

end Words

/-! ## Saving and restoring registers -/

section Frame

variable {κ : Type*} [DecidableEq κ] (keeps : κ → Word → Word) {base : Nat} {slot : Nat → Nat}

/-- `sw` for each of the registers, at its slot. -/
def saves (κ : Type*) (base : Nat) (slot : Nat → Nat) (rs : List Nat) : List (Insn κ) :=
  rs.map fun r => .sw r (slot r) base

def loads (κ : Type*) (base : Nat) (slot : Nat → Nat) (rs : List Nat) : List (Insn κ) :=
  rs.map fun r => .lw r (slot r) base

theorem exec_saves (rs : List Nat) (s : Machine κ) : exec keeps (saves κ base slot rs) s =
    { s with mem := storeWords (s.read base) (rs.map fun r => (slot r, s.read r)) s.mem } := by
  induction rs generalizing s with
  | nil => rfl
  | cons r rs ih =>
      show exec keeps (saves κ base slot rs) ((Insn.sw r (slot r) base).step keeps s) = _
      rw [ih]
      rfl

theorem exec_loads {rs : List Nat} (hb : base ∉ rs) (h0 : 0 ∉ rs) (s : Machine κ) :
    exec keeps (loads κ base slot rs) s =
      { s with x := fun i => if i ∈ rs then s.mem.load32 (s.read base + BitVec.ofNat 32 (slot i))
        else s.x i } := by
  induction rs generalizing s with
  | nil => rfl
  | cons r rs ih =>
      have hr : r ≠ 0 := fun h => h0 (h ▸ List.mem_cons_self)
      have hbr : base ≠ r := fun h => hb (h ▸ List.mem_cons_self)
      show exec keeps (loads κ base slot rs) (s.write r (s.mem.load32 (s.read base + _))) = _
      rw [ih (fun h => hb (List.mem_cons_of_mem _ h)) (fun h => h0 (List.mem_cons_of_mem _ h)),
        Machine.read_write_ne hbr, Machine.write_mem, Machine.write, if_neg hr]
      refine congrArg (fun x => { s with x }) (funext fun i => ?_)
      by_cases hi : i ∈ rs
      · rw [if_pos hi, if_pos (List.mem_cons_of_mem _ hi)]
      · rw [if_neg hi]
        show (if i = r then _ else _) = _
        by_cases hir : i = r
        · rw [if_pos hir, hir, if_pos List.mem_cons_self]
        · rw [if_neg hir, if_neg (fun h => (List.mem_cons.mp h).elim hir hi)]

/-- Each CSR goes to its offset through register `r`. -/
def saveCsrs (base r : Nat) (cs : List (κ × Nat)) : List (Insn κ) :=
  cs.flatMap fun c => [.csrr r c.1, .sw r c.2 base]

theorem exec_saveCsrs {r : Nat} (hr : r ≠ 0) (hb : base ≠ r) (cs : List (κ × Nat))
    (s : Machine κ) :
    (exec keeps (saveCsrs base r cs) s).mem =
        storeWords (s.read base) (cs.map fun c => (c.2, s.csr c.1)) s.mem ∧
      (exec keeps (saveCsrs base r cs) s).csr = s.csr ∧
      ∀ i, i ≠ r → (exec keeps (saveCsrs base r cs) s).read i = s.read i := by
  induction cs generalizing s with
  | nil => exact ⟨rfl, rfl, fun _ _ => rfl⟩
  | cons c cs ih =>
      have hread : (s.write r (s.csr c.1)).read base = s.read base := Machine.read_write_ne hb _ _
      have hval : (s.write r (s.csr c.1)).read r = s.csr c.1 := by
        rw [Machine.read_eq hr, Machine.write_x hr, if_pos rfl]
      have hpair : exec keeps (saveCsrs base r (c :: cs)) s = exec keeps (saveCsrs base r cs)
          { s.write r (s.csr c.1) with
            mem := s.mem.store32 (s.read base + BitVec.ofNat 32 c.2) (s.csr c.1) } := by
        show exec keeps (saveCsrs base r cs) { s.write r (s.csr c.1) with
          mem := (s.write r (s.csr c.1)).mem.store32
            ((s.write r (s.csr c.1)).read base + BitVec.ofNat 32 c.2)
            ((s.write r (s.csr c.1)).read r) } = _
        rw [hread, hval, Machine.write_mem]
      obtain ⟨hmem, hcsr, hx⟩ := ih { s.write r (s.csr c.1) with
        mem := s.mem.store32 (s.read base + BitVec.ofNat 32 c.2) (s.csr c.1) }
      rw [hpair]
      refine ⟨?_, ?_, fun i hi => (hx i hi).trans (Machine.read_write_ne hi _ _)⟩
      · rw [hmem]
        show storeWords ((s.write r (s.csr c.1)).read base)
          (cs.map fun c' => (c'.2, (s.write r (s.csr c.1)).csr c'.1)) _ = _
        rw [hread, Machine.write_csr]
        rfl
      · rw [hcsr]
        exact Machine.write_csr _ _ _

end Frame

end P4Hyp
