import P4Hyp.Inject
import P4Hyp.Lib.Asm

/-!
# The trap vector

`hyp_trap_entry` saves the guest's registers in a frame on the monitor's own stack,
calls `hypervisor`, and restores them.  `mscratch` holds the top of that stack
while the guest runs.
-/

namespace P4Hyp

namespace Reg

def ra : Nat := 1
def sp : Nat := 2
def gp : Nat := 3
def tp : Nat := 4
def t0 : Nat := 5
def t1 : Nat := 6
def t2 : Nat := 7
def s0 : Nat := 8
def s1 : Nat := 9
def a0 : Nat := 10
def a1 : Nat := 11
def a2 : Nat := 12
def a3 : Nat := 13
def a4 : Nat := 14
def a5 : Nat := 15
def a6 : Nat := 16
def a7 : Nat := 17
def s2 : Nat := 18
def s3 : Nat := 19
def s4 : Nat := 20
def s5 : Nat := 21
def s6 : Nat := 22
def s7 : Nat := 23
def s8 : Nat := 24
def s9 : Nat := 25
def s10 : Nat := 26
def s11 : Nat := 27
def t3 : Nat := 28
def t4 : Nat := 29
def t5 : Nat := 30
def t6 : Nat := 31

end Reg

/-- The host's CSRs that the vector uses. -/
inductive HostCsr
  | mscratch
  | mepc
  | mstatus
  | mcause
  | mtval
  | mhartid
  deriving DecidableEq

/-- Bit 0 of `mepc` is always zero. -/
def HostCsr.keeps : HostCsr → Word → Word
  | mepc, v => v &&& ~~~1
  | _, v => v

/-- The offsets `RV_STK_*` of the frame, and its size. -/
structure RvStk where
  frmsz : Nat
  mepc : Nat
  /-- `RV_STK_RA` to `RV_STK_T6`, by register. -/
  x : Nat → Nat
  mstatus : Nat
  mcause : Nat
  mtval : Nat
  mhartid : Nat

def RvStk.offsets (stk : RvStk) : List Nat :=
  stk.mepc :: (List.range' 1 31).map stk.x ++ [stk.mstatus, stk.mcause, stk.mtval, stk.mhartid]

/-- The header's layout: distinct words of the frame, `mepc` the first, and then
the registers in order. -/
structure RvStk.Ok (stk : RvStk) : Prop where
  mepc : stk.mepc = 0
  x : ∀ n, 1 ≤ n → n ≤ 31 → stk.x n = 4 * n
  words : WordOffsets stk.frmsz stk.offsets
  size : stk.frmsz ≤ 2 ^ 32

section Entry

open Reg

/-- From `hyp_trap_entry` to the call of `hypervisor`. -/
def hypTrapEntry (stk : RvStk) (globalPointer : Word) : List (Insn HostCsr) :=
  [.csrrw sp .mscratch sp, .addi sp sp (-BitVec.ofNat 32 stk.frmsz),
    .sw ra (stk.x ra) sp, .sw gp (stk.x gp) sp, .sw tp (stk.x tp) sp, .sw t0 (stk.x t0) sp,
    .sw t1 (stk.x t1) sp, .sw t2 (stk.x t2) sp, .sw s0 (stk.x s0) sp, .sw s1 (stk.x s1) sp,
    .sw a0 (stk.x a0) sp, .sw a1 (stk.x a1) sp, .sw a2 (stk.x a2) sp, .sw a3 (stk.x a3) sp,
    .sw a4 (stk.x a4) sp, .sw a5 (stk.x a5) sp, .sw a6 (stk.x a6) sp, .sw a7 (stk.x a7) sp,
    .sw s2 (stk.x s2) sp, .sw s3 (stk.x s3) sp, .sw s4 (stk.x s4) sp, .sw s5 (stk.x s5) sp,
    .sw s6 (stk.x s6) sp, .sw s7 (stk.x s7) sp, .sw s8 (stk.x s8) sp, .sw s9 (stk.x s9) sp,
    .sw s10 (stk.x s10) sp, .sw s11 (stk.x s11) sp, .sw t3 (stk.x t3) sp, .sw t4 (stk.x t4) sp,
    .sw t5 (stk.x t5) sp, .sw t6 (stk.x t6) sp,
    -- the guest's sp went into mscratch
    .csrr t0 .mscratch, .sw t0 (stk.x sp) sp,
    .csrr t0 .mepc, .sw t0 stk.mepc sp, .csrr t0 .mstatus, .sw t0 stk.mstatus sp,
    .csrr t0 .mcause, .sw t0 stk.mcause sp, .csrr t0 .mtval, .sw t0 stk.mtval sp,
    .csrr t0 .mhartid, .sw t0 stk.mhartid sp,
    .la gp globalPointer, .mv a0 sp]

/-- From the return of `hypervisor`, with a true result, to `mret`. -/
def hypTrapExit (stk : RvStk) : List (Insn HostCsr) :=
  [.lw t0 stk.mepc sp, .csrw .mepc t0,
    .lw ra (stk.x ra) sp, .lw gp (stk.x gp) sp, .lw tp (stk.x tp) sp, .lw t1 (stk.x t1) sp,
    .lw t2 (stk.x t2) sp, .lw s0 (stk.x s0) sp, .lw s1 (stk.x s1) sp, .lw a0 (stk.x a0) sp,
    .lw a1 (stk.x a1) sp, .lw a2 (stk.x a2) sp, .lw a3 (stk.x a3) sp, .lw a4 (stk.x a4) sp,
    .lw a5 (stk.x a5) sp, .lw a6 (stk.x a6) sp, .lw a7 (stk.x a7) sp, .lw s2 (stk.x s2) sp,
    .lw s3 (stk.x s3) sp, .lw s4 (stk.x s4) sp, .lw s5 (stk.x s5) sp, .lw s6 (stk.x s6) sp,
    .lw s7 (stk.x s7) sp, .lw s8 (stk.x s8) sp, .lw s9 (stk.x s9) sp, .lw s10 (stk.x s10) sp,
    .lw s11 (stk.x s11) sp, .lw t3 (stk.x t3) sp, .lw t4 (stk.x t4) sp, .lw t5 (stk.x t5) sp,
    .lw t6 (stk.x t6) sp,
    .addi t0 sp (BitVec.ofNat 32 stk.frmsz), .csrw .mscratch t0, .lw t0 (stk.x t0) sp,
    .lw sp (stk.x sp) sp]

/-- The registers that the entry saves as they are: all but `sp`. -/
def savedRegs : List Nat := 1 :: List.range' 3 29

/-- Those that the exit restores before it is done with `t0` and `sp`. -/
def restoredRegs : List Nat := [1, 3, 4] ++ List.range' 6 26

/-- What the entry saves of the CSRs, among which is the guest's `sp`. -/
def savedCsrs (stk : RvStk) : List (HostCsr × Nat) :=
  [(.mscratch, stk.x sp), (.mepc, stk.mepc), (.mstatus, stk.mstatus), (.mcause, stk.mcause),
    (.mtval, stk.mtval), (.mhartid, stk.mhartid)]

theorem hypTrapEntry_eq (stk : RvStk) (globalPointer : Word) : hypTrapEntry stk globalPointer =
    [.csrrw sp .mscratch sp, .addi sp sp (-BitVec.ofNat 32 stk.frmsz)] ++
      (saves HostCsr sp stk.x savedRegs ++
        (saveCsrs sp t0 (savedCsrs stk) ++ [.la gp globalPointer, .mv a0 sp])) := rfl

theorem hypTrapExit_eq (stk : RvStk) : hypTrapExit stk =
    [.lw t0 stk.mepc sp, .csrw .mepc t0] ++ (loads HostCsr sp stk.x restoredRegs ++
      [.addi t0 sp (BitVec.ofNat 32 stk.frmsz), .csrw .mscratch t0, .lw t0 (stk.x t0) sp,
        .lw sp (stk.x sp) sp]) := rfl

/-- What the entry stores, by offset. -/
def savedWords (stk : RvStk) (s : Machine HostCsr) : List (Nat × Word) :=
  savedRegs.map (fun r => (stk.x r, s.x r)) ++
    [(stk.x sp, s.x sp), (stk.mepc, s.csr .mepc), (stk.mstatus, s.csr .mstatus),
      (stk.mcause, s.csr .mcause), (stk.mtval, s.csr .mtval), (stk.mhartid, s.csr .mhartid)]

/-- The frame, below the top of the monitor's stack. -/
def frameBase (stk : RvStk) (s : Machine HostCsr) : Word :=
  s.csr .mscratch - BitVec.ofNat 32 stk.frmsz

/-- The stacks are swapped. -/
def swapped (stk : RvStk) (s : Machine HostCsr) : Machine HostCsr :=
  { x := fun i => if i = sp then frameBase stk s else s.x i
    csr := fun c => if c = .mscratch then s.x sp else s.csr c
    mem := s.mem }

theorem exec_swap (stk : RvStk) (s : Machine HostCsr) : exec HostCsr.keeps
    [.csrrw sp .mscratch sp, .addi sp sp (-BitVec.ofNat 32 stk.frmsz)] s = swapped stk s := by
  have hsp : sp ≠ 0 := by decide
  show Machine.write sp _ (Machine.write sp _ _) = _
  unfold Machine.write
  rw [if_neg hsp, if_neg hsp]
  refine congrArg (fun x => ({ x, csr := _, mem := _ } : Machine HostCsr)) (funext fun i => ?_)
  show (if i = sp then _ else if i = sp then _ else s.x i) = if i = sp then _ else s.x i
  split
  · show (if sp = 0 then (0 : Word) else if sp = sp then s.csr .mscratch else s.x sp) +
      -BitVec.ofNat 32 stk.frmsz = _
    rw [if_neg hsp, if_pos rfl, frameBase, BitVec.sub_eq_add_neg]
  · rfl

/-- The registers are in the frame. -/
def saved (stk : RvStk) (s : Machine HostCsr) : Machine HostCsr :=
  let words := savedRegs.map fun r => (stk.x r, s.x r)
  { swapped stk s with mem := storeWords (frameBase stk s) words s.mem }

theorem exec_saved (stk : RvStk) (s : Machine HostCsr) :
    exec HostCsr.keeps (saves HostCsr sp stk.x savedRegs) (swapped stk s) = saved stk s := by
  rw [exec_saves]
  rfl

theorem hypTrapEntry_exec (stk : RvStk) (globalPointer : Word) (s : Machine HostCsr) :
    (exec HostCsr.keeps (hypTrapEntry stk globalPointer) s).x sp = frameBase stk s ∧
      (exec HostCsr.keeps (hypTrapEntry stk globalPointer) s).x a0 = frameBase stk s ∧
      (exec HostCsr.keeps (hypTrapEntry stk globalPointer) s).mem =
        storeWords (frameBase stk s) (savedWords stk s) s.mem := by
  rw [hypTrapEntry_eq, exec_append, exec_append, exec_append, exec_swap, exec_saved]
  have ht0 : t0 ≠ 0 := by decide
  obtain ⟨hmem, -, hread⟩ := exec_saveCsrs HostCsr.keeps ht0 (show sp ≠ t0 by decide)
    (savedCsrs stk) (saved stk s)
  generalize exec HostCsr.keeps (saveCsrs sp t0 (savedCsrs stk)) (saved stk s) = s₂ at hmem hread ⊢
  have hbase : s₂.x sp = frameBase stk s := hread sp (by decide)
  refine ⟨hbase, hbase, ?_⟩
  show s₂.mem = _
  rw [hmem, savedWords, storeWords_append]
  rfl

theorem savedWords_perm (stk : RvStk) (s : Machine HostCsr) :
    ((savedWords stk s).map Prod.fst).Perm stk.offsets := by
  have hregs : (savedRegs ++ [sp]).Perm (List.range' 1 31) := by decide
  have hmap := (hregs.map stk.x).append_right
    (stk.mepc :: [stk.mstatus, stk.mcause, stk.mtval, stk.mhartid])
  exact hmap.trans List.perm_middle

theorem mem_savedWords (stk : RvStk) (s : Machine HostCsr) {n : Nat} (h1 : 1 ≤ n) (h31 : n ≤ 31) :
    (stk.x n, s.x n) ∈ savedWords stk s := by
  by_cases hn : n = sp
  · rw [hn]
    exact List.mem_append_right _ List.mem_cons_self
  · refine List.mem_append_left _ (List.mem_map_of_mem ?_)
    rw [savedRegs, List.mem_cons, List.mem_range'_1]
    rw [sp] at hn
    omega

/-! ## The exit -/

/-- The stack's top goes to `mscratch` while `t0` and `sp` are still the
monitor's. -/
theorem exec_restore (stk : RvStk) (s : Machine HostCsr) : exec HostCsr.keeps
    [.addi t0 sp (BitVec.ofNat 32 stk.frmsz), .csrw .mscratch t0, .lw t0 (stk.x t0) sp,
      .lw sp (stk.x sp) sp] s =
    { x := fun i =>
        if i = sp then s.mem.load32 (s.x sp + BitVec.ofNat 32 (stk.x sp))
        else if i = t0 then s.mem.load32 (s.x sp + BitVec.ofNat 32 (stk.x t0)) else s.x i
      csr := fun c => if c = .mscratch then s.x sp + BitVec.ofNat 32 stk.frmsz else s.csr c
      mem := s.mem } := by
  refine congrArg (fun x => ({ x, csr := _, mem := _ } : Machine HostCsr)) (funext fun i => ?_)
  show (if i = sp then _ else if i = t0 then _ else if i = t0 then _ else s.x i) = _
  by_cases hi : i = t0
  · rw [if_pos hi, if_pos hi]
    rfl
  · rw [if_neg hi, if_neg hi, if_neg hi]
    rfl

theorem mem_restored {n : Nat} (h1 : 1 ≤ n) (h31 : n ≤ 31) :
    n = sp ∨ n = t0 ∨ n ∈ restoredRegs := by
  rw [restoredRegs, List.mem_append, List.mem_range'_1, sp, t0]
  simp only [List.mem_cons, List.not_mem_nil, or_false]
  omega

theorem hypTrapExit_exec (stk : RvStk) (s : Machine HostCsr) :
    (∀ n, 1 ≤ n → n ≤ 31 → (exec HostCsr.keeps (hypTrapExit stk) s).x n =
        s.mem.load32 (s.x sp + BitVec.ofNat 32 (stk.x n))) ∧
      (exec HostCsr.keeps (hypTrapExit stk) s).csr .mepc =
        s.mem.load32 (s.x sp + BitVec.ofNat 32 stk.mepc) &&& ~~~1 ∧
      (exec HostCsr.keeps (hypTrapExit stk) s).csr .mscratch =
        s.x sp + BitVec.ofNat 32 stk.frmsz ∧
      (exec HostCsr.keeps (hypTrapExit stk) s).mem = s.mem := by
  rw [hypTrapExit_eq, exec_append, exec_append]
  generalize hpc : s.mem.load32 (s.x sp + BitVec.ofNat 32 stk.mepc) = pc
  have hmepc : exec HostCsr.keeps [.lw t0 stk.mepc sp, .csrw .mepc t0] s =
      { x := fun i => if i = t0 then pc else s.x i
        csr := fun c => if c = .mepc then pc &&& ~~~1 else s.csr c
        mem := s.mem } := by
    rw [← hpc]
    rfl
  have hsp : sp ∉ restoredRegs := by decide
  rw [hmepc, exec_loads HostCsr.keeps hsp (by decide), exec_restore]
  refine ⟨fun n h1 h31 => ?_, rfl, rfl, rfl⟩
  show (if n = sp then _ else if n = t0 then _ else if n ∈ restoredRegs then _ else _) = _
  rcases mem_restored h1 h31 with rfl | rfl | hn
  · rfl
  · rfl
  · have hns : n ≠ sp := fun h => hsp (h ▸ hn)
    have hnt : n ≠ t0 := by
      rintro rfl
      exact absurd hn (by decide)
    rw [if_neg hns, if_neg hnt, if_pos hn]
    rfl

end Entry

/-! ## The call of `hypervisor` -/

/-- The frame at `a`, as C has it: `x` is indexed from the word of `mepc` on. -/
def frameAt (stk : RvStk) (mem : Mem) (a : Word) : RvExcFrame where
  mepc := mem.load32 (a + BitVec.ofNat 32 stk.mepc)
  x n := mem.load32 (a + BitVec.ofNat 32 (4 * n))
  mcause := mem.load32 (a + BitVec.ofNat 32 stk.mcause)
  mtval := mem.load32 (a + BitVec.ofNat 32 stk.mtval)

/-- The words of the frame that `hypervisor` writes. -/
def frameWords (stk : RvStk) (frame : RvExcFrame) : List (Nat × Word) :=
  (stk.mepc, frame.mepc) :: (List.range' 1 31).map fun n => (4 * n, frame.x n)

/-- `hypervisor` returns with the frame as it left it.  Compiled code keeps `sp`; of
all else, `left` is what it leaves. -/
def returned (stk : RvStk) (handled : Bool) (frame : RvExcFrame) (left s : Machine HostCsr) :
    Machine HostCsr where
  x i :=
    if i = Reg.sp then s.x Reg.sp
    else if i = Reg.a0 then if handled then 1 else 0
    else left.x i
  csr := left.csr
  mem := storeWords (s.x Reg.a0) (frameWords stk frame) left.mem

theorem frameWords_offsets {stk : RvStk} (hok : stk.Ok) (frame : RvExcFrame) :
    WordOffsets stk.frmsz ((frameWords stk frame).map Prod.fst) := by
  refine hok.words.sublist ?_
  have hx : (List.range' 1 31).map (4 * ·) = (List.range' 1 31).map stk.x := by
    refine List.map_congr_left fun n hn => ?_
    rw [List.mem_range'_1] at hn
    exact (hok.x n hn.1 (by omega)).symm
  show (stk.mepc :: (List.range' 1 31).map (4 * ·)).Sublist stk.offsets
  rw [hx]
  exact List.sublist_append_left _ _

theorem load32_frameWords {stk : RvStk} (hok : stk.Ok) (frame : RvExcFrame) (a : Word) (m : Mem) :
    (storeWords a (frameWords stk frame) m).load32 (a + BitVec.ofNat 32 stk.mepc) = frame.mepc ∧
      ∀ n, 1 ≤ n → n ≤ 31 →
        (storeWords a (frameWords stk frame) m).load32 (a + BitVec.ofNat 32 (stk.x n)) =
          frame.x n := by
  have hos := frameWords_offsets hok frame
  refine ⟨load32_storeWords hok.size hos List.mem_cons_self, fun n h1 h31 => ?_⟩
  rw [hok.x n h1 h31]
  refine load32_storeWords hok.size hos (List.mem_cons_of_mem _ ?_)
  exact List.mem_map_of_mem (List.mem_range'_1.mpr ⟨h1, by omega⟩)

/-- The exit after the call: the guest resumes with what the frame holds. -/
theorem exit_returned {stk : RvStk} (hok : stk.Ok) (frame : RvExcFrame) (left : Machine HostCsr)
    {s : Machine HostCsr} (hbase : s.x Reg.sp = s.x Reg.a0) :
    (∀ n, 1 ≤ n → n ≤ 31 → (exec HostCsr.keeps (hypTrapExit stk)
        (returned stk true frame left s)).x n = frame.x n) ∧
      (exec HostCsr.keeps (hypTrapExit stk) (returned stk true frame left s)).csr .mepc =
        frame.mepc &&& ~~~1 ∧
      (exec HostCsr.keeps (hypTrapExit stk) (returned stk true frame left s)).csr .mscratch =
        s.x Reg.sp + BitVec.ofNat 32 stk.frmsz := by
  obtain ⟨hx, hmepc, htop, -⟩ := hypTrapExit_exec stk (returned stk true frame left s)
  obtain ⟨hpc, hregs⟩ := load32_frameWords hok frame (s.x Reg.a0) left.mem
  refine ⟨fun n h1 h31 => ?_, ?_, htop⟩
  · rw [hx n h1 h31, ← hregs n h1 h31, ← hbase]
    show (storeWords (s.x Reg.a0) _ _).load32 (s.x Reg.sp + _) = _
    rw [hbase]
  · rw [hmepc, ← hpc]
    show (storeWords (s.x Reg.a0) _ _).load32 (s.x Reg.sp + _) &&& _ = _
    rw [hbase]

/-! ## What the trap leaves of the registers -/

/-- The destination register of the instruction that a trap emulates, 0 where it
emulates none. -/
def emulatedRd (mem : Mem) (frame : RvExcFrame) : Nat :=
  if frame.mcause &&& interruptBit ≠ 0 then 0
  else
    match handedOn frame, trapDecode mem (guestTrap frame) with
    | none, some trap => destination frame.mcause trap.encoding
    | _, _ => 0

theorem hypDeliverPending_kept {p : RvExcFrame × Monitor}
    (h : (hypDeliverPending p).2.injections = p.2.injections) : hypDeliverPending p = p := by
  rcases hypDeliverPending_cases p with ⟨hp, -⟩ | ⟨n, -, -, -, hp⟩
  · exact hp
  · rw [hp, hypInject_injections] at h
    exact absurd h.symm (add_one_ne _)

theorem regWrite_x {i n : Nat} (hni : n ≠ i) (v : Word) (frame : RvExcFrame) :
    (regWrite i v frame).x n = frame.x n := by
  unfold regWrite
  split
  · exact if_neg hni
  · rfl

/-- `hypervisor` writes no register of the frame but the destination of the
instruction that it emulates. -/
theorem hypervisor_x {running : Bool} {mem : Mem} {sd : Sd} {sleeps : List (List HostEvent)}
    {frame frame' : RvExcFrame} {m m' : Monitor}
    (h : hypervisor running mem sd sleeps frame m = some (true, frame', m')) {n : Nat}
    (hrd : n ≠ emulatedRd mem frame) : frame'.x n = frame.x n := by
  have hend := hypervisor_end h
  generalize hp : (frame', m') = p at hend
  rw [show frame' = (frame', m').1 from rfl, hp]
  cases hend with
  | host hint => rw [hypDeliverPending_x]
  | injected hint hr =>
      rw [hypDeliverPending_x]
      rfl
  | mret hint hr hc hi => rw [hypDeliverPending_x]
  | advance hint hr hi hd hf hn =>
      rw [hypDeliverPending_x]
      rw [emulatedRd, if_neg hint, hr, hd] at hrd
      obtain ⟨v, rfl⟩ := hf
      exact regWrite_x hrd v frame

/-- A host interrupt that injects nothing leaves the frame alone. -/
theorem hypervisor_host {running : Bool} {mem : Mem} {sd : Sd} {sleeps : List (List HostEvent)}
    {frame frame' : RvExcFrame} {m m' : Monitor}
    (h : hypervisor running mem sd sleeps frame m = some (true, frame', m'))
    (hint : frame.mcause &&& interruptBit ≠ 0) (hinj : m'.injections = m.injections) :
    frame' = frame := by
  have hend := hypervisor_end h
  generalize hp : (frame', m') = p at hend
  cases hend with
  | host =>
      have hkept := hypDeliverPending_kept (p := (frame, hypPollHostDevices m)) (by
        rw [← hp]
        exact hinj.trans (hypPollHostDevices_injections m).symm)
      rw [hkept] at hp
      exact (Prod.mk.inj hp).1
  | injected hne => exact absurd hint hne
  | mret hne => exact absurd hint hne
  | advance hne => exact absurd hint hne

/-! ## The guest's core, trap after trap -/

/-- The core that runs the guest: its registers, CSRs and memory, the pc, and the
monitor's state. -/
structure GuestCore where
  hart : Machine HostCsr
  pc : Word
  mon : Monitor

/-- A trap as the hart takes it, and what goes on until `hypervisor` returns. -/
structure HostTrap where
  mcause : Word
  mtval : Word
  mstatus : Word
  linuxRunning : Bool
  sd : Sd
  sleeps : List (List HostEvent)
  left : Machine HostCsr

inductive CoreEvent
  /-- The guest runs, and the other core with it. -/
  | guest (x : Nat → Word) (pc : Word) (mem : Mem) (mon : Monitor)
  | trap (t : HostTrap)

section Path

variable (stk : RvStk) (globalPointer : Word) (t : HostTrap) (c : GuestCore)

/-- The hart at the first instruction of the vector. -/
def atVector : Machine HostCsr where
  x := c.hart.x
  csr
    | .mepc => HostCsr.mepc.keeps c.pc
    | .mcause => t.mcause
    | .mtval => t.mtval
    | .mstatus => t.mstatus
    | .mscratch => c.hart.csr .mscratch
    | .mhartid => c.hart.csr .mhartid
  mem := c.hart.mem

/-- The hart at the call of `hypervisor`. -/
def called : Machine HostCsr := exec HostCsr.keeps (hypTrapEntry stk globalPointer) (atVector t c)

/-- The frame that `hypervisor` is called with. -/
def calledFrame : RvExcFrame :=
  frameAt stk (called stk globalPointer t c).mem ((called stk globalPointer t c).x Reg.a0)

/-- A trap from the vector to `mret`.  There is no state after a `hyp_panic`, nor
while a `wfi` blocks. -/
def hypTrap : Option GuestCore :=
  let s := called stk globalPointer t c
  match hypervisor t.linuxRunning s.mem t.sd t.sleeps (calledFrame stk globalPointer t c) c.mon with
  | none => none
  | some (handled, frame, mon) =>
      let s := returned stk handled frame t.left s
      if s.x Reg.a0 = 0 then none
      else
        let s := exec HostCsr.keeps (hypTrapExit stk) s
        some { hart := s, pc := s.csr .mepc, mon }

/-- A pc is never odd. -/
def coreFire : CoreEvent → Option GuestCore
  | .guest x pc mem mon =>
      if pc.getLsbD 0 then none else some { hart := { c.hart with x, mem }, pc, mon }
  | .trap t => hypTrap stk globalPointer t c

/-- What a handled trap does to the guest: `frame` is what `hypervisor` leaves. -/
structure TrapKept (frame : RvExcFrame) (c' : GuestCore) : Prop where
  left : hypervisor t.linuxRunning (called stk globalPointer t c).mem t.sd t.sleeps
    (calledFrame stk globalPointer t c) c.mon = some (true, frame, c'.mon)
  regs : ∀ n, 1 ≤ n → n ≤ 31 →
    n ≠ emulatedRd (called stk globalPointer t c).mem (calledFrame stk globalPointer t c) →
      c'.hart.x n = c.hart.x n
  resumed : ∀ n, 1 ≤ n → n ≤ 31 → c'.hart.x n = frame.x n
  pc : c'.pc = frame.mepc &&& ~~~1
  host : t.mcause &&& interruptBit ≠ 0 → c'.mon.injections = c.mon.injections →
    c'.pc = c.pc ∧ ∀ n, 1 ≤ n → n ≤ 31 → c'.hart.x n = c.hart.x n
  top : c'.hart.csr .mscratch = c.hart.csr .mscratch

/-- The frame holds the guest's registers and pc, and the cause. -/
structure FrameSaved (frame : RvExcFrame) : Prop where
  mepc : frame.mepc = HostCsr.mepc.keeps c.pc
  x : ∀ n, 1 ≤ n → n ≤ 31 → frame.x n = c.hart.x n
  mcause : frame.mcause = t.mcause
  mtval : frame.mtval = t.mtval

end Path

section Kept

variable {stk : RvStk} {globalPointer : Word} {t : HostTrap} {c c' : GuestCore}

theorem calledFrame_saved (hok : stk.Ok) (globalPointer : Word) (t : HostTrap) (c : GuestCore) :
    FrameSaved t c (calledFrame stk globalPointer t c) := by
  obtain ⟨-, ha0, hmem⟩ := hypTrapEntry_exec stk globalPointer (atVector t c)
  have hos := hok.words.perm (savedWords_perm stk (atVector t c))
  have hload : ∀ {o v}, (o, v) ∈ savedWords stk (atVector t c) →
      (called stk globalPointer t c).mem.load32
        ((called stk globalPointer t c).x Reg.a0 + BitVec.ofNat 32 o) = v := by
    intro o v hmem'
    rw [called, ha0, hmem]
    exact load32_storeWords hok.size hos hmem'
  refine ⟨hload ?_, fun n h1 h31 => ?_, hload ?_, hload ?_⟩
  · simp [savedWords, atVector]
  · have hx := hload (mem_savedWords stk (atVector t c) h1 h31)
    rw [hok.x n h1 h31] at hx
    exact hx
  · simp [savedWords, atVector]
  · simp [savedWords, atVector]

theorem getLsbD_keeps_mepc (pc : Word) (i : Nat) (hi : i < 32) :
    (HostCsr.mepc.keeps pc).getLsbD i = (pc.getLsbD i && !decide (i = 0)) := by
  have h1 : (1 : Word) = bit 0 := by decide
  show (pc &&& ~~~1).getLsbD i = _
  rw [h1, getLsbD_and_not_bit hi]

theorem keeps_mepc {pc : Word} (h : pc.getLsbD 0 = false) : HostCsr.mepc.keeps pc = pc := by
  refine BitVec.eq_of_getLsbD_eq fun i hi => ?_
  rw [getLsbD_keeps_mepc pc i hi]
  by_cases h0 : i = 0
  · rw [h0, h, Bool.false_and]
  · rw [decide_eq_false h0, Bool.not_false, Bool.and_true]

theorem hypTrap_inv (h : hypTrap stk globalPointer t c = some c') : ∃ frame,
    hypervisor t.linuxRunning (called stk globalPointer t c).mem t.sd t.sleeps
      (calledFrame stk globalPointer t c) c.mon = some (true, frame, c'.mon) ∧
    c'.hart = exec HostCsr.keeps (hypTrapExit stk)
      (returned stk true frame t.left (called stk globalPointer t c)) ∧
    c'.pc = c'.hart.csr .mepc := by
  unfold hypTrap at h
  dsimp only at h
  cases hcall : hypervisor t.linuxRunning (called stk globalPointer t c).mem t.sd t.sleeps
      (calledFrame stk globalPointer t c) c.mon with
  | none =>
      rw [hcall] at h
      cases h
  | some r =>
      obtain ⟨handled, frame, mon⟩ := r
      rw [hcall] at h
      cases handled with
      | false => cases h
      | true =>
          obtain rfl := Option.some.inj h
          exact ⟨frame, rfl, rfl, rfl⟩

theorem hypTrap_kept (hok : stk.Ok) (hpc : c.pc.getLsbD 0 = false)
    (h : hypTrap stk globalPointer t c = some c') :
    ∃ frame, TrapKept stk globalPointer t c frame c' := by
  obtain ⟨frame, hcall, hhart, hpc'⟩ := hypTrap_inv h
  obtain ⟨hsp, ha0, -⟩ := hypTrapEntry_exec stk globalPointer (atVector t c)
  obtain ⟨hx, hmepc, htop⟩ := exit_returned hok frame t.left
    (s := called stk globalPointer t c) (hsp.trans ha0.symm)
  rw [← hhart] at hx hmepc htop
  have hsaved := calledFrame_saved hok globalPointer t c
  refine ⟨frame, hcall, fun n h1 h31 hrd => ?_, hx, hpc'.trans hmepc, fun hint hinj => ?_, ?_⟩
  · rw [hx n h1 h31, hypervisor_x hcall hrd, hsaved.x n h1 h31]
  · have hframe := hypervisor_host hcall (by rw [hsaved.mcause]; exact hint) hinj
    refine ⟨?_, fun n h1 h31 => ?_⟩
    · rw [hpc', hmepc, hframe, hsaved.mepc, keeps_mepc hpc]
      exact keeps_mepc hpc
    · rw [hx n h1 h31, hframe, hsaved.x n h1 h31]
  · rw [htop, called, hsp, frameBase, BitVec.sub_add_cancel]
    rfl

theorem coreFire_guest {x : Nat → Word} {pc : Word} {mem : Mem} {mon : Monitor}
    (h : coreFire stk globalPointer c (.guest x pc mem mon) = some c') :
    pc.getLsbD 0 = false ∧ c' = { hart := { c.hart with x, mem }, pc, mon } := by
  cases hpc : pc.getLsbD 0 with
  | true =>
      rw [coreFire, if_pos hpc] at h
      cases h
  | false =>
      rw [coreFire, hpc] at h
      exact ⟨rfl, (Option.some.inj h).symm⟩

theorem coreFire_even {e : CoreEvent} (h : coreFire stk globalPointer c e = some c') :
    c'.pc.getLsbD 0 = false := by
  cases e with
  | guest x pc mem mon =>
      obtain ⟨hpc, rfl⟩ := coreFire_guest h
      exact hpc
  | trap t =>
      obtain ⟨frame, -, hhart, hpc⟩ := hypTrap_inv h
      rw [hpc, hhart, (hypTrapExit_exec stk _).2.1]
      exact (getLsbD_keeps_mepc _ 0 (by decide)).trans (Bool.and_false _)

/-- Over any number of traps, `mscratch` stays the top of the monitor's stack, and
each trap keeps the guest's registers. -/
theorem trapPath_run (hok : stk.Ok) {c₀ : GuestCore} {h : List (GuestCore × CoreEvent)}
    (hpc : c₀.pc.getLsbD 0 = false) (hrun : Run (coreFire stk globalPointer) c₀ h c) :
    Run.Throughout (fun s => s.hart.csr .mscratch = c₀.hart.csr .mscratch) h c ∧
      ∀ s t, (s, .trap t) ∈ h → ∃ s' frame, hypTrap stk globalPointer t s = some s' ∧
        FrameSaved t s (calledFrame stk globalPointer t s) ∧
        TrapKept stk globalPointer t s frame s' := by
  have hstep : ∀ s e s', s.pc.getLsbD 0 = false ∧ s.hart.csr .mscratch = c₀.hart.csr .mscratch →
      coreFire stk globalPointer s e = some s' →
        s'.pc.getLsbD 0 = false ∧ s'.hart.csr .mscratch = c₀.hart.csr .mscratch := by
    rintro s e s' ⟨heven, htop⟩ hfire
    refine ⟨coreFire_even hfire, ?_⟩
    cases e with
    | guest x pc mem mon =>
        obtain ⟨-, rfl⟩ := coreFire_guest hfire
        exact htop
    | trap t =>
        obtain ⟨frame, hkept⟩ := hypTrap_kept hok heven hfire
        exact hkept.top.trans htop
  have hall := (Run.throughout_iff (C := fun _ _ => True) ⟨hpc, rfl⟩
    (fun s e s' hs hf => ⟨fun _ => trivial, fun _ => hstep s e s' hs hf⟩) hrun).mpr
      (fun _ _ => trivial)
  refine ⟨⟨fun p hp => (hall.1 p hp).2, hall.2.2⟩, fun s t hmem => ?_⟩
  obtain ⟨s', hfire⟩ := hrun.fired _ hmem
  obtain ⟨frame, hkept⟩ := hypTrap_kept hok (hall.1 _ hmem).1 hfire
  exact ⟨s', frame, hfire, calledFrame_saved hok _ _ _, hkept⟩

end Kept

/-! ## An odd `mepc` -/

/-- Offsets that meet what is assumed of the header. -/
def rvStk : RvStk where
  frmsz := 160
  mepc := 0
  x n := 4 * n
  mstatus := 128
  mcause := 136
  mtval := 140
  mhartid := 144

theorem rvStk_ok : rvStk.Ok where
  mepc := rfl
  x _ _ _ := rfl
  words := ⟨by decide, by decide, by decide⟩
  size := by decide

def launchCore : GuestCore where
  hart :=
    { x := fun _ => 0
      csr := fun c => if c = .mscratch then 0x4ff20000 else 0
      mem := fun _ => 0 }
  pc := 0x48000000
  mon := .boot

def hostTrap (mcause mtval : Word) : HostTrap where
  mcause := mcause
  mtval := mtval
  mstatus := 0
  linuxRunning := true
  sd := smallSd true
  sleeps := []
  left := { x := fun _ => 0xdead, csr := fun _ => 0xbeef, mem := fun _ => 0 }

/-- A host interrupt, and then `csrw mepc, a0` with an odd word in `a0`. -/
def oddMepc : List CoreEvent :=
  [.guest (fun n => 0x480000f7 + BitVec.ofNat 32 n) 0x48000200 (fun _ => 0) .boot,
    .trap (hostTrap 0x80000014 0), .trap (hostTrap 2 0x34151073)]

theorem trapPath_run_odd : ∃ h c, Run (coreFire rvStk 0x4ff10000) launchCore h c ∧ h.length = 3 ∧
    c.pc = 0x48000204 ∧ c.hart.x Reg.a0 = 0x48000101 ∧
    Run.Throughout (fun s => s.hart.csr .mscratch = launchCore.hart.csr .mscratch) h c ∧
      ∀ s t, (s, .trap t) ∈ h → ∃ s' frame, hypTrap rvStk 0x4ff10000 t s = some s' ∧
        FrameSaved t s (calledFrame rvStk 0x4ff10000 t s) ∧
        TrapKept rvStk 0x4ff10000 t s frame s' := by
  obtain ⟨h, c, hrun, hd⟩ := Run.exists_of_play (coreFire rvStk 0x4ff10000) launchCore oddMepc
    (fun r => (r.1.length, r.2.pc, r.2.hart.x Reg.a0)) (3, 0x48000204, 0x48000101)
    (by decide +kernel)
  simp only [Prod.mk.injEq] at hd
  obtain ⟨hlen, hpc, ha0⟩ := hd
  exact ⟨h, c, hrun, hlen, hpc, ha0, trapPath_run rvStk_ok (by decide) hrun⟩

/-- After an `mret` to an odd `mepc`, the pc is not the frame's. -/
theorem mret_odd : ∃ h s s' frame, Run (coreFire rvStk 0x4ff10000) launchCore h s ∧
    coreFire rvStk 0x4ff10000 s (.trap (hostTrap 2 0x30200073)) = some s' ∧
    hypervisor true (called rvStk 0x4ff10000 (hostTrap 2 0x30200073) s).mem (smallSd true) []
      (calledFrame rvStk 0x4ff10000 (hostTrap 2 0x30200073) s) s.mon = some (true, frame, s'.mon) ∧
    frame.mepc = 0x48000101 ∧ s'.pc = 0x48000100 := by
  obtain ⟨h, s, hrun, hd⟩ := Run.exists_of_play (coreFire rvStk 0x4ff10000) launchCore oddMepc
    (fun r => (
      (hypTrap rvStk 0x4ff10000 (hostTrap 2 0x30200073) r.2).map GuestCore.pc,
      (hypervisor true (called rvStk 0x4ff10000 (hostTrap 2 0x30200073) r.2).mem (smallSd true) []
        (calledFrame rvStk 0x4ff10000 (hostTrap 2 0x30200073) r.2) r.2.mon).map (·.2.1.mepc)))
    (some 0x48000100, some 0x48000101) (by decide +kernel)
  obtain ⟨hpc, hmepc⟩ := Prod.mk.inj hd
  obtain ⟨s', hfire, hpc⟩ := Option.map_eq_some_iff.mp hpc
  obtain ⟨frame, hcall, -, -⟩ := hypTrap_inv hfire
  refine ⟨h, s, s', frame, hrun, hfire, hcall, ?_, hpc⟩
  have hcall' : hypervisor true (called rvStk 0x4ff10000 (hostTrap 2 0x30200073) s).mem
      (smallSd true) [] (calledFrame rvStk 0x4ff10000 (hostTrap 2 0x30200073) s) s.mon =
        some (true, frame, s'.mon) := hcall
  rw [hcall'] at hmepc
  exact Option.some.inj hmepc

end P4Hyp
