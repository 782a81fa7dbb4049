import P4Hyp.Intr

/-!
# The shadow CSR bank and the SYSTEM instructions

The CSR instructions, `mret` and `wfi` trap as illegal instructions.  A `wfi`
that blocks does not come back with a result: the trap goes on in the loop of
`hypervisor_wfi` until `hyp_wfi_wake`.
-/

namespace P4Hyp

def csrMip : Word := 0x344
def csrPmpcfg0 : Word := 0x3a0
def csrPmpcfg3 : Word := csrPmpcfg0 + 3
def csrPmpaddr0 : Word := 0x3b0
def csrPmpaddr15 : Word := csrPmpaddr0 + 15

/-- What `shadow_slot` can point to. -/
inductive Slot
  | mstatus
  | mie
  | mtvec
  | mscratch
  | mepc
  | mcause
  | mtval
  | pmpcfg (i : Nat)
  | pmpaddr (i : Nat)
  deriving DecidableEq

namespace Slot

def get (m : Monitor) : Slot → Word
  | mstatus => m.shadow.mstatus
  | mie => m.shadow.mie
  | mtvec => m.shadow.mtvec
  | mscratch => m.shadow.mscratch
  | mepc => m.shadow.mepc
  | mcause => m.shadow.mcause
  | mtval => m.shadow.mtval
  | pmpcfg i => m.shadowPmpcfg i
  | pmpaddr i => m.shadowPmpaddr i

def set (v : Word) (m : Monitor) : Slot → Monitor
  | mstatus => { m with shadow := { m.shadow with mstatus := v } }
  | mie => { m with shadow := { m.shadow with mie := v } }
  | mtvec => { m with shadow := { m.shadow with mtvec := v } }
  | mscratch => { m with shadow := { m.shadow with mscratch := v } }
  | mepc => { m with shadow := { m.shadow with mepc := v } }
  | mcause => { m with shadow := { m.shadow with mcause := v } }
  | mtval => { m with shadow := { m.shadow with mtval := v } }
  | pmpcfg i => { m with shadowPmpcfg := fun j => if j = i then v else m.shadowPmpcfg j }
  | pmpaddr i => { m with shadowPmpaddr := fun j => if j = i then v else m.shadowPmpaddr j }

end Slot

def shadowSlot (csr : Word) : Option Slot :=
  if csr = 0x300 then some .mstatus
  else if csr = 0x304 then some .mie
  else if csr = 0x305 then some .mtvec
  else if csr = 0x340 then some .mscratch
  else if csr = 0x341 then some .mepc
  else if csr = 0x342 then some .mcause
  else if csr = 0x343 then some .mtval
  else if csrPmpcfg0 ≤ csr ∧ csr ≤ csrPmpcfg3 then some (.pmpcfg (csr - csrPmpcfg0).toNat)
  else if csrPmpaddr0 ≤ csr ∧ csr ≤ csrPmpaddr15 then some (.pmpaddr (csr - csrPmpaddr0).toNat)
  else none

def csrReadOnlyZero (csr : Word) : Bool :=
  csr ∈ [0x001, 0x002, 0x003, 0x301, 0xf11, 0xf12, 0xf13, 0xf14]

def hypervisorMret (trap : GuestTrap) (m : Monitor) : TrapResult × GuestTrap × Monitor :=
  let status := m.shadow.mstatus
  let guestPriv := (status &&& mstatusMpp) >>> mstatusMppS
  let status := status &&& ~~~mstatusMie ||| if status &&& mstatusMpie ≠ 0 then mstatusMie else 0
  let status := (status ||| mstatusMpie) &&& ~~~mstatusMpp
  let m := { m with guestPriv, shadow := { m.shadow with mstatus := status } }
  if m.shadow.mepc = 0 then (.unhandled, trap, m)
  else (.resume, { trap with frame := { trap.frame with mepc := m.shadow.mepc } }, m)

/-- The monitor after an `mret`, which is the same when there is nothing to return
to. -/
def Monitor.mret (m : Monitor) : Monitor :=
  { m with
    guestPriv := (m.shadow.mstatus &&& mstatusMpp) >>> mstatusMppS
    shadow := { m.shadow with mstatus :=
      (m.shadow.mstatus &&& ~~~mstatusMie |||
        (if m.shadow.mstatus &&& mstatusMpie ≠ 0 then mstatusMie else 0) ||| mstatusMpie) &&&
          ~~~mstatusMpp } }

theorem hypervisorMret_zero {m : Monitor} (h : m.shadow.mepc = 0) (trap : GuestTrap) :
    hypervisorMret trap m = (.unhandled, trap, m.mret) := if_pos h

theorem hypervisorMret_ok {m : Monitor} (h : m.shadow.mepc ≠ 0) (trap : GuestTrap) :
    hypervisorMret trap m =
      (.resume, { trap with frame := { trap.frame with mepc := m.shadow.mepc } }, m.mret) :=
        if_neg h

/-- Whether a real `wfi` would wake, which ignores `mstatus.MIE`. -/
def hypWfiWake (m : Monitor) : Bool :=
  if m.shadow.mie &&& mipMeip ≠ 0 ∧ meipPending m.dev.plic = true then true
  else if m.shadow.mie &&& mipMsip ≠ 0 ∧ m.shadow.mip &&& mipMsip ≠ 0 then true
  else if m.shadow.mie &&& mipMtip ≠ 0 ∧ mtipPending m.clint = true then true
  else false

/-- Up to the loop of `hypervisor_wfi`, which `none` enters. -/
def hypervisorWfi (m : Monitor) : Option TrapResult × Monitor :=
  let timerArmed := m.shadow.mie &&& mipMtip ≠ 0 ∧ m.clint.shadowMtimecmp < hypMtimeMax
  let extArmed := m.shadow.mie &&& mipMeip ≠ 0
  if ¬ timerArmed ∧ ¬ extArmed then (some .advance, m)
  else (none, { m with hypInWfi := true })

/-- `csrrw`, `csrrs` or `csrrc`, by the low bits of `funct3`. -/
def csrUpdate (funct3 : Nat) (old src : Word) : Word :=
  if funct3 % 4 = 1 then src
  else if funct3 % 4 = 2 then old ||| src
  else if funct3 % 4 = 3 then old &&& ~~~src
  else old

/-- The CSR instruction itself: the old value, and the bank after it.  `csrrs`
and `csrrc` of `x0` must not write, and `csrrw` always must. -/
def csrAccess (csr : Word) (funct3 rs1 : Nat) (src : Word) (m : Monitor) :
    Option (Word × Monitor) :=
  let writes := funct3 % 4 = 1 ∨ rs1 ≠ 0
  if csr = csrMip then
    let old := shadowMipRead m
    let mip := csrUpdate funct3 old src &&& ~~~(mipMtip ||| mipMeip)
    some (old, if writes then { m with shadow := { m.shadow with mip } } else m)
  else
    match shadowSlot csr with
    | some slot =>
        let old := slot.get m
        some (old, if writes then slot.set (csrUpdate funct3 old src) m else m)
    | none => if csrReadOnlyZero csr then some (0, m) else none

def hypervisorCsr (mem : Mem) (trap : GuestTrap) (m : Monitor) :
    Option TrapResult × GuestTrap × Monitor :=
  match trapDecode mem trap with
  | none => (some .unhandled, trap, m)
  | some trap =>
      let instruction := trap.encoding
      let funct3 := field instruction 12 3
      if instruction &&& 0x7f ≠ 0x73 then (some .unhandled, trap, m)
      else if funct3 = 0 then
        if instruction = 0x30200073 then
          let (r, trap, m) := hypervisorMret trap m
          (some r, trap, m)
        else if instruction = 0x10500073 then
          let (r, m) := hypervisorWfi m
          (r, trap, m)
        else (some .unhandled, trap, m)
      else if funct3 = 4 then (some .unhandled, trap, m)
      else
        let csr := instruction >>> 20
        let rd := field instruction 7 5
        let rs1 := field instruction 15 5
        let src := if 4 ≤ funct3 then BitVec.ofNat 32 rs1 else regRead trap.frame rs1
        match csrAccess csr funct3 rs1 src m with
        | none => (some .unhandled, trap, m)
        | some (old, m) =>
            (some .advance, { trap with frame := regWrite rd old trap.frame }, m)

/-! ## What a CSR instruction leaves alone -/

theorem slot_set_rest (s : Slot) (v : Word) (m : Monitor) : s.set v m = { m with
    shadow := (s.set v m).shadow, shadowPmpcfg := (s.set v m).shadowPmpcfg,
    shadowPmpaddr := (s.set v m).shadowPmpaddr } := by
  cases s <;> rfl

theorem csrAccess_rest {csr : Word} {funct3 rs1 : Nat} {src old : Word} {m m' : Monitor}
    (h : csrAccess csr funct3 rs1 src m = some (old, m')) : m' = { m with
      shadow := m'.shadow, shadowPmpcfg := m'.shadowPmpcfg, shadowPmpaddr :=
        m'.shadowPmpaddr } := by
  unfold csrAccess at h
  dsimp only at h
  split at h
  · obtain rfl := (Prod.mk.inj (Option.some.inj h)).2
    split
    · rfl
    · rfl
  · split at h
    · obtain rfl := (Prod.mk.inj (Option.some.inj h)).2
      split
      · exact slot_set_rest _ _ _
      · rfl
    · split at h
      · obtain rfl := (Prod.mk.inj (Option.some.inj h)).2
        rfl
      · cases h

end P4Hyp
