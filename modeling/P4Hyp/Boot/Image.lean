import P4Hyp.Boot.Load

/-!
# The guest's memory as it is loaded

With a kernel that ends below the device tree, the guest finds the kernel, with the
command line replaced if there is one to replace, and the device tree, with the place
of the root file system written over the placeholder.
-/

namespace P4Hyp

/-- The partition's contents, laid out from `a` on. -/
def Partition.image (p : Partition) (a : Word) : Mem := fun x => p.contents (x - a).toNat

/-- The partition is there, and can be mapped whole. -/
def Mapped (t : PartitionTable) (label : String) (p : Partition) : Prop :=
  t label = some p ∧ ∃ va, p.mmap p.size = .ok va

/-- The partition is mapped inside the flash window that the guest may read. -/
def WindowAt (t : PartitionTable) (label : String) (va span : Word) : Prop :=
  ∃ p, t label = some p ∧ p.mmap p.size = .ok va ∧ p.size = span ∧
    ¬ (va < socDromLow ∨ va + span > socDromHigh)

/-- The placeholder of the root file system is at `i` in the blob, and not before. -/
def PlaceholderAt (d : Partition) (i : Nat) : Prop :=
  i + 8 ≤ (dtbTotal (d.image dtbAddress)).toNat ∧
    (d.image dtbAddress).FirstAt dtbAddress rootfsPlaceholder.toList i

/-- The room below the device tree. -/
def kernelRoom : Nat := 0x01f00000

/-- The kernel's room, with the kernel in it. -/
def kernelMem (k : Partition) (m : Mem) : Mem := m.fill linuxBaseAddress k.size.toNat k.contents

/-- The partitions fit where they are copied to, the blob fits its partition, and a
command line ends below the device tree. -/
structure LayoutOk (k d : Partition) (m : Mem) : Prop where
  kernel : k.size.toNat ≤ kernelRoom
  dtb : d.size.toNat ≤ 0x00100000
  blob : 8 ≤ (dtbTotal (d.image dtbAddress)).toNat
  total : (dtbTotal (d.image dtbAddress)).toNat ≤ d.size.toNat
  cmdline : ∀ i, i + cmdlineNeedle.length < cmdlineSpan.toNat →
    (kernelMem k m).FirstAt linuxBaseAddress cmdlineNeedle i →
      ∃ n, (kernelMem k m).strlen (linuxBaseAddress + BitVec.ofNat 32 i) = some n ∧
        i + n < kernelRoom

/-- The command line that is replaced: `n` bytes from `i` on. -/
def CmdlineAt (k : Partition) (m : Mem) (i n : Nat) : Prop :=
  CmdlineFits (kernelMem k m) cmdlineSpan i n ∧ i + cmdlineNeedle.length < cmdlineSpan.toNat

/-- What is in memory once the guest is loaded. -/
structure GuestImage (t : PartitionTable) (k d : Partition) (m m' : Mem) : Prop where
  cmdline : ∀ i n, CmdlineAt k m i n →
    m'.IsString (linuxBaseAddress + BitVec.ofNat 32 i) cmdlineReplacement ∧
      ∀ x, Covers linuxBaseAddress kernelRoom x →
        ¬ Covers (linuxBaseAddress + BitVec.ofNat 32 i) n x → m' x = kernelMem k m x
  built : (∀ i n, ¬ CmdlineAt k m i n) → Mem.AgreeOn (kernelMem k m) m' linuxBaseAddress kernelRoom
  rootfs : ∀ va span, WindowAt t "rootfs" va span → ∃ i, PlaceholderAt d i ∧
    m'.bytes (dtbAddress + BitVec.ofNat 32 i) 8 = be32 va ++ be32 span ∧
      ∀ x, Covers dtbAddress d.size.toNat x → ¬ Covers (dtbAddress + BitVec.ofNat 32 i) 8 x →
        m' x = d.image dtbAddress x
  plain : (∀ va span, ¬ WindowAt t "rootfs" va span) →
    Mem.AgreeOn (d.image dtbAddress) m' dtbAddress d.size.toNat
  rest : ∀ x, ¬ Covers linuxBaseAddress kernelRoom x →
    ¬ Covers dtbAddress d.size.toNat x → m' x = m x

/-! ## The copies -/

theorem partitionCpToPsram_mapped {t : PartitionTable} {label : String} {p : Partition}
    (h : Mapped t label p) (destination : Word) (m : Mem) :
    partitionCpToPsram t label destination 0 m =
      .ok (m.fill destination p.size.toNat p.contents) := by
  obtain ⟨ht, va, hva⟩ := h
  have hsource : partitionSource t label 0 = .ok (p.size, p.contents) := by
    rw [partitionSource, ht]
    simp [hva]
  rw [partitionCpToPsram, hsource]
  rfl

/-- Both copies. -/
def copied (k d : Partition) (m : Mem) : Mem :=
  (kernelMem k m).fill dtbAddress d.size.toNat d.contents

theorem fill_image (p : Partition) (a : Word) (m : Mem) :
    Mem.AgreeOn (p.image a) (m.fill a p.size.toNat p.contents) a p.size.toNat :=
  fun _ hx => Mem.fill_inside hx

theorem apart_rooms : Apart linuxBaseAddress kernelRoom dtbAddress 0x00100000 := by decide

section Copied

variable {k d : Partition} {m : Mem}

theorem copied_kernel (hd : d.size.toNat ≤ 0x00100000) :
    Mem.AgreeOn (kernelMem k m) (copied k d m) linuxBaseAddress kernelRoom :=
  Mem.agreeOn_fill (apart_rooms.mono (Nat.le_refl _) hd)

theorem copied_dtb : Mem.AgreeOn (d.image dtbAddress) (copied k d m) dtbAddress d.size.toNat :=
  fill_image d dtbAddress _

theorem copied_rest (hk : k.size.toNat ≤ kernelRoom) {x : Word}
    (hroom : ¬ Covers linuxBaseAddress kernelRoom x) (hdtb : ¬ Covers dtbAddress d.size.toNat x) :
    copied k d m x = m x := by
  rw [copied, Mem.fill_outside hdtb, kernelMem, Mem.fill_outside fun h => hroom (covers_mono hk h)]

/-- The blob in memory declares the size that the blob in flash declares. -/
theorem copied_total (hd : 8 ≤ d.size.toNat) :
    dtbTotal (copied k d m) = dtbTotal (d.image dtbAddress) := by
  have hat {i : Nat} (hi : i < 8) : copied k d m (dtbAddress + BitVec.ofNat 32 i) =
      d.image dtbAddress (dtbAddress + BitVec.ofNat 32 i) :=
    copied_dtb _ (covers_at (by omega) (by have := d.size.isLt; omega))
  simp only [dtbTotal, Mem.loadBe32]
  rw [BitVec.add_assoc, BitVec.add_assoc, BitVec.add_assoc]
  exact congrArg₂ _ (congrArg₂ _ (congrArg₂ _ (hat (i := 4) (by omega)) (hat (i := 5) (by omega)))
    (hat (i := 6) (by omega))) (hat (i := 7) (by omega))

end Copied

/-! ## The root file system -/

theorem print_mem (l : Loading) (line : String) : (l.print line).mem = l.mem := rfl

theorem windowMapFromFlash_spec (t : PartitionTable) (w : GuestWindow) (l : Loading) :
    (∃ va span l', windowMapFromFlash t w l = (.ok (va, span), l') ∧ l'.mem = l.mem ∧
      WindowAt t w.label va span) ∨
    (∃ e l', windowMapFromFlash t w l = (.error e, l') ∧ l'.mem = l.mem ∧
      ∀ va span, ¬ WindowAt t w.label va span) := by
  unfold windowMapFromFlash
  cases ht : t w.label with
  | none =>
      refine .inr ⟨_, _, rfl, rfl, fun va span hw => ?_⟩
      obtain ⟨p, hp, -⟩ := hw
      cases ht.symm.trans hp
  | some p =>
      dsimp only
      cases hmap : p.mmap p.size with
      | error e =>
          refine .inr ⟨_, _, rfl, rfl, fun va span hw => ?_⟩
          obtain ⟨p', hp, hva, -⟩ := hw
          obtain rfl := Option.some.inj (ht.symm.trans hp)
          cases hmap.symm.trans hva
      | ok va =>
          dsimp only
          by_cases hout : va < socDromLow ∨ va + p.size > socDromHigh
          · rw [if_pos hout]
            refine .inr ⟨_, _, rfl, rfl, fun va' span hw => ?_⟩
            obtain ⟨p', hp, hva, rfl, hin⟩ := hw
            obtain rfl := Option.some.inj (ht.symm.trans hp)
            obtain rfl := Except.ok.inj (hmap.symm.trans hva)
            exact hin hout
          · have hw : WindowAt t w.label va p.size := ⟨p, ht, hmap, rfl, hout⟩
            rw [if_neg hout]
            by_cases hpow : p.size &&& (p.size - 1) ≠ 0
            · rw [if_pos hpow]
              exact .inl ⟨va, p.size, _, rfl, rfl, hw⟩
            · rw [if_neg hpow]
              exact .inl ⟨va, p.size, _, rfl, rfl, hw⟩

/-- A window is mapped at one place. -/
theorem WindowAt.unique {t : PartitionTable} {label : String} {va va' span span' : Word}
    (h : WindowAt t label va span) (h' : WindowAt t label va' span') : va = va' ∧ span = span' := by
  obtain ⟨p, hp, hva, rfl, -⟩ := h
  obtain ⟨p', hp', hva', rfl, -⟩ := h'
  obtain rfl := Option.some.inj (hp.symm.trans hp')
  exact ⟨Except.ok.inj (hva.symm.trans hva'), rfl⟩

section Rootfs

variable {k d : Partition} {m : Mem}

/-- The search in memory finds the placeholder that the blob in flash has. -/
theorem patchDtbWindow_copied (hok : LayoutOk k d m) (va span : Word) :
    (∃ i, PlaceholderAt d i ∧
      patchDtbWindow rootfsPlaceholder va span (copied k d m) =
        (true, (copied k d m).copy (dtbAddress + BitVec.ofNat 32 i) (be32 va ++ be32 span))) ∨
    ((∀ i, ¬ PlaceholderAt d i) ∧
      patchDtbWindow rootfsPlaceholder va span (copied k d m) =
        (false, copied k d m)) := by
  have hsize := d.size.isLt
  have hlen8 : rootfsPlaceholder.toList.length = 8 := Vector.length_toList
  have htotal : dtbTotal (copied k d m) = dtbTotal (d.image dtbAddress) :=
    copied_total (Nat.le_trans hok.blob hok.total)
  have hgood : ¬ (dtbTotal (copied k d m) < 8 ∨ dtbTotal (copied k d m) > 0x00100000) := by
    rw [dtbTotal_bad, not_not, htotal]
    exact ⟨hok.blob, Nat.le_trans hok.total hok.dtb⟩
  have hagree : Mem.AgreeOn (copied k d m) (d.image dtbAddress) dtbAddress d.size.toNat :=
    fun x hx => (copied_dtb x hx).symm
  unfold patchDtbWindow
  rw [if_neg hgood, htotal]
  cases hs : (copied k d m).search dtbAddress
      rootfsPlaceholder.toList
      ((dtbTotal (d.image dtbAddress)).toNat - 7) with
  | none =>
      refine .inr ⟨fun i hi => ?_, rfl⟩
      have hle := hi.1
      have hlen := hok.total
      have hfirst : (copied k d m).FirstAt dtbAddress rootfsPlaceholder.toList i :=
        hi.2.congr copied_dtb (by omega) (by omega)
      exact Mem.search_eq_none.mp hs i (by omega) hfirst.found
  | some i =>
      obtain ⟨hi, hfirst⟩ := Mem.search_eq_some.mp hs
      have hlen := hok.total
      exact .inl ⟨i, ⟨by omega, hfirst.congr hagree (by omega) (by omega)⟩, rfl⟩

end Rootfs

/-! ## The command line -/

theorem cmdlineSpan_le : cmdlineSpan.toNat ≤ kernelRoom := by decide

/-- What the patch does to a room whose command line ends in it. -/
theorem patchGuestCmdline_room {K m : Mem} {span : Word} (hspan : span.toNat ≤ kernelRoom)
    (hends : ∀ i, i + cmdlineNeedle.length < span.toNat →
      K.FirstAt linuxBaseAddress cmdlineNeedle i →
      ∃ n, K.strlen (linuxBaseAddress + BitVec.ofNat 32 i) = some n ∧ i + n < kernelRoom)
    (hagree : Mem.AgreeOn K m linuxBaseAddress kernelRoom) :
    ∃ b m', patchGuestCmdline span m = some (b, m') ∧
      (∀ i n, CmdlineFits K span i n → i + cmdlineNeedle.length < span.toNat →
        m'.IsString (linuxBaseAddress + BitVec.ofNat 32 i) cmdlineReplacement ∧
        ∀ x, ¬ Covers (linuxBaseAddress + BitVec.ofNat 32 i) n x → m' x = m x) ∧
      ((∀ i n, CmdlineFits K span i n → ¬ i + cmdlineNeedle.length < span.toNat) → m' = m) ∧
      ∀ x, ¬ Covers linuxBaseAddress kernelRoom x → m' x = m x := by
  have hroom : kernelRoom ≤ 2 ^ 32 := by decide
  have hback : Mem.AgreeOn m K linuxBaseAddress kernelRoom := fun x hx => (hagree x hx).symm
  unfold patchGuestCmdline
  cases hs : m.search linuxBaseAddress cmdlineNeedle (span.toNat - cmdlineNeedle.length) with
  | none =>
      have hnone : ∀ i n, CmdlineFits K span i n → ¬ i + cmdlineNeedle.length < span.toNat := by
        intro i n hfits hlt
        exact Mem.search_eq_none.mp hs i (Nat.lt_sub_of_add_lt hlt)
          (hfits.first.congr hagree hroom (by omega)).found
      exact ⟨false, m, rfl, fun i n hfits hlt => absurd hlt (hnone i n hfits), fun _ => rfl,
        fun _ _ => rfl⟩
  | some i =>
      obtain ⟨hi, hfirst⟩ := Mem.search_eq_some.mp hs
      have hlt : i + cmdlineNeedle.length < span.toNat := Nat.add_lt_of_lt_sub hi
      have hfirst' : K.FirstAt linuxBaseAddress cmdlineNeedle i :=
        hfirst.congr hback hroom (by omega)
      obtain ⟨n, hn, hin⟩ := hends i hlt hfirst'
      have hstr : m.strlen (linuxBaseAddress + BitVec.ofNat 32 i) = some n :=
        Mem.strlen_congr hagree hroom hin hn
      have honly {j k : Nat} (hfits : CmdlineFits K span j k) : j = i ∧ k = n := by
        obtain rfl := hfits.first.unique hfirst'
        exact ⟨rfl, Option.some.inj (hfits.strlen.symm.trans hn)⟩
      simp only [hstr]
      by_cases hle : cmdlineReplacement.length > n
      · rw [if_pos hle]
        refine ⟨false, m, rfl, fun j k hfits _ => ?_, fun _ => rfl, fun _ _ => rfl⟩
        obtain ⟨rfl, rfl⟩ := honly hfits
        exact absurd hfits.fits (Nat.not_le_of_lt hle)
      · rw [if_neg hle]
        have hout {x : Word} (hx : ¬ Covers (linuxBaseAddress + BitVec.ofNat 32 i) n x) :
            ((m.fill (linuxBaseAddress + BitVec.ofNat 32 i) n fun _ => 0).copy
              (linuxBaseAddress + BitVec.ofNat 32 i) cmdlineReplacement) x = m x := by
          rw [Mem.copy_outside fun hc => hx (covers_mono (Nat.le_of_not_lt hle) hc),
            Mem.fill_outside hx]
        refine ⟨true, _, rfl, fun j k hfits _ => ?_, fun hnone => ?_, fun x hx => ?_⟩
        · obtain ⟨rfl, rfl⟩ := honly hfits
          exact ⟨Mem.isString_overwrite hstr (Nat.le_of_not_lt hle) (by decide), fun x => hout⟩
        · exact absurd hlt (hnone i n ⟨Nat.le_of_lt hlt, hfirst', hn, Nat.le_of_not_lt hle⟩)
        · exact hout fun hc => hx (covers_of_offset (by omega) hroom hc)

/-! ## The image -/

section Image

variable {t : PartitionTable} {k d : Partition} {l : Loading}

theorem loadCmdline_image (hok : LayoutOk k d l.mem) {l₂ : Loading}
    (hkernel : Mem.AgreeOn (kernelMem k l.mem) l₂.mem linuxBaseAddress kernelRoom) :
    ∃ l', loadCmdline l₂ = some (true, l') ∧
      (∀ i n, CmdlineAt k l.mem i n →
        l'.mem.IsString (linuxBaseAddress + BitVec.ofNat 32 i) cmdlineReplacement ∧
        ∀ x, Covers linuxBaseAddress kernelRoom x →
          ¬ Covers (linuxBaseAddress + BitVec.ofNat 32 i) n x → l'.mem x = kernelMem k l.mem x) ∧
      ((∀ i n, ¬ CmdlineAt k l.mem i n) →
        Mem.AgreeOn (kernelMem k l.mem) l'.mem linuxBaseAddress kernelRoom) ∧
      ∀ x, ¬ Covers linuxBaseAddress kernelRoom x → l'.mem x = l₂.mem x := by
  obtain ⟨b, m', hp, hat, hnone, hrest⟩ := patchGuestCmdline_room cmdlineSpan_le hok.cmdline hkernel
  refine ⟨{ l₂ with mem := m' }.print _, by rw [loadCmdline, hp]; rfl, fun i n h => ?_,
    fun h => ?_, hrest⟩
  · obtain ⟨hstr, hout⟩ := hat i n h.1 h.2
    exact ⟨hstr, fun x hx hx' => (hout x hx').trans (hkernel x hx)⟩
  · rw [print_mem, hnone fun i n hfits hlt => h i n ⟨hfits, hlt⟩]
    exact hkernel

theorem dtb_outside_kernel {x : Word} (hd : d.size.toNat ≤ 0x00100000)
    (hx : Covers dtbAddress d.size.toNat x) : ¬ Covers linuxBaseAddress kernelRoom x :=
  fun hk => apart_rooms x hk (covers_mono hd hx)

theorem image_patched (hok : LayoutOk k d l.mem) {va span : Word} (hw : WindowAt t "rootfs" va span)
    {i : Nat} (hi : PlaceholderAt d i) {l₃ : Loading}
    (hm : l₃.mem = (copied k d l.mem).copy (dtbAddress + BitVec.ofNat 32 i) (be32 va ++ be32 span)) :
    ∃ l', loadCmdline l₃ = some (true, l') ∧ GuestImage t k d l.mem l'.mem := by
  have hsize := d.size.isLt
  have hpair : (be32 va ++ be32 span).length = 8 := rfl
  have hin {x : Word} (hx : Covers (dtbAddress + BitVec.ofNat 32 i) 8 x) :
    Covers dtbAddress d.size.toNat x := by
    have hle := hi.1
    have htotal := hok.total
    exact covers_of_offset (by omega) (by omega) hx
  have hkernel : Mem.AgreeOn (kernelMem k l.mem) l₃.mem linuxBaseAddress kernelRoom := by
    intro x hx
    rw [hm, Mem.copy_outside fun hc => dtb_outside_kernel hok.dtb (hin hc) hx]
    exact copied_kernel hok.dtb x hx
  obtain ⟨l', hc, hat, hnone, hrest⟩ := loadCmdline_image hok hkernel
  refine ⟨l', hc, hat, hnone, fun va' span' hw' => ?_, fun hno => absurd hw (hno va span), ?_⟩
  · obtain ⟨rfl, rfl⟩ := hw.unique hw'
    refine ⟨i, hi, ?_, fun x hx hx' => ?_⟩
    · have hkeep : l'.mem.bytes (dtbAddress + BitVec.ofNat 32 i) 8 =
          l₃.mem.bytes (dtbAddress + BitVec.ofNat 32 i) 8 := by
        refine List.map_congr_left fun j hj => hrest _ (dtb_outside_kernel hok.dtb (hin ?_))
        exact covers_at (List.mem_range.mp hj) (by decide)
      rw [hkeep, hm, ← hpair]
      exact Mem.bytes_copy (by rw [hpair]; decide)
    · rw [hrest x (dtb_outside_kernel hok.dtb hx), hm, Mem.copy_outside hx']
      exact copied_dtb x hx
  · intro x hroom hdtb
    rw [hrest x hroom, hm, Mem.copy_outside fun hc => hdtb (hin hc)]
    exact copied_rest hok.kernel hroom hdtb

theorem image_unmapped (hok : LayoutOk k d l.mem) (hno : ∀ va span, ¬ WindowAt t "rootfs" va span)
    {l₃ : Loading} (hm : l₃.mem = copied k d l.mem) :
    ∃ l', loadCmdline l₃ = some (true, l') ∧ GuestImage t k d l.mem l'.mem := by
  have hkernel : Mem.AgreeOn (kernelMem k l.mem) l₃.mem linuxBaseAddress kernelRoom := by
    rw [hm]
    exact copied_kernel hok.dtb
  obtain ⟨l', hc, hat, hnone, hrest⟩ := loadCmdline_image hok hkernel
  refine ⟨l', hc, hat, hnone, fun va span hw => absurd hw (hno va span), fun _ x hx => ?_,
    fun x hroom hdtb => ?_⟩
  · rw [hrest x (dtb_outside_kernel hok.dtb hx), hm]
    exact copied_dtb x hx
  · rw [hrest x hroom, hm]
    exact copied_rest hok.kernel hroom hdtb

/-- With both partitions there and laid out to fit, the loading ends; it fails exactly
when the root file system is mapped but the blob has no placeholder, and what it leaves
otherwise is the image. -/
theorem hypLoadGuest_image (hk : Mapped t "kernel" k) (hd : Mapped t "dtb" d)
    (hok : LayoutOk k d l.mem) :
    ∃ b l', hypLoadGuest t l = some (b, l') ∧
      (b = false ↔ ∃ va span, WindowAt t "rootfs" va span ∧ ∀ i, ¬ PlaceholderAt d i) ∧
      (b = true → GuestImage t k d l.mem l'.mem) := by
  have hload : hypLoadGuest t l = loadWindows t guestWindows
      ⟨copied k d l.mem, l.lines ++ ["I: Copied Linux Image to PSRAM\n"] ++
        ["I: Copied DTB to PSRAM\n"]⟩ := by
    rw [hypLoadGuest, partitionCpToPsram_mapped hk]
    dsimp only
    rw [loadDtb, print_mem, partitionCpToPsram_mapped hd]
    rfl
  rw [hload, guestWindows, loadWindows]
  generalize hl₁ : Loading.mk (copied k d l.mem) _ = l₁
  have hmem : l₁.mem = copied k d l.mem := by rw [← hl₁]
  rcases windowMapFromFlash_spec t ⟨"rootfs", "/", rootfsPlaceholder⟩ l₁ with
    ⟨va, span, l₂, hmap, hm₂, hw⟩ | ⟨e, l₂, hmap, hm₂, hno⟩
  · rw [hmap]
    dsimp only
    rw [hm₂, hmem]
    rcases patchDtbWindow_copied hok va span with ⟨i, hi, hpatch⟩ | ⟨hno, hpatch⟩
    · rw [hpatch]
      dsimp only
      rw [loadWindows]
      generalize hl₃ : Loading.print _ _ = l₃
      obtain ⟨l', hc, himage⟩ := image_patched hok hw hi (show l₃.mem = _ by rw [← hl₃, print_mem])
      exact ⟨true, l', hc, iff_of_false (by decide) fun ⟨_, _, _, hno⟩ => hno i hi, fun _ => himage⟩
    · rw [hpatch]
      exact ⟨_, _, rfl, iff_of_true rfl ⟨va, span, hw, hno⟩, fun h => absurd h (by decide)⟩
  · rw [hmap]
    dsimp only
    rw [loadWindows]
    generalize hl₃ : Loading.print _ _ = l₃
    obtain ⟨l', hc, himage⟩ := image_unmapped hok hno
      (show l₃.mem = copied k d l.mem by rw [← hl₃, print_mem, hm₂, hmem])
    exact ⟨true, l', hc, iff_of_false (by decide) fun ⟨va, span, hw, _⟩ => hno va span hw,
      fun _ => himage⟩

end Image

/-- A kernel that is a command line. -/
def smallKernel : Partition :=
  ⟨4096, fun i => (cmdlineNeedle ++ List.replicate 40 0x78).getD i 0, fun _ => .ok 0x40010000⟩

/-- A blob that is a placeholder. -/
def smallBlob : Partition :=
  ⟨16, fun i => ([0xd0, 0x0d, 0xfe, 0xed, 0, 0, 0, 16] ++ rootfsPlaceholder.toList).getD i 0,
    fun _ => .ok 0x40020000⟩

def smallTable : PartitionTable
  | "kernel" => some smallKernel
  | "dtb" => some smallBlob
  | "rootfs" => some ⟨0x00400000, fun _ => 0, fun _ => .ok 0x40100000⟩
  | _ => none

theorem small_layoutOk : LayoutOk smallKernel smallBlob fun _ => 0 where
  kernel := by decide
  dtb := by decide
  blob := by decide
  total := by decide
  cmdline := by
    intro i _ hfirst
    have hzero : (kernelMem smallKernel fun _ => 0).FirstAt linuxBaseAddress cmdlineNeedle 0 :=
      ⟨by decide +kernel, fun j hj => absurd hj (Nat.not_lt_zero j)⟩
    obtain rfl := hfirst.unique hzero
    exact ⟨66, Mem.strlen_eq_some.mpr ⟨by decide, by decide +kernel, by decide +kernel⟩, by decide⟩

theorem hypLoadGuest_image_small :
    ∃ l', hypLoadGuest smallTable ⟨fun _ => 0, []⟩ = some (true, l') ∧
    GuestImage smallTable smallKernel smallBlob (fun _ => 0) l'.mem := by
  obtain ⟨b, l', hl, hb, himage⟩ := hypLoadGuest_image (t := smallTable) (l := ⟨fun _ => 0, []⟩)
    ⟨rfl, _, rfl⟩ ⟨rfl, _, rfl⟩ small_layoutOk
  have htrue : b = true := by
    rw [← Bool.not_eq_false, hb]
    rintro ⟨-, -, -, hno⟩
    exact hno 8 ⟨by decide, by decide +kernel, by decide +kernel⟩
  subst htrue
  exact ⟨l', hl, himage rfl⟩

end P4Hyp
