import P4Hyp.Mkflt.Formed

/-!
# The linked image

Where the image fits, no address is lost: every PC-relative relocation forms the
address it should, unless a transfer was asked to go to an odd one, and nothing
else in the image changes.
-/

namespace P4Hyp.Mkflt

/-- The bits of an instruction that its relocation leaves, by the offsets of its words. -/
def R.kept : R → List (Word × Word)
  | .branch => [(0, keepsS)]
  | .jal => [(0, keepsU)]
  | .call | .callPlt => [(0, keepsU), (4, keepsI)]
  | .pcrelHi20 | .hi20 => [(0, keepsU)]
  | .pcrelLo12I | .lo12I => [(0, keepsI)]
  | .pcrelLo12S | .lo12S => [(0, keepsS)]
  | _ => []

/-- A character that neither the shell nor a section pattern reads as anything else. -/
def isPlain (c : Char) : Bool := c.isAlphanum || c == '.' || c == '_' || c == '-'

namespace Object

variable (o : Object)

/-- The sites lie in their sections and share no byte. -/
structure WellSited (rs : List Reloc) : Prop where
  inside : ∀ r ∈ rs, r.type.isHint = false →
    ∃ s, o.sec[r.target]? = some s ∧ r.off.toNat + r.len ≤ s.size.toNat
  apart : rs.Pairwise fun r q => r.len = 0 ∨ q.len = 0 ∨ r.target ≠ q.target ∨
    r.off.toNat + r.len ≤ q.off.toNat ∨ q.off.toNat + q.len ≤ r.off.toNat

/-- The section is asked for by a name that is its own. -/
def OwnName (p : Section × Nat) : Prop :=
  p.1.name.all isPlain = true ∧
    ∀ q ∈ o.order, q.1.isNobits = false → q.1.name = p.1.name → q.2 = p.2

/-- What `objcopy` writes of a section that has a name of its own is its contents. -/
def Dumped (objcopy : Str → Dump) : Prop :=
  ∀ p ∈ o.order, p.1.isNobits = false → o.OwnName p → ∀ bytes, objcopy p.1.name = .wrote bytes →
    ∀ i < p.1.size.toNat, bytes.getD i 0 = o.contents p.1 (BitVec.ofNat 32 i)

/-- The image that the relocations and the sections ask for. -/
structure PcRelative (sym : List Symbol) (rs : List Reloc) (img : List Byte) : Prop where
  inside : ∀ n s b, o.sec[n]? = some s → o.base n = some b → b.toNat + s.size.toNat ≤ img.length
  address : ∀ r ∈ rs, r.type.isPcRelative = true → ∀ t, o.Located sym r t →
    ∀ a, Forms sym (· ∈ rs) (imageMem img) 0 r a → a = t + r.addend
  kept : ∀ r ∈ rs, ∀ s, o.sec[r.target]? = some s → ∀ k ∈ r.type.kept,
    (imageMem img).load32 (r.site + k.1) &&& k.2 = (o.contents s).load32 (r.off + k.1) &&& k.2
  others : ∀ n s b, o.sec[n]? = some s → o.base n = some b → ∀ i, i.toNat < s.size.toNat →
    (∀ r ∈ rs, r.target = n → ¬ Covers r.off r.len i) → imageMem img (b + i) = o.contents s i

/-- Every jump and branch goes an even way, every call to an even address. -/
def EvenTransfers (sym : List Symbol) (rs : List Reloc) : Prop :=
  ∀ r ∈ rs, ∀ t, o.Located sym r t → EvenAt 0 r (t + r.addend)

end Object

variable {o : Object} {obj : Str} {objcopy : Str → Dump} {stack : Word} {file : List Byte}
  {sym : List Symbol} {rs : List Reloc}

/-! ## Sites in the image -/

section Sites

theorem site_toNat (hfits : o.Fits) (haligned : o.Aligned) (hsites : o.WellSited rs)
    (hrs : o.relocs = .ok rs) {r : Reloc} (hr : r ∈ rs) (hhint : r.type.isHint = false) :
    ∃ s b, o.sec[r.target]? = some s ∧ o.base r.target = some b ∧ r.site = b + r.off ∧
      r.off.toNat + r.len ≤ s.size.toNat ∧ b.toNat + s.size.toNat ≤ imageEnd o.order ∧
      r.site.toNat = b.toNat + r.off.toNat := by
  obtain ⟨b, hb, hsite⟩ := Object.relocs_site hrs hr
  obtain ⟨s, hs, hoff⟩ := hsites.inside r hr hhint
  have hend := hfits.counts.base_add_size_le haligned hs hb
  have hlast : imageEnd o.order < 2 ^ 31 := hfits.counts
  refine ⟨s, b, hs, hb, hsite, hoff, hend, ?_⟩
  rw [hsite, BitVec.toNat_add]
  omega

theorem len_eq_zero_of_isHint {r : Reloc} (h : r.type.isHint = true) : r.len = 0 := by
  unfold Reloc.len
  cases ht : r.type <;> rw [ht] at h <;> first | rfl | cases h

theorem sites_apart (hfits : o.Fits) (haligned : o.Aligned) (hsites : o.WellSited rs)
    (hrs : o.relocs = .ok rs) : rs.Pairwise (ApartIn Reloc.site Reloc.len) := by
  refine hsites.apart.imp_of_mem ?_
  intro r q hr hq hsplit
  have hlast : imageEnd o.order < 2 ^ 31 := hfits.counts
  by_cases hrh : r.type.isHint = true
  · intro x hx
    rw [len_eq_zero_of_isHint hrh] at hx
    exact absurd hx (Nat.not_lt_zero _)
  · by_cases hqh : q.type.isHint = true
    · intro x _ hx
      rw [len_eq_zero_of_isHint hqh] at hx
      exact Nat.not_lt_zero _ hx
    · obtain ⟨s, b, hs, hb, -, hoff, hend, hsite⟩ :=
        site_toNat hfits haligned hsites hrs hr (Bool.eq_false_iff.2 hrh)
      obtain ⟨t, c, ht, hc, -, hoff', hend', hsite'⟩ :=
        site_toNat hfits haligned hsites hrs hq (Bool.eq_false_iff.2 hqh)
      have hle : r.len = 0 ∨ q.len = 0 ∨ r.site.toNat + r.len ≤ q.site.toNat ∨
          q.site.toNat + q.len ≤ r.site.toNat := by
        rcases hsplit with h | h | h | h
        · exact .inl h
        · exact .inr (.inl h)
        · have := hfits.counts.apart haligned h hs hb ht hc
          omega
        · by_cases htarget : r.target = q.target
          · rw [htarget] at hb
            obtain rfl : b = c := Option.some.inj (hb.symm.trans hc)
            omega
          · have := hfits.counts.apart haligned htarget hs hb ht hc
            omega
      rcases hle with h | h | h | h
      · exact fun x hx => absurd hx (by rw [h]; exact Nat.not_lt_zero _)
      · exact fun x _ hx => by rw [h] at hx; exact Nat.not_lt_zero _ hx
      · exact apart_of_le h (by omega)
      · exact (apart_of_le h (by omega)).symm

theorem exclusive_of_sites (hfits : o.Fits) (haligned : o.Aligned) (hsites : o.WellSited rs)
    (hrs : o.relocs = .ok rs) {r : Reloc} (hr : r ∈ rs) : Exclusive rs r := by
  have hpair := sites_apart hfits haligned hsites hrs
  obtain ⟨pre, post, rfl⟩ := List.append_of_mem hr
  rw [List.pairwise_append, List.pairwise_cons] at hpair
  refine ⟨pre, post, rfl, fun q hq => ?_⟩
  rcases List.mem_append.1 hq with hq | hq
  · exact (hpair.2.2 q hq r List.mem_cons_self).symm
  · exact hpair.2.1.1 q hq

end Sites

/-! ## The image and the contents -/

section Contents

variable {image : Image}

/-- What the sections that have their own names leave in the image. -/
theorem image_contents (hfits : o.Fits) (haligned : o.Aligned) (hdumped : o.Dumped objcopy)
    (hnames : ∀ p ∈ o.order, p.1.isNobits = false → o.OwnName p)
    (himage : o.sec.zipIdx.foldlM (copySection o objcopy) (.blank o.layout.imageLen) = .ok image)
    {s : Section} {n : Nat} {b : Word} (hs : o.sec[n]? = some s) (hb : o.base n = some b) {i : Word}
    (hi : i.toNat < s.size.toNat) : image.byte (b + i) = o.contents s i := by
  have hsub : b + i - b = i := by rw [BitVec.add_comm, BitVec.add_sub_cancel]
  have hcov : Covers b s.size.toNat (b + i) := by
    unfold Covers
    rw [hsub]
    exact hi
  unfold Object.contents
  cases hnobits : s.isNobits with
  | true => exact nobits_of_run hfits haligned himage hs hb hnobits hcov
  | false =>
      obtain ⟨bytes, hd, -, hbytes⟩ := contents_of_run hfits haligned himage hs hb hnobits
      have hmem := Object.mem_order_of_base hs hb
      have hget := hdumped (s, n) hmem hnobits (hnames (s, n) hmem hnobits) bytes hd i.toNat hi
      rw [hbytes _ hcov, hsub, hget, Object.contents, hnobits, BitVec.ofNat_toNat,
        BitVec.setWidth_eq]

/-- A word of the image that lies in one section is the word of its contents. -/
theorem load32_contents {m : Mem} {s : Section} {b off : Word}
    (h : ∀ i, i.toNat < s.size.toNat → m (b + i) = o.contents s i)
    (hoff : off.toNat + 4 ≤ s.size.toNat) : m.load32 (b + off) = (o.contents s).load32 off := by
  have hlt := s.size.isLt
  have hbyte : ∀ k : Nat, k < 4 → m (b + off + BitVec.ofNat 32 k) =
    o.contents s (off + BitVec.ofNat 32 k) := by
    intro k hk
    rw [BitVec.add_assoc]
    refine h _ ?_
    rw [BitVec.toNat_add, BitVec.toNat_ofNat]
    omega
  have h0 := hbyte 0 (by decide)
  rw [BitVec.add_zero, BitVec.add_zero] at h0
  unfold Mem.load32
  rw [h0, hbyte 1 (by decide), hbyte 2 (by decide), hbyte 3 (by decide)]

end Contents

/-! ## The whole image -/

section Whole

variable {m m' : Mem} {r : Reloc} {a v : Word}

theorem Relocated.kept (h : Relocated sym obj rs m m' r a v) {k : Word × Word}
    (hk : k ∈ r.type.kept) :
    m'.load32 (r.site + k.1) &&& k.2 = m.load32 (r.site + k.1) &&& k.2 := by
  have hfirst : ∀ mask : Word, r.type.patched v (m.load32 r.site) &&& mask =
      m.load32 r.site &&& mask →
      m'.load32 (r.site + 0) &&& mask = m.load32 (r.site + 0) &&& mask := by
    intro mask hmask
    rw [show r.site + 0 = r.site from BitVec.add_zero _, h.word, hmask]
  cases ht : r.type <;> rw [ht] at hk hfirst <;> simp only [R.kept, List.mem_cons, List.not_mem_nil,
    or_false] at hk
  case call | callPlt =>
    rcases hk with rfl | rfl
    · exact hfirst _ (putU_keeps _ _)
    · show m'.load32 (r.site + 4) &&& keepsI = m.load32 (r.site + 4) &&& keepsI
      rw [h.second (by rw [ht]; rfl)]
      exact putI_keeps _ _
  case branch => subst hk; exact hfirst _ (putB_keeps _ _)
  case jal => subst hk; exact hfirst _ (putJ_keeps _ _)
  case pcrelHi20 | hi20 => subst hk; exact hfirst _ (putU_keeps _ _)
  case pcrelLo12I | lo12I => subst hk; exact hfirst _ (putI_keeps _ _)
  case pcrelLo12S | lo12S => subst hk; exact hfirst _ (putS_keeps _ _)

theorem kept_inside {k : Word × Word} (hk : k ∈ r.type.kept) :
    r.type.isHint = false ∧ k.1.toNat + 4 ≤ r.len := by
  unfold Reloc.len
  cases ht : r.type <;> rw [ht] at hk <;>
    simp only [R.kept, List.mem_cons, List.not_mem_nil, or_false] at hk <;>
    rcases hk with rfl | rfl <;> decide

theorem blob_length_of_fits (hfits : o.Fits) (haligned : o.Aligned) (im : Image) :
    (im.blob o.layout.imageLen).length = imageEnd o.order := by
  have hlen := hfits.counts.imageLen haligned
  have hlast : imageEnd o.order < 2 ^ 31 := hfits.counts
  have hint : o.layout.imageLen.toInt = o.layout.imageLen.toNat :=
    BitVec.toInt_eq_toNat_of_lt (by omega)
  rw [Image.blob_length, hint, hlen, Int.toNat_natCast]
  exact Nat.min_eq_right hfits

theorem evenTransfers_of_address {m m' : Mem} (hsym : o.symbols obj = .ok sym)
    (hrel : ∀ q ∈ rs, q.type.isHint = false → ∃ b u, Relocated sym obj rs m m' q b u)
    (haddress : ∀ r ∈ rs, r.type.isPcRelative = true → ∀ t, o.Located sym r t →
      ∀ x, Forms sym (· ∈ rs) m' 0 r x → x = t + r.addend) : o.EvenTransfers sym rs := by
  intro r hr t ht
  have hforms : ∀ x, Forms sym (· ∈ rs) m' 0 r x → r.type.isPcRelative = true →
      r.type ≠ .pcrelHi20 → EvenAt 0 r (t + r.addend) := by
    intro x hx hpc hhi
    obtain ⟨a, v, h⟩ := hrel r hr (R.isHint_of_isPcRelative hpc)
    obtain rfl : a = t := Except.ok.inj (h.resolved.symm.trans (ht.symAddr hsym))
    refine (forms_eq_iff hrel h hpc (fun h => absurd h hhi) hx).1 ?_
    rw [haddress r hr hpc a ht x hx]
    exact (BitVec.zero_add _).symm
  constructor
  · rintro (h | h)
    · exact (hforms _ (.jal h) (by rw [h]; rfl) (by rw [h]; nofun)).1 (.inl h)
    · exact (hforms _ (.branch h) (by rw [h]; rfl) (by rw [h]; nofun)).1 (.inr h)
  · intro h
    refine (hforms _ (.call h) (R.isPcRelative_of_isCall h) ?_).2 h
    · intro hhi
      rw [hhi] at h
      cases h

theorem Object.pcRelative_iff (hlink : o.link obj objcopy stack = .ok file)
    (hsym : o.symbols obj = .ok sym) (hrs : o.relocs = .ok rs) (haligned : o.Aligned)
    (hdumped : o.Dumped objcopy) (hnames : ∀ p ∈ o.order, p.1.isNobits = false → o.OwnName p)
    (hsites : o.WellSited rs) :
    o.PcRelative sym rs (file.drop 64) ↔ o.Fits ∧ o.EvenTransfers sym rs := by
  obtain ⟨image, st, himage, hrun, hfile⟩ := link_eq_ok hlink hsym hrs
  rw [hfile]
  have hlimit : (st.image.blob o.layout.imageLen).length ≤ imageLimit := by
    rw [Image.blob_length]
    exact Nat.min_le_left _ _
  have hrel (hfits : o.Fits) : ∀ q ∈ rs, q.type.isHint = false → ∃ b u,
      Relocated sym obj rs image.byte (imageMem (st.image.blob o.layout.imageLen)) q b u := by
    intro q hq hhint
    obtain ⟨s, b, -, -, -, hoff, hend, hsite⟩ := site_toNat hfits haligned hsites hrs hq hhint
    refine relocated_of_exclusive hrun (exclusive_of_sites hfits haligned hsites hrs hq) ?_ hhint
    rw [Inside, blob_length_of_fits hfits haligned]
    omega
  constructor
  · intro h
    have hfits := fits_of_inside haligned hlimit h.inside
    exact ⟨hfits, evenTransfers_of_address hsym (hrel hfits) h.address⟩
  · rintro ⟨hfits, heven⟩
    have hcontents : ∀ {n s b}, o.sec[n]? = some s → o.base n = some b → ∀ i : Word,
        i.toNat < s.size.toNat → image.byte (b + i) = o.contents s i :=
      fun hs hb i hi => image_contents hfits haligned hdumped hnames himage hs hb hi
    refine ⟨?_, ?_, ?_, ?_⟩
    · intro n s b hs hb
      rw [blob_length_of_fits hfits haligned]
      exact hfits.counts.base_add_size_le haligned hs hb
    · intro r hr hpc t ht x hx
      obtain ⟨a, v, h⟩ := hrel hfits r hr (R.isHint_of_isPcRelative hpc)
      obtain rfl : a = t := Except.ok.inj (h.resolved.symm.trans (ht.symAddr hsym))
      have honly := (exclusive_of_sites hfits haligned hsites hrs hr).only
      exact ((forms_eq_iff (hrel hfits) h hpc honly hx).2 (heven r hr a ht)).trans
        (BitVec.zero_add _)
    · intro r hr s hs k hk
      obtain ⟨hhint, hlen⟩ := kept_inside hk
      obtain ⟨s', b, hs', hb, hsite, hoff, -, -⟩ := site_toNat hfits haligned hsites hrs hr hhint
      obtain rfl : s' = s := Option.some.inj (hs'.symm.trans hs)
      obtain ⟨a, v, h⟩ := hrel hfits r hr hhint
      rw [h.kept hk, hsite, BitVec.add_assoc, load32_contents (hcontents hs hb)]
      have hlt := s'.size.isLt
      rw [BitVec.toNat_add]
      omega
    · intro n s b hs hb i hi hfree
      have hend := hfits.counts.base_add_size_le haligned hs hb
      have hlast : imageEnd o.order < 2 ^ 31 := hfits.counts
      have hnat : (b + i).toNat = b.toNat + i.toNat := by
        rw [BitVec.toNat_add]
        omega
      rw [imageMem_blob (by rw [blob_length_of_fits hfits haligned]; omega), ← hcontents hs hb i hi]
      refine relocate_local.outside hrun fun r hr hin => ?_
      cases hhint : r.type.isHint with
      | true =>
          rw [len_eq_zero_of_isHint hhint] at hin
          exact Nat.not_lt_zero _ hin
      | false =>
          obtain ⟨t, c, ht, hc, hsite, hoff, hend', hnat'⟩ :=
            site_toNat hfits haligned hsites hrs hr hhint
          by_cases htarget : r.target = n
          · rw [htarget] at hc
            obtain rfl : b = c := Option.some.inj (hb.symm.trans hc)
            refine hfree r hr htarget ?_
            unfold Covers at hin ⊢
            rw [BitVec.toNat_sub] at hin ⊢
            omega
          · have hapart := hfits.counts.apart haligned htarget ht hc hs hb
            unfold Covers at hin
            rw [BitVec.toNat_sub] at hin
            omega

end Whole

/-! ## A jump to an odd address -/

/-- `jal zero, 0`, and four bytes of data. -/
def jumpText : List Byte := [0x6f, 0, 0, 0, 0, 0, 0, 0]

/-- `j f`, with `f` at offset 5. -/
def jumpObject : Object :=
  oneText jumpText [0, 0, 0, 0, 17, 1, 0, 0, 0, 0, 0, 0]
    (List.replicate 16 0 ++ [0, 0, 0, 0, 5, 0, 0, 0, 0, 0, 0, 0, 0x12, 0, 1, 0])

def jumpReloc : Reloc := { callReloc with number := 17 }

theorem jumpObject_link : jumpObject.link [] (fun _ => .wrote jumpText) 8192 =
    .ok (callHeader ++ [0x6f, 0, 0x40, 0, 0, 0, 0, 0]) := by
  decide +kernel

section OneSection

variable {p : Section × Nat} (h : o.order = [p])

include h

theorem aligned_of_order (hp : p.1.Aligned) : o.Aligned := by
  intro q hq
  rw [h, List.mem_singleton] at hq
  rw [hq]
  exact hp

theorem ownName_of_order (hname : p.1.name.all isPlain = true) :
    ∀ q ∈ o.order, q.1.isNobits = false → o.OwnName q := by
  rw [h]
  intro q hq _
  obtain rfl := List.mem_singleton.1 hq
  refine ⟨hname, fun t ht _ _ => ?_⟩
  rw [h, List.mem_singleton] at ht
  rw [ht]

theorem dumped_of_order {text : List Byte}
    (htext : ∀ i < p.1.size.toNat, text.getD i 0 = o.contents p.1 (BitVec.ofNat 32 i)) :
    o.Dumped fun _ => .wrote text := by
  intro q hq _ _ bytes hbytes i hi
  rw [h, List.mem_singleton] at hq
  obtain rfl := hq
  cases hbytes
  exact htext i hi

end OneSection

theorem wellSited_singleton {r : Reloc} {s : Section} (hs : o.sec[r.target]? = some s)
    (hoff : r.off.toNat + r.len ≤ s.size.toNat) : o.WellSited [r] where
  inside := by
    intro q hq _
    obtain rfl := List.mem_singleton.1 hq
    exact ⟨s, hs, hoff⟩
  apart := List.pairwise_singleton _ _

theorem pcRelative_call :
    (callObject (0, 0) (1, 0)).PcRelative [⟨[], 0, 0, none⟩, ⟨[], 0, 1, some 0⟩]
    [callReloc] ((callHeader ++ callText).drop 64) := by
  have hsym : (callObject (0, 0) (1, 0)).symbols [] =
      .ok [⟨[], 0, 0, none⟩, ⟨[], 0, 1, some 0⟩] := by
    decide +kernel
  have hrs : (callObject (0, 0) (1, 0)).relocs = .ok [callReloc] := by decide +kernel
  have hfits : (callObject (0, 0) (1, 0)).Fits := by
    unfold Object.Fits
    decide +kernel
  refine (Object.pcRelative_iff callObject_link hsym hrs (aligned_of_order rfl (.inr ⟨2, rfl⟩))
    (dumped_of_order rfl (by decide +kernel)) (ownName_of_order rfl (by decide +kernel))
    (wellSited_singleton rfl (by decide +kernel))).2 ⟨hfits, ?_⟩
  intro r hr t ht
  obtain rfl := List.mem_singleton.1 hr
  obtain ⟨s, b, hs, -, -, hb, rfl⟩ := ht
  obtain rfl := Option.some.inj hs
  obtain rfl := Option.some.inj hb
  exact ⟨nofun, fun _ => by decide +kernel⟩

/-- Linked, the jump to offset 5 goes to offset 4. -/
theorem pcRelative_jump : ¬ ∀ (o : Object) (obj : Str) (objcopy : Str → Dump) (stack : Word)
    (file : List Byte) (sym : List Symbol) (rs : List Reloc), o.link obj objcopy stack = .ok file →
      o.symbols obj = .ok sym → o.relocs = .ok rs → o.Aligned → o.Dumped objcopy →
      (∀ p ∈ o.order, p.1.isNobits = false → o.OwnName p) → o.WellSited rs →
        o.PcRelative sym rs (file.drop 64) := by
  intro h
  have hsym : jumpObject.symbols [] = .ok [⟨[], 0, 0, none⟩, ⟨[], 5, 1, some 5⟩] := by
    decide +kernel
  have hrs : jumpObject.relocs = .ok [jumpReloc] := by decide +kernel
  have hpc := h _ _ _ _ _ _ _ jumpObject_link hsym hrs (aligned_of_order rfl (.inr ⟨2, rfl⟩))
    (dumped_of_order rfl (by decide +kernel)) (ownName_of_order rfl (by decide +kernel))
    (wellSited_singleton rfl (by decide +kernel))
  have haddress := hpc.address jumpReloc (List.mem_singleton_self _) rfl 5
    ⟨_, 0, rfl, by decide, by decide, rfl, rfl⟩ _ (.jal rfl)
  exact absurd haddress (by decide +kernel)

end P4Hyp.Mkflt
