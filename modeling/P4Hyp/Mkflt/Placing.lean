import P4Hyp.Mkflt.Output
import P4Hyp.Mkflt.Resolve

/-!
# Where the sections lie

`place` aligns a section within the image, and the image is loaded behind the 64
bytes of the header.
-/

namespace P4Hyp.Mkflt

variable {o : Object} {obj : Str} {objcopy : Str → Dump} {stack : Word} {file : List Byte}

/-- Contents come before NOBITS, and otherwise in the order of the sections. -/
def Earlier (p q : Section × Nat) : Prop :=
  p.1.isNobits = q.1.isNobits ∧ p.2 < q.2 ∨ p.1.isNobits = false ∧ q.1.isNobits = true

/-- What the memory map promises of the sections with a base. -/
structure Object.WellPlaced (o : Object) (objcopy : Str → Dump) : Prop where
  inside : ∀ n s b, o.sec[n]? = some s → o.base n = some b →
    (b.toNat + s.size.toNat : Int) ≤ o.layout.imageLen.toInt
  apart : ∀ m n s t b c, m ≠ n → o.sec[m]? = some s → o.base m = some b → o.sec[n]? = some t →
    o.base n = some c → b.toNat + s.size.toNat ≤ c.toNat ∨ c.toNat + t.size.toNat ≤ b.toNat
  ordered : ∀ m n s t b c, Earlier (s, m) (t, n) → o.sec[m]? = some s → o.base m = some b →
    o.sec[n]? = some t → o.base n = some c → b.toNat + s.size.toNat ≤ c.toNat
  zero : ∃ image, o.sec.zipIdx.foldlM (copySection o objcopy) (.blank o.layout.imageLen) =
    .ok image ∧ ∀ x, (∀ n s b, o.sec[n]? = some s → o.base n = some b → s.isNobits = false →
      ¬ Covers b s.size.toNat x) → image.byte x = 0
  /-- The offset in the file. -/
  aligned : ∀ n s b, o.sec[n]? = some s → o.base n = some b → s.align ≠ 0 →
    s.align.toNat ∣ 64 + b.toNat
  /-- The address, with the file at a page boundary. -/
  loaded : ∀ n s b, o.sec[n]? = some s → o.base n = some b → s.align ≠ 0 → s.align.toNat ≤ 4096 →
    ∀ page, 4096 ∣ page → s.align.toNat ∣ page + (64 + b.toNat)

/-- No alignment is larger than the header.  The script reads 2 ^ 31 as negative and
does not align to it, but a section may happen to lie there. -/
def Object.HeaderAligned (o : Object) : Prop :=
  ∀ pre s n post, o.order = pre ++ (s, n) :: post →
    s.align.toNat ≤ 64 ∨ s.align.toNat = 2 ^ 31 ∧ imageEnd pre = 2 ^ 31 - 64

/-! ## The order of the sections -/

theorem Object.order_pairwise (o : Object) : o.order.Pairwise Earlier := by
  have hzip : o.sec.zipIdx.Pairwise fun p q => p.2 < q.2 := by
    have hsnd : (o.sec.zipIdx.map Prod.snd).Pairwise (· < ·) := by
      rw [List.zipIdx_map_snd]
      exact List.pairwise_lt_range'
    exact List.pairwise_map.1 hsnd
  have hkind {w : Bool} {p : Section × Nat} (hp : p ∈ o.sec.zipIdx.filter fun p => p.1.wanted w) :
      p.1.isNobits = w := by
    have hw := (List.mem_filter.1 hp).2
    simp only [Section.wanted, Bool.and_eq_true, beq_iff_eq] at hw
    exact hw.2
  have hpass (w : Bool) : (o.sec.zipIdx.filter fun p => p.1.wanted w).Pairwise Earlier := by
    refine (hzip.filter _).imp_of_mem fun hp hq hlt => .inl ⟨?_, hlt⟩
    rw [hkind hp, hkind hq]
  refine List.pairwise_append.2 ⟨hpass false, hpass true,
    fun p hp q hq => .inr ⟨hkind hp, hkind hq⟩⟩

theorem Earlier.asymm {p q : Section × Nat} (h : Earlier p q) : ¬ Earlier q p := by
  unfold Earlier at h ⊢
  cases hp : p.1.isNobits <;> cases hq : q.1.isNobits <;> simp only [hp, hq] at h ⊢ <;> grind

theorem Object.Counts.ordered (hcounts : o.Counts) (haligned : o.Aligned) {m n : Nat}
    {s t : Section}
    {b c : Word} (he : Earlier (s, m) (t, n)) (hs : o.sec[m]? = some s) (hb : o.base m = some b)
    (ht : o.sec[n]? = some t) (hc : o.base n = some c) : b.toNat + s.size.toNat ≤ c.toNat := by
  obtain ⟨pre, post, hsplit⟩ := List.append_of_mem (mem_order_of_base hs hb)
  have htmem := mem_order_of_base ht hc
  have hpair := o.order_pairwise
  rw [hsplit] at htmem hpair
  rcases List.mem_append.1 htmem with hpre | htail
  · exact absurd ((List.pairwise_append.1 hpair).2.2 _ hpre _ List.mem_cons_self) he.asymm
  · rcases List.mem_cons.1 htail with heq | hpost
    · rw [heq] at he
      exact absurd he he.asymm
    · obtain ⟨mid, post', rfl⟩ := List.append_of_mem hpost
      exact hcounts.before haligned hsplit hb hc

/-! ## The bytes between them -/

theorem Object.link_image (h : o.link obj objcopy stack = .ok file) :
    ∃ image, o.sec.zipIdx.foldlM (copySection o objcopy) (.blank o.layout.imageLen) =
      .ok image := by
  unfold link at h
  split at h
  · simp only [bind_eq_ok, die_eq_ok, false_and, exists_false] at h
  · simp only [bind_eq_ok] at h
    obtain ⟨image, himage, -⟩ := h
    exact ⟨image, himage⟩

theorem zero_of_run {image : Image}
    (h : o.sec.zipIdx.foldlM (copySection o objcopy) (.blank o.layout.imageLen) = .ok image)
      {x : Word}
    (hx : ∀ n s b, o.sec[n]? = some s → o.base n = some b → s.isNobits = false →
      ¬ Covers b s.size.toNat x) : image.byte x = 0 := by
  refine copySection_local.outside h fun p hp hin => ?_
  obtain ⟨s, n⟩ := p
  unfold Object.copyLen Object.copyStart at hin
  cases hb : o.base n with
  | none =>
      rw [hb] at hin
      exact Nat.not_lt_zero _ hin
  | some b =>
      cases hnb : s.isNobits with
      | true =>
          rw [hb, hnb] at hin
          exact Nat.not_lt_zero _ hin
      | false =>
          rw [hb, hnb] at hin
          exact hx n s b (List.mem_zipIdx_iff_getElem?.1 hp) hb hnb hin

/-! ## Alignment -/

/-- An offset that has been rounded up to the alignment. -/
theorem dvd_header {s : Section} (hs : s.Aligned) (hne : s.align ≠ 0) {len : Nat}
    (hlen : len < 2 ^ 31) :
    s.align.toNat ∣ 64 + alignUp s.alignment len ↔
      s.align.toNat ≤ 64 ∨ s.align.toNat = 2 ^ 31 ∧ len = 2 ^ 31 - 64 := by
  obtain ⟨k, hk⟩ := hs.resolve_left hne
  have hlt := s.align.isLt
  have hk32 : k < 32 := by
    rw [hk] at hlt
    exact (Nat.pow_lt_pow_iff_right (by decide : 1 < 2)).1 hlt
  have h64 : 2 ^ k ∣ 64 ↔ 2 ^ k ≤ 64 := by
    constructor
    · exact Nat.le_of_dvd (by decide)
    · intro hle
      have hk6 : k ≤ 6 :=
        (Nat.pow_le_pow_iff_right (by decide : 1 < 2)).1 (show 2 ^ k ≤ 2 ^ 6 from hle)
      exact Nat.pow_dvd_pow 2 hk6
  by_cases hsign : k = 31
  · subst hsign
    have hone : s.alignment = 1 := by
      unfold Section.alignment
      rw [if_neg]
      rw [BitVec.toInt_eq_toNat_cond, hk]
      decide
    rw [hone, alignUp_one, hk]
    omega
  · have hdvd : s.align.toNat ∣ alignUp s.alignment len := by
      unfold Section.alignment
      split
      · exact dvd_alignUp _ _
      · rename_i hone
        have hk31 : k ≤ 30 := by omega
        have hpow : 2 ^ k ≤ 2 ^ 30 := Nat.pow_le_pow_right (by decide) hk31
        rw [BitVec.toInt_eq_toNat_of_lt (by omega), hk] at hone
        have hpos := Nat.two_pow_pos k
        rw [hk, show 2 ^ k = 1 by omega]
        exact Nat.one_dvd _
    rw [← Nat.dvd_add_iff_left hdvd, hk, h64]
    have hne31 : 2 ^ k ≠ 2 ^ 31 := fun he => hsign (Nat.pow_right_injective (Nat.le_refl 2) he)
    exact (or_iff_left fun h => hne31 h.1).symm

namespace Object

theorem WellPlaced.counts (h : o.WellPlaced objcopy) (haligned : o.Aligned) : o.Counts := by
  have hlt : o.layout.imageLen.toInt < 2 ^ 31 := BitVec.toInt_lt
  have hle : imageEnd o.order ≤ o.layout.imageLen.toInt.toNat :=
    imageEnd_le_of_inside haligned (by omega) fun n s b hs hb => by
      have := h.inside n s b hs hb
      omega
  unfold Counts
  omega

/-- An accepted object's sections lie as the memory map promises exactly when Lua can
count them and none is aligned to more than the header. -/
theorem wellPlaced_iff (hlink : o.link obj objcopy stack = .ok file) (haligned : o.Aligned) :
    o.WellPlaced objcopy ↔ o.Counts ∧ o.HeaderAligned := by
  have hsection {pre post : List (Section × Nat)} {s : Section} {n : Nat}
      (hsplit : o.order = pre ++ (s, n) :: post) : s.Aligned ∧ o.sec[n]? = some s :=
    ⟨haligned (s, n) (by rw [hsplit]; simp), (mem_order.1 (by rw [hsplit]; simp)).1⟩
  constructor
  · intro h
    have hcounts := h.counts haligned
    refine ⟨hcounts, fun pre s n post hsplit => ?_⟩
    obtain ⟨hs, hsec⟩ := hsection hsplit
    obtain ⟨b, hb, hnat⟩ := base_toNat haligned hsplit (hcounts.lt hsplit)
    by_cases hzero : s.align = 0
    · rw [hzero]
      exact .inl (by decide)
    · have hdvd := h.aligned n s b hsec hb hzero
      rw [hnat] at hdvd
      exact (dvd_header hs hzero (hcounts.lt hsplit)).1 hdvd
  · rintro ⟨hcounts, hheader⟩
    obtain ⟨image, himage⟩ := link_image hlink
    have hdvd : ∀ n s b, o.sec[n]? = some s → o.base n = some b → s.align ≠ 0 →
        s.align.toNat ∣ 64 + b.toNat := by
      intro n s b hs hb hne
      obtain ⟨pre, post, hsplit⟩ := List.append_of_mem (mem_order_of_base hs hb)
      obtain ⟨b', hb', hnat⟩ := base_toNat haligned hsplit (hcounts.lt hsplit)
      obtain rfl : b' = b := Option.some.inj (hb'.symm.trans hb)
      rw [hnat]
      exact (dvd_header (hsection hsplit).1 hne (hcounts.lt hsplit)).2 (hheader pre s n post hsplit)
    exact
      { inside := fun n s b hs hb => by
          have hend := hcounts.base_add_size_le haligned hs hb
          have hlen := hcounts.imageLen haligned
          have hlast : imageEnd o.order < 2 ^ 31 := hcounts
          rw [BitVec.toInt_eq_toNat_of_lt (by omega), hlen]
          omega
        apart := fun m n s t b c hmn hs hb ht hc => hcounts.apart haligned hmn hs hb ht hc
        ordered := fun m n s t b c he hs hb ht hc => hcounts.ordered haligned he hs hb ht hc
        zero := ⟨image, himage, fun x hx => zero_of_run himage hx⟩
        aligned := hdvd
        loaded := fun n s b hs hb hne hpage page hp => by
          obtain ⟨k, hk⟩ := (haligned (s, n) (mem_order_of_base hs hb)).resolve_left hne
          have hk12 : k ≤ 12 :=
            (Nat.pow_le_pow_iff_right (by decide : 1 < 2)).1
              (show 2 ^ k ≤ 2 ^ 12 by rw [← hk]; exact hpage)
          have hdiv : s.align.toNat ∣ 4096 := by
            rw [hk]
            exact Nat.pow_dvd_pow 2 hk12
          exact (Nat.dvd_add_right (hdiv.trans hp)).2 (hdvd n s b hs hb hne) }

end Object

/-- The object of a call, with its section aligned to `align`. -/
def alignedCall (align : Word) : Object :=
  { callObject (0, 0) (1, 0) with
    sec := (callObject (0, 0) (1, 0)).sec.map fun s => if s.isAlloc then { s with align } else s }

theorem alignedCall_link : (alignedCall 64).link [] (fun _ => .wrote callText) 8192 =
    .ok (callHeader ++ callText) := by
  decide +kernel

theorem wellPlaced_call : (alignedCall 64).WellPlaced fun _ => .wrote callText := by
  refine (Object.wellPlaced_iff alignedCall_link ?_).2 ⟨by unfold Object.Counts; decide +kernel, ?_⟩
  · intro p hp
    obtain rfl := List.mem_singleton.1 hp
    exact .inr ⟨6, rfl⟩
  · intro pre s n post hsplit
    have hmem : (s, n) ∈ (alignedCall 64).order := by
      rw [hsplit]
      simp
    obtain ⟨rfl, -⟩ := Prod.mk.inj (List.mem_singleton.1 hmem)
    exact .inl (by decide)

/-- Aligned to 128, the section is loaded 64 bytes behind a page boundary. -/
theorem wellPlaced_wide : ¬ ∀ (o : Object) (obj : Str) (objcopy : Str → Dump) (stack : Word)
    (file : List Byte), o.link obj objcopy stack = .ok file → o.Aligned → o.WellPlaced objcopy := by
  intro h
  have hlink : (alignedCall 128).link [] (fun _ => .wrote callText) 8192 =
      .ok (callHeader ++ callText) := by
    decide +kernel
  have haligned : (alignedCall 128).Aligned := by
    intro p hp
    obtain rfl := List.mem_singleton.1 hp
    exact .inr ⟨7, rfl⟩
  have hdvd := (h _ _ _ _ _ hlink haligned).aligned 1 _ 0 rfl rfl (by decide)
  exact absurd hdvd (by decide)

end P4Hyp.Mkflt
