import P4Hyp.Lib.Bump
import P4Hyp.Mkflt.Object
import Mathlib.Tactic.Ring
import Mathlib.Tactic.Positivity
import Mathlib.Tactic.Zify

/-!
# Layout

`place` lays the allocatable sections out end to end, those with contents first.
A section without bytes has no place; `reached` is where the pass stands when it
comes to it.
-/

namespace P4Hyp.Mkflt

structure Layout where
  base : Nat → Option Word
  imageLen : Word

def Layout.empty : Layout := { base := fun _ => none, imageLen := 0 }

/-- `((image_len + a - 1) // a) * a` -/
def rounded (imageLen a : Word) : Word :=
  if 1 < a.toInt then BitVec.ofInt 32 ((imageLen + a - 1).toInt.fdiv a.toInt) * a else imageLen

def Layout.put (l : Layout) (p : Section × Nat) : Layout :=
  let b := rounded l.imageLen p.1.align
  { base := fun k => if k = p.2 then some b else l.base k, imageLen := b + p.1.size }

def Section.isAlloc (s : Section) : Bool := s.flags &&& shfAlloc != 0

def Section.isNobits (s : Section) : Bool := s.type == shtNobits

def Section.wanted (wantNobits : Bool) (s : Section) : Bool :=
  s.isAlloc && decide (0 < s.size.toInt) && s.isNobits == wantNobits

def place (wantNobits : Bool) (sec : List Section) (l : Layout) : Layout :=
  sec.zipIdx.foldl (fun l p => if p.1.wanted wantNobits then l.put p else l) l

namespace Object

variable (o : Object)

def stored : Layout := place false o.sec .empty

def layout : Layout := place true o.sec o.stored

def base (n : Nat) : Option Word := o.layout.base n

/-- `image_len` when `place` comes to section `n`. -/
def reached (n : Nat) (s : Section) : Word :=
  (place s.isNobits (o.sec.take n) (if s.isNobits then o.stored else .empty)).imageLen

/-- The base in the image of an allocatable section, whether or not it has bytes. -/
def baseIn (n : Nat) (s : Section) : Word := rounded (o.reached n s) s.align

/-- The sections with a place, in the order of their bases. -/
def order : List (Section × Nat) :=
  o.sec.zipIdx.filter (fun p => p.1.wanted false) ++ o.sec.zipIdx.filter (fun p => p.1.wanted true)

end Object

/-! ## One pass -/

def puts (l : Layout) (ps : List (Section × Nat)) : Layout := ps.foldl Layout.put l

theorem place_eq (w : Bool) (sec : List Section) (l : Layout) :
    place w sec l = puts l (sec.zipIdx.filter fun p => p.1.wanted w) := by
  rw [puts, List.foldl_filter]
  rfl

theorem puts_append (l : Layout) (ps qs : List (Section × Nat)) :
    puts l (ps ++ qs) = puts (puts l ps) qs := List.foldl_append

theorem puts_base_of_notMem {ps : List (Section × Nat)} {n : Nat} (h : n ∉ ps.map Prod.snd)
    (l : Layout) : (puts l ps).base n = l.base n := by
  induction ps generalizing l with
  | nil => rfl
  | cons p ps ih =>
      rw [List.map_cons, List.mem_cons, not_or] at h
      exact (ih h.2 _).trans (if_neg h.1)

variable {o : Object}

theorem Object.layout_eq (o : Object) : o.layout = puts .empty o.order := by
  rw [layout, stored, place_eq, place_eq, order, puts_append]

theorem Object.mem_order {s : Section} {n : Nat} :
    (s, n) ∈ o.order ↔ o.sec[n]? = some s ∧ s.isAlloc = true ∧ 0 < s.size.toInt := by
  rw [order, List.mem_append, List.mem_filter, List.mem_filter, List.mem_zipIdx_iff_getElem?]
  simp only [Section.wanted, Bool.and_eq_true, decide_eq_true_eq]
  cases s.isNobits <;> simp

theorem Object.order_nodup (o : Object) : (o.order.map Prod.snd).Nodup := by
  have hall : (o.sec.zipIdx.map Prod.snd).Nodup := by
    rw [List.zipIdx_map_snd]
    exact List.nodup_range'
  rw [order, List.map_append]
  refine List.nodup_append.2 ⟨hall.sublist (List.filter_sublist.map _),
    hall.sublist (List.filter_sublist.map _), ?_⟩
  rintro n hn n' hn' rfl
  obtain ⟨⟨s, k⟩, hs, rfl⟩ := List.mem_map.1 hn
  obtain ⟨⟨s', k'⟩, hs', hk⟩ := List.mem_map.1 hn'
  rw [List.mem_filter, List.mem_zipIdx_iff_getElem?] at hs hs'
  obtain rfl : k' = k := hk
  have hsec : s = s' := Option.some.inj (hs.1.symm.trans hs'.1)
  have hw := hs.2
  have hw' := hs'.2
  rw [← hsec] at hw'
  simp only [Section.wanted, Bool.and_eq_true, beq_iff_eq] at hw hw'
  rw [hw.2] at hw'
  exact Bool.noConfusion hw'.2

theorem filter_wanted_cons {w : Bool} {s : Section} {n : Nat} (h : s.wanted w = true)
    (ps : List (Section × Nat)) :
    ((s, n) :: ps).filter (fun p => p.1.wanted w) = (s, n) :: ps.filter fun p => p.1.wanted w :=
  List.filter_cons_of_pos h

/-- A section has its place among the others, and the pass came to it there. -/
theorem Object.order_split {s : Section} {n : Nat} (hsec : o.sec[n]? = some s)
    (halloc : s.isAlloc = true) (hsize : 0 < s.size.toInt) :
    ∃ pre post, o.order = pre ++ (s, n) :: post ∧
      (puts .empty pre).imageLen = o.reached n s := by
  obtain ⟨hn, hget⟩ := List.getElem?_eq_some_iff.1 hsec
  have hsplit : o.sec.zipIdx =
      (o.sec.take n).zipIdx ++ (s, n) :: (o.sec.drop (n + 1)).zipIdx (n + 1) := by
    conv_lhs => rw [← List.take_append_drop n o.sec, List.drop_eq_getElem_cons hn, hget]
    rw [List.zipIdx_append, List.zipIdx_cons, List.length_take, Nat.min_eq_left (Nat.le_of_lt hn)]
    rw [Nat.zero_add]
  have hwanted : s.wanted s.isNobits = true := by
    simp [Section.wanted, halloc, hsize]
  cases hnb : s.isNobits with
  | false =>
      rw [hnb] at hwanted
      refine ⟨(o.sec.take n).zipIdx.filter fun p => p.1.wanted false,
        ((o.sec.drop (n + 1)).zipIdx (n + 1)).filter (fun p => p.1.wanted false) ++
          o.sec.zipIdx.filter (fun p => p.1.wanted true), ?_, ?_⟩
      · conv_lhs => rw [order]; arg 1; rw [hsplit]
        rw [List.filter_append, filter_wanted_cons hwanted, List.append_assoc, List.cons_append]
      · rw [reached, hnb, place_eq]
        rfl
  | true =>
      rw [hnb] at hwanted
      refine ⟨o.sec.zipIdx.filter (fun p => p.1.wanted false) ++
        (o.sec.take n).zipIdx.filter (fun p => p.1.wanted true),
        ((o.sec.drop (n + 1)).zipIdx (n + 1)).filter (fun p => p.1.wanted true), ?_, ?_⟩
      · conv_lhs => rw [order]; arg 2; rw [hsplit]
        rw [List.filter_append, filter_wanted_cons hwanted, List.append_assoc]
      · rw [reached, hnb, place_eq, puts_append, if_pos rfl, stored, place_eq]

theorem Object.base_of_split {pre post : List (Section × Nat)} {s : Section} {n : Nat}
    (h : o.order = pre ++ (s, n) :: post) :
    o.base n = some (rounded (puts .empty pre).imageLen s.align) := by
  have hpost : n ∉ post.map Prod.snd := by
    have hnodup := o.order_nodup
    rw [h, List.map_append, List.map_cons] at hnodup
    exact (List.nodup_cons.1 (List.nodup_append.1 hnodup).2.1).1
  rw [base, layout_eq, h, puts_append]
  exact (puts_base_of_notMem hpost _).trans (if_pos rfl)

theorem Object.base_eq {s : Section} {n : Nat} (hsec : o.sec[n]? = some s)
    (halloc : s.isAlloc = true) (hsize : 0 < s.size.toInt) : o.base n = some (o.baseIn n s) := by
  obtain ⟨pre, post, hsplit, hlen⟩ := order_split hsec halloc hsize
  rw [base_of_split hsplit, hlen]
  rfl

/-- A section has a base exactly when it is allocatable and has bytes. -/
theorem Object.base_eq_some_iff {n : Nat} {b : Word} :
    o.base n = some b ↔
      ∃ s, o.sec[n]? = some s ∧ s.isAlloc = true ∧ 0 < s.size.toInt ∧ b = o.baseIn n s := by
  constructor
  · intro h
    have hmem : n ∈ o.order.map Prod.snd := by
      by_contra hn
      rw [base, layout_eq, puts_base_of_notMem hn] at h
      cases h
    obtain ⟨⟨s, k⟩, hs, rfl⟩ := List.mem_map.1 hmem
    obtain ⟨hsec, halloc, hsize⟩ := mem_order.1 hs
    rw [base_eq hsec halloc hsize] at h
    exact ⟨s, hsec, halloc, hsize, (Option.some.inj h).symm⟩
  · rintro ⟨s, hsec, halloc, hsize, rfl⟩
    exact base_eq hsec halloc hsize

/-! ## Without wrapping -/

/-- The alignments the format has: none, or a power of two. -/
def Section.Aligned (s : Section) : Prop := s.align = 0 ∨ ∃ k, s.align.toNat = 2 ^ k

def Section.alignment (s : Section) : Nat := if 1 < s.align.toInt then s.align.toNat else 1

theorem Section.alignment_pos (s : Section) : 0 < s.alignment := by
  unfold alignment
  split
  · rw [BitVec.toInt_eq_toNat_cond] at *
    omega
  · exact Nat.one_pos

theorem rounded_toNat {s : Section} (hs : s.Aligned) {len : Word} (hlen : len.toNat < 2 ^ 31) :
    (rounded len s.align).toNat = alignUp s.alignment len.toNat := by
  unfold rounded Section.alignment
  by_cases ha : 1 < s.align.toInt
  · rw [if_pos ha, if_pos ha]
    rcases hs with hzero | ⟨k, hk⟩
    · rw [hzero] at ha
      exact absurd ha (by decide)
    · have hlt : s.align.toNat < 2 ^ 31 := by
        rw [BitVec.toInt_eq_toNat_cond] at ha
        have := s.align.isLt
        split at ha <;> omega
      have hint : s.align.toInt = (2 ^ k : Nat) := by
        rw [BitVec.toInt_eq_toNat_of_lt (by omega), hk]
      have hk31 : k ≤ 32 := by
        rw [hk] at hlt
        have := (Nat.pow_lt_pow_iff_right (by decide : 1 < 2)).1 hlt
        omega
      have hdvd : 2 ^ 32 = 2 ^ (32 - k) * 2 ^ k := by rw [← Nat.pow_add, Nat.sub_add_cancel hk31]
      have hpos : 0 < 2 ^ k := Nat.two_pow_pos k
      have hsum : (len + s.align - 1).toNat = len.toNat + 2 ^ k - 1 := by
        rw [BitVec.toNat_sub, BitVec.toNat_add, hk, show (1 : Word).toNat = 1 from rfl]
        omega
      generalize hx : len.toNat + 2 ^ k - 1 = x at hsum
      have hxlt : x < 2 ^ 32 := by omega
      -- whichever sign the sum has, its quotient is the same modulo `2 ^ (32 - k)`
      have hdiv : ∃ c : Nat, (len + s.align - 1).toInt.fdiv s.align.toInt =
          (x / 2 ^ k : Nat) - (c * 2 ^ (32 - k) : Nat) := by
        rw [hint, Int.fdiv_eq_ediv_of_nonneg _ (by positivity), BitVec.toInt_eq_toNat_cond, hsum]
        split
        · exact ⟨0, by push_cast; omega⟩
        · refine ⟨1, ?_⟩
          rw [hdvd]
          push_cast
          rw [show ((x : Int) - 2 ^ (32 - k) * 2 ^ k) = x + (-2 ^ (32 - k)) * 2 ^ k by ring,
            Int.add_mul_ediv_right _ _ (by positivity)]
          ring
      obtain ⟨c, hc⟩ := hdiv
      have hword : s.align = BitVec.ofInt 32 (2 ^ k : Nat) := by
        rw [← hint, BitVec.ofInt_toInt]
      have hprod : ((x / 2 ^ k : Nat) - (c * 2 ^ (32 - k) : Nat) : Int) * (2 ^ k : Nat) =
          (x / 2 ^ k * 2 ^ k : Nat) - (2 ^ 32 : Nat) * c := by
        rw [hdvd]
        push_cast
        ring
      have hq : x / 2 ^ k * 2 ^ k < 2 ^ 32 := Nat.lt_of_le_of_lt (Nat.div_mul_le_self x _) hxlt
      have hmod : ((x / 2 ^ k * 2 ^ k : Nat) - (2 ^ 32 : Nat) * c : Int) % (2 ^ 32 : Nat) =
          (x / 2 ^ k * 2 ^ k : Nat) := by
        rw [Int.sub_mul_emod_self_left, Int.emod_eq_of_lt (by positivity) (by exact_mod_cast hq)]
      rw [hc, hword, ← BitVec.ofInt_mul, hprod, BitVec.toNat_ofInt, hmod, Int.toNat_natCast,
        ← hword, hk, alignUp, hx]
  · rw [if_neg ha, if_neg ha, alignUp_one]

/-- Where the sections end, laid out without a limit. -/
def imageEnd (ps : List (Section × Nat)) : Nat :=
  Bump.top (fun p => p.1.alignment) (fun p => p.1.size.toNat) ps

theorem imageEnd_concat (ps : List (Section × Nat)) (p : Section × Nat) :
    imageEnd (ps ++ [p]) = alignUp p.1.alignment (imageEnd ps) + p.1.size.toNat :=
  Bump.top_concat ps p

theorem imageEnd_le_append (ps qs : List (Section × Nat)) : imageEnd ps ≤ imageEnd (ps ++ qs) :=
  Bump.top_le_append (fun p => p.1.alignment_pos) ps qs

theorem imageEnd_split (pre post : List (Section × Nat)) (p : Section × Nat) :
    alignUp p.1.alignment (imageEnd pre) + p.1.size.toNat ≤ imageEnd (pre ++ p :: post) := by
  rw [← imageEnd_concat, List.append_cons pre p post]
  exact imageEnd_le_append (pre ++ [p]) post

theorem puts_imageLen {ps : List (Section × Nat)} (haligned : ∀ p ∈ ps, p.1.Aligned)
    (h : imageEnd ps < 2 ^ 31) : (puts .empty ps).imageLen.toNat = imageEnd ps := by
  induction ps using List.reverseRecOn with
  | nil => rfl
  | append_singleton ps p ih =>
      have hprev := imageEnd_le_append ps [p]
      have hlen := ih (fun q hq => haligned q (List.mem_append_left _ hq)) (by omega)
      have hshort : (puts .empty ps).imageLen.toNat < 2 ^ 31 := by omega
      have hround := rounded_toNat (haligned p (by simp)) hshort
      rw [imageEnd_concat] at h ⊢
      rw [puts_append]
      show (rounded (puts .empty ps).imageLen p.1.align + p.1.size).toNat = _
      rw [BitVec.toNat_add, hround, hlen]
      omega

namespace Object

/-- The format's rule on alignments, for the sections that have a place. -/
def Aligned (o : Object) : Prop := ∀ p ∈ o.order, p.1.Aligned

/-- The last whole run of 200 bytes that ends where a Lua integer can count. -/
def imageLimit : Nat := 2147483600

/-- The sections fit in the image the script can write. -/
def Fits (o : Object) : Prop := imageEnd o.order ≤ imageLimit

/-- Lua's integers can count the bytes of the sections. -/
def Counts (o : Object) : Prop := imageEnd o.order < 2 ^ 31

variable {o : Object}

theorem base_toNat (haligned : o.Aligned) {pre post : List (Section × Nat)} {s : Section} {n : Nat}
    (h : o.order = pre ++ (s, n) :: post) (hpre : imageEnd pre < 2 ^ 31) :
    ∃ b, o.base n = some b ∧ b.toNat = alignUp s.alignment (imageEnd pre) := by
  have hlen := puts_imageLen
    (fun p hp => haligned p (by rw [h]; exact List.mem_append_left _ hp)) hpre
  refine ⟨_, base_of_split h, ?_⟩
  rw [rounded_toNat (haligned (s, n) (by rw [h]; simp)) (by omega), hlen]

theorem Fits.counts (hfits : o.Fits) : o.Counts := by
  unfold Fits imageLimit at hfits
  unfold Counts
  omega

theorem Counts.lt {pre post : List (Section × Nat)} (hcounts : o.Counts)
    (h : o.order = pre ++ post) :
    imageEnd pre < 2 ^ 31 := by
  have hle := imageEnd_le_append pre post
  unfold Counts at hcounts
  rw [h] at hcounts
  omega

theorem Counts.imageLen (hcounts : o.Counts) (haligned : o.Aligned) :
    o.layout.imageLen.toNat = imageEnd o.order := by
  rw [layout_eq]
  exact puts_imageLen haligned hcounts

theorem mem_order_of_base {n : Nat} {s : Section} {b : Word} (hsec : o.sec[n]? = some s)
    (hb : o.base n = some b) : (s, n) ∈ o.order := by
  obtain ⟨s', hsec', halloc, hsize, -⟩ := base_eq_some_iff.1 hb
  obtain rfl : s' = s := Option.some.inj (hsec'.symm.trans hsec)
  exact mem_order.2 ⟨hsec, halloc, hsize⟩

/-- Every section lies in the image. -/
theorem Counts.base_add_size_le (hcounts : o.Counts) (haligned : o.Aligned) {n : Nat}
    {s : Section} {b : Word} (hsec : o.sec[n]? = some s) (hb : o.base n = some b) :
    b.toNat + s.size.toNat ≤ imageEnd o.order := by
  obtain ⟨pre, post, hsplit⟩ := List.append_of_mem (mem_order_of_base hsec hb)
  obtain ⟨b', hb', hnat⟩ := base_toNat haligned hsplit (hcounts.lt hsplit)
  obtain rfl : b' = b := Option.some.inj (hb'.symm.trans hb)
  rw [hnat, hsplit]
  exact imageEnd_split pre post (s, n)

theorem Counts.before (hcounts : o.Counts) (haligned : o.Aligned)
    {pre mid post : List (Section × Nat)} {m n : Nat} {s t : Section} {b c : Word}
    (h : o.order = pre ++ (s, m) :: (mid ++ (t, n) :: post)) (hb : o.base m = some b)
    (hc : o.base n = some c) : b.toNat + s.size.toNat ≤ c.toNat := by
  have h' : o.order = (pre ++ (s, m) :: mid) ++ (t, n) :: post := by
    rw [h, List.append_assoc, List.cons_append]
  obtain ⟨b', hb', hbn⟩ := base_toNat haligned h (hcounts.lt h)
  obtain ⟨c', hc', hcn⟩ := base_toNat haligned h' (hcounts.lt h')
  obtain rfl : b' = b := Option.some.inj (hb'.symm.trans hb)
  obtain rfl : c' = c := Option.some.inj (hc'.symm.trans hc)
  rw [hbn, hcn]
  exact (imageEnd_split pre mid (s, m)).trans (le_alignUp t.alignment_pos _)

/-- Sections lie apart, one before the other. -/
theorem Counts.apart (hcounts : o.Counts) (haligned : o.Aligned) {m n : Nat} {s t : Section}
    {b c : Word}
    (hmn : m ≠ n) (hs : o.sec[m]? = some s) (hb : o.base m = some b) (ht : o.sec[n]? = some t)
    (hc : o.base n = some c) :
    b.toNat + s.size.toNat ≤ c.toNat ∨ c.toNat + t.size.toNat ≤ b.toNat := by
  obtain ⟨pre, post, hsplit⟩ := List.append_of_mem (mem_order_of_base hs hb)
  have htmem := mem_order_of_base ht hc
  rw [hsplit, List.mem_append, List.mem_cons] at htmem
  rcases htmem with hpre | heq | hpost
  · obtain ⟨pre', mid, rfl⟩ := List.append_of_mem hpre
    rw [List.append_assoc, List.cons_append] at hsplit
    exact .inr (hcounts.before haligned hsplit hc hb)
  · exact absurd (Prod.mk.inj heq).2.symm hmn
  · obtain ⟨mid, post', rfl⟩ := List.append_of_mem hpost
    exact .inl (hcounts.before haligned hsplit hb hc)

theorem Counts.apart_ranges (hcounts : o.Counts) (haligned : o.Aligned) {m n : Nat} {s t : Section}
    {b c : Word} (hmn : m ≠ n) (hs : o.sec[m]? = some s) (hb : o.base m = some b)
    (ht : o.sec[n]? = some t) (hc : o.base n = some c) :
    Apart b s.size.toNat c t.size.toNat := by
  have hlast : imageEnd o.order < 2 ^ 31 := hcounts
  have hb' := hcounts.base_add_size_le haligned hs hb
  have hc' := hcounts.base_add_size_le haligned ht hc
  rcases hcounts.apart haligned hmn hs hb ht hc with h | h
  · exact apart_of_le h (by omega)
  · exact (apart_of_le h (by omega)).symm

/-- Where everything lies in the image as it was written, nothing has wrapped. -/
theorem imageEnd_le_of_inside (haligned : o.Aligned) {len : Nat} (hlen : len < 2 ^ 31)
    (h : ∀ n s b, o.sec[n]? = some s → o.base n = some b → b.toNat + s.size.toNat ≤ len) :
    imageEnd o.order ≤ len := by
  have hall : ∀ pre post, o.order = pre ++ post → imageEnd pre ≤ len := by
    intro pre
    induction pre using List.reverseRecOn with
    | nil => exact fun _ _ => Nat.zero_le _
    | append_singleton pre p ih =>
        intro post hsplit
        rw [List.append_assoc, List.singleton_append] at hsplit
        have hpre := ih _ hsplit
        obtain ⟨b, hb, hnat⟩ := base_toNat (s := p.1) (n := p.2) haligned hsplit
          (by omega)
        have hsec : o.sec[p.2]? = some p.1 := (mem_order.1 (by rw [hsplit]; simp)).1
        rw [imageEnd_concat, ← hnat]
        exact h _ _ _ hsec hb
  exact hall o.order [] (List.append_nil _).symm

theorem fits_of_inside (haligned : o.Aligned) {len : Nat} (hlen : len ≤ imageLimit)
    (h : ∀ n s b, o.sec[n]? = some s → o.base n = some b → b.toNat + s.size.toNat ≤ len) :
    o.Fits :=
  (imageEnd_le_of_inside haligned (by unfold imageLimit at hlen; omega) h).trans hlen

end Object

end P4Hyp.Mkflt
