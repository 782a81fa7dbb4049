import P4Hyp.Screen.Tag

/-!
# Reads that end anywhere

`feed` is called with whatever one read of the serial port has brought.  It holds an
incomplete character back, and `_decode` collects one, in the same bytes.
-/

namespace P4Hyp

/-! ## What is held back -/

section Held

variable {a b : Byte} {k j : Nat} {rev X Y d c : List Byte}

/-- The loop looks no further than a lead byte. -/
theorem heldFrom_lead (ha : 0xc0 ≤ a.toNat) (k : Nat) (X Y : List Byte) :
    heldFrom k (X ++ a :: Y) = heldFrom k (X ++ [a]) := by
  induction X generalizing k with
  | nil =>
      have hascii : ¬ a.toNat < 0x80 := by omega
      simp [heldFrom, ha, hascii]
  | cons b X ih => simp only [List.cons_append, heldFrom, ih]

/-- From farther back it holds nothing that it does not hold from nearer. -/
theorem heldFrom_farther (h : heldFrom k rev = 0) (j : Nat) : heldFrom (k + j) rev = 0 := by
  induction rev generalizing k with
  | nil => rfl
  | cons b rev ih =>
      unfold heldFrom at h ⊢
      by_cases hfar : k + j + 1 < 4
      · rw [if_pos hfar]
        rw [if_pos (by omega)] at h
        split
        · rfl
        · rename_i hhigh
          rw [if_neg hhigh] at h
          split
          · rename_i hlead
            rw [if_pos hlead] at h
            rw [if_neg]
            intro hneed
            rw [if_pos (by omega)] at h
            exact absurd h (Nat.succ_ne_zero k)
          · rename_i hcont
            rw [if_neg hcont] at h
            rw [Nat.add_right_comm]
            exact ih h
      · rw [if_neg hfar]

/-- It stops in the first part, or goes through all of it. -/
theorem heldFrom_append (k : Nat) (X Y : List Byte) : heldFrom k (X ++ Y) = heldFrom k X ∨
    heldFrom k X = 0 ∧ heldFrom k (X ++ Y) = heldFrom (k + X.length) Y := by
  induction X generalizing k with
  | nil => exact .inr ⟨rfl, rfl⟩
  | cons b X ih =>
      have hfar : k + (b :: X).length = k + 1 + X.length := by
        rw [List.length_cons]
        omega
      rw [List.cons_append, heldFrom, heldFrom, hfar]
      split
      · split
        · exact .inl rfl
        · split
          · exact .inl rfl
          · exact ih (k + 1)
      · exact .inl rfl

/-- What it holds is a lead byte and continuations, one too few at least. -/
theorem heldFrom_shape (h : heldFrom k rev ≠ 0) : ∃ X a Y, rev = X ++ a :: Y ∧
    (∀ b ∈ X, 0x80 ≤ b.toNat ∧ b.toNat < 0xc0) ∧ 0xc0 ≤ a.toNat ∧
    heldFrom k rev = k + X.length + 1 ∧ k + X.length + 1 < utf8Need a ∧ k + X.length + 1 < 4 := by
  induction rev generalizing k with
  | nil => exact absurd rfl h
  | cons b rev ih =>
      unfold heldFrom at h ⊢
      split at h
      · rename_i hnear
        rw [if_pos hnear]
        split at h
        · exact absurd rfl h
        · rename_i hhigh
          rw [if_neg hhigh]
          split at h
          · rename_i hlead
            rw [if_pos hlead]
            split at h
            · rename_i hneed
              rw [if_pos hneed]
              exact ⟨[], b, rev, rfl, fun c hc => absurd hc List.not_mem_nil, hlead, rfl,
                hneed, hnear⟩
            · exact absurd rfl h
          · rename_i hcont
            rw [if_neg hcont]
            obtain ⟨X, a, Y, rfl, hX, ha, hn, hneed, hfew⟩ := ih h
            have hlen : k + (b :: X).length + 1 = k + 1 + X.length + 1 := by
              rw [List.length_cons]
              omega
            refine ⟨b :: X, a, Y, rfl, ?_, ha, ?_, ?_, ?_⟩
            · intro c hc
              rcases List.mem_cons.mp hc with rfl | hc
              · omega
              · exact hX c hc
            · rw [hlen]
              exact hn
            · rw [hlen]
              exact hneed
            · rw [hlen]
              exact hfew
      · exact absurd rfl h

theorem heldLen_le (d : List Byte) : heldLen d ≤ d.length := by
  by_cases h : heldLen d = 0
  · omega
  · obtain ⟨X, a, Y, hrev, -, -, hn, -⟩ := heldFrom_shape h
    have hlen := congrArg List.length hrev
    rw [List.length_reverse, List.length_append, List.length_cons] at hlen
    unfold heldLen
    omega

/-- Behind a lead byte it does not matter what comes before it. -/
theorem heldLen_lead (ha : 0xc0 ≤ a.toNat) (d c : List Byte) :
    heldLen (d ++ a :: c) = heldLen (a :: c) := by
  rw [heldLen, heldLen, List.reverse_append, List.reverse_cons, List.append_assoc,
    List.singleton_append]
  exact heldFrom_lead ha 0 _ _

theorem heldLen_append (h : heldLen d = 0) (c : List Byte) : heldLen (d ++ c) = heldLen c := by
  rw [heldLen, heldLen, List.reverse_append]
  rcases heldFrom_append 0 c.reverse d.reverse with he | ⟨hzero, he⟩
  · exact he
  · rw [he, hzero]
    exact heldFrom_farther h _

theorem heldLen_suffix (h : heldLen c ≠ 0) (d : List Byte) : heldLen (d ++ c) = heldLen c := by
  rw [heldLen, heldLen, List.reverse_append]
  rcases heldFrom_append 0 c.reverse d.reverse with he | ⟨hzero, -⟩
  · exact he
  · exact absurd hzero h

/-- The bytes that are processed, and those that are held back. -/
def bodyOf (d : List Byte) : List Byte := d.take (d.length - heldLen d)

def heldOf (d : List Byte) : List Byte := d.drop (d.length - heldLen d)

theorem bodyOf_append_heldOf (d : List Byte) : bodyOf d ++ heldOf d = d := List.take_append_drop _ _

theorem heldOf_length (d : List Byte) : (heldOf d).length = heldLen d := by
  have := heldLen_le d
  rw [heldOf, List.length_drop]
  omega

theorem heldOf_eq_nil : heldOf d = [] ↔ heldLen d = 0 := by
  rw [← List.length_eq_zero_iff, heldOf_length]

theorem bodyOf_all (h : heldLen d = 0) : bodyOf d = d := by
  rw [bodyOf, h, Nat.sub_zero, List.take_length]

/-- Where as much is held back of the whole as of the part, what is processed of the
whole ends with what is processed of the part. -/
theorem bodyOf_append (h : heldLen (d ++ c) = heldLen c) :
    bodyOf (d ++ c) = d ++ bodyOf c ∧ heldOf (d ++ c) = heldOf c := by
  have hle := heldLen_le c
  have hcut : (d ++ c).length - heldLen (d ++ c) = d.length + (c.length - heldLen c) := by
    rw [h, List.length_append]
    omega
  rw [bodyOf, heldOf, hcut, List.take_length_add_append, List.drop_length_add_append]
  exact ⟨rfl, rfl⟩

/-- An incomplete character. -/
theorem heldOf_shape (h : heldOf d ≠ []) : ∃ a cs, heldOf d = a :: cs ∧ 0xc0 ≤ a.toNat ∧
    (∀ b ∈ cs, 0x80 ≤ b.toNat ∧ b.toNat < 0xc0) ∧ cs.length + 1 < utf8Need a ∧ cs.length < 3 := by
  obtain ⟨X, a, Y, hrev, hX, ha, hn, hneed, hfew⟩ := heldFrom_shape (mt heldOf_eq_nil.mpr h)
  have hd : d = Y.reverse ++ a :: X.reverse := by
    have := congrArg List.reverse hrev
    simpa using this
  have hlen : heldLen d = X.length + 1 := by
    rw [Nat.zero_add] at hn
    exact hn
  have hcut : d.length - heldLen d = Y.reverse.length := by
    rw [hlen, hd, List.length_append, List.length_cons]
    simp only [List.length_reverse]
    omega
  have hheld : heldOf d = a :: X.reverse := by
    rw [heldOf, hcut, hd, List.drop_left]
  refine ⟨a, X.reverse, hheld, ha, fun b hb => hX b (List.mem_reverse.mp hb), ?_, ?_⟩
  · rw [List.length_reverse]
    omega
  · rw [List.length_reverse]
    omega

end Held

/-! ## Bytes that are no character yet -/

/-- What `_decode` collects without a result. -/
structure Undecoded (p : List Byte) : Prop where
  short : p.length < 4
  high : ∀ b ∈ p, 0x80 ≤ b.toNat
  incomplete : ∀ q, q <+: p → utf8Char q = none

theorem undecoded_nil : Undecoded [] where
  short := by decide
  high b hb := absurd hb List.not_mem_nil
  incomplete q hq := by
    rw [List.prefix_nil.mp hq]
    rfl

theorem Undecoded.of_prefix {p q : List Byte} (h : Undecoded p) (hq : q <+: p) : Undecoded q where
  short := Nat.lt_of_le_of_lt hq.length_le h.short
  high b hb := h.high b (hq.subset hb)
  incomplete q' hq' := h.incomplete q' (hq'.trans hq)

theorem Undecoded.snoc {p : List Byte} {b : Byte} (h : Undecoded p) (hb : 0x80 ≤ b.toNat)
    (hlen : (p ++ [b]).length < 4) (hnone : utf8Char (p ++ [b]) = none) : Undecoded (p ++ [b]) where
  short := hlen
  high c hc := by
    rcases List.mem_append.mp hc with hc | hc
    · exact h.high c hc
    · rw [List.mem_singleton.mp hc]
      exact hb
  incomplete q hq := by
    rcases List.prefix_concat_iff.mp hq with rfl | hq
    · exact hnone
    · exact h.incomplete q hq

/-- A lead byte announces more bytes than follow it here. -/
theorem undecoded_lead {a : Byte} {cs : List Byte} (ha : 0xc0 ≤ a.toNat)
    (hcs : ∀ b ∈ cs, 0x80 ≤ b.toNat) (hneed : cs.length + 1 < utf8Need a) (hfew : cs.length < 3) :
    Undecoded (a :: cs) := by
  refine ⟨Nat.succ_lt_succ hfew, ?_, ?_⟩
  · intro b hb
    rcases List.mem_cons.mp hb with rfl | hb
    · omega
    · exact hcs b hb
  · have htwo : 1 ≤ cs.length → ¬ a.toNat < 0xe0 := by
      intro hlen hlow
      rw [utf8Need, if_pos hlow] at hneed
      omega
    have hthree : 2 ≤ cs.length → ¬ a.toNat < 0xf0 := by
      intro hlen hlow
      rw [utf8Need, if_neg (htwo (by omega)), if_pos hlow] at hneed
      omega
    intro q hq
    have hlen := hq.length_le
    rw [List.length_cons] at hlen
    match q, hq with
    | [], _ => rfl
    | [_], _ => rfl
    | [x, y], hq =>
        obtain ⟨rfl, -⟩ := List.cons_prefix_cons.mp hq
        simp [utf8Char, htwo (by simpa using hlen)]
    | [x, y, z], hq =>
        obtain ⟨rfl, -⟩ := List.cons_prefix_cons.mp hq
        simp [utf8Char, hthree (by simpa using hlen)]
    | x :: y :: z :: w :: q, hq =>
        simp only [List.length_cons] at hlen
        omega

/-- What is held back is the beginning of a character. -/
theorem undecoded_heldOf (d : List Byte) : Undecoded (heldOf d) := by
  by_cases h : heldOf d = []
  · rw [h]
    exact undecoded_nil
  · obtain ⟨a, cs, he, ha, hcs, hneed, hfew⟩ := heldOf_shape h
    rw [he]
    exact undecoded_lead ha (fun b hb => (hcs b hb).1) hneed hfew

namespace Screen

section Collect

variable {s : Screen} {b : Byte}

theorem put_pending (ch : Char) (s : Screen) : (s.put ch).pending = s.pending := by
  have he : s.put ch = (s.put ch).carry s.pending := carry_put s.pending s ch
  rw [he]
  rfl

theorem textByte_high (hb : 0x80 ≤ b.toNat) : TextByte.of b = .graphic :=
  textByte_graphic (by omega) (by omega)

/-- A byte of a character is collected. -/
theorem byte_collect (hs : s.state = .text) (hb : 0x80 ≤ b.toNat)
    (hp : Undecoded (s.pending ++ [b])) : s.byte b = s.carry (s.pending ++ [b]) := by
  have hascii : ¬ b.toNat < 0x80 := Nat.not_lt.mpr hb
  rw [byte_text hs, textByte, textByte_high hb]
  show s.graphic b = _
  simp only [graphic, decode, if_neg hascii, hp.incomplete _ (List.prefix_refl _),
    if_neg (Nat.not_le.mpr hp.short)]
  rfl

theorem bytes_collect {X : List Byte} (hr : s.raised = none) (hs : s.state = .text)
    (hp : Undecoded (s.pending ++ X)) : s.bytes X = s.carry (s.pending ++ X) := by
  induction X generalizing s with
  | nil =>
      rw [List.append_nil]
      rfl
  | cons b X ih =>
      have happ : s.pending ++ b :: X = s.pending ++ [b] ++ X := by simp
      have hone : Undecoded (s.pending ++ [b]) :=
        hp.of_prefix (by rw [happ]; exact List.prefix_append _ _)
      have hb : 0x80 ≤ b.toNat := hp.high b (by simp)
      rw [bytes_cons hr, byte_collect hs hb hone,
        ih (s := s.carry (s.pending ++ [b])) hr hs (happ ▸ hp), happ]
      rfl

theorem undecoded_graphic (h : Undecoded s.pending) (b : Byte) :
    Undecoded (s.graphic b).pending := by
  by_cases hb : b.toNat < 0x80
  · simp only [graphic, decode, if_pos hb, put_pending]
    exact h
  · simp only [graphic, decode, if_neg hb]
    cases hc : utf8Char (s.pending ++ [b]) with
    | some c =>
        simp only [put_pending]
        exact undecoded_nil
    | none =>
        by_cases hlen : 4 ≤ (s.pending ++ [b]).length
        · simp only [if_pos hlen, put_pending]
          exact undecoded_nil
        · simp only [if_neg hlen]
          exact h.snoc (Nat.le_of_not_lt hb) (Nat.lt_of_not_le hlen) hc

theorem undecoded_byte (h : Undecoded s.pending) (b : Byte) : Undecoded (s.byte b).pending := by
  by_cases hd : s.state = .text → b.toNat < 0x80
  · rw [byte_pending s hd]
    exact h
  · rw [Classical.not_imp] at hd
    rw [byte_text hd.1, textByte, textByte_high (Nat.le_of_not_lt hd.2)]
    exact undecoded_graphic h b

theorem undecoded_bytes (h : Undecoded s.pending) (bs : List Byte) :
    Undecoded (s.bytes bs).pending := by
  induction bs generalizing s with
  | nil => exact h
  | cons b bs ih =>
      apply ih
      unfold consume
      split
      · exact h
      · exact undecoded_byte h b

end Collect

/-! ## One read -/

/-- While `bs` is processed a byte beyond ASCII is taken for part of a character. -/
def Decodes : Screen → List Byte → Prop
  | _, [] => False
  | s, b :: bs =>
      (s.raised = none ∧ s.state = .text ∧ 0x80 ≤ b.toNat) ∨ Decodes (s.consume b) bs

instance decidableDecodes : ∀ s bs, Decidable (Decodes s bs)
  | _, [] => inferInstanceAs (Decidable False)
  | s, b :: bs =>
      have := decidableDecodes (s.consume b) bs
      inferInstanceAs (Decidable (_ ∨ _))

/-- A read that ends in an incomplete character decodes no other. -/
def HoldsAlone (s : Screen) (data : List Byte) : Prop :=
  data ≠ [] → s.raised = none → s.held data ≠ [] →
    ¬ Decodes { s with pending := [] } (s.body data)

/-- A read that ends in no incomplete character ends in the ground state or leaves no
bytes behind. -/
def Settled (s : Screen) (data : List Byte) : Prop :=
  data ≠ [] → (s.feed data).raised = none → s.held data = [] →
    (s.feed data).state = .text ∨ (s.feed data).pending = []

/-- Every read does the first, and all but the last the second. -/
def CutsWell : Screen → List (List Byte) → Prop
  | _, [] => True
  | s, c :: cs => HoldsAlone s c ∧ (cs.flatten ≠ [] → Settled s c) ∧ CutsWell (s.feed c) cs

instance (s : Screen) (data : List Byte) : Decidable (HoldsAlone s data) :=
  inferInstanceAs (Decidable (_ → _ → _ → ¬ _))

instance (s : Screen) (data : List Byte) : Decidable (Settled s data) :=
  inferInstanceAs (Decidable (_ → _ → _ → _ ∨ _))

instance decidableCutsWell : ∀ s cs, Decidable (CutsWell s cs)
  | _, [] => inferInstanceAs (Decidable True)
  | s, c :: cs =>
      have := decidableCutsWell (s.feed c) cs
      inferInstanceAs (Decidable (_ ∧ (_ → _) ∧ _))

/-- The same screens; after an exception the bytes carried do not matter. -/
structure SameFeed (s t : Screen) : Prop where
  same : { s with pending := [] } = { t with pending := [] }
  pending : s.raised = none → s.pending = t.pending

/-- What a call of `feed` amounts to that starts with no bytes carried. -/
def whole (s : Screen) (d : List Byte) : Screen :=
  if heldOf d = [] then s.bytes d else (s.bytes (bodyOf d)).carry (heldOf d)

section Read

variable {s t u : Screen} {c d bs p : List Byte}

theorem carry_eq (h : s.pending = p) : s.carry p = s := by
  rw [← h]
  rfl

theorem carry_bytes (h : ¬ Decodes s bs) (p : List Byte) :
    (s.carry p).bytes bs = (s.bytes bs).carry p := by
  induction bs generalizing s with
  | nil => rfl
  | cons b bs ih =>
      rw [Decodes, not_or] at h
      have hone : (s.carry p).consume b = (s.consume b).carry p := by
        show (if s.raised.isSome then s.carry p else (s.carry p).byte b) =
          (if s.raised.isSome then s else s.byte b).carry p
        split
        · rfl
        · rename_i hr
          apply carry_byte
          intro hs
          by_contra hb
          exact h.1 ⟨by simpa using hr, hs, Nat.le_of_not_lt hb⟩
      show ((s.carry p).consume b).bytes bs = _
      rw [hone, ih h.2]
      rfl

theorem bytes_pending (h : ¬ Decodes s bs) : (s.bytes bs).pending = s.pending := by
  have he : s.bytes bs = (s.bytes bs).carry s.pending := carry_bytes h s.pending
  rw [he]
  rfl

theorem feed_eq (hd : c ≠ []) (hr : s.raised = none) :
    s.feed c = (s.carry (heldOf (s.pending ++ c))).bytes (bodyOf (s.pending ++ c)) := by
  rw [feed, if_neg]
  · rfl
  · simp [hd, hr]

theorem feed_whole (hd : c ≠ []) (hr : s.raised = none) (h : HoldsAlone s c) :
    s.feed c = whole (s.carry []) (s.pending ++ c) := by
  rw [feed_eq hd hr, whole]
  split
  · rename_i hnone
    rw [hnone, bodyOf_all (heldOf_eq_nil.mp hnone)]
  · rename_i hheld
    exact carry_bytes (h hd hr hheld) _

/-- What has been processed may be left out. -/
theorem whole_append (h : heldLen (d ++ c) = heldLen c) (s : Screen) :
    whole s (d ++ c) = whole (s.bytes d) c := by
  obtain ⟨hbody, hheld⟩ := bodyOf_append h
  rw [whole, whole, hheld, hbody, bytes_append, bytes_append]

theorem whole_raised (h : s.raised.isSome = true) (d : List Byte) :
    (whole s d).carry [] = s.carry [] := by
  rw [whole, bytes_raised h, bytes_raised h]
  split <;> rfl

/-- Bytes that were collected are collected again. -/
theorem refeed (hr : u.raised = none) (hp : Undecoded u.pending)
    (hs : u.state = .text ∨ u.pending = []) (c : List Byte) :
    (u.carry []).bytes (u.pending ++ c) = u.bytes c := by
  have hback : (u.carry []).bytes u.pending = u := by
    rcases hs with hs | hs
    · exact bytes_collect (s := u.carry []) hr hs hp
    · rw [hs]
      exact carry_eq hs
  rw [bytes_append, hback]

end Read

/-! ## One read after another -/

/-- From `t`, which carries nothing, the screen `u` is where the bytes `d` lead. -/
structure At (t : Screen) (d : List Byte) (u : Screen) : Prop where
  whole : u = t.whole d
  /-- An incomplete character is all that is carried. -/
  alone : heldOf d ≠ [] → (t.bytes (bodyOf d)).pending = []

section Reads

variable {s t u : Screen} {c d : List Byte} {cs : List (List Byte)}

theorem whole_alone (hp : t.pending = []) (h : heldOf d ≠ [] → ¬ Decodes t (bodyOf d)) :
    At t d (t.whole d) :=
  ⟨rfl, fun hheld => (bytes_pending (h hheld)).trans hp⟩

/-- The bytes held back are the first of the next read. -/
theorem at_held (hat : At t d u) (hheld : heldOf d ≠ []) (c : List Byte) :
    u.pending = heldOf d ∧ u.carry [] = t.bytes (bodyOf d) ∧
      t.whole (d ++ c) = (t.bytes (bodyOf d)).whole (heldOf d ++ c) ∧
      bodyOf (d ++ c) = bodyOf d ++ bodyOf (heldOf d ++ c) ∧
      heldOf (d ++ c) = heldOf (heldOf d ++ c) := by
  obtain ⟨a, cs, he, ha, -⟩ := heldOf_shape hheld
  have hu : u = (t.bytes (bodyOf d)).carry (heldOf d) := by
    rw [hat.whole, Screen.whole, if_neg hheld]
  have hsplit : d ++ c = bodyOf d ++ (heldOf d ++ c) := by
    rw [← List.append_assoc, bodyOf_append_heldOf]
  have hlen : heldLen (bodyOf d ++ (heldOf d ++ c)) = heldLen (heldOf d ++ c) := by
    rw [he]
    exact heldLen_lead ha _ _
  obtain ⟨hbody, hheld'⟩ := bodyOf_append hlen
  refine ⟨?_, ?_, ?_, ?_, ?_⟩
  · rw [hu]
    rfl
  · rw [hu]
    exact carry_eq (hat.alone hheld)
  · rw [hsplit]
    exact whole_append hlen t
  · rw [hsplit]
    exact hbody
  · rw [hsplit]
    exact hheld'

/-- Behind bytes that were collected: they are collected again, and with them what is
held back of the read, which is nothing else. -/
theorem feed_collected (hr : u.raised = none) (hc : c ≠ []) (hu : Undecoded u.pending)
    (hs : u.state = .text) (hp : u.pending ≠ []) (h : HoldsAlone u c) :
    heldOf c = [] ∧ u.feed c = u.bytes c ∧ (u.held c = [] ∨ (u.feed c).state = .text) := by
  rw [feed_whole hc hr h]
  by_cases hheld : heldOf (u.pending ++ c) = []
  · have hnil : heldOf c = [] := by
      by_contra hne
      have hlen := heldLen_suffix (mt heldOf_eq_nil.mpr hne) u.pending
      rw [heldOf_eq_nil.mp hheld] at hlen
      exact hne (heldOf_eq_nil.mpr hlen.symm)
    refine ⟨hnil, ?_, .inl hheld⟩
    rw [whole, if_pos hheld]
    exact refeed hr hu (.inl hs) c
  · have hbody : bodyOf (u.pending ++ c) = [] := by
      by_contra hne
      apply h hc hr hheld
      obtain ⟨b, bs, hb⟩ := List.exists_cons_of_ne_nil hne
      have hfirst : b ∈ u.pending := by
        have hpre : bodyOf (u.pending ++ c) <+: u.pending ++ c := List.take_prefix _ _
        obtain ⟨x, xs, hx⟩ := List.exists_cons_of_ne_nil hp
        rw [hb, hx, List.cons_append] at hpre
        rw [hx, (List.cons_prefix_cons.mp hpre).1]
        exact List.mem_cons_self
      show Decodes (u.carry []) (bodyOf (u.pending ++ c))
      rw [hb]
      exact .inl ⟨hr, hs, hu.high b hfirst⟩
    have hall : heldOf (u.pending ++ c) = u.pending ++ c := by
      have hsplit := bodyOf_append_heldOf (u.pending ++ c)
      rwa [hbody, List.nil_append] at hsplit
    have hnil : heldOf c = [] := by
      by_contra hne
      have hlen := heldLen_suffix (mt heldOf_eq_nil.mpr hne) u.pending
      have hpos := List.length_pos_of_ne_nil hp
      have hle := heldLen_le c
      rw [← heldOf_length, hall, List.length_append] at hlen
      omega
    have hcollect : u.bytes c = u.carry (u.pending ++ c) :=
      bytes_collect hr hs (hall ▸ undecoded_heldOf _)
    have hwhole : (u.carry []).whole (u.pending ++ c) = u.carry (u.pending ++ c) := by
      rw [whole, if_neg hheld, hbody, hall]
      rfl
    refine ⟨hnil, hwhole.trans hcollect.symm, .inr ?_⟩
    rw [hwhole]
    exact hs

/-- A read continues where the last one has ended. -/
theorem at_feed (ht : t.pending = []) (hat : At t d u) (hr : u.raised = none) (hc : c ≠ [])
    (hs : heldOf d = [] → u.state = .text ∨ u.pending = []) (h : HoldsAlone u c) :
    At t (d ++ c) (u.feed c) ∧
      (heldOf (d ++ c) = [] → u.held c = [] ∨ (u.feed c).state = .text) := by
  have hfeed := feed_whole hc hr h
  have halone : heldOf (u.pending ++ c) ≠ [] → ¬ Decodes (u.carry []) (bodyOf (u.pending ++ c)) :=
    h hc hr
  by_cases hheld : heldOf d = []
  · have hu : u = t.bytes d := by rw [hat.whole, Screen.whole, if_pos hheld]
    have hlen := heldLen_append (heldOf_eq_nil.mp hheld) c
    obtain ⟨hbody, hheld'⟩ := bodyOf_append hlen
    have hwhole : t.whole (d ++ c) = u.whole c := by
      rw [whole_append hlen, hu]
    by_cases hp : u.pending = []
    · rw [hp, carry_eq hp, List.nil_append] at halone hfeed
      refine ⟨⟨hfeed.trans hwhole.symm, fun hne => ?_⟩, fun hnil => .inl ?_⟩
      · rw [hbody, bytes_append, ← hu, bytes_pending (halone (hheld' ▸ hne))]
        exact hp
      · show heldOf (u.pending ++ c) = []
        rw [hp, List.nil_append, ← hheld']
        exact hnil
    · have hcollected : Undecoded u.pending := by
        rw [hu]
        exact undecoded_bytes (ht ▸ undecoded_nil) d
      obtain ⟨hnil, hbytes, hstate⟩ :=
        feed_collected hr hc hcollected ((hs hheld).resolve_right hp) hp h
      refine ⟨⟨?_, fun hne => absurd (hheld'.trans hnil) hne⟩, fun _ => hstate⟩
      rw [hbytes, hwhole, whole, if_pos hnil]
  · obtain ⟨hp, hu, hwhole, hbody, hheld'⟩ := at_held hat hheld c
    rw [hp, hu] at halone hfeed
    refine ⟨⟨?_, fun hne => ?_⟩, fun hnil => .inl ?_⟩
    · rw [hfeed, hwhole]
    · rw [hbody, bytes_append, bytes_pending (halone (hheld' ▸ hne))]
      exact hat.alone hheld
    · show heldOf (u.pending ++ c) = []
      rw [hp, ← hheld']
      exact hnil

theorem feed_nil (s : Screen) : s.feed [] = s := if_pos (.inl rfl)

theorem feed_raised (h : s.raised.isSome = true) (c : List Byte) : s.feed c = s := if_pos (.inr h)

theorem feeds_raised (h : s.raised.isSome = true) (cs : List (List Byte)) :
    cs.foldl feed s = s := by
  induction cs with
  | nil => rfl
  | cons c cs ih => rw [List.foldl_cons, feed_raised h, ih]

theorem SameFeed.of_eq (h : s = t) : SameFeed s t := h ▸ ⟨rfl, fun _ => rfl⟩

/-- After an exception nothing is read any more. -/
theorem at_raised (hat : At t d u) (hr : u.raised.isSome = true) (c : List Byte) :
    (t.whole (d ++ c)).carry [] = u.carry [] := by
  by_cases hheld : heldOf d = []
  · have hu : u = t.bytes d := by rw [hat.whole, Screen.whole, if_pos hheld]
    rw [whole_append (heldLen_append (heldOf_eq_nil.mp hheld) c), ← hu]
    exact whole_raised hr c
  · obtain ⟨-, hu, hwhole, -, -⟩ := at_held hat hheld c
    rw [hwhole, ← hu]
    exact whole_raised (s := u.carry []) hr _

theorem at_feeds (ht : t.pending = []) (hat : At t d u)
    (hs : cs.flatten ≠ [] → u.raised = none → heldOf d = [] → u.state = .text ∨ u.pending = [])
    (hcuts : CutsWell u cs) : SameFeed (cs.foldl feed u) (t.whole (d ++ cs.flatten)) := by
  induction cs generalizing d u with
  | nil =>
      rw [List.flatten_nil, List.append_nil]
      exact .of_eq hat.whole
  | cons c cs ih =>
      obtain ⟨halone, hsettled, hrest⟩ := hcuts
      cases hr : u.raised with
      | some e =>
          have hsome : u.raised.isSome = true := by rw [hr]; rfl
          rw [feeds_raised hsome]
          refine ⟨(at_raised hat hsome _).symm, fun hnone => ?_⟩
          rw [hnone] at hr
          cases hr
      | none =>
          by_cases hc : c = []
          · rw [hc, feed_nil] at hrest
            rw [List.foldl_cons, hc, feed_nil]
            exact ih hat (fun hne => hs (by rw [hc]; exact hne)) hrest
          · have hne : (c :: cs).flatten ≠ [] := List.append_ne_nil_of_left_ne_nil hc _
            obtain ⟨hat', hstate⟩ := at_feed ht hat hr hc (hs hne hr) halone
            rw [List.foldl_cons, List.flatten_cons, ← List.append_assoc]
            apply ih hat' ?_ hrest
            intro hmore hr' hheld
            rcases hstate hheld with hnil | htext
            · exact hsettled hmore hc hr' hnil
            · exact .inl htext

/-- Cut well, the bytes of the reads have the effect of the bytes in one. -/
theorem feed_chunks (s : Screen) {cs : List (List Byte)} (hwhole : HoldsAlone s cs.flatten)
    (hcuts : CutsWell s cs) : SameFeed (cs.foldl feed s) (s.feed cs.flatten) := by
  induction cs with
  | nil => exact .of_eq (feed_nil s).symm
  | cons c cs ih =>
      cases hr : s.raised with
      | some e =>
          have hsome : s.raised.isSome = true := by rw [hr]; rfl
          rw [feeds_raised hsome, feed_raised hsome]
          exact .of_eq rfl
      | none =>
          obtain ⟨halone, hsettled, hrest⟩ := hcuts
          by_cases hc : c = []
          · rw [hc, feed_nil] at hrest
            rw [hc, List.flatten_cons, List.nil_append] at hwhole
            rw [hc, List.foldl_cons, feed_nil, List.flatten_cons, List.nil_append]
            exact ih hwhole hrest
          · have hne : (c :: cs).flatten ≠ [] := List.append_ne_nil_of_left_ne_nil hc _
            have hat : At (s.carry []) (s.pending ++ c) (s.feed c) := by
              rw [feed_whole hc hr halone]
              exact whole_alone rfl (halone hc hr)
            rw [List.foldl_cons, feed_whole hne hr hwhole, List.flatten_cons, ← List.append_assoc]
            exact at_feeds rfl hat (fun hmore => hsettled hmore hc) hrest

end Reads

/-- Box-drawing characters, cut inside the first and between the second and third. -/
theorem feed_chunks_box : SameFeed
    ([[0xe2], [0x94, 0x8c, 0xe2, 0x94, 0x80], [0xe2, 0x94, 0x90]].foldl feed (init 2 5 10))
    ((init 2 5 10).feed [[0xe2], [0x94, 0x8c, 0xe2, 0x94, 0x80], [0xe2, 0x94, 0x90]].flatten) :=
  feed_chunks _ (by decide) (by decide)

/-- Cut inside the second character, both are lost: the bytes of the first are collected
behind those held back. -/
theorem feed_mixes : ¬ SameFeed ([[0xe2, 0x94, 0x80, 0xe2, 0x94], [0x80]].foldl feed (init 2 5 10))
    ((init 2 5 10).feed [0xe2, 0x94, 0x80, 0xe2, 0x94, 0x80]) ∧
    ((init 2 5 10).feed [0xe2, 0x94, 0x80, 0xe2, 0x94, 0x80]).allLines = [['─', '─']] ∧
    ([[0xe2, 0x94, 0x80, 0xe2, 0x94], [0x80]].foldl feed (init 2 5 10)).allLines =
      [['\uFFFD']] := by
  refine ⟨fun h => ?_, by decide +kernel, by decide +kernel⟩
  have hlines := congrArg allLines h.same
  revert hlines
  decide +kernel

end Screen
end P4Hyp
