import P4Hyp.Lib.Memory
import Mathlib.Data.List.Induction

/-!
# Writing range by range

A run of steps that may each stop it.  When a step writes only in a range of its
own, and the ranges lie apart, every range is found at the end as its step left
it, and the step found it as it was at the start.
-/

namespace P4Hyp

universe u

theorem bind_eq_ok {ε : Type*} {α β : Type u} {x : Except ε α} {f : α → Except ε β} {b : β} :
    x >>= f = .ok b ↔ ∃ a, x = .ok a ∧ f a = .ok b := by
  cases x with
  | error e => exact iff_of_false (fun h => nomatch h) fun ⟨_, h, _⟩ => nomatch h
  | ok a =>
      constructor
      · exact fun h => ⟨a, rfl, h⟩
      · rintro ⟨_, h, hb⟩
        cases h
        exact hb

section Fold

variable {ε α σ : Type*} {step : σ → α → Except ε σ}

theorem foldlM_append_eq_ok {l m : List α} {s s' : σ} :
    (l ++ m).foldlM step s = .ok s' ↔ ∃ t, l.foldlM step s = .ok t ∧ m.foldlM step t = .ok s' := by
  rw [List.foldlM_append, bind_eq_ok]

theorem foldlM_cons_eq_ok {a : α} {l : List α} {s s' : σ} :
    (a :: l).foldlM step s = .ok s' ↔ ∃ t, step s a = .ok t ∧ l.foldlM step t = .ok s' := by
  rw [List.foldlM_cons, bind_eq_ok]

theorem mem_of_mapM_eq_ok {ε β : Type*} {α : Type u} {f : β → Except ε α} {l : List β} {as : List α}
    (h : l.mapM f = .ok as) {a : α} (ha : a ∈ as) : ∃ b ∈ l, f b = .ok a := by
  induction l generalizing as with
  | nil =>
      cases h
      cases ha
  | cons b l ih =>
      rw [List.mapM_cons] at h
      obtain ⟨a', ha', htail⟩ := bind_eq_ok.1 h
      obtain ⟨as', has', heq⟩ := bind_eq_ok.1 htail
      cases heq
      rcases List.mem_cons.1 ha with rfl | ha
      · exact ⟨b, List.mem_cons_self, ha'⟩
      · obtain ⟨c, hc, hfc⟩ := ih has' ha
        exact ⟨c, List.mem_cons_of_mem b hc, hfc⟩

/-- In a run that ends every step was taken. -/
theorem step_of_mem {l : List α} {s s' : σ} (h : l.foldlM step s = .ok s') {a : α} (ha : a ∈ l) :
    ∃ t t', step t a = .ok t' := by
  obtain ⟨pre, post, rfl⟩ := List.append_of_mem ha
  obtain ⟨t, -, hrest⟩ := foldlM_append_eq_ok.1 h
  obtain ⟨t', hstep, -⟩ := foldlM_cons_eq_ok.1 hrest
  exact ⟨t, t', hstep⟩

/-- What every step keeps, a run keeps. -/
theorem foldlM_keeps {P : σ → Prop} {l : List α}
    (hstep : ∀ a ∈ l, ∀ s s', step s a = .ok s' → P s → P s') {s s' : σ}
    (h : l.foldlM step s = .ok s') (hs : P s) : P s' := by
  induction l generalizing s with
  | nil =>
      cases h
      exact hs
  | cons a l ih =>
      obtain ⟨t, ht, hl⟩ := foldlM_cons_eq_ok.1 h
      exact ih (fun b hb => hstep b (List.mem_cons_of_mem a hb)) hl
        (hstep a List.mem_cons_self s t ht hs)

/-- To read each item when its turn comes is to have read them all before. -/
theorem foldlM_read_eq_ok {ε β : Type*} {σ α : Type u} {step : σ → α → Except ε σ}
    {read : β → Except ε α} {l : List β} {s s' : σ} :
    l.foldlM (fun s k => read k >>= step s) s = .ok s' ↔
      ∃ as, l.mapM read = .ok as ∧ as.foldlM step s = .ok s' := by
  induction l generalizing s with
  | nil =>
      constructor
      · exact fun h => ⟨[], rfl, h⟩
      · rintro ⟨as, has, h⟩
        cases has
        exact h
  | cons k l ih =>
      rw [foldlM_cons_eq_ok]
      constructor
      · rintro ⟨t, ht, hl⟩
        obtain ⟨a, ha, hstep⟩ := bind_eq_ok.1 ht
        obtain ⟨as, has, hrest⟩ := ih.1 hl
        refine ⟨a :: as, ?_, foldlM_cons_eq_ok.2 ⟨t, hstep, hrest⟩⟩
        rw [List.mapM_cons, ha, has]
        rfl
      · rintro ⟨as, has, h⟩
        rw [List.mapM_cons] at has
        obtain ⟨a, ha, htail⟩ := bind_eq_ok.1 has
        obtain ⟨bs, hbs, heq⟩ := bind_eq_ok.1 htail
        obtain rfl : a :: bs = as := Except.ok.inj heq
        obtain ⟨t, hstep, hrest⟩ := foldlM_cons_eq_ok.1 h
        exact ⟨t, bind_eq_ok.2 ⟨a, ha, hstep⟩, ih.2 ⟨bs, hbs, hrest⟩⟩

end Fold

/-! ## Ranges -/

section Ranges

variable {ε σ α : Type*} {step : σ → α → Except ε σ} {mem : σ → Mem} {start : α → Word}
  {len : α → Nat}

/-- A step writes in its own range alone. -/
def Local (step : σ → α → Except ε σ) (mem : σ → Mem) (start : α → Word) (len : α → Nat) : Prop :=
  ∀ a s s', step s a = .ok s' → ∀ x, ¬ Covers (start a) (len a) x → mem s' x = mem s x

theorem Local.outside (hlocal : Local step mem start len) {l : List α} {s s' : σ} {x : Word}
    (h : l.foldlM step s = .ok s') (hx : ∀ a ∈ l, ¬ Covers (start a) (len a) x) :
    mem s' x = mem s x := by
  refine foldlM_keeps (P := fun t => mem t x = mem s x) ?_ h rfl
  intro a ha t t' ht heq
  exact (hlocal a t t' ht x (hx a ha)).trans heq

/-- The two ranges share no byte. -/
def ApartIn (start : α → Word) (len : α → Nat) (a b : α) : Prop :=
  Apart (start a) (len a) (start b) (len b)

instance (start : α → Word) (len : α → Nat) (a b : α) : Decidable (ApartIn start len a b) :=
  inferInstanceAs (Decidable (Apart _ _ _ _))

theorem Local.at_range (hlocal : Local step mem start len) {pre post : List α} {a : α} {s s' : σ}
    (h : (pre ++ a :: post).foldlM step s = .ok s') (hpre : ∀ b ∈ pre, ApartIn start len a b)
    (hpost : ∀ b ∈ post, ApartIn start len a b) :
    ∃ t t', pre.foldlM step s = .ok t ∧ step t a = .ok t' ∧
      Mem.AgreeOn (mem s) (mem t) (start a) (len a) ∧
      Mem.AgreeOn (mem t') (mem s') (start a) (len a) := by
  obtain ⟨t, ht, hrest⟩ := foldlM_append_eq_ok.1 h
  obtain ⟨t', hstep, hlast⟩ := foldlM_cons_eq_ok.1 hrest
  refine ⟨t, t', ht, hstep, ?_, ?_⟩
  · intro x hx
    exact hlocal.outside ht fun b hb => hpre b hb x hx
  · intro x hx
    exact hlocal.outside hlast fun b hb => hpost b hb x hx

end Ranges

end P4Hyp
