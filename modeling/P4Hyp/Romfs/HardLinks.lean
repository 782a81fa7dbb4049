import P4Hyp.Lib.Forest
import P4Hyp.Romfs.Check

/-!
# Hard links

The checker goes from one hard link to the next until it comes to an inode, to something
that is no header, or round in a circle.
-/

namespace P4Hyp.Romfs

/-! ## Exceptions -/

/-- An exception of the reader, no assertion. -/
def Stop.Raised : Stop → Prop
  | .structError | .valueError | .unicodeDecodeError => True
  | .assertion _ | .fuel => False

theorem raised_bind {β γ : Type} {x : Except Stop β} {f : β → Except Stop γ} {e : Stop}
    (h : x >>= f = .error e) (hx : x = .error e → e.Raised) (hf : ∀ b, f b = .error e → e.Raised) :
    e.Raised := by
  cases x with
  | error e' => exact hx (congrArg Except.error (Except.error.inj h))
  | ok b => exact hf b h

theorem decode_raised {l : List Byte} {e : Stop} (h : decode l = .error e) : e.Raised := by
  have hcons {l : List Byte} {c : Char} (ih : decode l = .error e → e.Raised)
      (h : (do return c :: (← decode l)) = Except.error e) : e.Raised :=
    raised_bind h ih fun _ hc => nomatch hc
  fun_induction decode l with
  | case1 => cases h
  | case2 _ _ _ ih => exact hcons ih h
  | case3 _ _ _ _ _ _ ih => exact hcons ih h
  | case4 _ _ _ _ _ _ _ _ ih => exact hcons ih h
  | case5 _ _ _ _ _ _ _ _ _ _ ih => exact hcons ih h
  | _ =>
      cases h
      trivial

theorem indexNul_raised {img : List Byte} {pos : Nat} {e : Stop} (h : indexNul img pos = .error e) :
    e.Raised := by
  unfold indexNul at h
  split at h
  · cases h
  · cases h
    trivial

theorem hdr_raised {img : List Byte} {pos : Nat} {e : Stop} (h : hdr img pos = .error e) :
    e.Raised := by
  unfold hdr at h
  split at h
  · refine raised_bind h indexNul_raised fun _ hname => ?_
    exact raised_bind hname decode_raised fun _ hc => nomatch hc
  · cases h
    trivial

/-! ## Hard links -/

/-- The hard links from `pos` lead to the inode at `p`. -/
inductive Inode (img : List Byte) : Nat → Nat → Hdr → Prop
  | here {pos : Nat} {h : Hdr} : hdr img pos = .ok h → h.nxt % 8 ≠ Kind.hrd → Inode img pos pos h
  | link {pos p : Nat} {h t : Hdr} : hdr img pos = .ok h → h.nxt % 8 = Kind.hrd →
      Inode img (mask15 h.spec) p t → Inode img pos p t

/-- Where the hard link at `pos` leads, if one can be read there. -/
def hop (img : List Byte) (pos : Nat) : Option Nat :=
  match hdr img pos with
  | .ok h => if h.nxt % 8 = Kind.hrd then some (mask15 h.spec) else none
  | .error _ => none

section Resolve

variable {img : List Byte} {pos p p' fuel : Nat} {h t t' : Hdr} {e : Stop}

theorem hop_link (hh : hdr img pos = .ok h) (hk : h.nxt % 8 = Kind.hrd) :
    hop img pos = some (mask15 h.spec) := by
  simp only [hop, hh, if_pos hk]

theorem resolve_here (hh : hdr img pos = .ok h) (hk : h.nxt % 8 ≠ Kind.hrd) :
    resolve img (fuel + 1) pos = .ok (pos, h) := by
  rw [resolve, hh]
  exact if_pos hk

theorem resolve_link (hh : hdr img pos = .ok h) (hk : h.nxt % 8 = Kind.hrd) :
    resolve img (fuel + 1) pos = resolve img fuel (mask15 h.spec) := by
  rw [resolve, hh]
  exact if_neg (not_not.mpr hk)

theorem resolve_error (hh : hdr img pos = .error e) : resolve img (fuel + 1) pos = .error e := by
  rw [resolve, hh]
  rfl

theorem Inode.target (hi : Inode img pos p t) : Inode img p p t := by
  induction hi with
  | here hh hk => exact .here hh hk
  | link _ _ _ ih => exact ih

theorem Inode.hdr_eq (hi : Inode img pos p t) : ∃ h, hdr img pos = .ok h := by
  cases hi with
  | here hh _ => exact ⟨_, hh⟩
  | link hh _ _ => exact ⟨_, hh⟩

theorem Inode.unique (hi : Inode img pos p t) (hi' : Inode img pos p' t') : p = p' ∧ t = t' := by
  induction hi with
  | here hh hk =>
      cases hi' with
      | here hh' _ => exact ⟨rfl, Except.ok.inj (hh.symm.trans hh')⟩
      | link hh' hk' _ =>
          obtain rfl := Except.ok.inj (hh.symm.trans hh')
          exact absurd hk' hk
  | link hh hk _ ih =>
      cases hi' with
      | here hh' hk' =>
          obtain rfl := Except.ok.inj (hh.symm.trans hh')
          exact absurd hk hk'
      | link hh' _ hrest =>
          obtain rfl := Except.ok.inj (hh.symm.trans hh')
          exact ih hrest

theorem Inode.not_endless (hi : Inode img pos p t) : ¬ Endless (hop img) (some pos) := by
  induction hi with
  | @here pos h hh hk =>
      intro hend
      refine hend 1 ?_
      show hop img pos = none
      simp only [hop, hh, if_neg hk]
  | @link pos p h t hh hk _ ih =>
      intro hend
      have hrest := hend.bind
      rw [Option.bind_some, hop_link hh hk] at hrest
      exact ih hrest

theorem Inode.resolve (hi : Inode img pos p t) :
    ∃ least, ∀ fuel ≥ least, resolve img fuel pos = .ok (p, t) := by
  induction hi with
  | here hh hk =>
      refine ⟨1, fun fuel hfuel => ?_⟩
      obtain ⟨fuel, rfl⟩ := Nat.exists_eq_add_of_le' hfuel
      exact resolve_here hh hk
  | link hh hk _ ih =>
      obtain ⟨least, hleast⟩ := ih
      refine ⟨least + 1, fun fuel hfuel => ?_⟩
      obtain ⟨fuel, rfl⟩ : ∃ k, fuel = k + 1 := ⟨fuel - 1, by omega⟩
      rw [resolve_link hh hk]
      exact hleast fuel (by omega)

theorem inode_of_resolve (hr : Romfs.resolve img fuel pos = .ok (p, t)) : Inode img pos p t := by
  induction fuel generalizing pos with
  | zero => cases hr
  | succ fuel ih =>
      cases hh : hdr img pos with
      | error e =>
          rw [resolve_error hh] at hr
          cases hr
      | ok h =>
          by_cases hk : h.nxt % 8 = Kind.hrd
          · rw [resolve_link hh hk] at hr
            exact .link hh hk (ih hr)
          · rw [resolve_here hh hk] at hr
            cases hr
            exact .here hh hk

/-- In a circle the checker goes round as long as it may. -/
theorem resolve_endless (hend : Endless (hop img) (some pos)) (fuel : Nat) :
    Romfs.resolve img fuel pos = .error .fuel := by
  induction fuel generalizing pos with
  | zero => rfl
  | succ fuel ih =>
      have hrest := hend.bind
      rw [Option.bind_some] at hrest
      cases hh : hdr img pos with
      | error e =>
          have hnone : hop img pos = none := by simp only [hop, hh]
          exact absurd hnone hrest.ne_none
      | ok h =>
          by_cases hk : h.nxt % 8 = Kind.hrd
          · rw [resolve_link hh hk]
            rw [hop_link hh hk] at hrest
            exact ih hrest
          · have hnone : hop img pos = none := by simp only [hop, hh, if_neg hk]
            exact absurd hnone hrest.ne_none

/-- Hard links that neither end at an inode nor go on for ever come to something that is no
header. -/
theorem resolve_raised (hno : ∀ p t, ¬ Inode img pos p t) (hend : ¬ Endless (hop img) (some pos)) :
    ∃ e least, e.Raised ∧ ∀ fuel ≥ least, Romfs.resolve img fuel pos = .error e := by
  obtain ⟨i, hi⟩ : ∃ i, chain (hop img) (some pos) i = none := by
    by_contra hall
    exact hend fun i hi => hall ⟨i, hi⟩
  induction i generalizing pos with
  | zero => cases hi
  | succ i ih =>
      cases hh : hdr img pos with
      | error e =>
          refine ⟨e, 1, hdr_raised hh, fun fuel hfuel => ?_⟩
          obtain ⟨fuel, rfl⟩ := Nat.exists_eq_add_of_le' hfuel
          exact resolve_error hh
      | ok h =>
          by_cases hk : h.nxt % 8 = Kind.hrd
          · have hrest : chain (hop img) (some (mask15 h.spec)) i = none := by
              rw [← hop_link hh hk]
              exact hi
            obtain ⟨e, least, he, hleast⟩ := ih (fun p t hi => hno p t (.link hh hk hi))
              (fun hend => hend i hrest) hrest
            refine ⟨e, least + 1, he, fun fuel hfuel => ?_⟩
            obtain ⟨fuel, rfl⟩ : ∃ k, fuel = k + 1 := ⟨fuel - 1, by omega⟩
            rw [resolve_link hh hk]
            exact hleast fuel (by omega)
          · exact absurd (.here hh hk) (hno pos h)

/-- What stops the checker on its way along hard links. -/
theorem resolve_error_cases (hr : Romfs.resolve img fuel pos = .error e) (he : e ≠ .fuel) :
    e.Raised ∧ (∀ p t, ¬ Inode img pos p t) ∧ ¬ Endless (hop img) (some pos) := by
  have hend : ¬ Endless (hop img) (some pos) := by
    intro hend
    rw [resolve_endless hend] at hr
    exact he (Except.error.inj hr).symm
  suffices hno : e.Raised ∧ ∀ p t, ¬ Inode img pos p t from ⟨hno.1, hno.2, hend⟩
  clear hend
  induction fuel generalizing pos with
  | zero => exact absurd (Except.error.inj hr).symm he
  | succ fuel ih =>
      cases hh : hdr img pos with
      | error e' =>
          rw [resolve_error hh] at hr
          obtain rfl := Except.error.inj hr
          refine ⟨hdr_raised hh, fun p t hi => ?_⟩
          obtain ⟨h, hh'⟩ := hi.hdr_eq
          cases hh.symm.trans hh'
      | ok h =>
          by_cases hk : h.nxt % 8 = Kind.hrd
          · rw [resolve_link hh hk] at hr
            obtain ⟨hraised, hno⟩ := ih hr
            refine ⟨hraised, fun p t hi => ?_⟩
            cases hi with
            | here hh' hk' =>
                obtain rfl := Except.ok.inj (hh.symm.trans hh')
                exact hk' hk
            | link hh' _ hrest =>
                obtain rfl := Except.ok.inj (hh.symm.trans hh')
                exact hno p t hrest
          · rw [resolve_here hh hk] at hr
            cases hr

end Resolve

end P4Hyp.Romfs
