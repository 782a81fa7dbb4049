import P4Hyp.Romfs.HardLinks

/-!
# Images with links in circles

An image's links are three: to the next entry of a directory, to what is below one, and to
the inode that a hard link stands for.  The checker bounds how deep it goes, and follows
the other two as far as they lead.
-/

namespace P4Hyp.Romfs

/-! ## The walk -/

/-- What the walk is at: the root, or the entry at an offset. -/
inductive Ref
  | root
  | entry (off : Nat)

/-- The entry that a link leads to, if it does. -/
def linkTo (size link : Nat) : Option Ref :=
  if mask15 link ≠ 0 ∧ mask15 link < size then some (.entry (mask15 link)) else none

/-- Where an exception leaves the walk. -/
def unreadable (raises : Bool) : Spot Ref := if raises then .stop else .lost

section Links

variable (img : List Byte) (raises : Bool)

open Classical in
/-- What the inode behind the hard links makes of an entry. -/
noncomputable def follow (pos : Nat) (f : Hdr → Spot Ref) : Spot Ref :=
  if h : ∃ r : Nat × Hdr, Inode img pos r.1 r.2 then f h.choose.2
  else if Endless (hop img) (some pos) then .lost
  else unreadable raises

/-- The links of an image as a forest.  With `raises` an exception is an end of the walk. -/
noncomputable def links : Forest Ref where
  spot
    | .root =>
        match rootOf img with
        | .ok pos => follow img raises pos fun dir => .node (linkTo img.length dir.spec)
        | .error _ => unreadable raises
    | .entry off =>
        match hdr img off with
        | .ok entry => follow img raises off fun target =>
            if entry.name = ['.'] ∨ entry.name = ['.', '.'] then .leaf
            else if target.nxt % 8 = Kind.dir then .node (linkTo img.length target.spec)
            else .leaf
        | .error _ => unreadable raises
  next
    | .root => none
    | .entry off =>
        match hdr img off with
        | .ok entry => linkTo img.length entry.nxt
        | .error _ => none

/-- The ways an entry can be. -/
inductive Sees (off : Nat) : Spot Ref → Prop
  | circle : Endless (hop img) (some off) → Sees off .lost
  | raised : (∀ p t, ¬ Inode img off p t) → ¬ Endless (hop img) (some off) →
    Sees off (unreadable raises)
  | leaf {entry t : Hdr} {p : Nat} : hdr img off = .ok entry → Inode img off p t →
      (entry.name = ['.'] ∨ entry.name = ['.', '.']) ∨ t.nxt % 8 ≠ Kind.dir → Sees off .leaf
  | node {entry t : Hdr} {p : Nat} : hdr img off = .ok entry → Inode img off p t →
      ¬ (entry.name = ['.'] ∨ entry.name = ['.', '.']) → t.nxt % 8 = Kind.dir →
      Sees off (.node (linkTo img.length t.spec))

end Links

section Walk

variable {img : List Byte} {raises : Bool} {off pos p fuel : Nat} {entry t : Hdr} {f : Hdr →
  Spot Ref}

theorem follow_inode (h : Inode img pos p t) : follow img raises pos f = f t := by
  have hex : ∃ r : Nat × Hdr, Inode img pos r.1 r.2 := ⟨(p, t), h⟩
  rw [follow, dif_pos hex, (hex.choose_spec.unique h).2]

theorem follow_circle (h : Endless (hop img) (some pos)) : follow img raises pos f = .lost := by
  rw [follow, dif_neg fun ⟨_, hi⟩ => hi.not_endless h, if_pos h]

theorem follow_raised (hno : ∀ p t, ¬ Inode img pos p t) (hend : ¬ Endless (hop img) (some pos)) :
    follow img raises pos f = unreadable raises := by
  rw [follow, dif_neg fun ⟨_, hi⟩ => hno _ _ hi, if_neg hend]

theorem Stop.Raised.ne_fuel {e : Stop} (h : e.Raised) : e ≠ .fuel := by
  intro he
  rw [he] at h
  exact h

theorem hdr_error_cases {e : Stop} (h : hdr img off = .error e) :
    (∀ p t, ¬ Inode img off p t) ∧ ¬ Endless (hop img) (some off) :=
  have hr : resolve img 1 off = .error e := resolve_error h
  (resolve_error_cases hr (hdr_raised h).ne_fuel).2

/-! ### The spots -/

theorem spot_circle (h : Endless (hop img) (some off)) :
    (links img raises).spot (.entry off) = .lost := by
  unfold links
  dsimp only
  cases hh : hdr img off with
  | ok entry => exact follow_circle h
  | error e => exact absurd h (hdr_error_cases hh).2

theorem spot_raised (hno : ∀ p t, ¬ Inode img off p t) (hend : ¬ Endless (hop img) (some off)) :
    (links img raises).spot (.entry off) = unreadable raises := by
  unfold links
  dsimp only
  cases hh : hdr img off with
  | ok entry => exact follow_raised hno hend
  | error e => rfl

theorem spot_inode (hh : hdr img off = .ok entry) (hi : Inode img off p t) :
    (links img raises).spot (.entry off) =
      if entry.name = ['.'] ∨ entry.name = ['.', '.'] then .leaf
      else if t.nxt % 8 = Kind.dir then .node (linkTo img.length t.spec) else .leaf := by
  unfold links
  dsimp only
  rw [hh]
  exact follow_inode hi

theorem spot_leaf (hh : hdr img off = .ok entry) (hi : Inode img off p t)
    (hleaf : (entry.name = ['.'] ∨ entry.name = ['.', '.']) ∨ t.nxt % 8 ≠ Kind.dir) :
    (links img raises).spot (.entry off) = .leaf := by
  rw [spot_inode hh hi]
  split
  · rfl
  · rw [if_neg (hleaf.resolve_left ‹_›)]

theorem spot_node (hh : hdr img off = .ok entry) (hi : Inode img off p t)
    (hname : ¬ (entry.name = ['.'] ∨ entry.name = ['.', '.'])) (hdir : t.nxt % 8 = Kind.dir) :
    (links img raises).spot (.entry off) = .node (linkTo img.length t.spec) := by
  rw [spot_inode hh hi, if_neg hname, if_pos hdir]

variable (img raises) in
theorem sees (off : Nat) : Sees img raises off ((links img raises).spot (.entry off)) := by
  by_cases hex : ∃ p t, Inode img off p t
  · obtain ⟨p, t, hi⟩ := hex
    obtain ⟨entry, hh⟩ := hi.hdr_eq
    by_cases hleaf : (entry.name = ['.'] ∨ entry.name = ['.', '.']) ∨ t.nxt % 8 ≠ Kind.dir
    · rw [spot_leaf hh hi hleaf]
      exact .leaf hh hi hleaf
    · obtain ⟨hname, hdir⟩ := not_or.mp hleaf
      rw [spot_node hh hi hname (not_not.mp hdir)]
      exact .node hh hi hname (not_not.mp hdir)
  · have hno : ∀ p t, ¬ Inode img off p t := fun p t hi => hex ⟨p, t, hi⟩
    by_cases hend : Endless (hop img) (some off)
    · rw [spot_circle hend]
      exact .circle hend
    · rw [spot_raised hno hend]
      exact .raised hno hend

theorem unreadable_cases (raises : Bool) :
    unreadable raises = .lost ∧ raises = false ∨ unreadable raises = .stop ∧ raises = true := by
  cases raises with
  | false => exact .inl ⟨rfl, rfl⟩
  | true => exact .inr ⟨rfl, rfl⟩

theorem spot_eq_stop (h : (links img raises).spot (.entry off) = .stop) :
    raises = true ∧ (∀ p t, ¬ Inode img off p t) ∧ ¬ Endless (hop img) (some off) := by
  have hsees := sees img raises off
  generalize hs : (links img raises).spot (.entry off) = s at h hsees
  cases hsees with
  | circle _ => cases h
  | raised hno hend =>
      rcases unreadable_cases raises with ⟨hlost, -⟩ | ⟨-, hraises⟩
      · rw [hlost] at h
        cases h
      · exact ⟨hraises, hno, hend⟩
  | leaf _ _ _ => cases h
  | node _ _ _ _ => cases h

theorem spot_eq_leaf (h : (links img raises).spot (.entry off) = .leaf) :
    ∃ entry p t, hdr img off = .ok entry ∧ Inode img off p t ∧
      ((entry.name = ['.'] ∨ entry.name = ['.', '.']) ∨ t.nxt % 8 ≠ Kind.dir) := by
  have hsees := sees img raises off
  generalize hs : (links img raises).spot (.entry off) = s at h hsees
  cases hsees with
  | circle _ => cases h
  | raised _ _ => cases raises <;> cases h
  | leaf hh hi hleaf => exact ⟨_, _, _, hh, hi, hleaf⟩
  | node _ _ _ _ => cases h

theorem spot_eq_node {y : Option Ref} (h : (links img raises).spot (.entry off) = .node y) :
    ∃ entry p t, hdr img off = .ok entry ∧ Inode img off p t ∧
      ¬ (entry.name = ['.'] ∨ entry.name = ['.', '.']) ∧ t.nxt % 8 = Kind.dir ∧
      y = linkTo img.length t.spec := by
  have hsees := sees img raises off
  generalize hs : (links img raises).spot (.entry off) = s at h hsees
  cases hsees with
  | circle _ => cases h
  | raised _ _ => cases raises <;> cases h
  | leaf _ _ _ => cases h
  | node hh hi hname hdir => exact ⟨_, _, _, hh, hi, hname, hdir, (Spot.node.inj h).symm⟩

theorem next_entry (hh : hdr img off = .ok entry) :
    (links img raises).next (.entry off) = linkTo img.length entry.nxt := by
  unfold links
  dsimp only
  rw [hh]

/-! ### The loop -/

variable {size depth link : Nat} {path : Str} {found : Dict} {e : Stop}

/-- What the loop does with an entry when it has found the inode. -/
def enter (img : List Byte) (size fuel : Nat) (entry : Hdr) (p : Nat) (target : Hdr) (path : Str)
    (depth : Nat) (found : Dict) : Except Stop Dict :=
  let full := path ++ '/' :: entry.name
  if entry.name = ['.'] ∨ entry.name = ['.', '.'] then pure found
  else if target.nxt % 8 = Kind.dir then walk img size fuel p full (depth + 1) (found.set full .dir)
  else if target.nxt % 8 = Kind.sym then do
    pure (found.set full (.sym (← data img p target.sz)))
  else if target.nxt % 8 = Kind.reg then do
    pure (found.set full (.reg (← data img p target.sz)))
  else pure (found.set full .other)

theorem entries_end (h : ¬ (off ≠ 0 ∧ off < size)) :
    entries img size (fuel + 1) off path depth found = .ok found := by
  rw [entries, if_neg h]
  rfl

theorem entries_hdr_error (h : off ≠ 0 ∧ off < size) (hh : hdr img off = .error e) :
    entries img size (fuel + 1) off path depth found = .error e := by
  rw [entries, if_pos h, hh]
  rfl

theorem entries_resolve_error (h : off ≠ 0 ∧ off < size) (hh : hdr img off = .ok entry)
    (hr : resolve img fuel off = .error e) :
    entries img size (fuel + 1) off path depth found = .error e := by
  rw [entries, if_pos h, hh, hr]
  rfl

theorem entries_entry (h : off ≠ 0 ∧ off < size) (hh : hdr img off = .ok entry)
    (hr : resolve img fuel off = .ok (p, t)) : entries img size (fuel + 1) off path depth found =
      (do
        let found ← enter img size fuel entry p t path depth found
        entries img size fuel (mask15 entry.nxt) path depth found) := by
  rw [entries, if_pos h, hh, hr]
  simp only [bind, Except.bind, enter]
  by_cases hname : entry.name = ['.'] ∨ entry.name = ['.', '.']
  · rw [if_pos hname, if_pos hname]
  · simp only [if_neg hname]
    by_cases hdir : t.nxt % 8 = Kind.dir
    · simp only [if_pos hdir]
    · simp only [if_neg hdir]
      by_cases hsym : t.nxt % 8 = Kind.sym
      · simp only [if_pos hsym]
        cases data img p t.sz <;> rfl
      · simp only [if_neg hsym]
        by_cases hreg : t.nxt % 8 = Kind.reg
        · simp only [if_pos hreg]
          cases data img p t.sz <;> rfl
        · rw [if_neg hreg, if_neg hreg]

theorem data_eq_ok (hh : hdr img pos = .ok entry) (sz : Nat) :
    ∃ bytes, data img pos sz = .ok bytes := by
  unfold data
  rw [hh]
  exact ⟨_, rfl⟩

theorem enter_leaf (hi : Inode img p p t)
    (hleaf : (entry.name = ['.'] ∨ entry.name = ['.', '.']) ∨ t.nxt % 8 ≠ Kind.dir) :
    ∃ found', ∀ fuel, enter img size fuel entry p t path depth found = .ok found' := by
  obtain ⟨h, hh⟩ := hi.hdr_eq
  obtain ⟨bytes, hbytes⟩ := data_eq_ok hh t.sz
  unfold enter
  dsimp only
  by_cases hname : entry.name = ['.'] ∨ entry.name = ['.', '.']
  · simp only [if_pos hname]
    exact ⟨found, fun _ => rfl⟩
  · simp only [if_neg hname, if_neg (hleaf.resolve_left hname), hbytes]
    split
    · exact ⟨_, fun _ => rfl⟩
    · split
      · exact ⟨_, fun _ => rfl⟩
      · exact ⟨_, fun _ => rfl⟩

theorem enter_node (hname : ¬ (entry.name = ['.'] ∨ entry.name = ['.', '.']))
    (hdir : t.nxt % 8 = Kind.dir) :
    enter img size fuel entry p t path depth found =
      walk img size fuel p (path ++ '/' :: entry.name)
      (depth + 1) (found.set (path ++ '/' :: entry.name) .dir) := by
  unfold enter
  dsimp only
  rw [if_neg hname, if_pos hdir]

theorem walk_deep (h : ¬ depth < 40) : walk img size (fuel + 1) pos path depth found =
    .error (.assertion ("runaway at ".toList ++ path)) := by
  rw [walk, if_pos h]
  rfl

theorem walk_error (h : depth < 40) (hr : resolve img fuel pos = .error e) :
    walk img size (fuel + 1) pos path depth found = .error e := by
  rw [walk, if_neg (not_not.mpr h), hr]
  rfl

theorem walk_inode (h : depth < 40) (hr : resolve img fuel pos = .ok (p, t)) :
    walk img size (fuel + 1) pos path depth found =
      entries img size fuel (mask15 t.spec) path depth found := by
  rw [walk, if_neg (not_not.mpr h), hr]
  rfl

/-! ### What the walk comes to -/

/-- The walk has come to an end with it: an assertion, or with `raises` any exception. -/
def Stop.Ends (raises : Bool) : Stop → Prop
  | .assertion _ => True
  | .fuel => False
  | .structError | .valueError | .unicodeDecodeError => raises = true

theorem Stop.Raised.ends_iff {raises : Bool} (h : e.Raised) : e.Ends raises ↔ raises = true := by
  cases e with
  | structError => exact Iff.rfl
  | valueError => exact Iff.rfl
  | unicodeDecodeError => exact Iff.rfl
  | assertion text => exact h.elim
  | fuel => exact h.elim

theorem Stop.Ends.ne_fuel (h : e.Ends raises) : e ≠ .fuel := by
  intro he
  rw [he] at h
  exact h

def outcome : Except Stop Dict → Forest.Outcome
  | .ok _ => .done
  | .error _ => .stopped

theorem linkTo_eq_none (h : ¬ (mask15 link ≠ 0 ∧ mask15 link < size)) :
    linkTo size link = none := if_neg h

theorem linkTo_eq_some (h : mask15 link ≠ 0 ∧ mask15 link < size) :
    linkTo size link = some (.entry (mask15 link)) := if_pos h

variable (img raises fuel) in
/-- Where the loop comes to an end with the fuel, the walk through the forest does. -/
def Follows : Prop :=
  ∀ {link : Nat} {path : Str} {depth : Nat} {found : Dict} {n : Nat} {r : Except Stop Dict},
    n + depth = 39 → entries img img.length fuel (mask15 link) path depth found = r →
    (∀ e, r = .error e → e.Ends raises) →
    (links img raises).Visits n (linkTo img.length link) (outcome r)

variable {n : Nat} {r : Except Stop Dict}

theorem Follows.walk (hf : ∀ k < fuel, Follows img raises k) (hi : Inode img p p t)
    (hn : n + depth = 39) (h : Romfs.walk img img.length fuel p path (depth + 1) found = r)
    (hr : ∀ e, r = .error e → e.Ends raises) :
    (n = 0 ∧ outcome r = .stopped) ∨
      ∃ m, n = m + 1 ∧ (links img raises).Visits m (linkTo img.length t.spec) (outcome r) := by
  cases fuel with
  | zero =>
      rw [Romfs.walk] at h
      obtain rfl := h
      exact absurd rfl (hr .fuel rfl).ne_fuel
  | succ fuel =>
      by_cases hdeep : depth + 1 < 40
      · right
        cases hres : resolve img fuel p with
        | error e =>
            rw [walk_error hdeep hres] at h
            obtain rfl := h
            obtain ⟨-, hno, -⟩ := resolve_error_cases hres (hr e rfl).ne_fuel
            exact absurd hi (hno p t)
        | ok inode =>
            obtain ⟨q, u⟩ := inode
            obtain ⟨-, rfl⟩ := (inode_of_resolve hres).unique hi
            rw [walk_inode hdeep hres] at h
            exact ⟨n - 1, by omega, hf fuel (Nat.lt_succ_self fuel) (by omega) h hr⟩
      · left
        rw [walk_deep hdeep] at h
        obtain rfl := h
        exact ⟨by omega, rfl⟩

/-- An entry with an inode, and all that comes after it. -/
theorem Follows.inode (hf : ∀ k ≤ fuel, Follows img raises k) (hh : hdr img off = .ok entry)
    (hi : Inode img off p t) (hn : n + depth = 39) (hr : ∀ e, r = .error e → e.Ends raises)
    (h : (do
      let found ← enter img img.length fuel entry p t path depth found
      entries img img.length fuel (mask15 entry.nxt) path depth found) = r) :
    (links img raises).Visits n (some (.entry off)) (outcome r) := by
  have hrest {found' : Dict} (h : entries img img.length fuel (mask15 entry.nxt) path depth found' =
      r) :
      (links img raises).Visits n ((links img raises).next (.entry off)) (outcome r) := by
    rw [next_entry hh]
    exact hf fuel (Nat.le_refl fuel) hn h hr
  by_cases hleaf : (entry.name = ['.'] ∨ entry.name = ['.', '.']) ∨ t.nxt % 8 ≠ Kind.dir
  · obtain ⟨found', hfound⟩ := enter_leaf hi.target hleaf
    rw [hfound] at h
    exact .leaf (spot_leaf hh hi hleaf) (hrest h)
  · obtain ⟨hname, hdir⟩ := not_or.mp hleaf
    have hdir : t.nxt % 8 = Kind.dir := not_not.mp hdir
    have hspot : (links img raises).spot (.entry off) = .node (linkTo img.length t.spec) :=
      spot_node hh hi hname hdir
    have hbelow {r' : Except Stop Dict} (h : Romfs.walk img img.length fuel p (path ++ '/' :: entry.name)
        (depth + 1) (found.set (path ++ '/' :: entry.name) .dir) = r')
        (hr : ∀ e, r' = .error e → e.Ends raises) :=
      Follows.walk (fun k hk => hf k (Nat.le_of_lt hk)) hi.target hn h hr
    rw [enter_node hname hdir] at h
    cases hwalk : Romfs.walk img img.length fuel p (path ++ '/' :: entry.name) (depth + 1)
        (found.set (path ++ '/' :: entry.name) .dir) with
    | error e =>
        rw [hwalk] at h
        obtain rfl := h
        rcases hbelow hwalk hr with ⟨rfl, -⟩ | ⟨m, rfl, hm⟩
        · exact .deep hspot
        · exact .under hspot hm
    | ok found' =>
        rw [hwalk] at h
        rcases hbelow hwalk (fun _ he => nomatch he) with ⟨-, hout⟩ | ⟨m, rfl, hm⟩
        · cases hout
        · exact .past hspot hm (hrest h)

theorem follows (fuel : Nat) : Follows img raises fuel := by
  induction fuel using Nat.strong_induction_on with
  | _ fuel ih =>
      intro link path depth found n r hn h hr
      cases fuel with
      | zero =>
          obtain rfl := h
          exact absurd rfl (hr .fuel rfl).ne_fuel
      | succ fuel =>
          by_cases hoff : mask15 link ≠ 0 ∧ mask15 link < img.length
          · rw [linkTo_eq_some hoff]
            cases hh : hdr img (mask15 link) with
            | error e =>
                rw [entries_hdr_error hoff hh] at h
                obtain rfl := h
                obtain rfl := (hdr_raised hh).ends_iff.mp (hr e rfl)
                obtain ⟨hno, hend⟩ := hdr_error_cases hh
                exact .stop (spot_raised hno hend)
            | ok entry =>
                cases hres : resolve img fuel (mask15 link) with
                | error e =>
                    rw [entries_resolve_error hoff hh hres] at h
                    obtain rfl := h
                    obtain ⟨hraised, hno, hend⟩ := resolve_error_cases hres (hr e rfl).ne_fuel
                    obtain rfl := hraised.ends_iff.mp (hr e rfl)
                    exact .stop (spot_raised hno hend)
                | ok inode =>
                    rw [entries_entry hoff hh hres] at h
                    exact Follows.inode (fun k hk => ih k (Nat.lt_succ_of_le hk)) hh
                      (inode_of_resolve hres) hn hr h
          · rw [entries_end hoff] at h
            obtain rfl := h
            rw [linkTo_eq_none hoff]
            exact .nil

/-- An entry that is its own next one. -/
theorem entries_circle (hoff : off ≠ 0 ∧ off < size)
    (hh : hdr img off = .ok entry) (hi : Inode img off p t)
    (hleaf : (entry.name = ['.'] ∨ entry.name = ['.', '.']) ∨ t.nxt % 8 ≠ Kind.dir)
    (hnext : mask15 entry.nxt = off) :
      entries img size fuel off path depth found = .error .fuel := by
  induction fuel generalizing found with
  | zero => rfl
  | succ fuel ih =>
      cases hres : resolve img fuel off with
      | error e =>
          rw [entries_resolve_error hoff hh hres]
          by_contra hne
          have he : e ≠ .fuel := fun he => hne (congrArg Except.error he)
          exact (resolve_error_cases hres he).2.1 p t hi
      | ok inode =>
          obtain ⟨q, u⟩ := inode
          obtain ⟨rfl, rfl⟩ := (inode_of_resolve hres).unique hi
          obtain ⟨found', hfound⟩ := enter_leaf hi.target hleaf
          rw [entries_entry hoff hh hres, hfound, hnext]
          exact ih

/-! ### What the forest comes to -/

/-- With enough fuel a run ends so. -/
def Settles (raises : Bool) (run : Nat → Except Stop Dict) (o : Forest.Outcome) : Prop :=
  ∃ r least, outcome r = o ∧ (∀ e, r = .error e → e.Ends raises) ∧ ∀ fuel ≥ least, run fuel = r

variable (img) in
/-- The loop over the entries from a link on. -/
def loopFrom (link : Nat) (path : Str) (depth : Nat) (found : Dict) (fuel : Nat) :
    Except Stop Dict :=
  entries img img.length fuel (mask15 link) path depth found

variable {o : Forest.Outcome} {a : Ref}

theorem linkTo_cases (h : some a = linkTo size link) :
    a = .entry (mask15 link) ∧ mask15 link ≠ 0 ∧ mask15 link < size := by
  unfold linkTo at h
  split at h
  · exact ⟨Option.some.inj h, ‹_›⟩
  · cases h

theorem settles_error {run : Nat → Except Stop Dict} {least : Nat}
    (h : ∀ fuel ≥ least, run (fuel + 1) = .error e) (he : e.Ends raises) :
      Settles raises run .stopped := by
  refine ⟨.error e, least + 1, rfl, fun _ hr => ?_, fun fuel hfuel => ?_⟩
  · obtain rfl := Except.error.inj hr
    exact he
  · obtain ⟨fuel, rfl⟩ : ∃ k, fuel = k + 1 := ⟨fuel - 1, by omega⟩
    exact h fuel (by omega)

theorem settles_end (hoff : ¬ (mask15 link ≠ 0 ∧ mask15 link < img.length)) :
    Settles raises (loopFrom img link path depth found) .done := by
  refine ⟨.ok found, 1, rfl, (fun _ he => nomatch he), fun fuel hfuel => ?_⟩
  obtain ⟨fuel, rfl⟩ := Nat.exists_eq_add_of_le' hfuel
  exact entries_end hoff

theorem settles_stop (hoff : mask15 link ≠ 0 ∧ mask15 link < img.length)
    (h : (links img raises).spot (.entry (mask15 link)) = .stop) :
    Settles raises (loopFrom img link path depth found) .stopped := by
  obtain ⟨hraises, hno, hend⟩ := spot_eq_stop h
  cases hh : hdr img (mask15 link) with
  | error e =>
      have hrun : ∀ fuel ≥ 0, loopFrom img link path depth found (fuel + 1) = .error e :=
        fun fuel _ => entries_hdr_error hoff hh
      exact settles_error hrun ((hdr_raised hh).ends_iff.mpr hraises)
  | ok entry =>
      obtain ⟨e, least, hraised, hleast⟩ := resolve_raised hno hend
      have hrun : ∀ fuel ≥ least, loopFrom img link path depth found (fuel + 1) = .error e :=
        fun fuel hfuel => entries_resolve_error hoff hh (hleast fuel hfuel)
      exact settles_error hrun (hraised.ends_iff.mpr hraises)

/-- An entry that the loop gets past. -/
theorem settles_past (hoff : mask15 link ≠ 0 ∧ mask15 link < img.length) {found' : Dict}
    {least : Nat} (hh : hdr img (mask15 link) = .ok entry) (hi : Inode img (mask15 link) p t)
    (henter : ∀ fuel ≥ least, enter img img.length fuel entry p t path depth found = .ok found')
    (h : Settles raises (loopFrom img entry.nxt path depth found') o) :
    Settles raises (loopFrom img link path depth found) o := by
  obtain ⟨r, least₁, hout, hr, hrest⟩ := h
  obtain ⟨least₂, hres⟩ := hi.resolve
  refine ⟨r, least + least₁ + least₂ + 1, hout, hr, fun fuel hfuel => ?_⟩
  obtain ⟨fuel, rfl⟩ : ∃ k, fuel = k + 1 := ⟨fuel - 1, by omega⟩
  rw [loopFrom, entries_entry hoff hh (hres fuel (by omega)), henter fuel (by omega)]
  exact hrest fuel (by omega)

/-- An entry that it ends at. -/
theorem settles_at (hoff : mask15 link ≠ 0 ∧ mask15 link < img.length) {least : Nat}
    (hh : hdr img (mask15 link) = .ok entry) (hi : Inode img (mask15 link) p t)
    (henter : ∀ fuel ≥ least, enter img img.length fuel entry p t path depth found = .error e)
    (he : e.Ends raises) : Settles raises (loopFrom img link path depth found) .stopped := by
  obtain ⟨least₂, hres⟩ := hi.resolve
  have hrun : ∀ fuel ≥ max least least₂,
      loopFrom img link path depth found (fuel + 1) = .error e := by
    intro fuel hfuel
    rw [loopFrom, entries_entry hoff hh (hres fuel (by omega)), henter fuel (by omega)]
    rfl
  exact settles_error hrun he

/-- What is below a directory, or the root. -/
theorem settles_walk (hi : Inode img pos p t) (hdepth : depth < 40)
    (h : Settles raises (loopFrom img t.spec path depth found) o) :
    Settles raises (fun fuel => walk img img.length fuel pos path depth found) o := by
  obtain ⟨r, least₁, hout, hr, hrest⟩ := h
  obtain ⟨least₂, hres⟩ := hi.resolve
  refine ⟨r, least₁ + least₂ + 1, hout, hr, fun fuel hfuel => ?_⟩
  obtain ⟨fuel, rfl⟩ : ∃ k, fuel = k + 1 := ⟨fuel - 1, by omega⟩
  show walk img img.length (fuel + 1) pos path depth found = r
  rw [walk_inode hdepth (hres fuel (by omega))]
  exact hrest fuel (by omega)

/-- What the loop does with a directory among the entries. -/
theorem settles_enter (hi : Inode img off p t) (hdepth : depth + 1 < 40)
    (hname : ¬ (entry.name = ['.'] ∨ entry.name = ['.', '.'])) (hdir : t.nxt % 8 = Kind.dir)
    (h : ∀ path found, Settles raises (loopFrom img t.spec path (depth + 1) found) o) :
    Settles raises (fun fuel => enter img img.length fuel entry p t path depth found) o := by
  have hwalk : Settles raises (fun fuel => walk img img.length fuel p (path ++ '/' :: entry.name)
      (depth + 1) (found.set (path ++ '/' :: entry.name) .dir)) o := settles_walk hi.target
        hdepth (h _ _)
  obtain ⟨r, least, hout, hr, hrun⟩ := hwalk
  refine ⟨r, least, hout, hr, fun fuel hfuel => ?_⟩
  show enter img img.length fuel entry p t path depth found = r
  rw [enter_node hname hdir]
  exact hrun fuel hfuel

theorem settles_of_visits {x : Option Ref} (h : (links img raises).Visits n x o)
    (hn : n + depth = 39) (hx : x = linkTo img.length link) (path : Str) (found : Dict) :
    Settles raises (loopFrom img link path depth found) o := by
  induction h generalizing link path depth found with
  | nil =>
      refine settles_end fun hoff => ?_
      rw [linkTo_eq_some hoff] at hx
      cases hx
  | stop ha =>
      obtain ⟨rfl, hoff⟩ := linkTo_cases hx
      exact settles_stop hoff ha
  | deep ha =>
      obtain ⟨rfl, hoff⟩ := linkTo_cases hx
      obtain ⟨entry, p, t, hh, hi, hname, hdir, -⟩ := spot_eq_node ha
      have hends : Stop.Ends raises (.assertion ("runaway at ".toList ++ (path ++ '/' :: entry.name))) :=
        trivial
      refine settles_at hoff hh hi (fun fuel (hfuel : fuel ≥ 1) => ?_) hends
      obtain ⟨fuel, rfl⟩ := Nat.exists_eq_add_of_le' hfuel
      rw [enter_node hname hdir]
      exact walk_deep (by omega)
  | leaf ha _ ih =>
      obtain ⟨rfl, hoff⟩ := linkTo_cases hx
      obtain ⟨entry, p, t, hh, hi, hleaf⟩ := spot_eq_leaf ha
      obtain ⟨found', hfound⟩ := enter_leaf hi.target hleaf
      exact settles_past hoff hh hi (fun fuel (_ : fuel ≥ 0) => hfound fuel)
        (ih hn (next_entry hh) path found')
  | @under n a y ha _ ih =>
      obtain ⟨rfl, hoff⟩ := linkTo_cases hx
      obtain ⟨entry, p, t, hh, hi, hname, hdir, rfl⟩ := spot_eq_node ha
      have hbelow : Settles raises
          (fun fuel => enter img img.length fuel entry p t path depth found) .stopped :=
        settles_enter hi (by omega) hname hdir fun path found => ih (by omega) rfl path found
      obtain ⟨r, least, hout, hr, hrun⟩ := hbelow
      cases r with
      | ok found' => cases hout
      | error e => exact settles_at hoff hh hi hrun (hr e rfl)
  | @past n a y o ha _ _ ihy ih =>
      obtain ⟨rfl, hoff⟩ := linkTo_cases hx
      obtain ⟨entry, p, t, hh, hi, hname, hdir, rfl⟩ := spot_eq_node ha
      have hbelow : Settles raises
          (fun fuel => enter img img.length fuel entry p t path depth found) .done :=
        settles_enter hi (by omega) hname hdir fun path found => ihy (by omega) rfl path found
      obtain ⟨r, least, hout, hr, hrun⟩ := hbelow
      cases r with
      | error e => cases hout
      | ok found' => exact settles_past hoff hh hi hrun (ih hn (next_entry hh) path found')

/-! ### The root -/

theorem rootOf_raised (h : rootOf img = .error e) : e.Raised :=
  raised_bind h indexNul_raised fun _ hc => nomatch hc

theorem spot_root (h : rootOf img = .ok pos) : (links img raises).spot .root =
    follow img raises pos fun dir => .node (linkTo img.length dir.spec) := by
  unfold links
  dsimp only
  rw [h]

theorem spot_root_error (h : rootOf img = .error e) :
    (links img raises).spot .root = unreadable raises := by
  unfold links
  dsimp only
  rw [h]

theorem visits_of_checkromfs (himg : Passes img) (h : checkromfs img fuel = r)
    (hr : ∀ e, r = .error e → e.Ends raises) :
      (links img raises).Visits 40 (some .root) (outcome r) := by
  rw [himg.checkromfs] at h
  cases hroot : rootOf img with
  | error e =>
      rw [hroot] at h
      obtain rfl := h
      obtain rfl := (rootOf_raised hroot).ends_iff.mp (hr e rfl)
      exact .stop (spot_root_error hroot)
  | ok pos =>
      rw [hroot] at h
      replace h : walk img img.length fuel pos [] 0 (fun _ => none) = r := h
      cases fuel with
      | zero =>
          rw [walk] at h
          obtain rfl := h
          exact absurd rfl (hr .fuel rfl).ne_fuel
      | succ fuel =>
          cases hres : resolve img fuel pos with
          | error e =>
              rw [walk_error (by decide) hres] at h
              obtain rfl := h
              obtain ⟨hraised, hno, hend⟩ := resolve_error_cases hres (hr e rfl).ne_fuel
              obtain rfl := hraised.ends_iff.mp (hr e rfl)
              exact .stop ((spot_root hroot).trans (follow_raised hno hend))
          | ok inode =>
              obtain ⟨p, t⟩ := inode
              rw [walk_inode (by decide) hres] at h
              have hbelow := follows fuel (Nat.add_zero 39) h hr
              have hspot : (links img raises).spot .root = .node (linkTo img.length t.spec) :=
                (spot_root hroot).trans (follow_inode (inode_of_resolve hres))
              cases r with
              | ok found => exact .past hspot hbelow .nil
              | error e => exact .under hspot hbelow

theorem settles_checkromfs (himg : Passes img) (h : (links img raises).Visits 40 (some .root) o) :
    Settles raises (checkromfs img) o := by
  have hrun : checkromfs img =
      fun fuel => (do walk img img.length fuel (← rootOf img) [] 0 fun _ => none) :=
        funext himg.checkromfs
  rw [hrun]
  cases hroot : rootOf img with
  | error e =>
      have hspot : (links img raises).spot .root = unreadable raises := spot_root_error hroot
      rcases unreadable_cases raises with ⟨hlost, -⟩ | ⟨hstop, hraises⟩
      · exact absurd (hspot.trans hlost) h.spot_ne_lost
      · rw [h.of_stop (hspot.trans hstop)]
        exact settles_error (fun _ (_ : _ ≥ 0) => rfl) ((rootOf_raised hroot).ends_iff.mpr hraises)
  | ok pos =>
      have hspot : (links img raises).spot .root =
        follow img raises pos fun dir => .node (linkTo img.length dir.spec) := spot_root hroot
      show Settles raises (fun fuel => walk img img.length fuel pos [] 0 fun _ => none) o
      by_cases hex : ∃ p t, Inode img pos p t
      · obtain ⟨p, t, hi⟩ := hex
        refine settles_walk hi (by decide) ?_
        rcases h.of_node (hspot.trans (follow_inode hi)) with ⟨hbelow, rfl⟩ | ⟨hbelow, hrest⟩
        · exact settles_of_visits hbelow (Nat.add_zero 39) rfl [] _
        · cases hrest
          exact settles_of_visits hbelow (Nat.add_zero 39) rfl [] _
      · have hno : ∀ p t, ¬ Inode img pos p t := fun p t hi => hex ⟨p, t, hi⟩
        have hend : ¬ Endless (hop img) (some pos) := fun hend =>
          h.spot_ne_lost (hspot.trans (follow_circle hend))
        rcases unreadable_cases raises with ⟨hlost, -⟩ | ⟨hstop, hraises⟩
        · exact absurd (hspot.trans ((follow_raised hno hend).trans hlost)) h.spot_ne_lost
        · rw [h.of_stop (hspot.trans ((follow_raised hno hend).trans hstop))]
          obtain ⟨e, least, hraised, hleast⟩ := resolve_raised hno hend
          exact settles_error (fun fuel hfuel => walk_error (by decide) (hleast fuel hfuel))
            (hraised.ends_iff.mpr hraises)

end Walk

/-! ## Reports -/

/-- The checker comes to an end with the image: with a listing, a failed assertion or, with
`raises`, an exception. -/
def Reports (raises : Bool) (img : List Byte) : Prop :=
  ∃ r least, (∀ e, r = .error e → e.Ends raises) ∧ ∀ fuel ≥ least, checkromfs img fuel = r

theorem not_reports {img : List Byte} (h : ∀ fuel, checkromfs img fuel = .error .fuel)
    (raises : Bool) :
    ¬ Reports raises img := by
  intro hreports
  obtain ⟨r, least, hr, hrun⟩ := hreports
  have hfuel : Except.error Stop.fuel = r := (h least).symm.trans (hrun least (Nat.le_refl least))
  exact (hr .fuel hfuel.symm).ne_fuel rfl

/-- The checker comes to an end exactly if, in the order of paths, something that ends the walk
comes before every list of entries without an end and every entry that is lost: a directory
that is too deep, or with `raises` a header that cannot be read. -/
theorem reports_iff {img : List Byte} (h : Passes img) (raises : Bool) :
    Reports raises img ↔ (links img raises).Guarded 40 (some .root) := by
  rw [← Forest.visits_iff]
  constructor
  · intro hreports
    obtain ⟨r, least, hr, hrun⟩ := hreports
    exact ⟨outcome r, visits_of_checkromfs h (hrun least (Nat.le_refl least)) hr⟩
  · intro hvisits
    obtain ⟨o, ho⟩ := hvisits
    obtain ⟨r, least, -, hr, hrun⟩ := settles_checkromfs h ho
    exact ⟨r, least, hr, hrun⟩

def imageOf (words : List Word) : List Byte := words.flatMap be32

/-- A root with nothing in it, not even the two hard links. -/
def emptyRoot : List Byte := imageOf [0x2d726f6d, 0x3166732d, 64, 0x01271d1d, 0x72000000, 0, 0, 0,
  9, 0, 0, 0, 0x2e000000, 0, 0, 0]

/-- It is reported, so nothing is in the way. -/
theorem reports_iff_empty : (links emptyRoot false).Guarded 40 (some .root) := by
  have hpasses : Passes emptyRoot := by constructor <;> decide +kernel
  refine (reports_iff hpasses false).mp
    ⟨.ok fun _ => none, 2, (fun _ he => nomatch he), fun fuel hfuel => ?_⟩
  obtain ⟨fuel, rfl⟩ := Nat.exists_eq_add_of_le' hfuel
  have hh : hdr emptyRoot 32 = .ok { nxt := 9, spec := 0, sz := 0, name := ['.'] } := rfl
  have hroot : rootOf emptyRoot = .ok 32 := rfl
  rw [hpasses.checkromfs, hroot]
  simp only [bind, Except.bind]
  have hend : ¬ (mask15 0 ≠ 0 ∧ mask15 0 < emptyRoot.length) := fun h => h.1 rfl
  rw [walk_inode (by decide) (resolve_here hh (by decide))]
  exact entries_end hend

/-- The root is a hard link to itself. -/
def selfLink : List Byte := imageOf [0x2d726f6d, 0x3166732d, 64, 0x2f271d06, 0x72000000, 0, 0, 0,
  0, 32, 0, 0, 0, 0, 0, 0]

/-- The root's one entry is a file, and is its own next one. -/
def selfNext : List Byte := imageOf [0x2d726f6d, 0x3166732d, 96, 0xa0271c7b, 0x72000000, 0, 0, 0,
  9, 64, 0, 0, 0x2e000000, 0, 0, 0, 66, 0, 0, 0, 0x61000000, 0, 0, 0]

/-- Both are checked without end. -/
theorem circles_hang : (Passes selfLink ∧ ¬ Reports false selfLink ∧ ¬ Reports true selfLink) ∧
    Passes selfNext ∧ ¬ Reports false selfNext ∧ ¬ Reports true selfNext := by
  have hlink : Passes selfLink := by constructor <;> decide +kernel
  have hnext : Passes selfNext := by constructor <;> decide +kernel
  have hlinkHangs : ∀ fuel, checkromfs selfLink fuel = .error .fuel := by
    intro fuel
    have hh : hdr selfLink 32 = .ok { nxt := 0, spec := 32, sz := 0, name := [] } := rfl
    have hend : Endless (hop selfLink) (some 32) := endless_of_eq (hop_link hh rfl)
    have hroot : rootOf selfLink = .ok 32 := rfl
    rw [hlink.checkromfs, hroot]
    show walk selfLink _ fuel 32 [] 0 _ = _
    cases fuel with
    | zero => rw [walk]
    | succ fuel => rw [walk_error (by decide) (resolve_endless hend fuel)]
  have hnextHangs : ∀ fuel, checkromfs selfNext fuel = .error .fuel := by
    intro fuel
    have hroot : rootOf selfNext = .ok 32 := rfl
    have hdir : hdr selfNext 32 = .ok { nxt := 9, spec := 64, sz := 0, name := ['.'] } := rfl
    have hh : hdr selfNext 64 = .ok { nxt := 66, spec := 0, sz := 0, name := ['a'] } := rfl
    rw [hnext.checkromfs, hroot]
    show walk selfNext _ fuel 32 [] 0 _ = _
    cases fuel with
    | zero => rw [walk]
    | succ fuel =>
        cases fuel with
        | zero => rw [walk_error (by decide) rfl]
        | succ fuel =>
            rw [walk_inode (by decide) (resolve_here hdir (by decide))]
            exact entries_circle (by decide) hh (.here hh (by decide)) (.inr (by decide)) rfl
  exact ⟨⟨hlink, not_reports hlinkHangs false, not_reports hlinkHangs true⟩,
    hnext, not_reports hnextHangs false, not_reports hnextHangs true⟩

end P4Hyp.Romfs
