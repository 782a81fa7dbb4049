import P4Hyp.Romfs.ReadBack

/-!
# The round trip

What the checker finds in the image of a tree is the tree's listing.
-/

namespace P4Hyp.Romfs

/-! ## Paths -/

/-- What may follow a name in a path. -/
def Below (rest : Str) : Prop := rest = [] ∨ ∃ below, rest = '/' :: below

theorem Below.takeWhile {rest : Str} (h : Below rest) : rest.takeWhile (· != '/') = [] := by
  rcases h with rfl | ⟨below, rfl⟩
  · rfl
  · exact List.takeWhile_cons_of_neg (by decide)

theorem name_of_path {name name' rest rest' : Str} (hname : '/' ∉ name) (hname' : '/' ∉ name')
    (hrest : Below rest) (hrest' : Below rest') (h : name ++ rest = name' ++ rest') :
      name = name' := by
  have htake : ∀ {s r : Str}, '/' ∉ s → Below r → (s ++ r).takeWhile (· != '/') = s := by
    intro s r hs hr
    rw [List.takeWhile_append_of_pos, hr.takeWhile, List.append_nil]
    intro c hc
    exact bne_iff_ne.2 fun heq => hs (heq ▸ hc)
  calc name = (name ++ rest).takeWhile (· != '/') := (htake hname hrest).symm
    _ = (name' ++ rest').takeWhile (· != '/') := by rw [h]
    _ = name' := htake hname' hrest'

mutual

theorem listing_path {p : Str} {x : Found} : ∀ (t : Tree) (path : Str), (p, x) ∈ t.listing path →
    ∃ rest, p = path ++ '/' :: (t.node.name ++ rest) ∧ Below rest
  | .leaf name leaf, path, h => by
      have hname : (Tree.leaf name leaf).node.name = name := by cases leaf <;> rfl
      obtain ⟨rfl, -⟩ := Prod.mk.inj (List.mem_singleton.1 h)
      exact ⟨[], by rw [hname, List.append_nil], .inl rfl⟩
  | .dir name children, path, h => by
      rw [Tree.listing, List.mem_cons] at h
      rcases h with h | h
      · obtain ⟨rfl, -⟩ := Prod.mk.inj h
        exact ⟨[], by rw [List.append_nil]; rfl, .inl rfl⟩
      · obtain ⟨t, -, rest, rfl, -⟩ := listingAll_path children _ h
        refine ⟨'/' :: (t.node.name ++ rest), ?_, .inr ⟨_, rfl⟩⟩
        rw [List.append_assoc]
        rfl

theorem listingAll_path {p : Str} {x : Found} : ∀ (ts : List Tree) (path : Str),
    (p, x) ∈ listingAll path ts →
    ∃ t ∈ ts, ∃ rest, p = path ++ '/' :: (t.node.name ++ rest) ∧ Below rest
  | [], _, h => (List.not_mem_nil h).elim
  | t :: ts, path, h => by
      rw [listingAll, List.mem_append] at h
      rcases h with h | h
      · obtain ⟨rest, hp, hrest⟩ := listing_path t path h
        exact ⟨t, List.mem_cons_self, rest, hp, hrest⟩
      · obtain ⟨u, hu, hrest⟩ := listingAll_path ts path h
        exact ⟨u, List.mem_cons_of_mem t hu, hrest⟩

end

mutual

theorem listing_nodup : ∀ (t : Tree) (path : Str), Named t → ((t.listing path).map Prod.fst).Nodup
  | .leaf name leaf, path, _ => List.pairwise_singleton _ _
  | .dir name children, path, h => by
      obtain ⟨hnames, huniq, hall⟩ : (∀ t ∈ children, EntryName t.node.name) ∧
          (children.map fun t => t.node.name).Nodup ∧ ∀ t ∈ children, Named t := by
        cases h with
        | dir hnames huniq hall => exact ⟨hnames, huniq, hall⟩
      rw [Tree.listing, List.map_cons, List.nodup_cons]
      refine ⟨fun hmem => ?_, listingAll_nodup children _ hnames huniq hall⟩
      obtain ⟨⟨p, x⟩, hpx, hp⟩ := List.mem_map.1 hmem
      obtain ⟨t, -, rest, rfl, -⟩ := listingAll_path children _ hpx
      have hlen : (path ++ '/' :: name ++ '/' :: (t.node.name ++ rest)).length =
          (path ++ '/' :: name).length := congrArg List.length hp
      rw [List.length_append, List.length_cons] at hlen
      omega

theorem listingAll_nodup : ∀ (ts : List Tree) (path : Str), (∀ t ∈ ts, EntryName t.node.name) →
    (ts.map fun t => t.node.name).Nodup → (∀ t ∈ ts, Named t) →
    ((listingAll path ts).map Prod.fst).Nodup
  | [], _, _, _, _ => List.nodup_nil
  | t :: ts, path, hnames, huniq, hall => by
      rw [List.map_cons, List.nodup_cons] at huniq
      rw [listingAll, List.map_append, List.nodup_append]
      refine ⟨listing_nodup t path (hall t List.mem_cons_self),
        listingAll_nodup ts path (fun u hu => hnames u (List.mem_cons_of_mem t hu)) huniq.2
          (fun u hu => hall u (List.mem_cons_of_mem t hu)), ?_⟩
      rintro p hp _ hp' rfl
      obtain ⟨⟨p₁, x⟩, hx, rfl⟩ := List.mem_map.1 hp
      obtain ⟨⟨p₂, y⟩, hy, heq⟩ := List.mem_map.1 hp'
      obtain ⟨rest, hrest, hbelow⟩ := listing_path t path hx
      obtain ⟨u, hu, rest', hrest', hbelow'⟩ := listingAll_path ts path hy
      dsimp only at heq
      rw [hrest, hrest'] at heq
      have hsame := List.tail_eq_of_cons_eq (List.append_cancel_left heq)
      have hname := name_of_path (hnames u (List.mem_cons_of_mem t hu)).slash
        (hnames t List.mem_cons_self).slash hbelow' hbelow hsame
      exact huniq.1 (List.mem_map.2 ⟨u, hu, hname⟩)

end

/-- In the dictionary of unique paths is what was set, and what was there before. -/
theorem Dict.setAll_eq_some {found : Dict} {xs : List (Str × Found)} (h : (xs.map Prod.fst).Nodup)
    {p : Str} {x : Found} :
    found.setAll xs p = some x ↔ (p, x) ∈ xs ∨ p ∉ xs.map Prod.fst ∧ found p = some x := by
  induction xs generalizing found with
  | nil => simp [Dict.setAll]
  | cons y xs ih =>
      obtain ⟨q, z⟩ := y
      rw [List.map_cons, List.nodup_cons] at h
      rw [show found.setAll ((q, z) :: xs) = (found.set q z).setAll xs from rfl, ih h.2,
        List.mem_cons, List.map_cons, List.mem_cons]
      unfold Dict.set
      by_cases hp : p = q
      · subst hp
        have hnone : ∀ x, (p, x) ∉ xs := fun x hx => h.1 (List.mem_map.2 ⟨_, hx, rfl⟩)
        simp only [hnone, if_true, Prod.mk.injEq, true_and, not_true, false_and, or_false, false_or,
          h.1, not_false_eq_true, Option.some.injEq]
        exact eq_comm
      · simp only [hp, if_false, Prod.mk.injEq, false_and, false_or]

/-! ## The image of a layout -/

section Image

variable {children : List Tree} {volume : Str} {flat : List Node} {size : Nat}

theorem Written.holds {img : List Byte} (h : Written flat size volume img)
    (horder : InOrder (pad16 (16 + volume.length + 1)) flat size) (hok : ∀ n ∈ flat, NodeOk size n)
    (hsize : size < 2 ^ 32) : Holds img flat := by
  have hbounds : ∀ n ∈ flat, pad16 (16 + volume.length + 1) ≤ n.off ∧ n.off + n.totalLen ≤ size ∧
      n.off % 16 = 0 := fun n hn => horder.ordered.bounds n.extent (List.mem_map_of_mem hn)
  have hpad := le_pad16 (16 + volume.length + 1)
  refine ⟨?_, ?_, h.nodes, ?_, fun n hn => (hbounds n hn).2.2⟩
  · rw [h.length]
    exact hok
  · intro n hn
    have hend := (hbounds n hn).2.1
    have hdata := le_pad16 n.data.length
    rw [Node.totalLen] at hend
    exact (hok n hn).fit hsize (by omega)
  · intro n hn
    obtain ⟨hlo, hend, -⟩ := hbounds n hn
    have hhdr : 16 + n.name.length + 1 ≤ n.hdrLen := le_pad16 _
    rw [Node.totalLen] at hend
    rw [h.length]
    omega

/-- The superblock passes its checks. -/
theorem Written.passes {img : List Byte} (h : Written flat size volume img) (hsize : size < 2 ^ 32)
    (hmod : size % 16 = 0) : Passes img where
  magic := h.magic
  length := by rw [h.length]; exact hsize
  size := by rw [h.length]; exact h.size
  words := by
    rw [List.length_take, h.length]
    omega
  checksum := h.checksum

theorem Written.checkromfs {img : List Byte} (h : Written flat size volume img)
    (hvolume : Ascii volume) (hsize : size < 2 ^ 32) (hmod : size % 16 = 0) (fuel : Nat) :
    checkromfs img fuel =
      walk img img.length fuel (pad16 (16 + volume.length + 1)) [] 0 (fun _ => none) := by
  obtain ⟨rest, hrest⟩ := h.volume.exists_eq
  rw [List.append_assoc] at hrest
  have hnul := indexNul_eq (encode_nulFree hvolume.nulFree) hrest
  rw [encode_length hvolume] at hnul
  rw [(h.passes hsize hmod).checkromfs, rootOf, hnul]
  show walk img img.length fuel (pad16 (16 + (16 + volume.length - 16) + 1)) [] 0 _ = _
  rw [Nat.add_sub_cancel_left]

/-- Whatever the tree, its image is accepted and read to the end, and the tree is what is found. -/
theorem checkromfs_mkromfs (children : List Tree) (volume : Str)
    (hnamed : Named (.dir ['.'] children)) (hlevels : (Tree.dir ['.'] children).levels ≤ 40)
    (hvolume : Ascii volume)
    (hsize : ∀ flat size, layout (.dir ['.'] children) volume = some (flat, size) → size < 2 ^ 32) :
    ∃ img found, mkromfs (.dir ['.'] children) volume = .ok img ∧
      (∃ least, ∀ fuel ≥ least, checkromfs img fuel = .ok found) ∧
      ∀ path x, found path = some x ↔ (path, x) ∈ listingAll [] children := by
  obtain ⟨flat, size, hlayout⟩ := layout_ends ['.'] children volume
  have hsize := hsize flat size hlayout
  have hdot : Ascii ['.'] := by
    intro c hc
    obtain rfl := List.mem_singleton.1 hc
    decide
  have horder : InOrder (pad16 (16 + volume.length + 1)) flat size :=
    inOrder_of_loop hlayout inOrder_start
  have hok := layout_sound hdot hlayout hnamed
  have hfit : ∀ n ∈ flat, Fit n := by
    intro n hn
    have hend := (horder.ordered.bounds n.extent (List.mem_map_of_mem hn)).2.1
    have hdata := le_pad16 n.data.length
    dsimp only [Node.extent, Node.totalLen] at hend
    exact (hok n hn).fit hsize (by omega)
  obtain ⟨img, hmk, hwritten⟩ := mkromfs_writes hlayout horder hfit hvolume hsize
  obtain ⟨n, hoff, hbuilt⟩ := layout_built hlayout
  have hwalks := (hwritten.holds horder hok hsize).walks hbuilt hnamed _ _ rfl
  obtain ⟨least, hleast⟩ := hwalks [] 0 (fun _ => none) (by rw [Tree.levels] at hlevels; omega)
  refine ⟨img, Dict.setAll (fun _ => none) (listingAll [] children), hmk,
    ⟨least, fun fuel hfuel => ?_⟩, fun path x => ?_⟩
  · rw [hwritten.checkromfs hvolume hsize horder.cursor_mod, ← hoff, hleast fuel hfuel]
  · have hnodup : ((listingAll [] children).map Prod.fst).Nodup := by
      cases hnamed with
      | dir hnames huniq hall => exact listingAll_nodup children [] hnames huniq hall
    rw [Dict.setAll_eq_some hnodup]
    simp only [reduceCtorEq, and_false, or_false]

end Image

theorem checkromfs_mkromfs_small : ∃ img found,
    mkromfs (.dir ['.'] [.dir ['d'] [.leaf ['l'] (.sym [97])], .leaf ['a'] (.reg true [1, 2, 3])]) ['r'] =
      .ok img ∧
    (∃ least, ∀ fuel ≥ least, checkromfs img fuel = .ok found) ∧
    ∀ path x, found path = some x ↔ (path, x) ∈
      [(['/', 'd'], .dir), (['/', 'd', '/', 'l'], .sym [97]), (['/', 'a'], .reg [1, 2, 3])] := by
  have hentry : ∀ c : Char, Ascii [c] → '/' ∉ [c] → [c] ≠ ['.'] → EntryName [c] :=
    fun c hascii hslash hdot => ⟨hascii, List.cons_ne_nil c [], hdot, by simp, hslash⟩
  have hinner : Named (.dir ['d'] [.leaf ['l'] (.sym [97])]) := by
    refine .dir ?_ (by decide) ?_
    · rintro t ht
      obtain rfl := List.mem_singleton.1 ht
      exact hentry 'l' (by decide) (by decide) (by decide)
    · rintro t ht
      obtain rfl := List.mem_singleton.1 ht
      exact .leaf
  refine checkromfs_mkromfs [.dir ['d'] [.leaf ['l'] (.sym [97])],
    .leaf ['a'] (.reg true [1, 2, 3])] ['r'] (.dir ?_ (by decide) ?_) (by decide) ?_ ?_
  · rintro t ht
    rcases List.mem_cons.1 ht with rfl | ht
    · exact hentry 'd' (by decide) (by decide) (by decide)
    · obtain rfl := List.mem_singleton.1 ht
      exact hentry 'a' (by decide) (by decide) (by decide)
  · rintro t ht
    rcases List.mem_cons.1 ht with rfl | ht
    · exact hinner
    · obtain rfl := List.mem_singleton.1 ht
      exact .leaf
  · decide
  · intro flat size h
    have hsize : (layout (.dir ['.'] [.dir ['d'] [.leaf ['l'] (.sym [97])],
      .leaf ['a'] (.reg true [1, 2, 3])])
        ['r']).map (fun r => r.2) = some 320 := by decide +kernel
    rw [h] at hsize
    obtain rfl := Option.some.inj hsize
    decide

end P4Hyp.Romfs
