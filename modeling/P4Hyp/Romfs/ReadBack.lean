import P4Hyp.Romfs.Reader

/-!
# Reading back what was written

The reader goes depth first, along the links that the layout made breadth first.
-/

namespace P4Hyp.Romfs

def Leaf.found : Leaf → Found
  | .reg _ data => .reg data
  | .sym target => .sym target
  | .device _ _ _ => .other
  | .fifo => .other
  | .sock => .other

mutual

/-- The paths of a tree in the directory `path`, and what is there. -/
def Tree.listing (path : Str) : Tree → List (Str × Found)
  | .dir name children => (path ++ '/' :: name, .dir) :: listingAll (path ++ '/' :: name) children
  | .leaf name leaf => [(path ++ '/' :: name, leaf.found)]

def listingAll (path : Str) : List Tree → List (Str × Found)
  | [] => []
  | t :: ts => t.listing path ++ listingAll path ts

end

mutual

/-- How many directories there are one below another. -/
def Tree.levels : Tree → Nat
  | .dir _ children => 1 + levelsAll children
  | .leaf _ _ => 0

def levelsAll : List Tree → Nat
  | [] => 0
  | t :: ts => max t.levels (levelsAll ts)

end

def Dict.setAll (found : Dict) (xs : List (Str × Found)) : Dict :=
  xs.foldl (fun d x => d.set x.1 x.2) found

/-- What the reader makes of a node that is no directory. -/
def Node.found (n : Node) : Found :=
  if n.kind % 8 = Kind.sym then .sym n.data
  else if n.kind % 8 = Kind.reg then .reg n.data
  else .other

/-- Where a run of entries begins. -/
def first : List Node → Nat
  | [] => 0
  | n :: _ => n.off

theorem chained_cons {n : Node} {ns : List Node} :
    Chained (n :: ns) ↔ n.nxt = first ns ∧ Chained ns := by
  cases ns with
  | nil => exact ⟨fun h => ⟨h, trivial⟩, fun h => h.1⟩
  | cons m ns => exact Iff.rfl

/-- The entry is read, and then the next one. -/
def Reads (img : List Byte) (t : Tree) (e : Node) : Prop :=
  ∀ path depth found, depth + 1 + t.levels ≤ 40 → ∃ least, ∀ fuel ≥ least,
    entries img img.length (fuel + 1) e.off path depth found =
      entries img img.length fuel e.nxt path depth (found.setAll (t.listing path))

/-- All that is below the directory is read. -/
def Walks (img : List Byte) (children : List Tree) (n : Node) : Prop :=
  ∀ path depth found, depth + 1 + levelsAll children ≤ 40 → ∃ least, ∀ fuel ≥ least,
    walk img img.length fuel n.off path depth found = .ok (found.setAll (listingAll path children))

section Holds

variable {img : List Byte} {flat : List Node}

theorem Holds.entries_dot (h : Holds img flat) {n : Node} (hn : n ∈ flat) {name : Str} {off : Nat}
    (hlink : IsLink name off n) (hname : name = ['.'] ∨ name = ['.', '.']) (hdir : IsDir flat off)
    (fuel : Nat) (path : Str) (depth : Nat) (found : Dict) :
    entries img img.length (fuel + 3) n.off path depth found =
      entries img img.length (fuel + 2) n.nxt path depth found := by
  obtain ⟨hpos, hlt⟩ := h.pos n hn
  obtain ⟨r, hr⟩ := h.resolve_link hn hlink hdir fuel
  rw [entries, if_pos ⟨Nat.ne_of_gt hpos, hlt⟩, h.hdr hn, hr]
  simp only [bind, Except.bind]
  rw [if_pos (by rw [Node.header, hlink.name]; exact hname), (h.ok n hn).mask15_nxt]
  rfl

/-- An entry that is neither a hard link nor a directory. -/
theorem Holds.entries_file (h : Holds img flat) {n : Node} (hn : n ∈ flat)
    (hname : EntryName n.name)
    (hlink : n.kind % 8 ≠ Kind.hrd) (hdir : n.kind % 8 ≠ Kind.dir) (fuel : Nat) (path : Str)
    (depth : Nat) (found : Dict) :
    entries img img.length (fuel + 2) n.off path depth found =
      entries img img.length (fuel + 1) n.nxt path depth
        (found.set (path ++ '/' :: n.name) n.found) := by
  obtain ⟨hpos, hlt⟩ := h.pos n hn
  have hdata : Romfs.data img n.off n.header.sz = .ok n.data := h.data hn
  have hplain : ¬ (n.header.name = ['.'] ∨ n.header.name = ['.', '.']) :=
    fun hdot => hdot.elim hname.ne_dot hname.ne_dotdot
  rw [entries, if_pos ⟨Nat.ne_of_gt hpos, hlt⟩, h.hdr hn, h.resolve_inode hn hlink]
  simp only [bind, Except.bind]
  rw [if_neg hplain, (h.ok n hn).header_kind, if_neg hdir, (h.ok n hn).mask15_nxt,
    hdata, Node.found]
  split
  · rfl
  · split <;> rfl

theorem Holds.entries_directory (h : Holds img flat) {n : Node} (hn : n ∈ flat)
    (hname : EntryName n.name)
    (hdir : n.kind % 8 = Kind.dir) (fuel : Nat) (path : Str) (depth : Nat) {found found' : Dict}
    (hwalk : walk img img.length (fuel + 1) n.off (path ++ '/' :: n.name) (depth + 1)
      (found.set (path ++ '/' :: n.name) .dir) = .ok found') :
    entries img img.length (fuel + 2) n.off path depth found =
      entries img img.length (fuel + 1) n.nxt path depth found' := by
  obtain ⟨hpos, hlt⟩ := h.pos n hn
  have hplain : ¬ (n.header.name = ['.'] ∨ n.header.name = ['.', '.']) :=
    fun hdot => hdot.elim hname.ne_dot hname.ne_dotdot
  rw [entries, if_pos ⟨Nat.ne_of_gt hpos, hlt⟩, h.hdr hn, h.resolve_inode hn (by rw [hdir]; decide)]
  simp only [bind, Except.bind]
  rw [if_neg hplain, (h.ok n hn).header_kind, if_pos hdir, (h.ok n hn).mask15_nxt]
  rw [show n.header.name = n.name from rfl, hwalk]

theorem dir_kind (name : Str) (children : List Tree) : (Tree.dir name children).node.kind = 9 :=
  (by decide : Kind.dir ||| Kind.exec = 9)

theorem leaf_kind (name : Str) (leaf : Leaf) : (Tree.leaf name leaf).node.kind % 8 ≠ Kind.hrd ∧
    (Tree.leaf name leaf).node.kind % 8 ≠ Kind.dir := by
  cases leaf with
  | reg exec data => cases exec <;> simp [Tree.node, Kind.reg, Kind.exec, Kind.hrd, Kind.dir]
  | sym target => simp [Tree.node, Kind.sym, Kind.hrd, Kind.dir]
  | device char major minor =>
      cases char <;> simp [Tree.node, Kind.chr, Kind.blk, Kind.hrd, Kind.dir]
  | fifo => simp [Tree.node, Kind.fif, Kind.hrd, Kind.dir]
  | sock => simp [Tree.node, Kind.sck, Kind.hrd, Kind.dir]

theorem Matches.found {name : Str} {leaf : Leaf} {n : Node} (h : Matches (.leaf name leaf) n) :
    n.found = leaf.found := by
  rw [Node.found, h.kind, h.data]
  cases leaf with
  | reg exec data =>
      cases exec <;> simp [Tree.node, Leaf.found, Kind.reg, Kind.exec, Kind.sym]
  | sym target => simp [Tree.node, Leaf.found, Kind.sym]
  | device char major minor =>
      cases char <;> simp [Tree.node, Leaf.found, Kind.chr, Kind.blk, Kind.sym, Kind.reg]
  | fifo => simp [Tree.node, Leaf.found, Kind.fif, Kind.sym, Kind.reg]
  | sock => simp [Tree.node, Leaf.found, Kind.sck, Kind.sym, Kind.reg]

theorem Holds.entries_leaf (h : Holds img flat) {n : Node} (hn : n ∈ flat) {name : Str}
    {leaf : Leaf}
    (hmatch : Matches (.leaf name leaf) n) (hname : EntryName n.name) :
      Reads img (.leaf name leaf) n := by
  intro path depth found _
  refine ⟨1, fun fuel hfuel => ?_⟩
  obtain ⟨fuel, rfl⟩ := Nat.exists_eq_add_of_le' hfuel
  obtain ⟨hlink, hdir⟩ := leaf_kind name leaf
  rw [← hmatch.kind] at hlink hdir
  rw [h.entries_file hn hname hlink hdir, hmatch.found,
    show n.name = name from by rw [hmatch.name]; cases leaf <;> rfl]
  rfl

theorem Dict.setAll_append (found : Dict) (xs ys : List (Str × Found)) :
    found.setAll (xs ++ ys) = (found.setAll xs).setAll ys := List.foldl_append

theorem Holds.entries_dir (h : Holds img flat) {n : Node} (hn : n ∈ flat) {name : Str}
    {children : List Tree} (hmatch : Matches (.dir name children) n) (hname : EntryName n.name)
    (hwalk : Walks img children n) : Reads img (.dir name children) n := by
  intro path depth found hdepth
  rw [Tree.levels] at hdepth
  obtain ⟨least, hleast⟩ := hwalk (path ++ '/' :: n.name) (depth + 1)
    (found.set (path ++ '/' :: n.name) .dir) (by omega)
  refine ⟨least + 1, fun fuel hfuel => ?_⟩
  obtain ⟨fuel, rfl⟩ : ∃ k, fuel = k + 1 := ⟨fuel - 1, by omega⟩
  have hkind : n.kind % 8 = Kind.dir := by
    rw [hmatch.kind, dir_kind]
    rfl
  rw [h.entries_directory hn hname hkind _ _ _ (hleast (fuel + 1) (by omega)),
    show n.name = name from hmatch.name]
  rfl

/-- The entries from `es` on, one by one. -/
theorem entries_chain {ts : List Tree} {es : List Node} (hchain : Chained es)
    (hlen : es.length = ts.length)
    (hreads : ∀ (k : Nat) t e, ts[k]? = some t → es[k]? = some e → Reads img t e) (path : Str)
    (depth : Nat) (found : Dict) (hdepth : depth + 1 + levelsAll ts ≤ 40) :
    ∃ least, ∀ fuel ≥ least, entries img img.length fuel (first es) path depth found =
      .ok (found.setAll (listingAll path ts)) := by
  induction ts generalizing es found with
  | nil =>
      obtain rfl := List.length_eq_zero_iff.1 hlen
      refine ⟨1, fun fuel hfuel => ?_⟩
      obtain ⟨fuel, rfl⟩ := Nat.exists_eq_add_of_le' hfuel
      rw [entries, if_neg (fun hpos => hpos.1 rfl)]
      rfl
  | cons t ts ih =>
      match es, hlen with
      | e :: es, hlen =>
          rw [levelsAll] at hdepth
          obtain ⟨hnxt, hchain⟩ := chained_cons.1 hchain
          obtain ⟨least, hleast⟩ := hreads 0 t e rfl rfl path depth found (by omega)
          obtain ⟨least', hleast'⟩ := ih hchain (Nat.succ.inj hlen)
            (fun k u f hu hf => hreads (k + 1) u f hu hf) (found.setAll (t.listing path)) (by omega)
          refine ⟨max least least' + 1, fun fuel hfuel => ?_⟩
          obtain ⟨fuel, rfl⟩ : ∃ k, fuel = k + 1 := ⟨fuel - 1, by omega⟩
          rw [first, hleast fuel (by omega), hnxt, hleast' fuel (by omega), listingAll,
            Dict.setAll_append]

/-- Over the whole tree: a directory is walked because its children are. -/
theorem Holds.walks (h : Holds img flat) {t : Tree} {n : Node} {parent : Nat}
    (hbuilt : Built flat t n parent) :
    Named t → ∀ name children, t = .dir name children → Walks img children n := by
  induction hbuilt with
  | leaf _ _ => exact fun _ _ _ heq => nomatch heq
  | @dir name children n dot dotdot parent es hn hmatch hparent hdot hlink hdotdot hlink'
      hspec hchain hlen hbuilt ih =>
      rintro hnamed _ _ ⟨⟩ path depth found hdepth
      obtain ⟨hnames, -, hall⟩ : (∀ t ∈ children, EntryName t.node.name) ∧ True ∧
        ∀ t ∈ children, Named t := by
        cases hnamed with
        | dir hnames _ hall => exact ⟨hnames, trivial, hall⟩
      have hreads : ∀ (k : Nat) t e, children[k]? = some t → es[k]? = some e → Reads img t e := by
        intro k t e ht he
        have hmem := List.mem_of_getElem? ht
        have hwalk := ih k t e ht he (hall t hmem)
        have hname := hnames t hmem
        cases hbuilt k t e ht he with
        | leaf hmem' hmatch' =>
            rw [← hmatch'.name] at hname
            exact h.entries_leaf hmem' hmatch' hname
        | dir hmem' hmatch' =>
            rw [← hmatch'.name] at hname
            exact h.entries_dir hmem' hmatch' hname (hwalk _ _ rfl)
      obtain ⟨hnxt, hchain⟩ := chained_cons.1 hchain
      obtain ⟨hnxt', hchain⟩ := chained_cons.1 hchain
      obtain ⟨least, hleast⟩ := entries_chain hchain hlen hreads path depth found hdepth
      refine ⟨least + 5, fun fuel hfuel => ?_⟩
      obtain ⟨fuel, rfl⟩ : ∃ k, fuel = k + 5 := ⟨fuel - 5, by omega⟩
      have hkind : n.kind % 8 ≠ Kind.hrd := by
        rw [hmatch.kind, dir_kind]
        decide
      have hoff : mask15 n.header.spec = dot.off := by
        rw [Node.header, Node.diskSpec, hmatch.kind, dir_kind, if_neg (by decide), hspec,
          mask15_of_mod (h.off dot hdot)]
      rw [walk, h.resolve_inode hn hkind]
      simp only [bind, Except.bind]
      rw [if_neg (by omega), hoff,
        h.entries_dot hdot hlink (.inl rfl) ⟨n, hn, rfl, hmatch.kind⟩, hnxt, first,
        h.entries_dot hdotdot hlink' (.inr rfl) hparent, hnxt', hleast _ (by omega)]

end Holds

end P4Hyp.Romfs
