import P4Hyp.Lib.Bump
import P4Hyp.Lib.Loop
import P4Hyp.Lib.Text

/-!
# The layout of a romfs image

A directory's entries lie one after another; its subdirectories wait in a queue
until their own turn.
-/

namespace P4Hyp.Romfs

namespace Kind

def hrd : Nat := 0
def dir : Nat := 1
def reg : Nat := 2
def sym : Nat := 3
def blk : Nat := 4
def chr : Nat := 5
def sck : Nat := 6
def fif : Nat := 7

/-- `EXEC`, beside the type. -/
def exec : Nat := 8

end Kind

def pageSize : Nat := 4096

def pad16 (n : Nat) : Nat := alignUp 16 n

structure Node where
  name : Str
  kind : Nat
  data : List Byte := []
  specDev : Nat := 0
  off : Nat := 0
  spec : Nat := 0
  nxt : Nat := 0

namespace Node

variable (n : Node)

def hdrLen : Nat := pad16 (16 + n.name.length + 1)

def totalLen : Nat := n.hdrLen + pad16 n.data.length

def wantsPageAlign : Bool :=
  n.kind % 8 == Kind.reg && n.kind &&& Kind.exec != 0 && pageSize ≤ n.data.length

end Node

/-- What is not a directory.  A major number has 12 bits in the kernel. -/
inductive Leaf
  | reg (exec : Bool) (data : List Byte)
  | sym (target : List Byte)
  | device (char : Bool) (major : Half) (minor : Nat)
  | fifo
  | sock

/-- What `scan` finds: the nodes with their children, before they are laid out. -/
inductive Tree
  | dir (name : Str) (children : List Tree)
  | leaf (name : Str) (leaf : Leaf)

namespace Tree

def node : Tree → Node
  | .dir name _ => { name, kind := Kind.dir ||| Kind.exec }
  | .leaf name (.reg exec data) =>
    { name, kind := Kind.reg ||| (if exec then Kind.exec else 0), data }
  | .leaf name (.sym target) => { name, kind := Kind.sym, data := target }
  | .leaf name (.device char major minor) =>
      { name, kind := if char then Kind.chr else Kind.blk
        specDev := major.toNat <<< 16 ||| (minor &&& 0xffff) }
  | .leaf name .fifo => { name, kind := Kind.fif }
  | .leaf name .sock => { name, kind := Kind.sck }

def children : Tree → List Tree
  | .dir _ children => children
  | .leaf _ _ => []

mutual

/-- How many directories there are. -/
def dirs : Tree → Nat
  | .dir _ children => 1 + dirsAll children
  | .leaf _ _ => 0

def dirsAll : List Tree → Nat
  | [] => 0
  | t :: ts => t.dirs + dirsAll ts

end

end Tree

/-- A directory that waits for its entries: its place in `flat`, its offset, its
parent's, and its children. -/
structure Queued where
  index : Nat
  off : Nat
  parent : Nat
  children : List Tree

structure Layout where
  cursor : Nat
  flat : List Node
  queue : List Queued

def Queued.entries (q : Queued) : List Node :=
  { name := ['.'], kind := Kind.hrd, spec := q.off } ::
    { name := ['.', '.'], kind := Kind.hrd, spec := q.parent } :: q.children.map Tree.node

/-- The cursor where an entry goes. -/
def aligned (cursor : Nat) (entry : Node) : Nat :=
  if entry.wantsPageAlign then
    let overshoot := (cursor + entry.hdrLen) % pageSize
    if overshoot ≠ 0 then cursor + (pageSize - overshoot) else cursor
  else cursor

/-- The entries with their offsets, and the cursor after them. -/
def placeAll : Nat → List Node → List Node × Nat
  | cursor, [] => ([], cursor)
  | cursor, entry :: entries =>
      let off := aligned cursor entry
      let rest := placeAll (off + entry.totalLen) entries
      ({ entry with off } :: rest.1, rest.2)

def link : List Node → List Node
  | [] => []
  | [entry] => [{ entry with nxt := 0 }]
  | entry :: next :: entries => { entry with nxt := next.off } :: link (next :: entries)

/-- The directories among the children, which lie in `flat` from `i` on. -/
def subdirs (parent : Nat) : Nat → List Tree → List Node → List Queued
  | i, .dir _ children :: ts, n :: ns =>
      { index := i, off := n.off, parent, children } :: subdirs parent (i + 1) ts ns
  | i, .leaf _ _ :: ts, _ :: ns => subdirs parent (i + 1) ts ns
  | _, _, _ => []

def layoutStep (st : Layout) : Layout ⊕ (List Node × Nat) :=
  match st.queue with
  | [] => .inr (st.flat, st.cursor)
  | q :: queue =>
      let placed := placeAll st.cursor q.entries
      let entries := link placed.1
      .inl { cursor := placed.2
             flat := st.flat.modify q.index (fun n => { n with spec := st.cursor }) ++ entries
             queue := queue ++ subdirs q.off (st.flat.length + 2) q.children (entries.drop 2) }

def layoutStart (root : Tree) (volume : Str) : Layout :=
  let off := pad16 (16 + volume.length + 1)
  { cursor := off + root.node.hdrLen
    flat := [{ root.node with off }]
    queue := [{ index := 0, off, parent := off, children := root.children }] }

/-- The flat list of the nodes and the size of the image. -/
def layout (root : Tree) (volume : Str) : Option (List Node × Nat) :=
  loop layoutStep (root.dirs + 2) (layoutStart root volume)

end P4Hyp.Romfs
