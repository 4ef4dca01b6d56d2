import ResourceBundles.Text.Dotted

/-!
# Key trees

The dotted keys of a bundle form a tree with one node for every segment.  The key
`errors.io` has a node below the node of `errors`, and `errors` gets its node even
if it is no key itself.  A node has a value if its path is a key, and it may have
children at the same time.

Nodes are numbered in the order in which they are made, the root first.  A second
list finds the number of a node from its path.
-/

namespace ResourceBundles

/-- A node of a key tree; its children are named by their numbers. -/
structure Node where
  name : Text
  path : Text
  value : Option Text
  children : List Nat
deriving DecidableEq

/-- Nodes in the order of their numbers, and the number of each path. -/
structure KeyTree where
  nodes : List Node
  index : List (Text × Nat)
deriving DecidableEq

namespace KeyTree

def root : Nat := 0

def empty : KeyTree := ⟨[⟨[], [], none, []⟩], [([], root)]⟩

def size (t : KeyTree) : Nat := t.nodes.length

def isEmpty (t : KeyTree) : Bool := t.size == 1

def find? (t : KeyTree) (path : Text) : Option Nat := t.index.lookup path

def node? (t : KeyTree) (id : Nat) : Option Node := t.nodes[id]?

/-- The node with a given path; the empty path is the root's. -/
def get? (t : KeyTree) (path : Text) : Option Node := (t.find? path).bind t.node?

def childrenOf (t : KeyTree) (id : Nat) : List Nat :=
  (t.node? id).elim [] Node.children

/-- Add a node below a given parent, and tell its number. -/
def addChild (t : KeyTree) (parent : Nat) (path : Text) (value : Option Text) :
    KeyTree × Nat :=
  let id := t.nodes.length
  let node : Node :=
    { name := Dotted.lastSegment path, path := path, value := value, children := [] }
  let attach (n : Node) : Node := { n with children := n.children ++ [id] }
  ({ nodes := (t.nodes ++ [node]).modify parent attach
     index := t.index ++ [(path, id)] }, id)

/-- The paths from a given path upwards that have no node yet, and the number of
the first ancestor that has one. -/
def missing (t : KeyTree) (path : Text) : List Text × Nat :=
  match t.find? path with
  | some id => ([], id)
  | none =>
    if h : path = [] then ([], root)
    else
      have : (Dotted.parent path).length < path.length := Dotted.parent_length_lt h
      let (paths, ancestor) := missing t (Dotted.parent path)
      (path :: paths, ancestor)
termination_by path.length

/-- Add a chain of nodes below a given parent, each below the one before it.  The
value goes to the node of the path `key`. -/
def addChain (t : KeyTree) (parent : Nat) (key value : Text) : List Text → KeyTree
  | [] => t
  | path :: rest =>
    let (grown, id) := t.addChild parent path (if path = key then some value else none)
    addChain grown id key value rest

/-- Give a value to the node of a path, which is made together with its missing
ancestors if the path has no node.  The root takes no value. -/
def insert (t : KeyTree) (key value : Text) : KeyTree :=
  if key = [] then t
  else
    match t.find? key with
    | some id => { t with nodes := t.nodes.modify id fun n => { n with value := some value } }
    | none =>
      let (paths, ancestor) := t.missing key
      t.addChain ancestor key value paths.reverse

def build (entries : List (Text × Text)) : KeyTree :=
  entries.foldl (fun t (key, value) => t.insert key value) empty

@[simp] theorem build_nil : build [] = empty := rfl

theorem build_append (es fs : List (Text × Text)) :
    build (es ++ fs) = fs.foldl (fun t (key, value) => t.insert key value) (build es) := by
  simp [build]

theorem build_concat (es : List (Text × Text)) (key value : Text) :
    build (es ++ [(key, value)]) = (build es).insert key value := by
  simp [build]

/-- The nodes that a stack of numbers leads to, the top first and every node
before its children; at most `fuel` of them. -/
def preorder (t : KeyTree) : Nat → List Nat → List Nat
  | 0, _ => []
  | _, [] => []
  | fuel + 1, id :: stack => id :: preorder t fuel (t.childrenOf id ++ stack)

/-- The numbers of all nodes but the root, depth first in the order of children. -/
def descendantIds (t : KeyTree) : List Nat := t.preorder t.size (t.childrenOf root)

/-- All nodes but the root, depth first in the order of children. -/
def descendants (t : KeyTree) : List Node := t.descendantIds.filterMap t.node?

/-- The nodes that have a value, depth first in the order of children. -/
def leaves (t : KeyTree) : List Node := t.descendants.filter fun n => n.value.isSome

/-- The keys of the tree with their values, depth first in the order of children. -/
def entries (t : KeyTree) : List (Text × Text) :=
  t.descendants.filterMap fun n => n.value.map fun v => (n.path, v)

def children (t : KeyTree) (n : Node) : List Node := n.children.filterMap t.node?

def child? (t : KeyTree) (n : Node) (name : Text) : Option Node :=
  (t.children n).find? fun c => c.name = name

end KeyTree

/-- The number of segments of a node's path.  The empty path has none. -/
def Node.depth (n : Node) : Nat :=
  if n.path = [] then 0 else (Dotted.segments n.path).length

end ResourceBundles
