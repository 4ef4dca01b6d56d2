import ResourceBundles.Text.Dotted

/-!
# Paths

A path is a text with slashes between its pieces.  Its components leave out the
pieces that mean nothing: empty ones, and a single dot anywhere but at the start
of a relative path.  Paths are compared by their components, while joining and
changing an extension keep the text that is not touched.
-/

namespace ResourceBundles

structure Path where
  text : Text
deriving DecidableEq

namespace Path

inductive Component where
  | root
  | current
  | parent
  | name (text : Text)
deriving DecidableEq

namespace Component

/-- The place of a component among components of other forms. -/
def rank : Component → Nat
  | root => 0
  | current => 1
  | parent => 2
  | name _ => 3

def text : Component → Text
  | root => "/"
  | current => "."
  | parent => ".."
  | name t => t

/-- Components are ordered by their form and names by their text. -/
instance : Ord Component where
  compare a b := (compare a.rank b.rank).then (compare a.text b.text)

/-- The component that a piece stands for, given whether it starts a relative
path. -/
def ofPiece? (first : Bool) (piece : Text) : Option Component :=
  if piece = [] then none
  else if piece = ['.'] then if first then some .current else none
  else if piece = ['.', '.'] then some .parent
  else some (.name piece)

end Component

/-- Whether a path starts at the root of the file system. -/
def isAbsolute (p : Path) : Bool := p.text.head? == some '/'

/-- The texts between slashes, behind the slash of the root if there is one. -/
def pieces (p : Path) : List Text :=
  (if p.isAbsolute then p.text.tail else p.text).splitOn '/'

def ofPieces (absolute : Bool) (ps : List Text) : Path :=
  ⟨(if absolute then ['/'] else []) ++ ['/'].intercalate ps⟩

def componentsOf (absolute : Bool) : List Text → List Component
  | [] => []
  | piece :: rest =>
    (Component.ofPiece? (!absolute) piece).toList
      ++ rest.filterMap (Component.ofPiece? false)

def components (p : Path) : List Component :=
  (if p.isAbsolute then [.root] else []) ++ componentsOf p.isAbsolute p.pieces

def ofComponents : List Component → Path
  | .root :: cs => ofPieces true (cs.map Component.text)
  | cs => ofPieces false (cs.map Component.text)

def le (p q : Path) : Bool := (compare p.components q.components).isLE

/-- A path below another one; an absolute path stands for itself. -/
def join (p q : Path) : Path :=
  if q.isAbsolute then q
  else if p.text = [] ∨ p.text.getLast? = some '/' then ⟨p.text ++ q.text⟩
  else ⟨p.text ++ '/' :: q.text⟩

/-- Whether the components of `p` start with those of `base`. -/
def startsWith (p base : Path) : Bool := base.components.isPrefixOf p.components

/-- The rest of a path behind the components of `base`. -/
def relativeTo? (p base : Path) : Option Path :=
  if p.startsWith base then
    some (ofComponents (p.components.drop base.components.length))
  else none

/-- Pieces in reverse order without those at the end that mean nothing. -/
def dropVoid (absolute : Bool) : List Text → List Text
  | [] => []
  | piece :: rest =>
    if (Component.ofPiece? (!absolute && rest.isEmpty) piece).isNone then
      dropVoid absolute rest
    else piece :: rest

theorem length_dropVoid_le (absolute : Bool) (ps : List Text) :
    (dropVoid absolute ps).length ≤ ps.length := by
  induction ps with
  | nil => simp [dropVoid]
  | cons p ps ih =>
    simp only [dropVoid]
    split
    · exact Nat.le_succ_of_le ih
    · exact Nat.le_refl _

/-- The pieces of a path from its last component back to its start. -/
def lastPieces (p : Path) : List Text := dropVoid p.isAbsolute p.pieces.reverse

/-- The pieces of all proper ancestors, in the order of `lastPieces`. -/
def ancestorPieces (absolute : Bool) : List Text → List (List Text)
  | [] => []
  | _ :: rest =>
    have : (dropVoid absolute rest).length < rest.length + 1 :=
      Nat.lt_succ_of_le (length_dropVoid_le absolute rest)
    dropVoid absolute rest :: ancestorPieces absolute (dropVoid absolute rest)
termination_by ps => ps.length

/-- A path and its ancestors, each without the last component of the one before. -/
def ancestors (p : Path) : List Path :=
  p :: (ancestorPieces p.isAbsolute p.lastPieces).map fun ps =>
    ofPieces p.isAbsolute ps.reverse

def fileName? (p : Path) : Option Text :=
  match p.lastPieces with
  | [] => none
  | piece :: _ => if piece = ['.'] ∨ piece = ['.', '.'] then none else some piece

/-- A file name without its extension, and the extension.  A dot at the start of
a name begins no extension. -/
def splitExtension (name : Text) : Text × Option Text :=
  match Dotted.cutLast name with
  | some (front, back) => if front = [] then (name, none) else (front, some back)
  | none => (name, none)

def extension? (p : Path) : Option Text :=
  p.fileName?.bind fun name => (splitExtension name).2

/-- The path with its last component given another extension, or none if
`extension` is empty.  A path that ends in no name stays as it is. -/
def setExtension (p : Path) (extension : Text) : Path :=
  match p.fileName? with
  | none => p
  | some name =>
    let suffix := if extension = [] then [] else '.' :: extension
    ofPieces p.isAbsolute
      (((splitExtension name).1 ++ suffix) :: p.lastPieces.tail).reverse

/-- The path without the extension of its last component, and without a dot in
front of the place where it stood. -/
def withoutExtension (p : Path) : Path :=
  match p.extension? with
  | none => p.setExtension []
  | some e => (Path.mk (p.text.take (p.text.length - e.length))).setExtension []

/-- Whether a path leads nowhere but to the directory it starts in. -/
def isCurrent (p : Path) : Bool := p.components.all (· == .current)

end Path
end ResourceBundles
