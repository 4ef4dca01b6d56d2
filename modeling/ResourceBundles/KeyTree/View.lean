import ResourceBundles.Json.Basic
import ResourceBundles.KeyTree.Basic
import ResourceBundles.Text.Quoted

/-!
# Views of key trees

A key tree as a nested value, with every node next to the views of its children,
and the forms in which nodes and trees are shown.  The numbers of the nodes do
not appear in a view.
-/

namespace ResourceBundles

inductive NodeView where
  | mk (name path : Text) (value : Option Text) (children : List NodeView)

namespace KeyTree

/-- The view of the node with a given number, down to a given depth. -/
def viewAt (t : KeyTree) : Nat → Nat → NodeView
  | 0, _ => .mk [] [] none []
  | depth + 1, id =>
    match t.node? id with
    | none => .mk [] [] none []
    | some n => .mk n.name n.path n.value (n.children.map (viewAt t depth))

/-- The view of the whole tree.  No node lies deeper than there are nodes. -/
def view (t : KeyTree) : NodeView := t.viewAt t.size root

end KeyTree

namespace NodeView

def children : NodeView → List NodeView
  | mk _ _ _ children => children

mutual

def toJson : NodeView → Json
  | mk name path value children =>
    .object [("name", .string name), ("path", .string path), ("leaf", .bool value.isSome),
      ("value", value.elim .null .string), ("children", .array (toJsons children))]

def toJsons : List NodeView → List Json
  | [] => []
  | v :: vs => toJson v :: toJsons vs

end

end NodeView

def KeyTree.toJson (t : KeyTree) : Json := t.view.toJson

def Node.describe (n : Node) : Text :=
  let value : Text := match n.value with
    | some v => "Some(" ++ Text.quoted v ++ ")"
    | none => "None"
  "Node \x7b path: " ++ Text.quoted n.path ++ ", value: " ++ value ++ ", children: "
    ++ Text.decimal n.children.length ++ " \x7d"

end ResourceBundles
