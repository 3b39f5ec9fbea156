import FormSchema.Output.Tree
import FormSchema.Json.Printer
import FormSchema.Yaml.Printer

/-!
# Views of output trees

An output tree as a nested record, without positions and parents, as a JSON value and as a YAML
outline. A member is left out of both when it has nothing to say: no value, no attributes, no
origin, no children.
-/

namespace FormSchema

/-- What a node says of itself and of the nodes below it. -/
inductive OutputView where
  | node (kind : NodeKind) (name : String) (value : Option String)
      (attributes : List (String × String)) (definition : Option String)
      (children : List OutputView)
deriving Inhabited

namespace OutputTree

/-- The view from a node, down to `depth` levels. -/
def viewFrom (t : OutputTree) : Nat → NodeId → OutputView
  | 0, _ => default
  | depth + 1, id =>
    match t.node? id with
    | none => default
    | some n =>
      .node n.kind n.name n.value n.attributes (n.origin.map fun o => o.producer.label)
        (n.children.toList.map (t.viewFrom depth))

/-- The view of the whole tree. A child has a greater position than its parent, so the tree has no
more levels than nodes. -/
def view (t : OutputTree) : OutputView := t.viewFrom t.size root

end OutputTree

namespace OutputView

mutual

def toJson : OutputView → Json
  | .node kind name value attributes definition children =>
    .object <|
      [("kind", .string kind.name), ("name", .string name)]
      ++ (match value with | some v => [("value", .string v)] | none => [])
      ++ (if attributes.isEmpty then []
          else [("attributes", .object (attributes.map fun (n, v) => (n, .string v)))])
      ++ (match definition with | some d => [("definition", .string d)] | none => [])
      ++ (match children with | [] => [] | c :: cs => [("children", .array (toJsons (c :: cs)))])

def toJsons : List OutputView → List Json
  | [] => []
  | v :: vs => v.toJson :: toJsons vs

end

mutual

def outline : OutputView → Yaml.Outline
  | .node kind name value attributes definition children =>
    .mapping <|
      [("kind", .text kind.name), ("name", .text name)]
      ++ (match value with | some v => [("value", .text v)] | none => [])
      ++ (if attributes.isEmpty then []
          else [("attributes", .mapping (attributes.map fun (n, v) => (n, .text v)))])
      ++ (match definition with | some d => [("definition", .text d)] | none => [])
      ++ (match children with | [] => [] | c :: cs => [("children", .sequence (outlines (c :: cs)))])

def outlines : List OutputView → List Yaml.Outline
  | [] => []
  | v :: vs => v.outline :: outlines vs

end

end OutputView

def OutputTree.toJson (t : OutputTree) : Json := t.view.toJson

def OutputTree.toYaml (t : OutputTree) : String := t.view.outline.toText

end FormSchema
