import FormSchema.Form

/-!
# Output trees

The tree a run produces. Nodes live in one array and are addressed by their position; the root is
node 0, and a new node is always attached to an existing one, so every node but the root has a
parent with a smaller position.

* `OutputTree.descendants` — the nodes below a node, depth first, in the order of attachment.
-/

namespace FormSchema

/-- What an output node stands for. -/
inductive NodeKind where
  -- the root form
  | form
  -- one instance of an element
  | element
  -- the instance of an attribute
  | attribute
  -- the wrapper around the winning alternative of a group
  | choice
  -- the wrapper around the children of a referenced form
  | reference
  -- a decoration added at an extension point
  | comment
  -- any other node added at an extension point
  | other
deriving DecidableEq, Inhabited

namespace NodeKind

def all : List NodeKind := [.form, .element, .attribute, .choice, .reference, .comment, .other]

def name : NodeKind → String
  | .form => "form"
  | .element => "element"
  | .attribute => "attribute"
  | .choice => "choice"
  | .reference => "reference"
  | .comment => "comment"
  | .other => "other"

def ofName? (s : String) : Option NodeKind := all.find? fun k => k.name == s

end NodeKind

/-- The definition that produced a node: a root form, or a node of a definition tree. -/
inductive Producer where
  | form (form : Form)
  | definition (definition : Definition)
deriving Inhabited

def Producer.label : Producer → String
  | .form f => f.label
  | .definition d => d.label

/-- Where a node comes from. -/
structure Origin where
  -- the form whose definitions were being bound
  form : Form
  -- the definition that produced the node
  producer : Producer
deriving Inhabited

abbrev NodeId := Nat

/-- A node of an output tree. -/
structure OutputNode where
  kind : NodeKind
  name : String
  value : Option String
  -- attributes in the order in which their names were first set
  attributes : List (String × String)
  -- the node it was attached to; the root has none
  parent : Option NodeId
  -- the nodes attached to it, in order
  children : Array NodeId
  origin : Option Origin
deriving Inhabited

namespace OutputNode

def fresh (kind : NodeKind) (name : String) (parent : Option NodeId) : OutputNode :=
  ⟨kind, name, none, [], parent, #[], none⟩

/-- Sets an attribute in a list. A name that is present keeps its place. -/
def setEntry (name value : String) : List (String × String) → List (String × String)
  | [] => [(name, value)]
  | (n, v) :: rest => if n = name then (n, value) :: rest else (n, v) :: setEntry name value rest

def attribute? (n : OutputNode) (name : String) : Option String := n.attributes.lookup name

end OutputNode

/-- A tree of output nodes. -/
structure OutputTree where
  nodes : Array OutputNode
deriving Inhabited

namespace OutputTree

def new (kind : NodeKind) (name : String) : OutputTree := ⟨#[.fresh kind name none]⟩

def root : NodeId := 0

def size (t : OutputTree) : Nat := t.nodes.size

/-- Whether there are no nodes; a tree made by `new` has at least its root. -/
def isEmpty (t : OutputTree) : Bool := t.nodes.isEmpty

def node? (t : OutputTree) (id : NodeId) : Option OutputNode := t.nodes[id]?

def modify (t : OutputTree) (id : NodeId) (f : OutputNode → OutputNode) : OutputTree :=
  ⟨t.nodes.modify id f⟩

/-- Attaches a new node at the end of its parent's children. -/
def attach (t : OutputTree) (parent : NodeId) (kind : NodeKind) (name : String) :
    OutputTree × NodeId :=
  let id := t.nodes.size
  (⟨(t.nodes.push (.fresh kind name (some parent))).modify parent fun n =>
    { n with children := n.children.push id }⟩, id)

def setAttribute (t : OutputTree) (id : NodeId) (name value : String) : OutputTree :=
  t.modify id fun n => { n with attributes := OutputNode.setEntry name value n.attributes }

def copyAttributes (t : OutputTree) (id : NodeId) (attrs : OtherAttributes) : OutputTree :=
  attrs.entries.foldl (fun t (name, value) => t.setAttribute id name value) t

def setValue (t : OutputTree) (id : NodeId) (value : String) : OutputTree :=
  t.modify id fun n => { n with value := some value }

def setOrigin (t : OutputTree) (id : NodeId) (origin : Origin) : OutputTree :=
  t.modify id fun n => { n with origin := some origin }

def children (t : OutputTree) (id : NodeId) : List NodeId :=
  match t.node? id with
  | some n => n.children.toList
  | none => []

def childrenNamed (t : OutputTree) (id : NodeId) (name : String) : List NodeId :=
  (t.children id).filter fun c => (t.node? c).any fun n => n.name == name

/-- Visits the nodes of a work list and, right after each, its children. -/
def visit (t : OutputTree) : Nat → List NodeId → List NodeId
  | 0, _ => []
  | _, [] => []
  | fuel + 1, id :: rest => id :: t.visit fuel (t.children id ++ rest)

/-- Every node below a node, depth first, in the order of attachment. There are fewer of them than
nodes in the tree. -/
def descendants (t : OutputTree) (id : NodeId) : List NodeId :=
  t.visit t.size (t.children id)

end OutputTree

end FormSchema
