import FormSchema.Cardinality
import FormSchema.FormKey
import FormSchema.OtherAttributes

/-!
# Definitions

A form describes data by a tree of definitions. Every node is a `Head`, which says what the node
is about, and a list of children. The tree type itself admits any shape; `withChild` and
`withAttribute` are the checked ways to grow a tree, and they refuse children of the wrong kind,
reserved names and repeated names.

An extension point wraps at most one definition of each kind. What it wraps is kept among its
children in the order attribute, element, choice, reference, extension.

* `Definition.references` — every reference in a tree, depth first, a reference before its own
  children.
-/

namespace FormSchema

inductive DefinitionKind where
  | attribute
  | element
  | choice
  | reference
  | extension
deriving DecidableEq, Inhabited

namespace DefinitionKind

/-- Every kind, in the order in which an extension point keeps what it wraps. -/
def all : List DefinitionKind := [.attribute, .element, .choice, .reference, .extension]

/-- The name of the kind in form files and messages. -/
def tag : DefinitionKind → String
  | .attribute => "attribute"
  | .element => "element"
  | .choice => "choice"
  | .reference => "form-ref"
  | .extension => "other"

/-- What a message about counts calls instances of the kind. -/
def noun : DefinitionKind → String
  | .attribute => "attribute"
  | .element => "element"
  | .choice => "single element"
  | .reference => "form reference"
  | .extension => "other node"

def slot : DefinitionKind → Nat
  | .attribute => 0
  | .element => 1
  | .choice => 2
  | .reference => 3
  | .extension => 4

end DefinitionKind

/-- What an attribute or element definition asks for: something with an id that is looked up by a
key. -/
structure Subject where
  -- the id; anonymous definitions have none
  id : Option String
  -- the lookup key, when it differs from the id
  lookup : Option String
  attributes : OtherAttributes
deriving DecidableEq, Inhabited

def Subject.lookupKey (s : Subject) : Option String := s.lookup <|> s.id

/-- The name of an output node: the id, else the lookup key, else a fixed name. -/
def Subject.nodeName (s : Subject) (fallback : String) : String :=
  (s.id <|> s.lookup).getD fallback

/-- An attribute or element definition: what it asks for, and how often that may occur. -/
structure Item extends Subject where
  cardinality : Cardinality
deriving DecidableEq, Inhabited

/-- A group of alternatives of which at most one may be present. -/
structure Choice where
  id : Option String
  cardinality : Cardinality
  attributes : OtherAttributes
deriving DecidableEq, Inhabited

/-- A reference to a root form, which stands for the children of that form. -/
structure Reference where
  target : FormKey
  attributes : OtherAttributes
deriving DecidableEq, Inhabited

/-- A point at which builders may contribute output. -/
structure Extension where
  -- a token whose meaning is left to the builders
  representation : String
  attributes : OtherAttributes
deriving DecidableEq, Inhabited

inductive Head where
  | attribute (item : Item)
  | element (item : Item)
  | choice (group : Choice)
  | reference (ref : Reference)
  | extension (point : Extension)
deriving DecidableEq, Inhabited

def bracketed (tag : String) (id : Option String) : String := tag ++ "[@" ++ id.getD "" ++ "]"

def Item.attributeLabel (i : Item) : String := bracketed "attribute" i.id

def Item.elementLabel (i : Item) : String := bracketed "element" i.id

def Choice.label (c : Choice) : String := bracketed "choice" c.id

def Reference.label (r : Reference) : String := bracketed "form-ref" (some r.target.text)

def Extension.label (x : Extension) : String := "other[" ++ x.representation ++ "]"

namespace Head

def kind : Head → DefinitionKind
  | .attribute _ => .attribute
  | .element _ => .element
  | .choice _ => .choice
  | .reference _ => .reference
  | .extension _ => .extension

/-- The label that names the definition in messages. -/
def label : Head → String
  | .attribute i => i.attributeLabel
  | .element i => i.elementLabel
  | .choice c => c.label
  | .reference r => r.label
  | .extension x => x.label

/-- The attributes the schema gives no meaning to. -/
def attributes : Head → OtherAttributes
  | .attribute i | .element i => i.attributes
  | .choice c => c.attributes
  | .reference r => r.attributes
  | .extension x => x.attributes

def setAttributes (attrs : OtherAttributes) : Head → Head
  | .attribute i => .attribute { i with attributes := attrs }
  | .element i => .element { i with attributes := attrs }
  | .choice c => .choice { c with attributes := attrs }
  | .reference r => .reference { r with attributes := attrs }
  | .extension x => .extension { x with attributes := attrs }

/-- The kinds of definition that may stand directly beneath a head. -/
def permits : Head → DefinitionKind → Bool
  | .attribute _, k | .reference _, k => k = .extension
  | .choice _, k => k = .element ∨ k = .choice ∨ k = .extension
  | .element _, _ | .extension _, _ => true

end Head

/-- A tree of definitions. -/
inductive Definition where
  | node (head : Head) (children : List Definition)
deriving Inhabited

/-- An attribute or element definition as a whole: what it asks for and how often, and the
definitions beneath it. -/
structure ItemDefinition extends Item where
  children : List Definition
deriving Inhabited

/-- Why a definition tree cannot be grown as asked. -/
inductive ModelError where
  -- an attribute is refused
  | attribute (cause : AttributeError)
  -- a child of this kind cannot stand under the parent
  | childNotPermitted (parent : String) (child : DefinitionKind)
  -- an extension point already wraps a definition of this kind
  | slotTaken (parent : String) (child : DefinitionKind)
deriving DecidableEq

def ModelError.message : ModelError → String
  | .attribute e => e.message
  | .childNotPermitted parent child =>
    s!"{child.tag} definitions are not permitted inside {parent}"
  | .slotTaken parent child => s!"{parent} already wraps a {child.tag} definition"

def OtherAttributes.add (a : OtherAttributes) (name value : String) :
    Except ModelError OtherAttributes :=
  (a.insert name value).mapError .attribute

namespace Definition

def head : Definition → Head
  | .node h _ => h

def children : Definition → List Definition
  | .node _ cs => cs

def kind (d : Definition) : DefinitionKind := d.head.kind

def label (d : Definition) : String := d.head.label

def leaf (h : Head) : Definition := .node h []

def ofKind (kind : DefinitionKind) (ds : List Definition) : List Definition :=
  ds.filter fun d => d.kind = kind

def wrapped? (d : Definition) (kind : DefinitionKind) : Option Definition :=
  d.children.find? fun c => c.kind = kind

/-- Puts a definition before the first one of a later slot. -/
def insertBySlot (d : Definition) : List Definition → List Definition
  | [] => [d]
  | c :: cs =>
    if d.kind.slot < c.kind.slot then d :: c :: cs else c :: insertBySlot d cs

def withAttribute (d : Definition) (name value : String) : Except ModelError Definition :=
  match d with
  | .node h cs => (h.attributes.add name value).map fun attrs => .node (h.setAttributes attrs) cs

/-- Adds a child to the root: at the end, or into its slot when the root is an extension point. -/
def withChild (d child : Definition) : Except ModelError Definition :=
  match d with
  | .node (.extension x) cs =>
    if cs.any fun c => c.kind = child.kind then .error (.slotTaken x.label child.kind)
    else .ok (.node (.extension x) (child.insertBySlot cs))
  | .node h cs =>
    if h.permits child.kind then .ok (.node h (cs ++ [child]))
    else .error (.childNotPermitted h.label child.kind)

/-! ### References -/

mutual

/-- Every reference in a tree, depth first. -/
def references : Definition → List Reference
  | .node (.reference r) cs => r :: referencesAll cs
  | .node (.attribute _) cs | .node (.element _) cs | .node (.choice _) cs
  | .node (.extension _) cs => referencesAll cs

def referencesAll : List Definition → List Reference
  | [] => []
  | d :: ds => d.references ++ referencesAll ds

end

end Definition

end FormSchema
