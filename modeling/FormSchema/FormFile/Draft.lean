import FormSchema.Definition
import FormSchema.FormFile.Fields

/-!
# Drafts

What a form file says, once its shape is known to be right: definitions whose cardinality is still
a token, whose other attributes are still values, and whose children may still be of the wrong
kinds.

* `FormDraft.ofTree?` — the draft in the contents of a form file.
-/

namespace FormSchema

/-- What a form file says about an attribute, an element or a group. -/
structure ItemDraft where
  id : Option String
  lookup : Option String
  -- the token of the cardinality, if there is one
  cardinality : Option String
deriving DecidableEq, Inhabited

/-- What the node of a draft is about. -/
inductive DraftHead where
  | attribute (item : ItemDraft)
  | element (item : ItemDraft)
  | choice (item : ItemDraft)
  | reference (target : FormKey)
  | extension (representation : String)
deriving DecidableEq, Inhabited

inductive Draft where
  | node (head : DraftHead) (others : List (String × Yaml.Value)) (children : List Draft)
deriving Inhabited

structure FormDraft where
  key : FormKey
  others : List (String × Yaml.Value)
  children : List Draft
deriving Inhabited

namespace Draft

def childrenField : String := "children"

def keyFields : List String := ["id", "group", childrenField]

/-- The fields of a definition. -/
def fields : DefinitionKind → List String
  | .attribute | .element | .choice => ["id", "lookup", "cardinality", childrenField]
  | .reference => keyFields
  | .extension => ["representation", childrenField]

/-- The kind that the only key of a definition names: by its tag, or by its place among them. -/
def kind? : Yaml.Value → Option DefinitionKind
  | .string tag => DefinitionKind.all.find? fun k => k.tag = tag
  | .integer n => if 0 ≤ n then DefinitionKind.all[n.toNat]? else none
  | _ => none

def key? (f : Fields) : Option FormKey := do
  some (.ofGroup (← f.text? "group") (← f.text "id"))

def item? (f : Fields) : Option ItemDraft := do
  some ⟨← f.text? "id", ← f.text? "lookup", ← f.text? "cardinality"⟩

/-- The head of a definition of a kind. -/
def head? (kind : DefinitionKind) (f : Fields) : Option DraftHead :=
  match kind with
  | .attribute => (item? f).map .attribute
  | .element => (item? f).map .element
  | .choice => (item? f).map .choice
  | .reference => (key? f).map .reference
  | .extension => (f.text "representation").map .extension

mutual

/-- The draft in a value: a mapping with one key, which names the kind. -/
def ofValue? : Yaml.Value → Option Draft
  | .mapping [(tag, .mapping entries)] => do
    let kind ← kind? tag
    let f ← Fields.ofEntries? (fields kind) entries
    some (.node (← head? kind f) f.others (← childrenOf? entries))
  | _ => none

/-- The drafts in the field that holds the children; without the field there are none. -/
def childrenOf? : List (Yaml.Value × Yaml.Value) → Option (List Draft)
  | [] => some []
  | (.string name, .sequence items) :: entries =>
    if name = childrenField then ofValues? items else childrenOf? entries
  | (.string name, _) :: entries => if name = childrenField then none else childrenOf? entries
  | _ :: entries => childrenOf? entries

/-- The drafts in a list of values. -/
def ofValues? : List Yaml.Value → Option (List Draft)
  | [] => some []
  | v :: vs => do some ((← ofValue? v) :: (← ofValues? vs))

end

end Draft

namespace FormDraft

/-- The draft in the entries of a form file other than its version. -/
def ofEntries? (entries : List (Yaml.Value × Yaml.Value)) : Option FormDraft := do
  let f ← Fields.ofEntries? Draft.keyFields entries
  some ⟨← Draft.key? f, f.others, ← Draft.childrenOf? entries⟩

def versionKey : String := "_version"

def version : String := "1"

/-- Takes the versions out of the contents of a form file. A version is any scalar; it is its
text that counts. -/
def splitVersions : List (Yaml.Tree × Yaml.Tree) →
    Option (List String × List (Yaml.Value × Yaml.Value))
  | [] => some ([], [])
  | (k, v) :: rest => do
    let (versions, entries) ← splitVersions rest
    match ← k.value?, v with
    | .string name, .scalar s =>
      if name = versionKey then some (s.text :: versions, entries)
      else some (versions, (.string name, ← s.value?) :: entries)
    | .string name, v =>
      if name = versionKey then none else some (versions, (.string name, ← v.value?) :: entries)
    | k, v => some (versions, (k, ← v.value?) :: entries)

/-- The draft in the contents of a form file. -/
def ofTree? : Yaml.Tree → Option FormDraft
  | .mapping pairs => do
    let (versions, entries) ← splitVersions pairs
    if versions = [version] then ofEntries? entries else none
  | _ => none

end FormDraft

end FormSchema
