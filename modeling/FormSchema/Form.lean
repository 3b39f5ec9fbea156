import FormSchema.Definition

/-!
# Forms

A root form: the unit that is registered under a key and bound against data. Directly beneath it
stand elements, choices and references only.
-/

namespace FormSchema

/-- What names a root form: its key, where it came from and its attributes. -/
structure FormHeading where
  key : FormKey
  -- says where the definition came from
  source : String
  attributes : OtherAttributes
deriving DecidableEq, Inhabited

def FormHeading.label (f : FormHeading) : String :=
  "\x7b" ++ f.source ++ "\x7d" ++ bracketed "form" (some f.key.text)

/-- A root form: a heading and the definitions beneath it. -/
structure Form extends FormHeading where
  children : List Definition
deriving Inhabited

namespace Form

def empty (key : FormKey) (source : String) : Form := ⟨⟨key, source, .empty⟩, []⟩

/-- The kinds of definition that may stand directly beneath a form. -/
def permits (k : DefinitionKind) : Bool := k = .element ∨ k = .choice ∨ k = .reference

def withAttribute (f : Form) (name value : String) : Except ModelError Form :=
  (f.attributes.add name value).map fun attrs => { f with attributes := attrs }

def withChild (f : Form) (child : Definition) : Except ModelError Form :=
  if permits child.kind then .ok { f with children := f.children ++ [child] }
  else .error (.childNotPermitted f.label child.kind)

def references (f : Form) : List Reference := Definition.referencesAll f.children

end Form

end FormSchema
