/-!
# Other attributes

Attributes of a definition that the schema itself gives no meaning to. They keep the order in
which they were declared; a name is declared once, and the names of the schema are reserved.
-/

namespace FormSchema

def reservedNames : List String := ["id", "lookup", "type", "group"]

/-- Why an attribute is refused. -/
inductive AttributeError where
  -- the name belongs to the schema
  | reserved (name : String)
  -- the name was declared before
  | duplicate (name : String)
deriving DecidableEq

def AttributeError.message : AttributeError → String
  | .reserved name => s!"attribute name '{name}' is reserved"
  | .duplicate name => s!"attribute '{name}' is declared more than once"

/-- Attributes by name, in declaration order. -/
structure OtherAttributes where
  -- the pairs of name and value
  entries : List (String × String)
deriving DecidableEq, Inhabited

namespace OtherAttributes

def empty : OtherAttributes := ⟨[]⟩

def names (a : OtherAttributes) : List String := a.entries.map Prod.fst

def get? (a : OtherAttributes) (name : String) : Option String := a.entries.lookup name

def size (a : OtherAttributes) : Nat := a.entries.length

def isEmpty (a : OtherAttributes) : Bool := a.entries.isEmpty

/-- Adds an attribute at the end. A reserved name is refused before a repeated one. -/
def insert (a : OtherAttributes) (name value : String) : Except AttributeError OtherAttributes :=
  if name ∈ reservedNames then .error (.reserved name)
  else if name ∈ a.names then .error (.duplicate name)
  else .ok ⟨a.entries ++ [(name, value)]⟩

theorem names_insert {a b : OtherAttributes} {name value : String}
    (h : a.insert name value = .ok b) : b.names = a.names ++ [name] := by
  unfold insert at h
  split at h <;> try contradiction
  split at h <;> try contradiction
  cases h
  simp [names]

end OtherAttributes

end FormSchema
