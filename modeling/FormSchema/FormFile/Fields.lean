import FormSchema.Yaml.Value

/-!
# Fields of a form file

A definition stands in a form file as a mapping. The keys of the schema are its fields, each of
which occurs at most once; all other keys name other attributes. Of two values for one other
attribute the later one is kept, at the place of the earlier one.
-/

namespace FormSchema

namespace Yaml

/-! ### Equal values -/

mutual

/-- Whether two values are equal. The order of the entries of a mapping does not matter. -/
def Value.same : Value → Value → Bool
  | .null, .null => true
  | .bool a, .bool b => a = b
  | .integer a, .integer b => a = b
  | .real a, .real b => a.same b
  | .string a, .string b => a = b
  | .sequence as, .sequence bs => sameAll as bs
  | .mapping as, .mapping bs => as.length = bs.length && sameWithin as bs
  | _, _ => false

def sameAll : List Value → List Value → Bool
  | [], [] => true
  | a :: as, b :: bs => a.same b && sameAll as bs
  | _, _ => false

/-- Whether every entry of one list occurs in another one. -/
def sameWithin : List (Value × Value) → List (Value × Value) → Bool
  | [], _ => true
  | (k, v) :: as, bs => (bs.any fun b => k.same b.1 && v.same b.2) && sameWithin as bs

end

def hasKey (k : Value) (entries : List (Value × Value)) : Bool :=
  entries.any fun e => k.same e.1

mutual

/-- Whether no mapping within a value has two equal keys. -/
def Value.hasDistinctKeys : Value → Bool
  | .sequence items => allDistinctKeys items
  | .mapping entries => entriesDistinctKeys entries
  | _ => true

def allDistinctKeys : List Value → Bool
  | [] => true
  | v :: vs => v.hasDistinctKeys && allDistinctKeys vs

/-- Whether the keys of entries differ, and those of every mapping within them. -/
def entriesDistinctKeys : List (Value × Value) → Bool
  | [] => true
  | (k, v) :: es =>
    !hasKey k es && k.hasDistinctKeys && v.hasDistinctKeys && entriesDistinctKeys es

end

end Yaml

/-- The entries of a definition: its fields, and its other attributes in their order. -/
structure Fields where
  schema : List (String × Yaml.Value)
  others : List (String × Yaml.Value)
deriving Inhabited

namespace Fields

def empty : Fields := ⟨[], []⟩

/-- Sets a value by name, at the place of an earlier value for it or else at the end. -/
def put (name : String) (value : Yaml.Value) : List (String × Yaml.Value) →
    List (String × Yaml.Value)
  | [] => [(name, value)]
  | (n, v) :: rest => if n = name then (n, value) :: rest else (n, v) :: put name value rest

/-- Adds an entry, given the names of the schema. -/
def add (names : List String) (f : Fields) (name : String) (value : Yaml.Value) : Option Fields :=
  if name ∈ names then
    if name ∈ f.schema.map Prod.fst then none
    else some { f with schema := f.schema ++ [(name, value)] }
  else if value.hasDistinctKeys then some { f with others := put name value f.others }
  else none

/-- Sorts entries into fields and other attributes. Every key has to be a string. -/
def ofEntries? (names : List String) (entries : List (Yaml.Value × Yaml.Value)) : Option Fields :=
  entries.foldlM (fun f (k, v) => match k with
    | .string name => f.add names name v
    | _ => none) empty

/-- The text of a field that may be absent. A null counts as absent. -/
def text? (f : Fields) (name : String) : Option (Option String) :=
  match f.schema.lookup name with
  | none | some .null => some none
  | some (.string text) => some (some text)
  | some _ => none

/-- The text of a field that has to be there. -/
def text (f : Fields) (name : String) : Option String :=
  match f.schema.lookup name with
  | some (.string text) => some text
  | _ => none

end Fields

end FormSchema
