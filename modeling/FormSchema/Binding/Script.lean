import FormSchema.Binding.Binder

/-!
# Scripted binders

A binder whose answers are written down in tables. Its instances are texts. An entry may be made
for a key within one instance, written `instance>key`, or for the key anywhere; the former counts
first. Every call is reported to a recorder.
-/

namespace FormSchema

/-- A call of a binder, as it is recorded. -/
inductive Call where
  -- a run is about to start
  | pre (form : Form)
  -- the root form is to be bound
  | root (key : FormKey)
  -- a referenced form is to be bound
  | form (key : FormKey) (place : Scope String)
  -- the instances of an element are asked for
  | element (key : Option String) (place : Scope String)
  -- the instance of an attribute is asked for
  | attribute (key : Option String) (place : Scope String)
  -- a run has succeeded with a number of nodes
  | post (form : Form) (nodes : Nat)

/-- The instances a script gives an element. -/
inductive Instances where
  -- so many instances, numbered after the key
  | count (n : Nat)
  -- these instances
  | list (names : List String)
deriving DecidableEq

/-- The answers of a scripted binder. -/
structure Script where
  kind : String
  hasSource : Bool
  -- what forms are bound to; `none` says that a form is not bound
  forms : List (String × Option String)
  elements : List (String × Instances)
  attributes : List (String × String)
  -- the text of instances; without a table every instance is its own text
  values : Option (List (String × String))
  -- the path entries of instances
  entries : List (String × String)

namespace Script

variable {σ α : Type}

/-- The entry for a key within an instance, else for the key anywhere. -/
def find? (table : List (String × α)) (within key : String) : Option α :=
  (table.lookup (within ++ ">" ++ key)).or (table.lookup key)

/-- What a form is bound to: its id, unless the table says otherwise. -/
def formContext (s : Script) (within : String) (key : FormKey) : Option String :=
  (find? s.forms within key.text).getD (some key.id)

/-- The instances of an element: none, unless the table says otherwise. -/
def elementContexts (s : Script) (within key : String) : List String :=
  match find? s.elements within key with
  | none => []
  | some (.count n) => (List.range n).map fun i => key ++ "#" ++ Nat.repr i
  | some (.list names) => names

/-- The binder that answers from a script and reports its calls to `record`. -/
def binder (s : Script) (record : Call → σ → σ) : Binder σ String where
  kind := s.kind
  hasSource := s.hasSource
  preBind form := modify (record (.pre form))
  bindForm place form := do
    match place with
    | none => modify (record (.root form.key))
    | some p => modify (record (.form form.key p))
    pure (s.formContext (place.elim "" Scope.context) form.key)
  bindElement place item := do
    modify (record (.element item.lookupKey place))
    pure (s.elementContexts place.context (item.lookupKey.getD ""))
  bindAttribute place item := do
    modify (record (.attribute item.lookupKey place))
    pure (find? s.attributes place.context (item.lookupKey.getD ""))
  postBind form output := modify (record (.post form output.size))
  describe _ found := s.entries.lookup found
  value _ found :=
    match s.values with
    | none => some found
    | some table => table.lookup found

end Script

end FormSchema
