import FormSchema.Form

/-!
# Registries

Root forms by key. A registry is grown by `insert`, which refuses a key that is taken, and lists
its forms in the order of their keys whatever the order of insertion was.

* `Registry.dangling` — the references whose target is not registered.
-/

namespace FormSchema

/-- Root forms, kept in the order of their keys. -/
structure Registry where
  forms : List Form
deriving Inhabited

structure DuplicateForm where
  key : FormKey
  -- the source of the form that is kept
  existing : String
  -- the source of the form that is refused
  duplicate : String
deriving DecidableEq

def DuplicateForm.message (e : DuplicateForm) : String :=
  s!"form {e.key.text} is defined in both {e.existing} and {e.duplicate}"

structure DanglingReference where
  -- the form that holds the reference
  form : FormKey
  -- the missing form
  target : FormKey
deriving DecidableEq

namespace Registry

def empty : Registry := ⟨[]⟩

def get? (r : Registry) (key : FormKey) : Option Form := r.forms.find? fun f => f.key = key

def find? (r : Registry) (id : String) (group : Option String) : Option Form :=
  r.get? (.ofGroup group id)

def contains (r : Registry) (key : FormKey) : Bool := (r.get? key).isSome

def keys (r : Registry) : List FormKey := r.forms.map fun f => f.key

def size (r : Registry) : Nat := r.forms.length

def isEmpty (r : Registry) : Bool := r.forms.isEmpty

/-- Puts a form before the first one with a later key. -/
def place (f : Form) : List Form → List Form
  | [] => [f]
  | g :: gs => if f.key.before g.key then f :: g :: gs else g :: place f gs

/-- Registers a form. A key that is taken keeps its form. -/
def insert (r : Registry) (f : Form) : Except DuplicateForm Registry :=
  match r.get? f.key with
  | some g => .error ⟨f.key, g.source, f.source⟩
  | none => .ok ⟨place f r.forms⟩

def ofForms (forms : List Form) : Except DuplicateForm Registry :=
  forms.foldlM insert empty

/-- Every reference whose target is not registered: the forms in key order, the references of
each in their own order, one entry per occurrence. -/
def dangling (r : Registry) : List DanglingReference :=
  r.forms.flatMap fun f =>
    (f.references.filter fun ref => !r.contains ref.target).map fun ref => ⟨f.key, ref.target⟩

end Registry

end FormSchema
