import FormSchema.Binding.Binder
import FormSchema.Binding.Error

/-!
# Sessions

A run carries the binder's state and the output built so far. It may stop with an error, and what
was done before remains visible in the session.
-/

namespace FormSchema

/-- The state of a run. -/
structure Session (σ : Type) where
  -- the binder's own state
  state : σ
  -- the output built so far
  output : OutputTree

abbrev Run (σ α : Type) := ExceptT RunError (StateM (Session σ)) α

namespace Run

variable {σ α : Type}

/-- Lets the binder act on its state. -/
def ask (action : StateM σ α) : Run σ α := fun s =>
  let (a, state) := action s.state
  (.ok a, { s with state := state })

def state : Run σ σ := fun s => (.ok s.state, s)

def output : Run σ OutputTree := fun s => (.ok s.output, s)

def edit (f : OutputTree → OutputTree) : Run σ Unit := fun s =>
  (.ok (), { s with output := f s.output })

def attach (parent : NodeId) (kind : NodeKind) (name : String) : Run σ NodeId := fun s =>
  let (tree, id) := s.output.attach parent kind name
  (.ok id, { s with output := tree })

def stop (e : RunError) : Run σ α := fun s => (.error e, s)

/-- Stops the run when a count breaks a cardinality. -/
def check (cardinality : Cardinality) (count : Nat) (kind : DefinitionKind) (label : String)
    (path : NodePath) : Run σ Unit :=
  match cardinality.check count with
  | none => pure ()
  | some v => stop (.binding ⟨.count v kind, path, some label⟩)

end Run

end FormSchema
