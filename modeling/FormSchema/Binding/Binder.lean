import FormSchema.Output.Tree

/-!
# Binders

Data is reached through a binder only. It is told what a definition asks for and where, and
answers with instances: opaque contexts that are handed back to it for what lies beneath. It may
keep a state of its own, which it threads through all its answers.

A binder is handed forms and definitions as they are, children and cardinalities included, so its
answers may depend on how a definition is written and on how many instances it asks for. Two runs can
be compared across two forms only for a binder that answers alike on both.
-/

namespace FormSchema

/-- A position in a run, as a binder is told of it. -/
structure Scope (γ : Type) where
  -- the form whose definitions are being bound
  form : Form
  -- what that form was bound to
  formContext : γ
  -- the innermost instance, or `formContext` at the top of the form
  context : γ
  -- the output node that new nodes are attached to
  parent : NodeId

namespace Scope

variable {γ : Type}

def top (form : Form) (context : γ) (parent : NodeId) : Scope γ := ⟨form, context, context, parent⟩

def descend (s : Scope γ) (context : γ) (parent : NodeId) : Scope γ :=
  { s with context := context, parent := parent }

def withParent (s : Scope γ) (parent : NodeId) : Scope γ := { s with parent := parent }

@[simp] theorem top_parent (form : Form) (context : γ) (parent : NodeId) :
    (top form context parent).parent = parent := rfl

@[simp] theorem descend_parent (s : Scope γ) (context : γ) (parent : NodeId) :
    (s.descend context parent).parent = parent := rfl

@[simp] theorem withParent_parent (s : Scope γ) (parent : NodeId) :
    (s.withParent parent).parent = parent := rfl

end Scope

/-- Access to data, with a state `σ` and instances `γ`. -/
structure Binder (σ γ : Type) where
  -- identifies the binder to builders
  kind : String
  -- whether there is anything to bind at all
  hasSource : Bool
  -- called once before a run
  preBind : Form → StateM σ Unit
  -- binds a form: the root without a position, a referenced form at the position of the
  -- reference
  bindForm : Option (Scope γ) → Form → StateM σ (Option γ)
  -- the instances of an element, in output order
  bindElement : Scope γ → ItemDefinition → StateM σ (List γ)
  -- the instance of an attribute
  bindAttribute : Scope γ → ItemDefinition → StateM σ (Option γ)
  -- called once after a run that succeeds
  postBind : Form → OutputTree → StateM σ Unit
  -- the path entry of an instance; without one the definition's label is used
  describe : σ → γ → Option String
  -- the text of an instance
  value : σ → γ → Option String

end FormSchema
