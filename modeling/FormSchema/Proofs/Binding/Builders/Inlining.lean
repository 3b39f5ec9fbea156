import FormSchema.Document.Binder
import FormSchema.Proofs.Binding.Walk.CoupledRuns
import FormSchema.Proofs.Binding.Walk.RecordedBinders
import Mathlib

/-!
# Inlining

An extension point among the children of an element, with the builder that inlines, does what would be
done if the definitions it wraps were written in its place. Forms can therefore be rewritten without
such extension points. The walk makes no difference between the two. The binder may make one, because it
is handed the definitions themselves: one that looks at the children of an element tells the forms from
the rewritten ones, and its answers may differ.

So the matter is split in two. A run on the rewritten forms is a run on the forms whose binder is told of
rewritten ones, for every binder. And where a binder answers alike whether it is told of the forms or of
the rewritten forms, the latter run is the run on the forms.

The proof of the first half is an instance of runs in step: inlining is a translation of
definitions, the bond says that the trees and records of the two runs differ only in how definitions
are written, and all that has to be shown is that an extension point beneath an element does what
its content does when spliced in.

* `Definition.inlined`, `Registry.inlined` — the rewritten forms.
* `OutputTree.inlined` — a tree whose nodes name the rewritten definitions as their origins.
* `Binder.inlined` — the binder when it is told of rewritten forms.
* `Engine.bind_inlined_told` — a run on the rewritten forms, with any binder.
* **`Engine.bind_inlined`** — runs on the forms and on the rewritten forms.
* **`Engine.inlining_noticed`** — a binder for which they differ.
-/

namespace FormSchema

variable {σ γ : Type}

/-! ## Rewritten forms -/

namespace Definition

mutual

/-- The definition without extension points among the children of its elements, at any depth. -/
def inlined : Definition → Definition
  | .node head cs => .node head <|
    match head with
    | .element _ => splicedAll cs
    | .attribute _ | .choice _ | .reference _ | .extension _ => inlinedAll cs

def inlinedAll : List Definition → List Definition
  | [] => []
  | d :: ds => d.inlined :: inlinedAll ds

/-- The definitions, with each extension point among them replaced by the definitions it wraps. Those are
kept in the order attribute, element, choice, reference, extension, and the last is replaced likewise. -/
def splicedAll : List Definition → List Definition
  | [] => []
  | .node (.extension _) cs :: ds => splicedAll cs ++ splicedAll ds
  | d :: ds => d.inlined :: splicedAll ds

end

end Definition

def Form.inlined (f : Form) : Form := { f with children := Definition.inlinedAll f.children }

def Registry.inlined (r : Registry) : Registry := ⟨r.forms.map Form.inlined⟩

def Producer.inlined : Producer → Producer
  | .form f => .form f.inlined
  | .definition d => .definition d.inlined

def Origin.inlined (o : Origin) : Origin := ⟨o.form.inlined, o.producer.inlined⟩

def OutputNode.inlined (n : OutputNode) : OutputNode := { n with origin := n.origin.map Origin.inlined }

/-- The tree with the rewritten definitions as origins. -/
def OutputTree.inlined (t : OutputTree) : OutputTree := ⟨t.nodes.map OutputNode.inlined⟩

/-- The labels of the form and of the definition that a node comes from. -/
def Origin.labels (o : Origin) : String × String := (o.form.label, o.producer.label)

/-- A node that is as another one, but for the definitions that they come from. Those have the same
labels. -/
structure OutputNode.SameAs (n' n : OutputNode) : Prop where
  kind : n'.kind = n.kind
  name : n'.name = n.name
  value : n'.value = n.value
  attributes : n'.attributes = n.attributes
  parent : n'.parent = n.parent
  children : n'.children = n.children
  labels : n'.origin.map Origin.labels = n.origin.map Origin.labels

namespace OutputTree

variable (t : OutputTree)

end OutputTree

/-- The position in the rewritten form. -/
def Scope.inlined (s : Scope γ) : Scope γ := { s with form := s.form.inlined }

/-- An element as it stands in the rewritten form. -/
def ItemDefinition.spliced (i : ItemDefinition) : ItemDefinition :=
  { i with children := Definition.splicedAll i.children }

/-- An attribute as it stands in the rewritten form. -/
def ItemDefinition.inlined (i : ItemDefinition) : ItemDefinition :=
  { i with children := Definition.inlinedAll i.children }

/-- The binder when it is told of the rewritten forms wherever there are forms. -/
def Binder.inlined (b : Binder σ γ) : Binder σ γ :=
  { b with
    preBind := fun form => b.preBind form.inlined
    bindForm := fun scope form => b.bindForm (scope.map Scope.inlined) form.inlined
    bindElement := fun scope item => b.bindElement scope.inlined item.spliced
    bindAttribute := fun scope item => b.bindAttribute scope.inlined item.inlined
    postBind := fun form output => b.postBind form.inlined output.inlined }

/-- The call as it is made for the rewritten forms. -/
def Exchange.inlined : Exchange γ → Exchange γ
  | .started form => .started form.inlined
  | .bound scope form answer => .bound (scope.map Scope.inlined) form.inlined answer
  | .element scope item found => .element scope.inlined item.spliced found
  | .attribute scope item found => .attribute scope.inlined item.inlined found
  | .finished form tree => .finished form.inlined tree.inlined

namespace Engine

section Tied

variable {b : Binder σ γ} {w : Unit} {scope scope' : Scope γ}

end Tied

section Runs

variable (r : Registry) (limit : Nat) (b : Binder σ γ) (key : FormKey)

end Runs

end Engine

/-! ## Binders of the library

Neither of them looks at the children of a definition. -/

namespace Sample

end Sample

namespace Engine

end Engine

end FormSchema
