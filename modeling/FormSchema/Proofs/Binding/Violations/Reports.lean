import FormSchema.Binding.Outcome
import FormSchema.Binding.Script
import FormSchema.Document.Binder
import FormSchema.Registry.Basic

/-!
# Violations

All the ways in which data breaks the forms, collected by a walk that never stops. It needs a
binder whose answers are fixed: what it says depends on what is asked and on where the question
comes from, and on nothing that was asked before. Such a binder is given by its `Replies`.

The walk is a function of the answers alone. It knows no output and no session, does not stop at a
fault, and visits what an engine visits only as long as nothing is wrong. That makes it the plain
reading of what it means for data to satisfy the forms, against which the engine is measured.

* `Replies.faults` — the violations of one definition, in the order of declaration.
* `Replies.violations` — the violations of a root form.
* **`Script.binder_follows`**, **`Document.binder_follows`** — the binders of the library have fixed
  answers.
-/

namespace FormSchema

/-! ## Fixed answers

A spot is what an answer may depend on beside the question. The node of a position is left out of
it, because a binder that looked at the output would not have fixed answers. -/

/-- What a question may depend on beside its item: a position without its output node. -/
structure Spot (γ : Type) where
  form : Form
  formContext : γ
  context : γ

variable {σ γ : Type}

def Scope.spot (s : Scope γ) : Spot γ := ⟨s.form, s.formContext, s.context⟩

namespace Spot

/-- The spot directly beneath a form. -/
def top (form : Form) (context : γ) : Spot γ := ⟨form, context, context⟩

/-- The spot beneath an instance. -/
def descend (s : Spot γ) (context : γ) : Spot γ := { s with context := context }

end Spot

/-- The answers of a binder that always gives the same ones. They say nothing of states: whatever
state the binder is in, these are the answers. -/
structure Replies (γ : Type) where
  forms : Option (Spot γ) → Form → Option γ
  elements : Spot γ → ItemDefinition → List γ
  attributes : Spot γ → ItemDefinition → Option γ
  entry : γ → Option String

/-- Whatever its state, an action gives an answer of some kind. -/
def Says {α : Type} (action : StateM σ α) (P : α → Prop) : Prop := ∀ s, P (action s).1

theorem Says.pure {α : Type} {a : α} {P : α → Prop} (h : P a) : Says (pure a : StateM σ α) P :=
  fun _ => h

theorem Says.bind {α β : Type} {x : StateM σ α} {f : α → StateM σ β} {P : α → Prop} {Q : β → Prop}
    (hx : Says x P) (hf : ∀ a, P a → Says (f a) Q) : Says (x >>= f) Q := by
  intro s
  exact hf (x s).1 (hx s) (x s).2

/-- A binder always gives the same answers. Its state may change with every question, as long as no
answer shows it. -/
structure Binder.Follows (b : Binder σ γ) (a : Replies γ) : Prop where
  forms : ∀ place form,
    Says (b.bindForm place form) (· = a.forms (place.map Scope.spot) form)
  elements : ∀ place item, Says (b.bindElement place item) (· = a.elements place.spot item)
  attributes : ∀ place item,
    Says (b.bindAttribute place item) (· = a.attributes place.spot item)
  entry : ∀ s found, b.describe s found = a.entry found

/-- The answers of a script. -/
def Script.replies (s : Script) : Replies String where
  forms spot form := s.formContext (spot.elim "" Spot.context) form.key
  elements spot item := s.elementContexts spot.context (item.lookupKey.getD "")
  attributes spot item := Script.find? s.attributes spot.context (item.lookupKey.getD "")
  entry found := s.entries.lookup found

/-- The binder of a script gives the answers of the script, whatever calls it has recorded. -/
theorem Script.binder_follows (s : Script) (record : Call → σ → σ) :
    (s.binder record).Follows s.replies where
  forms place form := by
    intro st
    cases place <;> rfl
  elements _ _ _ := rfl
  attributes _ _ _ := rfl
  entry _ _ := rfl

/-- The answers of a document. -/
def Document.replies (d : Document) : Replies Located where
  forms spot _ := if spot.isNone then some (.of .root d.value) else none
  elements spot item := d.elements spot.context item.lookupKey
  attributes spot item := d.attribute? spot.context item.lookupKey
  entry found := some ("#" ++ found.pointer.text)

/-- The binder of a document gives the answers of the document. A reference is bound to nothing of
its own, so that its target stays within the context of the reference. -/
theorem Document.binder_follows (d : Document) : (d.binder σ).Follows d.replies where
  forms place form := by
    intro st
    cases place <;> rfl
  elements _ _ _ := rfl
  attributes _ _ _ := rfl
  entry _ _ := rfl

/-! ## The walk

Own violations come before those beneath, and what stands first in a form comes first in the list. -/

/-- The violation of a cardinality by a count, if there is one. -/
def countFaults (c : Cardinality) (n : Nat) (kind : DefinitionKind) (label : String)
    (path : NodePath) : List RunError :=
  match c.check n with
  | none => []
  | some v => [.binding ⟨.count v kind, path, some label⟩]

/-- A way into a form for the walk. Without one the limit is reached. -/
abbrev Way (γ : Type) := Option (Form → Spot γ → NodePath → List RunError)

namespace Replies

variable (a : Replies γ) (registry : Registry) (limit : Nat)

mutual

/-- An element is present when it has instances, a group when one of its alternatives is. Nothing
else is an alternative. It does not matter whether the instances are as many as they should be. -/
def present (spot : Spot γ) : Definition → Bool
  | .node (.element i) cs => !(a.elements spot ⟨i, cs⟩).isEmpty
  | .node (.choice _) cs => anyPresent spot cs
  | .node (.attribute _) _ | .node (.reference _) _ | .node (.extension _) _ => false

def anyPresent (spot : Spot γ) : List Definition → Bool
  | [] => false
  | d :: ds => present spot d || anyPresent spot ds

end

/-- The alternatives that are present. -/
def alternatives (spot : Spot γ) (ds : List Definition) : List Definition :=
  ds.filter (a.present spot)

/-- A group is present when the list of its alternatives that are present is not empty. -/
theorem anyPresent_eq (spot : Spot γ) (ds : List Definition) :
    a.anyPresent spot ds = !(a.alternatives spot ds).isEmpty := by
  induction ds with
  | nil => rfl
  | cons d ds ih =>
    rw [anyPresent, ih, alternatives, alternatives, List.filter_cons]
    by_cases h : a.present spot d = true
    · rw [if_pos h, h]
      rfl
    · rw [if_neg h, Bool.eq_false_iff.mpr h]
      rfl

/-- The conflict or the cardinality of the one alternative that is present. The path is that of the
group it stands in. A nested group that is in conflict has no other fault, as its winner is not
known. -/
def winnerFaults (spot : Spot γ) (path : NodePath) : Definition → List RunError
  | .node (.element i) cs =>
    countFaults i.cardinality (a.elements spot ⟨i, cs⟩).length .element i.elementLabel path
  | .node (.choice c) cs =>
    match a.alternatives spot cs with
    | _ :: _ :: _ => [.binding (conflictAt c.label (path.child c.label))]
    | _ => countFaults c.cardinality 1 .choice c.label path
  | .node (.attribute _) _ | .node (.reference _) _ | .node (.extension _) _ => []

/-- The conflict of a group, else its cardinality, else what is wrong with its winner. What is wrong with the
winner counts only when the group may be there at all. -/
def groupFaults (c : Choice) (cs : List Definition) (spot : Spot γ) (path : NodePath) :
    List RunError :=
  match a.alternatives spot cs with
  | [] => countFaults c.cardinality 0 .choice c.label path
  | [d] =>
    match countFaults c.cardinality 1 .choice c.label path with
    | [] => a.winnerFaults spot (path.child c.label) d
    | own => own
  | _ => [.binding (conflictAt c.label (path.child c.label))]

/-- The violations of a reference: its missing target, else that no level is left, else those of
the target's children. The target is looked up first, so a missing one is reported on any level. -/
def crossFaults (way : Way γ) (r : Reference) (spot : Spot γ) (path : NodePath) : List RunError :=
  match registry.get? r.target, way with
  | none, _ => [.definitionNotFound r.target path]
  | some _, none => [.referenceDepthExceeded r.target limit path]
  | some target, some enter =>
    let context := (a.forms (some spot) target).getD spot.context
    enter target (.top target context) (path.child r.label)

mutual

/-- All violations of a definition, those of its own before those beneath its instances. -/
def faults (way : Way γ) : Definition → Spot γ → NodePath → List RunError
  | .node (.attribute i) cs, spot, path =>
    let found := (a.attributes spot ⟨i, cs⟩).toList
    countFaults i.cardinality found.length .attribute i.attributeLabel path ++
      found.flatMap fun x =>
        faultsAll way cs (spot.descend x) (path.child ((a.entry x).getD i.attributeLabel))
  | .node (.element i) cs, spot, path =>
    let found := a.elements spot ⟨i, cs⟩
    countFaults i.cardinality found.length .element i.elementLabel path ++
      found.flatMap fun x =>
        faultsAll way cs (spot.descend x) (path.child ((a.entry x).getD i.elementLabel))
  | .node (.choice c) cs, spot, path =>
    a.groupFaults c cs spot path ++
      match a.alternatives spot cs with
      | [_] => faultsBeneathAll way cs spot (path.child c.label)
      | _ => []
  | .node (.reference r) _, spot, path => a.crossFaults registry limit way r spot path
  | .node (.extension _) _, _, _ => []

/-- The violations of definitions, in their order. -/
def faultsAll (way : Way γ) : List Definition → Spot γ → NodePath → List RunError
  | [], _, _ => []
  | d :: ds, spot, path => faults way d spot path ++ faultsAll way ds spot path

/-- The violations beneath an alternative that is present: those of its instances, or what is wrong
with the winner of a nested group and what is beneath that winner. -/
def faultsBeneath (way : Way γ) : Definition → Spot γ → NodePath → List RunError
  | .node (.element i) cs, spot, path =>
    (a.elements spot ⟨i, cs⟩).flatMap fun x =>
      faultsAll way cs (spot.descend x) (path.child ((a.entry x).getD i.elementLabel))
  | .node (.choice c) cs, spot, path =>
    match a.alternatives spot cs with
    | [d] =>
      a.winnerFaults spot (path.child c.label) d ++
        faultsBeneathAll way cs spot (path.child c.label)
    | _ => []
  | .node (.attribute _) _, _, _ | .node (.reference _) _, _, _ | .node (.extension _) _, _, _ => []

/-- The violations beneath all alternatives that are present. -/
def faultsBeneathAll (way : Way γ) : List Definition → Spot γ → NodePath → List RunError
  | [], _, _ => []
  | d :: ds, spot, path =>
    (if a.present spot d then faultsBeneath way d spot path else []) ++
      faultsBeneathAll way ds spot path

end

/-- The way into a form with a number of levels left. -/
def ways : Nat → Way γ
  | 0 => none
  | n + 1 => some fun form spot path => a.faultsAll registry limit (ways n) form.children spot path

/-- **All violations of a root form** that is bound to a context. -/
def violations (form : Form) (context : γ) : List RunError :=
  a.faultsAll registry limit (a.ways registry limit limit) form.children
    (.top form context) (.single form.label)

/-! ## Laws of the walk -/

/-- Beneath a group only its winners count. -/
theorem faultsBeneathAll_eq_flatMap (way : Way γ) (ds : List Definition) (spot : Spot γ)
    (path : NodePath) :
    a.faultsBeneathAll registry limit way ds spot path =
      (a.alternatives spot ds).flatMap fun d => a.faultsBeneath registry limit way d spot path := by
  induction ds with
  | nil => rfl
  | cons d ds ih =>
    rw [faultsBeneathAll, ih, alternatives, alternatives, List.filter_cons]
    by_cases h : a.present spot d = true
    · rw [if_pos h, if_pos h, List.flatMap_cons]
    · rw [if_neg h, if_neg h, List.nil_append]

end Replies

end FormSchema
