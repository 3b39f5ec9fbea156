import FormSchema.Proofs.Binding.Course.Runs
import FormSchema.Proofs.Binding.References.Crossings

/-!
# Surroundings of nodes

What surrounds a node can be read off an output tree and the record of the run that built it. Going up
from the node, the first reference node says which form was entered, and the first node of an instance
below it says which instance is the innermost one. Which instance a node stands for is a matter of order:
the nodes of instances that are hosted by a node come in the order in which the instances were given
there, and so do the references and the answers of the binder for them.

Everything here is said of a finished tree and a finished record, and nothing of the run. So a
reader who has the output and the calls of the binder can check a place against them: which form it
names, which instance, and which node. That these are the right ones for every question of a run is
shown later, by going along its course.

* `OutputTree.entrance?`, `OutputTree.instance?`, `OutputTree.host` — the nearest nodes of some kind.
* `OutputTree.ProducedBy`, `OutputTree.EnteredBy` — nodes and the answers they come from.
* `OutputTree.definitionsAt`, `OutputTree.formAt?` — the definitions that are bound at a node, and the form
  that they belong to.
* `Surrounds` — a place agrees with the surroundings of its node.
-/

namespace FormSchema

variable {σ γ : Type}

/-! ## Nearest nodes -/

namespace OutputTree

/-- Whether a node stands for an instance. -/
def isInstance (t : OutputTree) (id : NodeId) : Bool :=
  (t.node? id).any fun n => n.kind = .element ∨ n.kind = .attribute

/-- Whether a node is that of a group. -/
def isGroup (t : OutputTree) (id : NodeId) : Bool := (t.node? id).any fun n => n.kind = .choice

/-- The nodes from a node up to the root, the node itself included. The root comes last, since it
has no parent. -/
def upward (t : OutputTree) (id : NodeId) : List NodeId := (t.line id).reverse

/-- The nearest reference node at or above a node: there the form was entered. -/
def entrance? (t : OutputTree) (id : NodeId) : Option NodeId := (t.upward id).find? t.isReference

/-- The nearest node of an instance at or above a node, below where its form was entered. -/
def instance? (t : OutputTree) (id : NodeId) : Option NodeId :=
  ((t.upward id).takeWhile fun a => !t.isReference a).find? t.isInstance

/-- The nearest node at or above a node that is not the node of a group. The node of a group shows
no instance of its own, so that what is given for its alternatives is counted at the node above. -/
def host (t : OutputTree) (id : NodeId) : NodeId :=
  ((t.upward id).find? fun a => !t.isGroup a).getD root

/-- Whether a node stands for an instance and is hosted by the node `q`: it is attached to `q`, or to
the node of a group that is hosted by `q` in turn. -/
def isHosted (t : OutputTree) (q id : NodeId) : Bool :=
  t.isInstance id && (t.parent? id).any fun p => t.host p = q

/-- Whether a node is that of a reference, and attached to the node `q`. -/
def isCrossing (t : OutputTree) (q id : NodeId) : Bool :=
  t.isReference id && t.parent? id = some q

/-! ## Nodes and answers -/

end OutputTree

/-- The binding of a form at a place, among all exchanges. -/
def Exchange.binding? : Exchange γ → Option (Scope γ × Form × Option γ)
  | .bound (some place) form answer => some (place, form, answer)
  | .bound none _ _ | .element _ _ _ | .attribute _ _ _ | .started _ | .finished _ _ => none

namespace OutputTree

/-- The nodes of instances that are hosted by a node, in order. -/
def hosted (t : OutputTree) (q : NodeId) : List NodeId := (List.range t.size).filter (t.isHosted q)

/-- The references attached to a node, in order. -/
def crossingsAt (t : OutputTree) (q : NodeId) : List NodeId :=
  (List.range t.size).filter (t.isCrossing q)

/-- A node stands for an instance: it has the same place among the nodes hosted by a node as the
instance has among those that were given there, and it shows what the binder says of the instance.
Two instances that are equal as values are told apart by this, since the order of nodes is that of
instances. -/
structure ProducedBy (b : Binder σ γ) (t : OutputTree) (record : List (Exchange γ)) (id : NodeId)
    (found : γ) : Prop where
  order : ∃ q, (id, found) ∈ (t.hosted q).zip (givenIn (askedAt record q))
  value : ∃ n st, t.node? id = some n ∧ n.value = b.value st found

/-- A form was entered at the node of a reference: the node has the same place among the references
attached to a node as the binding of the form has among those that were asked for there. -/
def EnteredBy (t : OutputTree) (record : List (Exchange γ)) (id : NodeId) (place : Scope γ)
    (form : Form) (answer : Option γ) : Prop :=
  (id, (place, form, answer)) ∈
    (t.crossingsAt place.parent).zip ((askedAt record place.parent).filterMap Exchange.binding?)

/-- The form that the reference of a node leads to. -/
def LeadsTo (r : Registry) (t : OutputTree) (id : NodeId) (target : Form) : Prop :=
  ∃ form ref cs, t.Emitted .reference form (.node (.reference ref) cs) id ∧
    r.get? ref.target = some target

/-- The definitions that are bound at a node: the children of a form at the root and at references, those
of the definition at the nodes of instances, and none at the nodes of groups. -/
def definitionsAt (r : Registry) (t : OutputTree) (id : NodeId) : List Definition :=
  match ((t.node? id).bind OutputNode.origin).map Origin.producer with
  | some (.form form) => form.children
  | some (.definition (.node (.attribute _) cs)) | some (.definition (.node (.element _) cs)) => cs
  | some (.definition (.node (.reference ref) _)) => ((r.get? ref.target).map Form.children).getD []
  | some (.definition (.node (.choice _) _)) | some (.definition (.node (.extension _) _)) | none => []

/-- The form that definitions belong to when they are bound beneath a node: the one that the reference of
the node leads to, or else the form of the node itself. -/
def formAt? (r : Registry) (t : OutputTree) (id : NodeId) : Option Form :=
  match (t.node? id).bind OutputNode.origin with
  | some ⟨_, .definition (.node (.reference ref) _)⟩ => r.get? ref.target
  | some origin => some origin.form
  | none => none

end OutputTree

/-! ## Places -/

/-- What form a place is in, and what that form was bound to: the root form, or the form that was
entered at the nearest reference. There the binder's answer counts and, when it had none, the
innermost instance of the place of the reference. Without a reference above the place it is the root
form, which was bound before everything else. -/
inductive FormAt (r : Registry) (root : Form) (t : OutputTree) (record : List (Exchange γ)) :
    Option NodeId → Form → γ → Prop where
  | root {context : γ} (bound : .bound none root (some context) ∈ record) :
      FormAt r root t record none root context
  | entered {id : NodeId} {target : Form} {place : Scope γ} {answer : Option γ}
      (leads : t.LeadsTo r id target) (entered : t.EnteredBy record id place target answer) :
      FormAt r root t record (some id) target (answer.getD place.context)

/-- What the innermost instance of a place is: that of the nearest node of an instance below the entry of
the form, or else what the form was bound to. -/
inductive InstanceAt (b : Binder σ γ) (t : OutputTree) (record : List (Exchange γ)) (formContext : γ) :
    Option NodeId → γ → Prop where
  | top : InstanceAt b t record formContext none formContext
  | within {id : NodeId} {found : γ} (produced : t.ProducedBy b record id found) :
      InstanceAt b t record formContext (some id) found

/-- A place agrees with the surroundings of its node. The two halves belong together: the second
one falls back on the context of the form that the first one finds. -/
structure Surrounds (r : Registry) (b : Binder σ γ) (root : Form) (t : OutputTree)
    (record : List (Exchange γ)) (place : Scope γ) : Prop where
  form : FormAt r root t record (t.entrance? place.parent) place.form place.formContext
  context : InstanceAt b t record place.formContext (t.instance? place.parent) place.context

/-! ## One node further down -/

namespace OutputTree

variable {t : OutputTree} {id p q : NodeId} {n : OutputNode}

/-- The way up from a node leads over its parent. -/
theorem upward_of_parent (h : t.parent? id = some p) (hlt : p < id) :
    t.upward id = id :: t.upward p := by
  rw [upward, line_of_parent h hlt, List.reverse_append, List.reverse_singleton, List.singleton_append,
    upward]

/-- The host of a node does not stand behind the node. -/
theorem host_le (t : OutputTree) (id : NodeId) : t.host id ≤ id := by
  rw [host]
  cases hfind : (t.upward id).find? fun a => !t.isGroup a with
  | none => exact Nat.zero_le id
  | some a => exact mem_line_le (List.mem_reverse.mp (List.mem_of_find?_eq_some hfind))

theorem isReference_of_kind (h : t.node? id = some n) :
    t.isReference id = decide (n.kind = .reference) := by
  rw [isReference, h, Option.any_some]

theorem isInstance_of_kind (h : t.node? id = some n) :
    t.isInstance id = decide (n.kind = .element ∨ n.kind = .attribute) := by
  rw [isInstance, h, Option.any_some]

theorem isGroup_of_kind (h : t.node? id = some n) : t.isGroup id = decide (n.kind = .choice) := by
  rw [isGroup, h, Option.any_some]

/-- Every node but that of a group hosts for itself. -/
theorem host_of_not_group (h : t.isGroup id = false) : t.host id = id := by
  have hhead : (t.upward id).head? = some id := by
    rw [upward, List.head?_reverse, line]
    split
    · rfl
    · split
      · exact List.getLast?_concat
      · rfl
  obtain ⟨rest, hrest⟩ := List.head?_eq_some_iff.mp hhead
  rw [host, hrest, List.find?_cons_of_pos (by rw [h]; rfl), Option.getD_some]

section Below

variable (hn : t.node? id = some n) (hp : n.parent = some p) (hlt : p < id)

include hn hp

theorem parent?_of_node? : t.parent? id = some p := by
  rw [parent?, hn, Option.bind_some, hp]

include hlt

/-- At the node of a reference the form is the one that is entered there. -/
theorem entrance?_reference (hkind : n.kind = .reference) : t.entrance? id = some id := by
  rw [entrance?, upward_of_parent (parent?_of_node? hn hp) hlt, List.find?_cons_of_pos]
  rw [isReference_of_kind hn, hkind]
  rfl

/-- Beneath any other node the form is that of the node above. -/
theorem entrance?_other (hkind : n.kind ≠ .reference) : t.entrance? id = t.entrance? p := by
  rw [entrance?, upward_of_parent (parent?_of_node? hn hp) hlt, List.find?_cons_of_neg, entrance?]
  rw [isReference_of_kind hn, decide_eq_true_iff]
  exact hkind

/-- Directly beneath a reference there is no instance yet: the search ends where the form was
entered. -/
theorem instance?_reference (hkind : n.kind = .reference) : t.instance? id = none := by
  rw [instance?, upward_of_parent (parent?_of_node? hn hp) hlt, List.takeWhile_cons_of_neg]
  · rfl
  · rw [isReference_of_kind hn, hkind]
    decide

/-- At the node of an instance that instance is the innermost one. -/
theorem instance?_instance (hkind : n.kind = .element ∨ n.kind = .attribute) :
    t.instance? id = some id := by
  have hreference : n.kind ≠ .reference := by
    rcases hkind with hkind | hkind <;> rw [hkind] <;> decide
  rw [instance?, upward_of_parent (parent?_of_node? hn hp) hlt, List.takeWhile_cons_of_pos,
    List.find?_cons_of_pos]
  · rw [isInstance_of_kind hn, decide_eq_true_iff]
    exact hkind
  · rw [isReference_of_kind hn, decide_eq_false hreference]
    rfl

theorem instance?_group (hkind : n.kind = .choice) : t.instance? id = t.instance? p := by
  rw [instance?, upward_of_parent (parent?_of_node? hn hp) hlt, List.takeWhile_cons_of_pos,
    List.find?_cons_of_neg, instance?]
  · rw [isInstance_of_kind hn, hkind]
    decide
  · rw [isReference_of_kind hn, hkind]
    decide

/-- The node of a group is hosted where the node above it is. -/
theorem host_group (hkind : n.kind = .choice) : t.host id = t.host p := by
  rw [host, upward_of_parent (parent?_of_node? hn hp) hlt, List.find?_cons_of_neg, host]
  rw [isGroup_of_kind hn, hkind]
  decide

end Below

end OutputTree

end FormSchema
