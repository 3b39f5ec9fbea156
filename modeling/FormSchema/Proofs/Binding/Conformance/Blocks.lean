import FormSchema.Proofs.Binding.Growth.BeneathNodes
import Mathlib.Data.List.Forall2

/-!
# Conforming trees

When an output tree agrees with the forms, node by node. The children of a node are a sequence of
blocks, one for every definition that was bound at the node, and what the binder was asked at the
node splits into the same blocks. So the number and the order of the children are tied to what the
binder answered.

* `Block` — the nodes of one definition, with the questions asked for them.
* `GroupNode` — the node of a group, with children from exactly one of its alternatives.
* `Conforms` — a node whose children agree with the definition that produced it.
-/

namespace FormSchema

variable {σ γ : Type}

/-- A node of some kind was emitted for a definition of a form. -/
def OutputTree.Emitted (tree : OutputTree) (kind : NodeKind) (form : Form) (d : Definition)
    (id : NodeId) : Prop :=
  ∃ n, tree.node? id = some n ∧ n.kind = kind ∧ n.origin = some ⟨form, .definition d⟩

section Conformance

variable (r : Registry) (b : Binder σ γ) (tree : OutputTree) (record : List (Exchange γ))

/-! ## Blocks -/

/-- A node stands for an instance: it shows what the binder says of the instance, and whatever was
asked at the node was asked within that instance. -/
structure StandsFor (kind : NodeKind) (form : Form) (d : Definition) (found : γ) (id : NodeId) :
    Prop where
  emitted : tree.Emitted kind form d id
  value : ∃ n st, tree.node? id = some n ∧ n.value = b.value st found
  within : ∀ x ∈ askedAt record id, x.place?.map Scope.context = some found

/-- The node of a group. Its children are the instances of one element alternative, which the binder
gave when it was asked at `place`, or the one node of a nested group. -/
inductive GroupNode (form : Form) (place : Scope γ) (asked : List (Exchange γ)) :
    Definition → NodeId → Prop where
  | element {c : Choice} {cs : List Definition} {i : Item} {ds : List Definition} {found : List γ}
      {id : NodeId} (emitted : tree.Emitted .choice form (.node (.choice c) cs) id)
      (alternative : .node (.element i) ds ∈ cs) (present : found ≠ [])
      (answered : .element place ⟨i, ds⟩ found ∈ asked)
      (instances : List.Forall₂ (StandsFor b tree record .element form (.node (.element i) ds)) found
        (tree.children id))
      (count : i.cardinality.check (tree.children id).length = none) :
      GroupNode form place asked (.node (.choice c) cs) id
  | group {c : Choice} {cs : List Definition} {c' : Choice} {cs' : List Definition}
      {id inner : NodeId} (emitted : tree.Emitted .choice form (.node (.choice c) cs) id)
      (alternative : .node (.choice c') cs' ∈ cs) (children : tree.children id = [inner])
      (nested : GroupNode form place asked (.node (.choice c') cs') inner)
      (count : c'.cardinality.check 1 = none) :
      GroupNode form place asked (.node (.choice c) cs) id

/-- Questions for the alternatives of a group, all of them asked at one place. -/
def AsksElements (place : Scope γ) (asked : List (Exchange γ)) : Prop :=
  ∀ x ∈ asked, ∃ item found, x = .element place item found

/-- The nodes of one definition, and what was asked at their parent for them. -/
inductive Block (form : Form) (place : Scope γ) :
    Definition → List NodeId → List (Exchange γ) → Prop where
  | attributes {i : Item} {cs : List Definition} {found : Option γ} {ids : List NodeId}
      (instances : List.Forall₂ (StandsFor b tree record .attribute form (.node (.attribute i) cs))
        found.toList ids)
      (count : i.cardinality.check ids.length = none) :
      Block form place (.node (.attribute i) cs) ids [.attribute place ⟨i, cs⟩ found]
  | elements {i : Item} {cs : List Definition} {found : List γ} {ids : List NodeId}
      (instances : List.Forall₂ (StandsFor b tree record .element form (.node (.element i) cs))
        found ids)
      (count : i.cardinality.check ids.length = none) :
      Block form place (.node (.element i) cs) ids [.element place ⟨i, cs⟩ found]
  | absent {c : Choice} {cs : List Definition} {asked : List (Exchange γ)}
      (asks : AsksElements place asked) (count : c.cardinality.check 0 = none) :
      Block form place (.node (.choice c) cs) [] asked
  | present {c : Choice} {cs : List Definition} {asked : List (Exchange γ)} {id : NodeId}
      (asks : AsksElements place asked) (count : c.cardinality.check 1 = none)
      (node : GroupNode b tree record form place asked (.node (.choice c) cs) id) :
      Block form place (.node (.choice c) cs) [id] asked
  | reference {ref : Reference} {cs : List Definition} {target : Form} {bound : Option γ}
      {id : NodeId} (known : r.get? ref.target = some target)
      (emitted : tree.Emitted .reference form (.node (.reference ref) cs) id) :
      Block form place (.node (.reference ref) cs) [id]
        [.bound (some place) target bound]
  | extension {x : Extension} {cs : List Definition} :
      Block form place (.node (.extension x) cs) [] []

/-- The nodes of definitions: one block for each, in their order. -/
inductive Blocks (form : Form) (place : Scope γ) :
    List Definition → List NodeId → List (Exchange γ) → Prop where
  | nil : Blocks form place [] [] []
  | cons {d : Definition} {ds : List Definition} {ids ids' : List NodeId}
      {asked asked' : List (Exchange γ)} (block : Block r b tree record form place d ids asked)
      (rest : Blocks form place ds ids' asked') :
      Blocks form place (d :: ds) (ids ++ ids') (asked ++ asked')

/-! ## Nodes -/

/-- The children of a node are the blocks of definitions, which were bound at that node. -/
def Beneath (form : Form) (ds : List Definition) (id : NodeId) : Prop :=
  ∃ place : Scope γ, place.form = form ∧ place.parent = id ∧
    Blocks r b tree record form place ds (tree.children id) (askedAt record id)

/-- What must be beneath a node, by the definition that produced it. -/
def Licensed (id : NodeId) (form : Form) : Producer → Prop
  | .form root => Beneath r b tree record root root.children id
  | .definition (.node (.attribute _) cs) | .definition (.node (.element _) cs) =>
    Beneath r b tree record form cs id
  | .definition (.node (.choice c) cs) =>
    ∃ place asked, asked ⊆ record ∧
      GroupNode b tree record form place asked (.node (.choice c) cs) id
  | .definition (.node (.reference ref) _) =>
    ∃ target, r.get? ref.target = some target ∧ Beneath r b tree record target target.children id
  | .definition (.node (.extension _) _) => False

/-- A node agrees with the definition that produced it. -/
def Conforms (id : NodeId) : Prop :=
  ∃ n origin, tree.node? id = some n ∧ n.origin = some origin ∧
    Licensed r b tree record id origin.form origin.producer

end Conformance

/-! ## Questions of a block -/

variable {r : Registry} {b : Binder σ γ} {tree : OutputTree} {record asked : List (Exchange γ)}
  {form : Form} {place : Scope γ} {ids : List NodeId}

theorem AsksElements.place? (h : AsksElements place asked) :
    ∀ x ∈ asked, x.place? = some place := by
  intro x hx
  obtain ⟨item, found, rfl⟩ := h x hx
  rfl

/-- What is asked for a definition is asked at its place. Hence the questions of a node are those
of the blocks beneath it, and of nothing else. -/
theorem Block.place? {d : Definition} (h : Block r b tree record form place d ids asked) :
    ∀ x ∈ asked, x.place? = some place := by
  cases h with
  | attributes _ _ | elements _ _ | reference _ _ =>
    intro x hx
    rw [List.mem_singleton.mp hx]
    rfl
  | absent asks _ | present asks _ _ => exact asks.place?
  | extension =>
    intro x hx
    cases hx

theorem Blocks.place? {ds : List Definition}
    (h : Blocks r b tree record form place ds ids asked) : ∀ x ∈ asked, x.place? = some place := by
  induction h with
  | nil =>
    intro x hx
    cases hx
  | cons block _ ih =>
    intro x hx
    rcases List.mem_append.mp hx with hfirst | hrest
    · exact block.place? x hfirst
    · exact ih x hrest

end FormSchema
