import FormSchema.Proofs.Binding.Conformance.Lineage
import FormSchema.Proofs.Binding.Walk.ObservedRuns

/-!
# Positions in a run

A definition stands at a position: in a form that was entered with some levels left, at an output node
that its own nodes are attached to, and at a path. Which positions there are in a run is settled by what
has been built and asked so far, and stays so when more is built and asked. The path of a position says
how its node is reached from the root.

The rules of positions follow the walk, but they mention only what can be seen from outside: nodes
of the tree, with their kinds and origins, and exchanges of the record. So a position is evidence
that can be checked afterwards, and it says how a node came to hang where it hangs. Since all of the
evidence is about what is there, and nothing about what is not, it stays valid while the run goes
on.

* `Task.Stands` — the positions of definitions, one rule for every way of getting deeper.
* `Task.Mirrors` — a path with one entry for every node on the way from the root down to a node.
* **`Task.Stands.mirrors`** — the path of a position mirrors the node of the position.
* `Task.FailsAt` — the errors of a definition, with the paths they are reported at.
-/

namespace FormSchema

variable {σ γ : Type}

/-! ## States of a binder -/

/-- The state an exchange leaves a binder in. It is computed from the call alone, and the answer
that is noted with the call plays no part in it. -/
def Exchange.after (b : Binder σ γ) (st : σ) : Exchange γ → σ
  | .started form => (b.preBind form st).2
  | .bound place form _ => (b.bindForm place form st).2
  | .element place item _ => (b.bindElement place item st).2
  | .attribute place item _ => (b.bindAttribute place item st).2
  | .finished form output => (b.postBind form output st).2

/-- The state a binder is in after some exchanges. So whatever a binder would say at some moment
can be said in terms of the record. -/
def Binder.replay (b : Binder σ γ) (st : σ) (record : List (Exchange γ)) : σ :=
  record.foldl (Exchange.after b) st

theorem Binder.replay_concat (b : Binder σ γ) (st : σ) (record : List (Exchange γ))
    (x : Exchange γ) : b.replay st (record ++ [x]) = x.after b (b.replay st record) :=
  List.foldl_concat _ _ _ _

/-- A run of a root form, before its first step. -/
structure Task (σ γ : Type) where
  registry : Registry
  -- how many references may be nested in one another
  limit : Nat
  binder : Binder σ γ
  -- the state of the binder
  state : σ
  root : Form

/-! ## Later moments -/

/-- Since a moment, the tree and the record have only grown. Nodes may have got more children
since, and are the same otherwise. -/
structure Moment.Later (m m' : Moment γ) : Prop where
  tree : m.tree.Extends m'.tree
  record : m.record <+: m'.record

namespace Moment.Later

variable {m m' m'' : Moment γ}

theorem refl (m : Moment γ) : m.Later m := ⟨.refl _, List.prefix_refl _⟩

theorem trans (h : m.Later m') (h' : m'.Later m'') : m.Later m'' :=
  ⟨h.tree.trans h'.tree, h.record.trans h'.record⟩

end Moment.Later

/-! ## Instances and their nodes -/

/-- The binder gave an instance when it was asked for those of a definition at a place. -/
inductive Gave (record : List (Exchange γ)) (place : Scope γ) (found : γ) : Definition → Prop where
  | element {i : Item} {cs : List Definition} {all : List γ}
      (answered : .element place ⟨i, cs⟩ all ∈ record) (among : found ∈ all) :
      Gave record place found (.node (.element i) cs)
  | attribute {i : Item} {cs : List Definition}
      (answered : .attribute place ⟨i, cs⟩ (some found) ∈ record) :
      Gave record place found (.node (.attribute i) cs)

namespace Task

variable (k : Task σ γ) (m : Moment γ)

/-- A node of a definition shows an instance, and `entry` stands for it in paths. Both the text of the
node and the entry are what the binder said at some moment when it had given the instance, and had not
yet been asked anything beneath it. It was asked where the definition stands or, for an alternative of
a group, at a node above. -/
structure Shows (d : Definition) (scope : Scope γ) (found : γ) (id : NodeId) (entry : String) :
    Prop where
  attached : m.tree.Attached scope.parent scope.form d id
  said : ∃ known p node, known <+: m.record ∧ p ∈ m.tree.line scope.parent ∧
    Gave known (scope.withParent p) found d ∧ askedAt known id = [] ∧
    m.tree.node? id = some node ∧
    node.value = k.binder.value (k.binder.replay k.state known) found ∧
    entry = (k.binder.describe (k.binder.replay k.state known) found).getD d.label

/-! ## Positions -/

/-- The node of the root form is there. -/
def Rooted : Prop :=
  ∃ n, m.tree.node? OutputTree.root = some n ∧ n.kind = .form ∧ n.parent = none ∧
    n.origin = some ⟨k.root, .form k.root⟩

/-- By a moment of the run, a definition stands at a position, with a number of levels left for
references. The last two rules differ in the form and in the level: beneath a reference its target
is bound, and after that its own extension points, for which nothing has been spent. -/
inductive Stands : Nat → Definition → Scope γ → NodePath → Prop where
  -- the root form was bound
  | top {context : γ} {d : Definition} (rooted : k.Rooted m)
      (bound : .bound none k.root (some context) ∈ m.record)
      (child : d ∈ k.root.children) :
      Stands k.limit d (.top k.root context OutputTree.root) (.single k.root.label)
  -- beneath an instance of an attribute or of an element
  | within {n : Nat} {d c : Definition} {scope : Scope γ} {path : NodePath} {found : γ}
      {id : NodeId} {entry : String} (above : Stands n d scope path)
      (shown : k.Shows m d scope found id entry) (child : c ∈ d.children) :
      Stands n c (scope.descend found id) (path.child entry)
  -- beneath the node of a group
  | grouped {n : Nat} {g : Choice} {cs : List Definition} {c : Definition} {scope : Scope γ}
      {path : NodePath} {id : NodeId} (above : Stands n (.node (.choice g) cs) scope path)
      (attached : m.tree.Attached scope.parent scope.form (.node (.choice g) cs) id)
      (child : c ∈ cs) :
      Stands n c (scope.withParent id) (path.child g.label)
  -- in the place of an extension point
  | wrapped {n : Nat} {x : Extension} {cs : List Definition} {c : Definition} {scope : Scope γ}
      {path : NodePath} (above : Stands n (.node (.extension x) cs) scope path) (child : c ∈ cs) :
      Stands n c scope path
  -- beneath the node of a reference, in the form that it leads to; this takes a level
  | entered {n : Nat} {r : Reference} {cs : List Definition} {target : Form} {c : Definition}
      {scope : Scope γ} {path : NodePath} {id : NodeId} {context : Option γ}
      (above : Stands (n + 1) (.node (.reference r) cs) scope path)
      (attached : m.tree.Attached scope.parent scope.form (.node (.reference r) cs) id)
      (known : k.registry.get? r.target = some target)
      (bound : .bound (some scope) target context ∈ m.record)
      (child : c ∈ target.children) :
      Stands n c (.top target (context.getD scope.context) id) (path.child r.label)
  -- beneath the node of a reference, back in the form of the reference
  | trailing {n : Nat} {r : Reference} {cs : List Definition} {c : Definition} {scope : Scope γ}
      {path : NodePath} {id : NodeId}
      (above : Stands (n + 1) (.node (.reference r) cs) scope path)
      (attached : m.tree.Attached scope.parent scope.form (.node (.reference r) cs) id)
      (child : c ∈ cs) :
      Stands (n + 1) c (scope.withParent id) (path.child r.label)

/-- A node was attached at the position of the definition that produced it. References have nodes only
where a level is left, and those of attributes and elements show instances. -/
def Placed (id : NodeId) : Prop :=
  ∃ n d scope path, k.Stands m n d scope path ∧ m.tree.Attached scope.parent scope.form d id ∧
    (d.kind = .reference → 0 < n) ∧
    (d.kind = .attribute ∨ d.kind = .element → ∃ found entry, k.Shows m d scope found id entry)

/-! ## Paths of nodes -/

/-- What stands for a node in paths. Comments stand for nothing in paths, because nothing is bound
beneath them. -/
inductive EntryOf : NodeId → String → Prop where
  | root (rooted : k.Rooted m) : EntryOf OutputTree.root k.root.label
  | shown {d : Definition} {scope : Scope γ} {found : γ} {id : NodeId} {entry : String}
      (node : k.Shows m d scope found id entry) : EntryOf id entry
  | wrapper {p : NodeId} {form : Form} {d : Definition} {id : NodeId}
      (attached : m.tree.Attached p form d id) (kind : d.kind = .choice ∨ d.kind = .reference) :
      EntryOf id d.label

/-- A path mirrors a node: it has exactly one entry for every node on the way from the root down to
it, in their order. -/
structure Mirrors (id : NodeId) (path : NodePath) : Prop where
  known : id < m.tree.size
  entries : List.Forall₂ (k.EntryOf m) (m.tree.line id) path.entries

/-! ## Errors -/

/-- How a definition fails whose nodes are to be attached to the node with the given path. A conflict
is reported one entry deeper. For the alternatives of a group that are to become its winner the node of
the group counts, although it is not emitted when they fail. -/
inductive FailsAt : Nat → Definition → NodePath → RunError → Prop where
  | count {n : Nat} {d : Definition} {path : NodePath} {v : Violation}
      (kind : d.kind = .attribute ∨ d.kind = .element ∨ d.kind = .choice) :
      FailsAt n d path (.binding ⟨.count v d.kind, path, some d.label⟩)
  | conflict {n : Nat} {g : Choice} {cs : List Definition} {path : NodePath} :
      FailsAt n (.node (.choice g) cs) path (.binding ⟨.conflict, path.child g.label, some g.label⟩)
  | missing {n : Nat} {r : Reference} {cs : List Definition} {path : NodePath}
      (unknown : k.registry.get? r.target = none) :
      FailsAt n (.node (.reference r) cs) path (.definitionNotFound r.target path)
  | exceeded {r : Reference} {cs : List Definition} {target : Form} {path : NodePath}
      (known : k.registry.get? r.target = some target) :
      FailsAt 0 (.node (.reference r) cs) path (.referenceDepthExceeded r.target k.limit path)
  | winner {n : Nat} {g : Choice} {cs : List Definition} {c : Definition} {path : NodePath}
      {err : RunError} (child : c ∈ cs) (kind : c.kind = .element ∨ c.kind = .choice)
      (fails : FailsAt n c (path.child g.label) err) :
      FailsAt n (.node (.choice g) cs) path err

end Task

/-! ## What stays -/

theorem Gave.mono {record record' : List (Exchange γ)} {place : Scope γ} {found : γ}
    {d : Definition} (h : Gave record place found d) (hsub : record ⊆ record') :
    Gave record' place found d := by
  rcases h with ⟨answered, among⟩ | answered
  · exact .element (hsub answered) among
  · exact .attribute (hsub answered)

namespace Task

variable {k : Task σ γ} {m m' : Moment γ} {n : Nat} {d : Definition} {scope : Scope γ}
  {path : NodePath} {found : γ} {id p : NodeId} {entry : String} {form : Form}

/-- A node that shows an instance goes on doing so: the part of the record that matters is a
beginning of the later record, and neither the text nor the parent of the node changes. -/
theorem Shows.mono (h : k.Shows m d scope found id entry) (hle : m.Later m') :
    k.Shows m' d scope found id entry := by
  obtain ⟨known, p, node, hknown, hp, hgave, hasked, hnode, hvalue, hentry⟩ := h.said
  obtain ⟨cs, hcs⟩ := hle.tree.node hnode
  refine ⟨h.attached.mono hle.tree, known, p, _, hknown.trans hle.record, ?_, hgave, hasked, hcs,
    hvalue, hentry⟩
  rw [hle.tree.line (Nat.lt_trans h.attached.below h.attached.lt_size)]
  exact hp

theorem Rooted.mono (h : k.Rooted m) (hle : m.Later m') : k.Rooted m' := by
  obtain ⟨node, hnode, hkind, hparent, horigin⟩ := h
  obtain ⟨cs, hcs⟩ := hle.tree.node hnode
  exact ⟨_, hcs, hkind, hparent, horigin⟩

/-- **A position stays one**, whatever else is built and asked. -/
theorem Stands.mono (h : k.Stands m n d scope path) (hle : m.Later m') :
    k.Stands m' n d scope path := by
  induction h with
  | top rooted bound child => exact .top (rooted.mono hle) (hle.record.subset bound) child
  | within _ shown child ih => exact .within ih (shown.mono hle) child
  | grouped _ attached child ih => exact .grouped ih (attached.mono hle.tree) child
  | wrapped _ child ih => exact .wrapped ih child
  | entered _ attached known bound child ih =>
    exact .entered ih (attached.mono hle.tree) known (hle.record.subset bound) child
  | trailing _ attached child ih => exact .trailing ih (attached.mono hle.tree) child

/-- A placed node stays placed, at the same position. -/
theorem Placed.mono (h : k.Placed m id) (hle : m.Later m') : k.Placed m' id := by
  obtain ⟨n, d, scope, path, hstands, hattached, hlevel, hshown⟩ := h
  refine ⟨n, d, scope, path, hstands.mono hle, hattached.mono hle.tree, hlevel, fun hkind => ?_⟩
  obtain ⟨found, entry, hshows⟩ := hshown hkind
  exact ⟨found, entry, hshows.mono hle⟩

/-! ## Paths of positions -/

/-- The root is a line by itself. -/
theorem Rooted.line (h : k.Rooted m) : m.tree.line OutputTree.root = [OutputTree.root] := by
  obtain ⟨node, hnode, -, hparent, -⟩ := h
  apply OutputTree.line_of_orphan
  rw [OutputTree.parent?, hnode]
  exact hparent

theorem Rooted.mirrors (h : k.Rooted m) : k.Mirrors m OutputTree.root (.single k.root.label) := by
  have hsize : OutputTree.root < m.tree.size := by
    obtain ⟨node, hnode, -⟩ := h
    exact OutputTree.lt_size_of_node? hnode
  refine ⟨hsize, ?_⟩
  rw [h.line]
  exact .cons (.root h) .nil

/-- One node further down, one entry more. This is the only step there is, since every position but
the first one lies beneath a node that was attached. -/
theorem Mirrors.child (h : k.Mirrors m p path) (hattached : m.tree.Attached p form d id)
    (hentry : k.EntryOf m id entry) : k.Mirrors m id (path.child entry) := by
  refine ⟨hattached.lt_size, ?_⟩
  rw [hattached.line, NodePath.entries_child]
  exact List.rel_append h.entries (.cons hentry .nil)

/-- **Paths mirror the output.** The path of a position has one entry for every node on the way from
the root down to the node of the position. -/
theorem Stands.mirrors (h : k.Stands m n d scope path) : k.Mirrors m scope.parent path := by
  induction h with
  | top rooted _ _ => exact rooted.mirrors
  | within _ shown _ ih => exact ih.child shown.attached (.shown shown)
  | grouped _ attached _ ih => exact ih.child attached (.wrapper attached (Or.inl rfl))
  | wrapped _ _ ih => exact ih
  | entered _ attached _ _ _ ih => exact ih.child attached (.wrapper attached (Or.inr rfl))
  | trailing _ attached _ ih => exact ih.child attached (.wrapper attached (Or.inr rfl))

end Task

end FormSchema
