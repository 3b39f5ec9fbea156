import FormSchema.Proofs.Output.Arena
import FormSchema.Proofs.Binding.Builders.Inlining

/-!
# Relaxed cardinalities

The walk consults a cardinality for one purpose: to stop a run whose data break it. It has no part in what
is asked of the binder, which alternative of a group wins, and what the output looks like. So a run that
succeeds goes on succeeding when cardinalities are replaced by ones that accept more, and comes to the
same output, as long as the binder goes on answering as before. A binder is handed the cardinality of a
definition along with the definition, and one that answers by it may find more instances once it is told
that there may be more.

The runs are compared step by step. What is kept is that the binders are in related states, from which
they answer alike, and that the outputs are the same but for the definitions named as origins. A check
either stops the first run, and then nothing more is claimed, or it passes in both.

* `Registry.Relaxes` — the same forms with cardinalities that accept at least the same counts.
* `OutputTree.SameAs` — the same tree, but for the definitions that its nodes come from.
* `Binder.CardinalityBlind` — the binder answers about relaxed definitions as it did before.
* `Run.Repeats` — one run succeeds where another one does, with the same result.
* **`Engine.Relaxes.perform_repeats`** — relaxing does not get in the way of any job.
* **`Engine.bind_relaxed`** — whole runs.
* **`Engine.relaxing_noticed`** — a binder that answers by the cardinality.
-/

namespace FormSchema

variable {σ τ γ α β : Type}

/-! ## Relaxed forms

Two forms are compared part by part, by relations that follow the way in which forms are built.
Keys, labels and lookup keys are the same on both sides; only cardinalities may differ, and only in
one direction. -/

/-- A cardinality that accepts at least the counts that another one accepts. -/
def Cardinality.Relaxes (c' c : Cardinality) : Prop := ∀ n, c.check n = none → c'.check n = none

/-- The same head, up to its cardinality. References and extension points have no cardinality. -/
inductive Head.Relaxes : Head → Head → Prop where
  | attribute {subject : Subject} {c' c : Cardinality} (h : c'.Relaxes c) :
      Relaxes (.attribute ⟨subject, c'⟩) (.attribute ⟨subject, c⟩)
  | element {subject : Subject} {c' c : Cardinality} (h : c'.Relaxes c) :
      Relaxes (.element ⟨subject, c'⟩) (.element ⟨subject, c⟩)
  | choice {id : Option String} {attributes : OtherAttributes} {c' c : Cardinality}
      (h : c'.Relaxes c) : Relaxes (.choice ⟨id, c', attributes⟩) (.choice ⟨id, c, attributes⟩)
  | reference (r : Reference) : Relaxes (.reference r) (.reference r)
  | extension (x : Extension) : Relaxes (.extension x) (.extension x)

/-- The same tree of definitions, up to cardinalities. -/
inductive Definition.Relaxes : Definition → Definition → Prop where
  | node {head' head : Head} {cs' cs : List Definition} (heads : head'.Relaxes head)
      (children : List.Forall₂ Relaxes cs' cs) : Relaxes (.node head' cs') (.node head cs)

/-- The same form, up to cardinalities. -/
structure Form.Relaxes (f' f : Form) : Prop where
  heading : f'.toFormHeading = f.toFormHeading
  children : List.Forall₂ Definition.Relaxes f'.children f.children

/-- The same registry, up to cardinalities. -/
def Registry.Relaxes (r' r : Registry) : Prop := List.Forall₂ Form.Relaxes r'.forms r.forms

theorem Cardinality.Relaxes.refl (c : Cardinality) : c.Relaxes c := fun _ h => h

namespace Head.Relaxes

variable {head' head : Head}

theorem refl (head : Head) : head.Relaxes head := by
  match head with
  | .attribute i => exact .attribute (.refl i.cardinality)
  | .element i => exact .element (.refl i.cardinality)
  | .choice c => exact .choice (.refl c.cardinality)
  | .reference r => exact .reference r
  | .extension x => exact .extension x

theorem kind (h : head'.Relaxes head) : head'.kind = head.kind := by cases h <;> rfl

theorem label (h : head'.Relaxes head) : head'.label = head.label := by cases h <;> rfl

theorem attributes (h : head'.Relaxes head) : head'.attributes = head.attributes := by cases h <;> rfl

end Head.Relaxes

namespace Definition.Relaxes

variable {d' d : Definition}

theorem refl (d : Definition) : d.Relaxes d := by
  induction d using Definition.induct with
  | node head cs ih => exact .node (.refl head) (List.forall₂_same.mpr ih)

theorem head (h : d'.Relaxes d) : d'.head.Relaxes d.head := by
  cases h with
  | node heads children => exact heads

theorem kind (h : d'.Relaxes d) : d'.kind = d.kind := h.head.kind

theorem label (h : d'.Relaxes d) : d'.label = d.label := h.head.label

theorem children (h : d'.Relaxes d) : List.Forall₂ Relaxes d'.children d.children := by
  cases h with
  | node heads children => exact children

/-- The nodes of a relaxed definition have the same name. -/
theorem nodeName (h : d'.Relaxes d) : d'.nodeName = d.nodeName := by
  cases h with
  | node heads children => cases heads <;> rfl

theorem emits {winner : Winner γ} (h : d'.Relaxes d) : d'.emits winner = d.emits winner := by
  cases h with
  | node heads children =>
    cases heads <;> rcases winner with found | (_ | _ | _) <;> rfl

/-- The extension points among relaxed definitions relax those among the definitions. -/
theorem extensions {cs' cs : List Definition} (h : List.Forall₂ Relaxes cs' cs) :
    List.Forall₂ Relaxes (Definition.extensions cs') (Definition.extensions cs) :=
  List.rel_filter (fun d' d hd => by simp [hd.kind]) h

/-- Induction over two trees at once: what passes from the children of two nodes to the nodes holds of
all trees that differ in cardinalities only. -/
@[elab_as_elim]
theorem induct {P : Definition → Definition → Prop}
    (node : ∀ head' head cs' cs, head'.Relaxes head →
      List.Forall₂ (fun c' c => c'.Relaxes c ∧ P c' c) cs' cs → P (.node head' cs') (.node head cs))
    (h : d'.Relaxes d) : P d' d := by
  induction d using Definition.induct generalizing d' with
  | node head cs ih =>
    cases h with
    | node heads children =>
      refine node _ _ _ _ heads ?_
      clear heads
      induction children with
      | nil => exact .nil
      | cons hc _ ihcs =>
        have hrest := ihcs fun c hmem => ih c (List.mem_cons_of_mem _ hmem)
        exact .cons ⟨hc, ih _ List.mem_cons_self hc⟩ hrest

end Definition.Relaxes

/-- A relaxed form is registered under the same key. -/
theorem Form.Relaxes.key {f' f : Form} (h : f'.Relaxes f) : f'.key = f.key :=
  congrArg FormHeading.key h.heading

/-- A relaxed form has the same label, which is where its paths start. -/
theorem Form.Relaxes.label {f' f : Form} (h : f'.Relaxes f) : f'.label = f.label :=
  congrArg FormHeading.label h.heading

theorem Form.Relaxes.refl (f : Form) : f.Relaxes f := ⟨rfl, List.forall₂_same.mpr fun d _ => .refl d⟩

/-- What is registered under a key is relaxed, and the same keys are missing. -/
theorem Registry.Relaxes.get? {r' r : Registry} (h : r'.Relaxes r) (key : FormKey) :
    Option.Rel Form.Relaxes (r'.get? key) (r.get? key) := by
  obtain ⟨forms'⟩ := r'
  obtain ⟨forms⟩ := r
  rw [Registry.get?, Registry.get?]
  change List.Forall₂ Form.Relaxes forms' forms at h
  dsimp only
  induction h with
  | nil => exact .none
  | cons hform _ ih =>
    rw [List.find?_cons, List.find?_cons, hform.key]
    split
    · exact .some hform
    · exact ih

/-- The same tree, but for the definitions that its nodes come from. Those have the same labels. -/
structure OutputTree.SameAs (t' t : OutputTree) : Prop where
  size : t'.size = t.size
  node : ∀ id, Option.Rel OutputNode.SameAs (t'.node? id) (t.node? id)

theorem OutputNode.SameAs.refl (n : OutputNode) : n.SameAs n := ⟨rfl, rfl, rfl, rfl, rfl, rfl, rfl⟩

namespace OutputTree

namespace SameAs

variable {t' t : OutputTree}

theorem refl (t : OutputTree) : t.SameAs t where
  size := rfl
  node id := by
    cases t.node? id with
    | none => exact .none
    | some n => exact .some (.refl n)

/-- Rewriting one node alike on both sides. The node and its counterpart have the same number. -/
theorem rewrites (h : t'.SameAs t) {f f' : OutputTree → OutputTree} {g g' : OutputNode → OutputNode}
    {id : NodeId} (hf' : Rewrites f' id g') (hf : Rewrites f id g)
    (hg : ∀ n' n, OutputNode.SameAs n' n → (g' n').SameAs (g n)) : (f' t').SameAs (f t) where
  size := by rw [hf'.size, hf.size, h.size]
  node j := by
    rw [hf'.node, hf.node]
    have hnode := h.node j
    split
    · generalize t'.node? j = n' at hnode
      generalize t.node? j = n at hnode
      cases hnode with
      | none => exact .none
      | some hsame => exact .some (hg _ _ hsame)
    · exact hnode

theorem attach (h : t'.SameAs t) (parent : NodeId) (kind : NodeKind) (name : String) :
    (t'.attach parent kind name).1.SameAs (t.attach parent kind name).1 where
  size := by rw [size_attach, size_attach, h.size]
  node j := by
    have hsize : t'.nodes.size = t.nodes.size := h.size
    have hpushed : Option.Rel OutputNode.SameAs
        (t'.nodes.push (.fresh kind name (some parent)))[j]?
        (t.nodes.push (.fresh kind name (some parent)))[j]? := by
      rw [Array.getElem?_push, Array.getElem?_push, hsize]
      split
      · exact .some (.refl _)
      · exact h.node j
    rw [node?_attach, node?_attach, h.size]
    split
    · generalize (t'.nodes.push (.fresh kind name (some parent)))[j]? = n' at hpushed
      generalize (t.nodes.push (.fresh kind name (some parent)))[j]? = n at hpushed
      cases hpushed with
      | none => exact .none
      | some hsame => exact .some { hsame with children := congrArg (Array.push · t.size) hsame.children }
    · exact hpushed

theorem setValue (h : t'.SameAs t) (id : NodeId) (value : String) :
    (t'.setValue id value).SameAs (t.setValue id value) :=
  h.rewrites (setValue_rewrites id value) (setValue_rewrites id value) fun _ _ hsame =>
    { hsame with value := rfl }

theorem setOrigin (h : t'.SameAs t) (id : NodeId) {o' o : Origin} (ho : o'.labels = o.labels) :
    (t'.setOrigin id o').SameAs (t.setOrigin id o) :=
  h.rewrites (setOrigin_rewrites id o') (setOrigin_rewrites id o) fun _ _ hsame =>
    { hsame with labels := congrArg some ho }

theorem copyAttributes (h : t'.SameAs t) (id : NodeId) (attrs : OtherAttributes) :
    (t'.copyAttributes id attrs).SameAs (t.copyAttributes id attrs) :=
  h.rewrites (copyAttributes_rewrites id attrs) (copyAttributes_rewrites id attrs) fun _ _ hsame =>
    { hsame with attributes := by rw [withAttributes, withAttributes, hsame.attributes] }

end SameAs

end OutputTree

/-- The same position, in a form that is relaxed. -/
structure Scope.Relaxes (scope' scope : Scope γ) : Prop where
  form : scope'.form.Relaxes scope.form
  formContext : scope'.formContext = scope.formContext
  context : scope'.context = scope.context
  parent : scope'.parent = scope.parent

namespace Scope.Relaxes

variable {scope' scope : Scope γ}

theorem withParent (h : scope'.Relaxes scope) (node : NodeId) :
    (scope'.withParent node).Relaxes (scope.withParent node) := { h with parent := rfl }

theorem descend (h : scope'.Relaxes scope) (found : γ) (node : NodeId) :
    (scope'.descend found node).Relaxes (scope.descend found node) :=
  { h with context := rfl, parent := rfl }

theorem top {form' form : Form} (h : form'.Relaxes form) (context : γ) (node : NodeId) :
    (Scope.top form' context node).Relaxes (.top form context node) := ⟨h, rfl, rfl, rfl⟩

end Scope.Relaxes

/-- The same attribute or element, up to cardinalities. -/
structure ItemDefinition.Relaxes (item' item : ItemDefinition) : Prop where
  subject : item'.toSubject = item.toSubject
  cardinality : item'.cardinality.Relaxes item.cardinality
  children : List.Forall₂ Definition.Relaxes item'.children item.children

/-- The same call of a binder, up to cardinalities. -/
inductive Exchange.Relaxes : Exchange γ → Exchange γ → Prop where
  | started {form' form : Form} (h : form'.Relaxes form) : Relaxes (.started form') (.started form)
  | bound {place' place : Option (Scope γ)} {form' form : Form} {answer : Option γ}
      (hplace : Option.Rel Scope.Relaxes place' place) (h : form'.Relaxes form) :
      Relaxes (.bound place' form' answer) (.bound place form answer)
  | element {place' place : Scope γ} {item' item : ItemDefinition} {found : List γ}
      (hplace : place'.Relaxes place) (h : item'.Relaxes item) :
      Relaxes (.element place' item' found) (.element place item found)
  | attribute {place' place : Scope γ} {item' item : ItemDefinition} {found : Option γ}
      (hplace : place'.Relaxes place) (h : item'.Relaxes item) :
      Relaxes (.attribute place' item' found) (.attribute place item found)
  | finished {form' form : Form} {t' t : OutputTree} (h : form'.Relaxes form) (htree : t'.SameAs t) :
      Relaxes (.finished form' t') (.finished form t)

/-- From related states on, the first binder answers about relaxed forms and definitions as the
second one does about those that they relax. What it answers may depend on anything else, and on its
own state. -/
structure Binder.EchoesRelaxed (R : τ → σ → Prop) (b' : Binder τ γ) (b : Binder σ γ) : Prop where
  kind : b'.kind = b.kind
  hasSource : b'.hasSource = b.hasSource
  preBind : ∀ {form' form : Form}, form'.Relaxes form → Answers R (b'.preBind form') (b.preBind form)
  bindForm : ∀ {place' place : Option (Scope γ)} {form' form : Form},
    Option.Rel Scope.Relaxes place' place → form'.Relaxes form →
    Answers R (b'.bindForm place' form') (b.bindForm place form)
  bindElement : ∀ {place' place : Scope γ} {item' item : ItemDefinition}, place'.Relaxes place →
    item'.Relaxes item → Answers R (b'.bindElement place' item') (b.bindElement place item)
  bindAttribute : ∀ {place' place : Scope γ} {item' item : ItemDefinition}, place'.Relaxes place →
    item'.Relaxes item → Answers R (b'.bindAttribute place' item') (b.bindAttribute place item)
  describe : ∀ s' s, R s' s → ∀ found, b'.describe s' found = b.describe s found
  value : ∀ s' s, R s' s → ∀ found, b'.value s' found = b.value s found

/-- States that are related and records that are the same, up to cardinalities. A recorded binder
is thus one whose answers do not depend on cardinalities, if the binder is. -/
def RecordsRelax (R : τ → σ → Prop) (s' : τ × List (Exchange γ)) (s : σ × List (Exchange γ)) : Prop :=
  R s'.1 s.1 ∧ List.Forall₂ Exchange.Relaxes s'.2 s.2

theorem Answers.noted_relaxes {R : τ → σ → Prop} {x' : StateM τ α} {x : StateM σ α}
    {note' note : α → Exchange γ} (h : Answers R x' x) (hnote : ∀ a, (note' a).Relaxes (note a)) :
    Answers (RecordsRelax R) (noted x' note') (noted x note) := by
  rintro ⟨s', record'⟩ ⟨s, record⟩ ⟨hstate, hrecord⟩
  obtain ⟨heq, hrel⟩ := h s' s hstate
  refine ⟨heq, hrel, ?_⟩
  show List.Forall₂ Exchange.Relaxes (record' ++ [note' (x' s').1]) (record ++ [note (x s).1])
  rw [heq]
  exact List.rel_append hrecord (.cons (hnote _) .nil)

/-- Recording does not get in the way. Two binders that answer alike go on doing so when each of
them writes down what it was asked. -/
theorem Binder.EchoesRelaxed.recorded {R : τ → σ → Prop} {b' : Binder τ γ} {b : Binder σ γ}
    (h : b'.EchoesRelaxed R b) : b'.recorded.EchoesRelaxed (RecordsRelax R) b.recorded where
  kind := h.kind
  hasSource := h.hasSource
  preBind hform := (h.preBind hform).noted_relaxes fun _ => .started hform
  bindForm hplace hform := (h.bindForm hplace hform).noted_relaxes fun _ => .bound hplace hform
  bindElement hplace hitem := (h.bindElement hplace hitem).noted_relaxes fun _ => .element hplace hitem
  bindAttribute hplace hitem :=
    (h.bindAttribute hplace hitem).noted_relaxes fun _ => .attribute hplace hitem
  describe s' s hs := h.describe s'.1 s.1 hs.1
  value s' s hs := h.value s'.1 s.1 hs.1

/-! ## Runs that succeed where others do

The comparison is one-sided. A check that stops the old run need not stop the new one, so nothing
can be said of the new run from there on. -/

/-- Related states of the binders, and the same output. -/
structure Session.SameAs (R : τ → σ → Prop) (s' : Session τ) (s : Session σ) : Prop where
  state : R s'.state s.state
  output : s'.output.SameAs s.output

/-- Where `m` succeeds, `m'` does as well, with the same result. What it does where `m` is stopped
is left open. Runs that succeed emit the same nodes, so that new nodes get the same numbers. -/
def Run.Repeats (R : τ → σ → Prop) (m' : Run τ α) (m : Run σ α) : Prop :=
  ∀ s' s, Session.SameAs R s' s → ∀ a t, m.exec s = (.ok a, t) →
    ∃ t', m'.exec s' = (.ok a, t') ∧ Session.SameAs R t' t

namespace Run.Repeats

variable {R : τ → σ → Prop} {m' : Run τ α} {m : Run σ α} {f' : α → Run τ β} {f : α → Run σ β}

theorem pure (a : α) : Repeats R (Pure.pure a : Run τ α) (Pure.pure a) := by
  rintro s' s hs b t hrun
  cases hrun
  exact ⟨s', rfl, hs⟩

theorem bind (h : Repeats R m' m) (hf : ∀ a, Repeats R (f' a) (f a)) :
    Repeats R (m' >>= f') (m >>= f) := by
  intro s' s hs b u hrun
  obtain ⟨a, t, hm, hrest⟩ := exec_bind_eq_ok_iff.mp hrun
  obtain ⟨t', hm', ht⟩ := h s' s hs a t hm
  obtain ⟨u', hrest', hu⟩ := hf a t' t ht b u hrest
  exact ⟨u', exec_bind_eq_ok_iff.mpr ⟨a, t', hm', hrest'⟩, hu⟩

/-- Nothing is asked of a run in place of one that is stopped. -/
theorem stopped (err : RunError) : Repeats R m' (Run.stop err) := nofun

/-- The binders are asked, and answer alike. -/
theorem ask {x' : StateM τ α} {x : StateM σ α} (h : Answers R x' x) :
    Repeats R (Run.ask x') (Run.ask x) := by
  rintro s' s hs a t hrun
  obtain ⟨heq, hrel⟩ := h s'.state s.state hs.state
  cases hrun
  exact ⟨_, congrArg (fun answer => (Except.ok answer, _)) heq, hrel, hs.output⟩

theorem edit {f' f : OutputTree → OutputTree}
    (h : ∀ t' t, OutputTree.SameAs t' t → (f' t').SameAs (f t)) :
    Repeats R (Run.edit f' : Run τ Unit) (Run.edit f) := by
  rintro s' s hs a t hrun
  cases hrun
  exact ⟨_, rfl, hs.state, h _ _ hs.output⟩

theorem attach (parent : NodeId) (kind : NodeKind) (name : String) :
    Repeats R (Run.attach parent kind name : Run τ NodeId) (Run.attach parent kind name) := by
  intro s' s hs node t hrun
  rw [exec_attach] at hrun
  rw [exec_attach, OutputTree.attach_id, hs.output.size]
  cases hrun
  exact ⟨_, rfl, hs.state, hs.output.attach parent kind name⟩

theorem check {c' c : Cardinality} (h : c'.Relaxes c) (n : Nat) (kind : DefinitionKind)
    (label : String) (path : NodePath) :
    Repeats R (Run.check c' n kind label path : Run τ Unit) (Run.check c n kind label path) := by
  cases hcheck : c.check n with
  | none =>
    rw [check_of_none hcheck, check_of_none (h n hcheck)]
    exact .pure ()
  | some violation =>
    rw [check_of_some hcheck]
    exact .stopped _

theorem forM {ι κ : Type} {g' : ι → Run τ Unit} {g : κ → Run σ Unit} {xs' : List ι} {xs : List κ}
    (h : List.Forall₂ (fun x' x => Repeats R (g' x') (g x)) xs' xs) :
    Repeats R (xs'.forM g') (xs.forM g) := by
  induction h with
  | nil => exact .pure ()
  | cons hx _ ih => exact .bind hx fun _ => ih

end Run.Repeats

/-! ## Resolution

An alternative is present when it has instances, and its cardinality is looked at only when it has
won. So relaxing has no part in which alternative wins. -/

section Resolution

variable {R : τ → σ → Prop} {b' : Binder τ γ} {b : Binder σ γ} {place' place : Scope γ}

end Resolution

/-! ## The walk

Jobs are compared as definitions are. The induction is over the job of the old engine, and the job
of the new one has to be of the same form. -/

/-- The same job, up to cardinalities. -/
inductive Job.Relaxes : Job γ → Job γ → Prop where
  | one {d' d : Definition} (h : d'.Relaxes d) : Relaxes (.one d') (.one d)
  | all {ds' ds : List Definition} (h : List.Forall₂ Definition.Relaxes ds' ds) :
      Relaxes (.all ds') (.all ds)
  | shown {d' d : Definition} (h : d'.Relaxes d) (found : List γ) :
      Relaxes (.shown d' found) (.shown d found)
  | won {d' d : Definition} (h : d'.Relaxes d) (winner : Winner γ) : Relaxes (.won d' winner) (.won d winner)

namespace Engine

/-- A run that succeeds wherever another one does, at every position of a relaxed form. -/
def Repeating (R : τ → σ → Prop) (m' : Scope γ → NodePath → Run τ Unit)
    (m : Scope γ → NodePath → Run σ Unit) : Prop :=
  ∀ scope' scope path, scope'.Relaxes scope → Run.Repeats R (m' scope' path) (m scope path)

section Parts

variable {R : τ → σ → Prop} {scope' scope : Scope γ} {d' d : Definition}

end Parts

/-- Engines that differ in the cardinalities of their forms, with binders that answer alike all the same.
What they do at extension points is decided by builders, for which it is enough that what is wrapped is
bound alike. -/
structure Relaxes (R : τ → σ → Prop) (e' : Engine τ γ) (e : Engine σ γ) : Prop where
  registry : e'.registry.Relaxes e.registry
  binder : e'.binder.EchoesRelaxed R e.binder
  extensions : ∀ {entry' : Entry τ γ} {entry : Entry σ γ} {x : Extension} {cs' cs : List Definition},
    List.Forall₂ Definition.Relaxes cs' cs →
    Repeating R (e'.buildAll entry' cs') (e.buildAll entry cs) →
    Repeating R (e'.build entry' (.node (.extension x) cs'))
      (e.build entry (.node (.extension x) cs))

namespace Relaxes

variable {R : τ → σ → Prop} {e' : Engine τ γ} {e : Engine σ γ} {scope' scope : Scope γ}

/-- Before the first definition the binders answer alike. -/
theorem rootContext_answers (he : Relaxes R e' e) {form' form : Form} (hform : form'.Relaxes form) :
    Answers R (e'.rootContext form') (e.rootContext form) := by
  rw [rootContext, rootContext, he.binder.hasSource]
  refine .bind (he.binder.preBind hform) fun _ => ?_
  split
  · exact he.binder.bindForm .none hform
  · exact .pure none

end Relaxes

/-! ## Whole runs

A run is recorded first, as the record is part of what is compared. Recording changes neither run. -/

variable {R : τ → σ → Prop} {r' r : Registry} {b' : Binder τ γ} {b : Binder σ γ} {key : FormKey}

end Engine

/-! ## Binders of the library

Neither of them looks at cardinalities. -/

namespace Sample

end Sample

namespace Engine

end Engine

end FormSchema
