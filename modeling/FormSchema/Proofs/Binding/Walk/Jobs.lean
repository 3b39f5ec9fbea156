import FormSchema.Proofs.Binding.Walk.Equations
import FormSchema.Proofs.Registry.References

/-!
# Jobs

The walk over definitions is a recursion of several functions that call one another, and whatever is shown
of all runs has to follow it. So that this is done once, the walk is taken apart here into jobs: to bind one
definition, to bind definitions one after the other, to show the instances that were found for a definition,
and to emit the winner of a group. What a run does for a job is said by one equation for every kind of job,
and each of them mentions smaller jobs only.

Hence the induction over jobs, with one case for every way in which a job is done. A reference leads into
another form, which is not smaller; but it takes a level, and with the levels that are left in front of the
job the induction goes through references too. Later proofs that are about all runs are inductions of this
kind, and the cases are all that they have to say about the walk.

* `Job`, `Engine.perform` — the parts of the walk, and what a run does for them.
* **`Job.induct`** — induction over jobs, references being left to what becomes of them.
* **`Job.induct_levels`** — induction over jobs and the levels that are left.
* **`Engine.perform_choice`**, **`Engine.perform_group`** — a group is resolved, and its winner emitted.
* **`Engine.perform_entered`** — a reference that is followed.
-/

namespace FormSchema

variable {σ γ : Type}

/-! ## Nodes of definitions

What a node is called and which kind it has depends on its definition alone. So it can be said once
for all jobs, and where two definitions agree in it the nodes do. -/

/-- The kind of node that stands for instances of definitions of a kind. An extension point has none
of its own, and is the definition that comments name. -/
def DefinitionKind.nodeKind : DefinitionKind → NodeKind
  | .attribute => .attribute
  | .element => .element
  | .choice => .choice
  | .reference => .reference
  | .extension => .comment

/-- The name of the nodes of a definition: its id, else its lookup key, else a fixed name. The node of a
reference is named after the form that it leads to. -/
def Definition.nodeName : Definition → String
  | .node (.attribute i) _ => i.nodeName "attribute"
  | .node (.element i) _ => i.nodeName "element"
  | .node (.choice g) _ => g.id.getD "choice"
  | .node (.reference ref) _ => ref.target.id
  | .node (.extension _) _ => "comment"

/-- The extension points among definitions. -/
def Definition.extensions (cs : List Definition) : List Definition :=
  cs.filter fun d => d.kind = .extension

theorem Definition.mem_of_mem_extensions {d : Definition} {cs : List Definition}
    (h : d ∈ Definition.extensions cs) : d ∈ cs :=
  (List.mem_filter.mp h).1

/-! ## Jobs

A winner is not a definition with instances: it stands for what was found when the group was
resolved, and may be in conflict itself. Hence it is a job of its own kind. -/

/-- What a part of a run is there for. The whole of a run, once its root form is bound, is the job
to bind the definitions of the form. -/
inductive Job (γ : Type) where
  -- to bind one definition
  | one (d : Definition)
  -- to bind definitions one after the other
  | all (ds : List Definition)
  -- to show instances of a definition
  | shown (d : Definition) (found : List γ)
  -- to emit a definition as the winner of a group
  | won (d : Definition) (winner : Winner γ)

/-- The definitions of a job have a property, and instances are those of elements or attributes. Of
what lies further down nothing is said. -/
def Job.Within (A : Definition → Prop) : Job γ → Prop
  | .one d | .won d _ => A d
  | .all ds => ∀ d ∈ ds, A d
  | .shown d _ => A d ∧ (d.kind = .element ∨ d.kind = .attribute)

/-- Whether anything is emitted for a definition as the winner of a group: for an element that has instances,
and for a group that has a winner of its own. -/
def Definition.emits : Definition → Winner γ → Bool
  | .node (.element _) _, .instances _ => true
  | .node (.choice _) _, .group (.active _ _) => true
  | _, _ => false

/-! ## What a run does for a job

The equations are those of the walk, with the parts of the walk named as jobs. They are what every
later proof rewrites with, so that none of them has to unfold the walk: if the walk changes, it is
here that the change has to be taken in. -/

namespace Engine

variable (e : Engine σ γ) (entry : Entry σ γ)

/-- Does a job at a position, given what references come to. Where it does a job is a position: the
scope that the binder is asked with, and the path that failures show. -/
def perform : Job γ → Scope γ → NodePath → Run σ Unit
  | .one d, scope, path => e.build entry d scope path
  | .all ds, scope, path => e.buildAll entry ds scope path
  | .shown d found, scope, path =>
    found.forM (e.emitInstance d.kind.nodeKind d.nodeName d scope path (e.buildAll entry d.children))
  | .won d winner, scope, path => e.emitWinner entry d winner scope path

section Equations

variable {e entry} {scope : Scope γ} {path : NodePath} {d : Definition} {ds cs : List Definition}

theorem perform_nil : e.perform entry (.all []) scope path = pure () := by
  rw [perform, buildAll]

/-- Definitions in a row are bound one by one, and none of them is bound any more when one has
stopped the run. -/
theorem perform_cons :
    e.perform entry (.all (d :: ds)) scope path = (do
      e.perform entry (.one d) scope path
      e.perform entry (.all ds) scope path) := by
  simp only [perform, buildAll]

/-- The extension points among definitions are bound like any definitions in a row. -/
theorem buildExtensions_eq_perform :
    e.buildExtensions entry cs scope path =
      e.perform entry (.all (Definition.extensions cs)) scope path := by
  rw [buildExtensions_eq_forM, perform, buildAll_eq_forM]
  rfl

theorem perform_shown_nil :
    e.perform entry (.shown d []) scope path = pure () := rfl

/-- An instance is shown by its node, and what is beneath it comes before the other instances. So
the children of the second instance are only bound when those of the first have been. -/
theorem perform_shown_cons (c : γ) (rest : List γ) :
    e.perform entry (.shown d (c :: rest)) scope path = (do
      let shown ← e.emitFound d.kind.nodeKind d.nodeName d scope c
      e.perform entry (.all d.children) (scope.descend c shown.1) (path.child shown.2)
      e.perform entry (.shown d rest) scope path) := by
  rw [perform, List.forM_eq_forM, List.forM_cons, emitInstance_eq_emitFound, bind_assoc]
  rfl

/-- An attribute is asked for once, its count is checked, and then what was found is shown. -/
theorem perform_attribute (i : Item) :
    e.perform entry (.one (.node (.attribute i) cs)) scope path = (do
      let found ← Run.ask (e.binder.bindAttribute scope ⟨i, cs⟩)
      Run.check i.cardinality found.toList.length .attribute i.attributeLabel path
      e.perform entry (.shown (.node (.attribute i) cs) found.toList) scope path) := by
  rw [perform, build]
  rfl

/-- An element is asked for once, its count is checked, and then what was found is shown. -/
theorem perform_element (i : Item) :
    e.perform entry (.one (.node (.element i) cs)) scope path = (do
      let found ← Run.ask (e.binder.bindElement scope ⟨i, cs⟩)
      Run.check i.cardinality found.length .element i.elementLabel path
      e.perform entry (.shown (.node (.element i) cs) found) scope path) := by
  rw [perform, build]
  rfl

/-- A group is resolved before anything is emitted for it, and what is emitted is its winner. -/
theorem perform_choice (g : Choice) :
    e.perform entry (.one (.node (.choice g) cs)) scope path = (do
      let outcome ← Run.ask (Definition.resolve e.binder scope g.label cs 0 none (path.child g.label))
      match outcome with
      | .absent => Run.check g.cardinality 0 .choice g.label path
      | .conflict error => Run.stop (.binding error)
      | .active index winner => do
        Run.check g.cardinality 1 .choice g.label path
        e.perform entry (.won (.node (.choice g) cs) (.group (.active index winner))) scope path) := by
  rw [perform, build]
  rfl

/-- The instances of a winner are shown like others. -/
theorem perform_won_element (i : Item) (found : List γ) :
    e.perform entry (.won (.node (.element i) cs) (.instances found)) scope path =
      e.perform entry (.shown (.node (.element i) cs) found) scope path := rfl

/-- A group with a winner: the winner is checked before the node of the group is emitted. Beneath that node
come the winner and then the extension points of the group. -/
theorem perform_group (g : Choice) (index : Nat) (winner : Winner γ) :
    e.perform entry (.won (.node (.choice g) cs) (.group (.active index winner))) scope path = (do
      checkWinner (path.child g.label) cs[index]? winner
      let node ← emit scope .choice (g.id.getD "choice") (.node (.choice g) cs)
      (match cs[index]? with
        | some d => e.perform entry (.won d winner) (scope.withParent node) (path.child g.label)
        | none => pure ())
      e.perform entry (.all (Definition.extensions cs)) (scope.withParent node)
        (path.child g.label)) := by
  rw [perform, emitWinner, emitAlternative]
  -- the path of the group is the one at which its winner is checked and emitted
  show emitGroup (.node (.choice g) cs) g index winner scope (path.child g.label) _ _ = _
  rw [emitGroup]
  simp only [emitAlternative_eq, buildExtensions_eq_perform]
  rfl

/-- Nothing is emitted for a winner that a definition cannot have, nor where there is a conflict. -/
theorem perform_idle {winner : Winner γ} (h : d.emits winner = false) :
    e.perform entry (.won d winner) scope path = pure () := by
  obtain ⟨head, cs⟩ := d
  cases head with
  | element i =>
    cases winner with
    | instances found => cases h
    | group inner => rfl
  | choice g =>
    rcases winner with found | (_ | _ | _)
    · rfl
    · rfl
    · cases h
    · rfl
  | _ => cases winner <;> rfl

/-- A reference is followed, and then its own extension points come, beneath the same node. -/
theorem perform_reference (r : Reference) :
    e.perform entry (.one (.node (.reference r) cs)) scope path = (do
      let node ← entry r (.node (.reference r) cs) scope path
      e.perform entry (.all (Definition.extensions cs)) (scope.withParent node)
        (path.child r.label)) := by
  rw [perform, build_reference]
  simp only [buildExtensions_eq_perform]

/-! ### References with a number of levels left

A reference is the one place where levels count. Without a target it stops the run on any level, and
with a target it needs one. -/

variable {r : Reference} {target : Form} {n : Nat}

/-- A reference whose target is not registered stops the run, before there is a node for it. -/
theorem perform_missing (h : e.registry.get? r.target = none) :
    e.perform (e.follow n) (.one (.node (.reference r) cs)) scope path =
      Run.stop (.definitionNotFound r.target path) := by
  rw [perform_reference, follow_missing h]
  rfl

/-- A reference with a target stops the run when no level is left. -/
theorem perform_exhausted (h : e.registry.get? r.target = some target) :
    e.perform (e.follow 0) (.one (.node (.reference r) cs)) scope path =
      Run.stop (.referenceDepthExceeded r.target e.limit path) := by
  rw [perform_reference, follow_exhausted h]
  rfl

/-- The target of a reference is bound on one level less, and the extension points of the reference on as
many levels as the reference itself had. -/
theorem perform_entered (h : e.registry.get? r.target = some target) :
    e.perform (e.follow (n + 1)) (.one (.node (.reference r) cs)) scope path = (do
      let node ← emit scope .reference r.target.id (.node (.reference r) cs)
      let bound ← Run.ask (e.binder.bindForm (some scope) target)
      e.perform (e.follow n) (.all target.children) (.top target (bound.getD scope.context) node)
        (path.child r.label)
      e.perform (e.follow (n + 1)) (.all (Definition.extensions cs)) (scope.withParent node)
        (path.child r.label)) := by
  rw [perform_reference, follow_entered h, Registry.key_of_get? h]
  simp only [bind_assoc, pure_bind]
  rfl

/-! ### Without builders

An engine without builders passes extension points by, wherever they stand. -/

variable {registry : Registry} {limit : Nat} {b : Binder σ γ}

theorem perform_extension_bare (x : Extension) :
    (equipped registry limit [] b).perform entry (.one (.node (.extension x) cs)) scope path =
      pure () :=
  build_extension_bare registry limit b entry x cs scope path

theorem perform_extensions_bare :
    (equipped registry limit [] b).perform entry (.all (Definition.extensions cs)) scope path =
      pure () := by
  rw [← buildExtensions_eq_perform, buildExtensions_bare]

end Equations

end Engine

/-! ## Induction

The children of a definition are smaller than the definition, and instances are shown one after the
other. A winner leads to the winner within it, which belongs to an alternative and so to a smaller
definition; that is why all three are shown of a definition at once. -/

namespace Job

/-- **Induction over jobs.** There is one case for every way in which a job is done, with the jobs that it
leads to. What a reference leads to is not among them, but its own extension points are. -/
@[elab_as_elim]
theorem induct {P : Job γ → Prop} (nil : P (.all []))
    (cons : ∀ d ds, P (.one d) → P (.all ds) → P (.all (d :: ds)))
    (attributes : ∀ i cs, (∀ found, P (.shown (.node (.attribute i) cs) found)) →
      P (.one (.node (.attribute i) cs)))
    (elements : ∀ i cs, (∀ found, P (.shown (.node (.element i) cs) found)) →
      P (.one (.node (.element i) cs)))
    (choice : ∀ g cs,
      (∀ index winner, P (.won (.node (.choice g) cs) (.group (.active index winner)))) →
      P (.one (.node (.choice g) cs)))
    (reference : ∀ r cs, P (.all (Definition.extensions cs)) → P (.one (.node (.reference r) cs)))
    (extension : ∀ x cs, P (.all cs) → P (.one (.node (.extension x) cs)))
    (shownNil : ∀ d, P (.shown d []))
    (shownCons : ∀ d c rest, P (.all d.children) → P (.shown d rest) → P (.shown d (c :: rest)))
    (wonElement : ∀ i cs found, P (.shown (.node (.element i) cs) found) →
      P (.won (.node (.element i) cs) (.instances found)))
    (wonGroup : ∀ g cs index winner, (∀ d, cs[index]? = some d → P (.won d winner)) →
      P (.all (Definition.extensions cs)) →
      P (.won (.node (.choice g) cs) (.group (.active index winner))))
    (idle : ∀ d winner, d.emits winner = false → P (.won d winner)) (job : Job γ) : P job := by
  -- rows of definitions, and instances, by induction on how many there are
  have hall : ∀ {ds : List Definition}, (∀ d ∈ ds, P (.one d)) → P (.all ds) := by
    intro ds h
    induction ds with
    | nil => exact nil
    | cons d ds ih =>
      exact cons d ds (h d List.mem_cons_self) (ih fun c hc => h c (List.mem_cons_of_mem d hc))
  have hshown : ∀ {d : Definition}, P (.all d.children) → ∀ found, P (.shown d found) := by
    intro d h found
    induction found with
    | nil => exact shownNil d
    | cons c rest ih => exact shownCons d c rest h ih
  -- a definition is bound by what is bound beneath it, and so are its instances and its winners
  have hdefinition : ∀ d : Definition,
      P (.one d) ∧ P (.all d.children) ∧ ∀ winner, P (.won d winner) := by
    intro d
    induction d using Definition.induct with
    | node head cs ih =>
      have hcs : P (.all cs) := hall fun c hc => (ih c hc).1
      have hextensions : P (.all (Definition.extensions cs)) :=
        hall fun c hc => (ih c (Definition.mem_of_mem_extensions hc)).1
      have hnode : ∀ found, P (.shown (.node head cs) found) := hshown hcs
      have hgroup : ∀ g index winner,
          P (.won (.node (.choice g) cs) (.group (.active index winner))) := fun g index winner =>
        wonGroup g cs index winner (fun d hget => (ih d (List.mem_of_getElem? hget)).2.2 winner)
          hextensions
      match head with
      | .attribute i =>
        exact ⟨attributes i cs hnode, hcs, fun winner => idle _ winner (by cases winner <;> rfl)⟩
      | .element i =>
        refine ⟨elements i cs hnode, hcs, fun winner => ?_⟩
        cases winner with
        | instances found => exact wonElement i cs found (hnode found)
        | group inner => exact idle _ _ rfl
      | .choice g =>
        refine ⟨choice g cs (hgroup g), hcs, fun winner => ?_⟩
        rcases winner with found | (_ | ⟨index, winner⟩ | error)
        · exact idle _ _ rfl
        · exact idle _ _ rfl
        · exact hgroup g index winner
        · exact idle _ _ rfl
      | .reference r =>
        exact ⟨reference r cs hextensions, hcs, fun winner => idle _ winner (by cases winner <;> rfl)⟩
      | .extension x =>
        exact ⟨extension x cs hcs, hcs, fun winner => idle _ winner (by cases winner <;> rfl)⟩
  cases job with
  | one d => exact (hdefinition d).1
  | all ds => exact hall fun d _ => (hdefinition d).1
  | shown d found => exact hshown (hdefinition d).2.1 found
  | won d winner => exact (hdefinition d).2.2 winner

/-- **Induction over jobs and levels.** A reference leads to any definitions on fewer levels than are left
for the reference itself. -/
@[elab_as_elim]
theorem induct_levels {P : Nat → Job γ → Prop} (nil : ∀ n, P n (.all []))
    (cons : ∀ n d ds, P n (.one d) → P n (.all ds) → P n (.all (d :: ds)))
    (attributes : ∀ n i cs, (∀ found, P n (.shown (.node (.attribute i) cs) found)) →
      P n (.one (.node (.attribute i) cs)))
    (elements : ∀ n i cs, (∀ found, P n (.shown (.node (.element i) cs) found)) →
      P n (.one (.node (.element i) cs)))
    (choice : ∀ n g cs,
      (∀ index winner, P n (.won (.node (.choice g) cs) (.group (.active index winner)))) →
      P n (.one (.node (.choice g) cs)))
    (reference : ∀ n r cs, (∀ m < n, ∀ ds, P m (.all ds)) → P n (.all (Definition.extensions cs)) →
      P n (.one (.node (.reference r) cs)))
    (extension : ∀ n x cs, P n (.all cs) → P n (.one (.node (.extension x) cs)))
    (shownNil : ∀ n d, P n (.shown d []))
    (shownCons : ∀ n d c rest, P n (.all d.children) → P n (.shown d rest) →
      P n (.shown d (c :: rest)))
    (wonElement : ∀ n i cs found, P n (.shown (.node (.element i) cs) found) →
      P n (.won (.node (.element i) cs) (.instances found)))
    (wonGroup : ∀ n g cs index winner, (∀ d, cs[index]? = some d → P n (.won d winner)) →
      P n (.all (Definition.extensions cs)) →
      P n (.won (.node (.choice g) cs) (.group (.active index winner))))
    (idle : ∀ n d winner, d.emits winner = false → P n (.won d winner)) (n : Nat) (job : Job γ) :
    P n job := by
  induction n using Nat.strongRecOn generalizing job with
  | ind n ih =>
    -- at one level the induction is over jobs, and only a reference looks at the levels below it
    exact induct (nil n) (cons n) (attributes n) (elements n) (choice n)
      (fun r cs => reference n r cs fun m hm ds => ih m hm (.all ds)) (extension n) (shownNil n)
      (shownCons n) (wonElement n) (wonGroup n) (idle n) job

end Job

end FormSchema
