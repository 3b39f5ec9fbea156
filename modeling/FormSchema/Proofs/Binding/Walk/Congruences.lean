import FormSchema.Proofs.Binding.Walk.Jobs
import FormSchema.Proofs.Registry.References

/-!
# Relations along the walk

Much of what is said about a run is a relation that respects how runs are put together: a run
keeps an invariant, two runs with different binders come to the same result. Such a relation is
carried along the walk over definitions once and for all. What is left to show is what happens at
the two places where the walk looks outside, the binder and the references that the form lists.

The relation is carried along by one induction over jobs. Each case opens the run of a job with its
equation, takes the parts one after the other, and puts their relations together with the rule for
sequences. The form stays the same along the way, since no job leads out of the form it started in:
only a reference does that, and references are what the relation is asked for separately.

* **`Run.Congruence`** — a relation between runs that respects sequences and steps of output.
* **`Engine.Linked`** — it holds at the binder and at the references of one form.
* **`Engine.perform_rel`**, **`Engine.buildAll_rel`** — then it holds for every job over definitions
  of that form, and so for the binding of all of them.
-/

namespace FormSchema

/-! ## Congruences -/

/-- A relation between runs over two kinds of state that respects how runs are put together. A
unary property is a relation that ignores one side. -/
structure Run.Congruence (σ τ : Type) where
  Rel : ∀ {α : Type}, Run σ α → Run τ α → Prop
  pure : ∀ {α : Type} (a : α), Rel (Pure.pure a) (Pure.pure a)
  bind : ∀ {α β : Type} {m : Run σ α} {m' : Run τ α} {f : α → Run σ β} {f' : α → Run τ β},
    Rel m m' → (∀ a, Rel (f a) (f' a)) → Rel (m >>= f) (m' >>= f')
  edit : ∀ f, Rel (Run.edit f) (Run.edit f)
  attach : ∀ parent kind name, Rel (Run.attach parent kind name) (Run.attach parent kind name)
  -- faults of the data are met alike on both sides
  fault : ∀ error, Rel (Run.stop (.binding error) : Run σ Unit) (Run.stop (.binding error))

variable {σ τ γ : Type} (C : Run.Congruence σ τ)

namespace Run.Congruence

/-- A check has one outcome whatever the state, so that it stops on both sides or on neither. -/
theorem check (c : Cardinality) (n : Nat) (kind : DefinitionKind) (label : String)
    (path : NodePath) : C.Rel (Run.check c n kind label path) (Run.check c n kind label path) := by
  cases h : c.check n with
  | none =>
    rw [check_of_none h, check_of_none h]
    exact C.pure ()
  | some v =>
    rw [check_of_some h, check_of_some h]
    exact C.fault _

/-- A loop over the same items is related when each of its steps is. -/
theorem forM {ι : Type} {f : ι → Run σ Unit} {g : ι → Run τ Unit} {xs : List ι}
    (h : ∀ x ∈ xs, C.Rel (f x) (g x)) : C.Rel (xs.forM f) (xs.forM g) := by
  induction xs with
  | nil => exact C.pure ()
  | cons x xs ih =>
    have hxs := fun y hy => h y (List.mem_cons_of_mem x hy)
    exact C.bind (h x List.mem_cons_self) fun _ => ih hxs

end Run.Congruence

/-! ## Resolution

Resolving a group asks for elements only, all of them at one place. -/

section Resolution

variable {C} {b : Binder σ γ} {b' : Binder τ γ} {place : Scope γ}

/-- A group is resolved alike on both sides when every alternative is a candidate alike. The two
runs have the same instance so far, since it is a result that they share. -/
theorem Definition.resolve_rel_of {ds : List Definition}
    (h : ∀ d ∈ ds, ∀ path,
      C.Rel (Run.ask (d.candidate b place path)) (Run.ask (d.candidate b' place path)))
    (label : String) (index : Nat) (found : Option (Nat × Winner γ)) (path : NodePath) :
    C.Rel (Run.ask (resolve b place label ds index found path))
      (Run.ask (resolve b' place label ds index found path)) := by
  induction ds generalizing index found with
  | nil =>
    cases found with
    | none => exact C.pure _
    | some w => exact C.pure _
  | cons d ds ih =>
    have hds := fun c (hc : c ∈ ds) => h c (List.mem_cons_of_mem d hc)
    rw [resolve, resolve, Run.ask_bind, Run.ask_bind]
    -- whether there is a candidate is an answer that both sides share
    refine C.bind (h d List.mem_cons_self path) fun candidate => ?_
    cases candidate with
    | none => exact ih hds _ _
    | some w =>
      cases found with
      | none => exact ih hds _ _
      | some first => exact C.pure _

/-- Whether a definition wins its group is asked alike on both sides when its elements are. The
path changes from group to group beneath, and so it is not fixed in the induction. -/
theorem Definition.candidate_rel
    (h : ∀ item, C.Rel (Run.ask (b.bindElement place item))
      (Run.ask (b'.bindElement place item))) (d : Definition) (path : NodePath) :
    C.Rel (Run.ask (d.candidate b place path)) (Run.ask (d.candidate b' place path)) := by
  induction d using Definition.induct generalizing path with
  | node head cs ih =>
    match head with
    | .element i =>
      rw [candidate, candidate, Run.ask_bind, Run.ask_bind]
      exact C.bind (h _) fun found => C.pure _
    | .choice c =>
      rw [candidate, candidate, Run.ask_bind, Run.ask_bind]
      refine C.bind (resolve_rel_of ih _ _ _ _) fun outcome => ?_
      cases outcome <;> exact C.pure _
    | .attribute _ | .reference _ | .extension _ => exact C.pure _

end Resolution

/-! ## The walk -/

namespace Engine

variable {C} {form : Form}

/-- The node of a definition is attached, given its origin and given its attributes, and none of
this asks the binder. -/
theorem emit_rel (scope : Scope γ) (kind : NodeKind) (name : String) (d : Definition) :
    C.Rel (emit scope kind name d) (emit scope kind name d) := by
  refine C.bind (C.attach _ _ _) fun node => ?_
  refine C.bind (C.edit _) fun _ => ?_
  exact C.bind (C.edit _) fun _ => C.pure node

/-- A winner is counted where it is emitted, and the count needs the binder no more. -/
theorem checkWinner_rel (path : NodePath) (d : Option Definition) (winner : Winner γ) :
    C.Rel (checkWinner path d winner) (checkWinner path d winner) := by
  unfold checkWinner
  split
  · exact C.check _ _ _ _ _
  · exact C.fault _
  · exact C.check _ _ _ _ _
  · exact C.pure ()

/-- A builder of the library leaves a comment, which is a step of output, or binds what the
extension point wraps, which is the run that is related already. -/
theorem contribute_rel {inside : Run σ Unit} {inside' : Run τ Unit} (h : C.Rel inside inside')
    (l : LibraryBuilder) (scope : Scope γ) (point : Extension) (d : Definition) :
    C.Rel (l.contribute scope point d inside) (l.contribute scope point d inside') := by
  cases l with
  | comment kinds =>
    refine C.bind (C.attach _ _ _) fun node => ?_
    refine C.bind (C.edit _) fun _ => ?_
    exact C.bind (C.edit _) fun _ => C.edit _
  | inline => exact h

/-- The relation holds wherever binding the definitions of `form` looks outside the walk: at the
binder, and at the references that the form lists. The place of a question is known to lie in `form`
and nothing else is known of it, so that the two binders may be compared on the questions of one
form at a time. -/
structure Linked (C : Run.Congruence σ τ) (e : Engine σ γ) (e' : Engine τ γ) (entry : Entry σ γ)
    (entry' : Entry τ γ) (form : Form) : Prop where
  kind : e.binder.kind = e'.binder.kind
  look : ∀ found, C.Rel (e.look found) (e'.look found)
  elements : ∀ place item, place.form = form →
    C.Rel (Run.ask (e.binder.bindElement place item))
      (Run.ask (e'.binder.bindElement place item))
  attributes : ∀ place item, place.form = form →
    C.Rel (Run.ask (e.binder.bindAttribute place item))
      (Run.ask (e'.binder.bindAttribute place item))
  follow : ∀ r ∈ form.references, ∀ d scope path, scope.form = form →
    C.Rel (entry r d scope path) (entry' r d scope path)

section Parts

variable {e : Engine σ γ} {e' : Engine τ γ} {entry : Entry σ γ} {entry' : Entry τ γ}

/-- The node of an instance is emitted alike, and shows what both binders say of the instance. -/
theorem Linked.emitFound_rel (h : Linked C e e' entry entry' form) (kind : NodeKind) (name : String)
    (d : Definition) (scope : Scope γ) (found : γ) :
    C.Rel (e.emitFound kind name d scope found) (e'.emitFound kind name d scope found) := by
  refine C.bind (emit_rel _ _ _ _) fun node => C.bind (h.look found) fun said => ?_
  refine C.bind ?_ fun _ => C.pure _
  cases said.1 with
  | none => exact C.pure ()
  | some text => exact C.edit fun t => t.setValue node text

/-- A reference is crossed alike when the form is bound alike and entered alike. -/
theorem cross_rel {enter : Form → Scope γ → NodePath → Run σ Unit}
    {enter' : Form → Scope γ → NodePath → Run τ Unit} {r : Reference} {target : Form}
    {scope : Scope γ} {path : NodePath}
    (hbound : C.Rel (Run.ask (e.binder.bindForm (some scope) target))
      (Run.ask (e'.binder.bindForm (some scope) target)))
    (henter : ∀ context node, C.Rel (enter target (.top target context node) (path.child r.label))
      (enter' target (.top target context node) (path.child r.label))) (d : Definition) :
    C.Rel (e.cross enter r target d scope path) (e'.cross enter' r target d scope path) := by
  refine C.bind (emit_rel scope _ _ d) fun node => C.bind hbound fun bound => ?_
  exact C.bind (henter _ node) fun _ => C.pure node

end Parts

section Walk

variable {e : Engine σ γ} {e' : Engine τ γ} {entry : Entry σ γ} {entry' : Entry τ γ}

/-- Extension points of a form are related as soon as the binding of what they wrap is. -/
def ExtensionsRel (C : Run.Congruence σ τ) (e : Engine σ γ) (e' : Engine τ γ) (entry : Entry σ γ)
    (entry' : Entry τ γ) (form : Form) : Prop :=
  ∀ x cs (scope : Scope γ) path, scope.form = form →
    C.Rel (e.buildAll entry cs scope path) (e'.buildAll entry' cs scope path) →
    C.Rel (e.build entry (.node (.extension x) cs) scope path)
      (e'.build entry' (.node (.extension x) cs) scope path)

/-- The same builders of the library apply to binders of the same kind, and inlined definitions are
children like others. -/
theorem equipped_extensionsRel {registry registry' : Registry} {limit limit' : Nat}
    {builders : List LibraryBuilder} {b : Binder σ γ} {b' : Binder τ γ} (hkind : b.kind = b'.kind) :
    ExtensionsRel C (equipped registry limit builders b) (equipped registry' limit' builders b')
      entry entry' form := by
  intro x cs scope path _ h
  rw [build_extension_equipped, build_extension_equipped, hkind]
  exact C.forM fun l _ => contribute_rel h l scope x _

/-- **Every job.** Where the relation holds at the binder, at the extension points and at the
references of a form, it holds of whatever is done for the definitions of that form. The references
of the definitions in the job are among those of the form, which is what the hypothesis `hjob` says,
and it passes to the jobs within. -/
theorem perform_rel (h : Linked C e e' entry entry' form) (hx : ExtensionsRel C e e' entry entry' form)
    (job : Job γ) (hjob : job.Within fun d => d.references ⊆ form.references) (scope : Scope γ)
    (path : NodePath) (hs : scope.form = form) :
    C.Rel (e.perform entry job scope path) (e'.perform entry' job scope path) := by
  -- the walk stays within one form, so whatever it meets is listed by that form
  have sub : ∀ {d : Definition}, d.references ⊆ form.references →
      ∀ c ∈ d.children, c.references ⊆ form.references := by
    rintro ⟨head, cs⟩ hd c hc
    exact List.Subset.trans (Definition.references_subset_of_mem hc) hd
  induction job using Job.induct generalizing scope path with
  | nil =>
    rw [perform_nil, perform_nil]
    exact C.pure ()
  | cons d ds hd hds =>
    obtain ⟨hfirst, hrest⟩ := List.forall_mem_cons.mp hjob
    rw [perform_cons, perform_cons]
    exact C.bind (hd hfirst scope path hs) fun _ => hds hrest scope path hs
  | attributes i cs ih =>
    rw [perform_attribute, perform_attribute]
    refine C.bind (h.attributes _ _ hs) fun found => ?_
    exact C.bind (C.check _ _ _ _ _) fun _ => ih _ ⟨hjob, Or.inr rfl⟩ scope path hs
  | elements i cs ih =>
    rw [perform_element, perform_element]
    refine C.bind (h.elements _ _ hs) fun found => ?_
    exact C.bind (C.check _ _ _ _ _) fun _ => ih found ⟨hjob, Or.inl rfl⟩ scope path hs
  | choice g cs ih =>
    -- the group asks all of its questions at one place, so the hypothesis on elements serves for
    -- every alternative, nested groups included
    have hcandidates := fun d (_ : d ∈ cs) =>
      Definition.candidate_rel (fun item => h.elements scope item hs) d
    rw [perform_choice, perform_choice]
    refine C.bind (Definition.resolve_rel_of hcandidates _ _ _ _) fun outcome => ?_
    cases outcome with
    | absent => exact C.check _ _ _ _ _
    | conflict error => exact C.fault _
    | active index winner =>
      exact C.bind (C.check _ _ _ _ _) fun _ => ih index winner hjob scope path hs
  | reference r cs ih =>
    have hr : r ∈ form.references := hjob List.mem_cons_self
    rw [perform_reference, perform_reference]
    refine C.bind (h.follow r hr _ scope path hs) fun node => ?_
    exact ih (fun c hc => sub hjob c (Definition.mem_of_mem_extensions hc)) (scope.withParent node) _ hs
  | extension x cs ih => exact hx x cs scope path hs (ih (sub hjob) scope path hs)
  | shownNil d => exact C.pure ()
  | shownCons d c rest hinside hothers =>
    rw [perform_shown_cons, perform_shown_cons]
    refine C.bind (h.emitFound_rel _ _ _ _ _) fun shown => ?_
    exact C.bind (hinside (sub hjob.1) _ _ hs) fun _ => hothers hjob scope path hs
  | wonElement i cs found ih =>
    rw [perform_won_element, perform_won_element]
    exact ih ⟨hjob, Or.inl rfl⟩ scope path hs
  | wonGroup g cs index winner hwinner hextensions =>
    rw [perform_group, perform_group]
    refine C.bind (checkWinner_rel _ _ _) fun _ => C.bind (emit_rel _ _ _ _) fun node => ?_
    refine C.bind ?_ fun _ => ?_
    · cases hget : cs[index]? with
      | none => exact C.pure ()
      | some d =>
        exact hwinner d hget (sub hjob d (List.mem_of_getElem? hget)) (scope.withParent node) _ hs
    · exact hextensions (fun c hc => sub hjob c (Definition.mem_of_mem_extensions hc))
        (scope.withParent node) _ hs
  | idle d winner hidle =>
    rw [perform_idle hidle, perform_idle hidle]
    exact C.pure ()

/-- **All definitions of a form.** The relation holds for the binding of a form's definitions. The
modules on levels, on missing targets and on the locality of runs use this lemma, each with a
relation of its own, and go on from it by induction on the levels that are left. -/
theorem buildAll_rel
    (h : Linked C e e' entry entry' form) (hx : ExtensionsRel C e e' entry entry' form)
    (scope : Scope γ) (path : NodePath) (hs : scope.form = form) :
    C.Rel (e.buildAll entry form.children scope path)
      (e'.buildAll entry' form.children scope path) :=
  perform_rel h hx (.all form.children)
    (fun _ hd => Definition.references_subset_referencesAll hd) scope path hs

end Walk

end Engine

end FormSchema
