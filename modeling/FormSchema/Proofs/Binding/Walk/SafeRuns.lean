import FormSchema.Proofs.Binding.Walk.Congruences

/-!
# Safe runs

A run is safe when an invariant of the binder's state holds on every way out of it, and when it
stops with permitted errors only. Safety says nothing about the output. It is respected by the way
runs are put together, so it holds of the binding of a form as soon as the binder keeps the
invariant and the references of the form are crossed safely.

This is a property of one run, and so the congruence it gives relates a run to itself. It is used
for runs that cannot fail in some way: that no target is missing, that no level is lacking, or that
the binder keeps to a part of its states.

* **`Run.Safe`**, **`Run.safety`** — safe runs, as a congruence.
* **`Engine.cross_safe`** — when crossing a reference is safe.
* **`Engine.bind_safe`** — a run of a root form is safe when its body is.
-/

namespace FormSchema

variable {σ γ α β : Type} {I : σ → Prop} {P : RunError → Prop}

/-- An action of the binder keeps an invariant of its state. Whether it answers well is not asked. -/
def Keeps (I : σ → Prop) (action : StateM σ α) : Prop := ∀ st, I st → I (action st).2

theorem Keeps.trivial {action : StateM σ α} : Keeps (fun _ => True) action := by
  intro st hst
  exact hst

namespace Run

/-- From a state in `I` a run ends in a state in `I`, and it stops with errors in `P` only. In a
run that stops the invariant holds as well, of the state in which it has stopped. -/
def Safe (I : σ → Prop) (P : RunError → Prop) (m : Run σ α) : Prop :=
  ∀ s, I s.state → I (m.exec s).2.state ∧ ∀ err, (m.exec s).1 = .error err → P err

theorem Safe.pure (a : α) : Safe I P (pure a : Run σ α) := by
  intro s hs
  exact ⟨hs, by simp⟩

/-- A sequence is safe when its first part is, and its second part is for every result. If the
first part stops, its error is permitted and nothing more happens. -/
theorem Safe.bind {m : Run σ α} {f : α → Run σ β} (hm : Safe I P m) (hf : ∀ a, Safe I P (f a)) :
    Safe I P (m >>= f) := by
  intro s hs
  obtain ⟨hstate, herr⟩ := hm s hs
  rw [exec_bind]
  rcases heq : m.exec s with ⟨err | a, t⟩
  · rw [heq] at hstate herr
    refine ⟨hstate, fun err' h => herr err' ?_⟩
    cases h
    rfl
  · rw [heq] at hstate
    exact hf a t hstate

/-- Asking the binder is safe when the binder keeps the invariant. -/
theorem Safe.ask {action : StateM σ α} (h : Keeps I action) : Safe I P (Run.ask action) := by
  intro s hs
  exact ⟨h s.state hs, by simp⟩

theorem Safe.stop {err : RunError} (h : P err) : Safe I P (Run.stop err : Run σ α) := by
  intro s hs
  refine ⟨hs, fun err' heq => ?_⟩
  rw [exec_stop] at heq
  cases heq
  exact h

/-- Safety as a congruence: both sides are the same run. Faults of the data must be permitted. -/
def safety (I : σ → Prop) (P : RunError → Prop) (hfaults : ∀ error, P (.binding error)) :
    Run.Congruence σ σ where
  Rel m _ := Safe I P m
  pure := .pure
  bind := .bind
  edit _ := fun _ hs => ⟨hs, by simp⟩
  attach _ _ _ := fun _ hs => ⟨hs, by simp⟩
  fault error := .stop (hfaults error)

end Run

namespace Engine

variable {e : Engine σ γ} {entry : Entry σ γ}

/-- Following a reference is safe when the lack of a target and the lack of a level are permitted, and the
target is bound safely with one level less. -/
theorem follow_safe {n : Nat} (hfaults : ∀ error, P (.binding error)) {r : Reference} {d : Definition}
    {scope : Scope γ} {path : NodePath}
    (missing : e.registry.get? r.target = none → P (.definitionNotFound r.target path))
    (exhausted : ∀ target, e.registry.get? r.target = some target → n = 0 →
      P (.referenceDepthExceeded r.target e.limit path))
    (bound : ∀ target, e.registry.get? r.target = some target →
      Keeps I (e.binder.bindForm (some scope) target))
    (entered : ∀ target, e.registry.get? r.target = some target → ∀ m, n = m + 1 →
      ∀ context node, Run.Safe I P (e.buildAll (e.follow m) target.children
        (.top target context node) (path.child r.label))) :
    Run.Safe I P (e.follow n r d scope path) := by
  cases hget : e.registry.get? r.target with
  | none =>
    rw [follow_missing hget]
    exact .stop (missing hget)
  | some target =>
    cases n with
    | zero =>
      rw [follow_exhausted hget]
      exact .stop (exhausted target hget rfl)
    | succ n =>
      rw [follow_crossed hget]
      let enter := fun (form : Form) scope path => e.buildAll (e.follow n) form.children scope path
      -- safety is about one run, so the relation has that run on either side
      have hcrossed : (Run.safety I P hfaults).Rel (e.cross enter r target d scope path)
          (e.cross enter r target d scope path) :=
        cross_rel (Run.Safe.ask (bound target hget)) (entered target hget n rfl) d
      exact hcrossed

/-- A binder that keeps the invariant links an engine to itself at every form whose references are
followed safely. -/
theorem linked_safety (hfaults : ∀ error, P (.binding error)) {form : Form}
    (elements : ∀ place item, place.form = form →
      Keeps I (e.binder.bindElement place item))
    (attributes : ∀ place item, place.form = form →
      Keeps I (e.binder.bindAttribute place item))
    (follow : ∀ r ∈ form.references, ∀ d scope path, scope.form = form →
      Run.Safe I P (entry r d scope path)) :
    Linked (Run.safety I P hfaults) e e entry entry form where
  kind := rfl
  look _ := fun _ hs => ⟨hs, by simp⟩
  elements place item h := .ask (elements place item h)
  attributes place item h := .ask (attributes place item h)
  follow := follow

/-- The definitions of a form are bound safely when the binder keeps the invariant and the
references of the form are followed safely. -/
theorem buildAll_safe {registry : Registry} {limit : Nat} {builders : List LibraryBuilder}
    {b : Binder σ γ} (hfaults : ∀ error, P (.binding error)) {form : Form}
    (elements : ∀ place item, Keeps I (b.bindElement place item))
    (attributes : ∀ place item, Keeps I (b.bindAttribute place item))
    (follow : ∀ r ∈ form.references, ∀ d scope path, scope.form = form →
      Run.Safe I P (entry r d scope path))
    (context : γ) (parent : NodeId) (path : NodePath) :
    Run.Safe I P ((equipped registry limit builders b).buildAll entry form.children
      (.top form context parent) path) := by
  have hlinked := linked_safety (e := equipped registry limit builders b) hfaults
    (fun place item _ => elements place item)
    (fun place item _ => attributes place item) follow
  exact buildAll_rel hlinked (equipped_extensionsRel rfl) _ path rfl

/-- Before the first definition the binder is told of the run and may be asked for the root form,
and an invariant that both respect is kept. -/
theorem rootContext_keeps {form : Form} (hpre : Keeps I (e.binder.preBind form))
    (hform : Keeps I (e.binder.bindForm none form)) :
    Keeps I (e.rootContext form) := by
  intro st hst
  have hstarted := hpre st hst
  rw [rootContext]
  cases e.binder.hasSource
  · exact hstarted
  · exact hform _ hstarted

/-- **A root form.** A run of a registered form is safe when its body is. The error of an absent
root form is a fault of the data, and is permitted as these are. -/
theorem bind_safe {key : FormKey} {form : Form} (hget : e.registry.get? key = some form)
    (hfaults : ∀ error, P (.binding error)) (hroot : Keeps I (e.rootContext form))
    (hpost : ∀ output, Keeps I (e.binder.postBind form output))
    (hbody : ∀ context, Run.Safe I P (e.body form context)) {s : σ} (hs : I s) :
    I (e.bind key s).2 ∧ ∀ err, (e.bind key s).1 = .error err → P err := by
  have hends := bind_ends hget s
  have hstate : I (e.rootContext form s).2 := hroot s hs
  generalize (e.bind key s).1 = result at hends ⊢
  generalize (e.bind key s).2 = state at hends ⊢
  -- there are three ways to end: without a root, at a fault, or with all done
  cases hends with
  | absent h =>
    refine ⟨hstate, fun err heq => ?_⟩
    cases heq
    exact hfaults _
  | stopped h hrun =>
    obtain ⟨ht, herr⟩ := hbody _ ⟨_, start form⟩ hstate
    rw [hrun] at ht herr
    refine ⟨ht, fun err heq => herr err ?_⟩
    cases heq
    rfl
  | finished h hrun =>
    obtain ⟨ht, -⟩ := hbody _ ⟨_, start form⟩ hstate
    rw [hrun] at ht
    exact ⟨hpost _ _ ht, fun err heq => by cases heq⟩

end Engine

/-! ## Groups -/

/-- Resolving a group asks for elements, one after the other. Resolution leaves the output alone
and cannot stop, so that only the invariant is of interest. -/
theorem Definition.resolve_keeps {b : Binder σ γ} {place : Scope γ}
    (h : ∀ item, Keeps I (b.bindElement place item)) (label : String) (cs : List Definition)
    (path : NodePath) : Keeps I (Definition.resolve b place label cs 0 none path) := by
  let C := Run.safety I (fun _ => True) fun _ => trivial
  have helement : ∀ item, C.Rel (Run.ask (b.bindElement place item))
      (Run.ask (b.bindElement place item)) := fun item => Run.Safe.ask (h item)
  have hresolve : C.Rel (Run.ask (Definition.resolve b place label cs 0 none path))
      (Run.ask (Definition.resolve b place label cs 0 none path)) :=
    Definition.resolve_rel_of (fun d _ => Definition.candidate_rel helement d) _ _ _ _
  exact fun st hst => (hresolve ⟨st, default⟩ hst).1

end FormSchema
