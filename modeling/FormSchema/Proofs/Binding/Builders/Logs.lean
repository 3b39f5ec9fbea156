import FormSchema.Proofs.Binding.Walk.ObservedRuns

/-!
# The log of a run

What a run asks of its binder and which builders it calls can be written into one log, in the order in which
it happens. Builders are told apart by their numbers in the order of registration, so that two of the same
kind are not mixed up. Keeping a log changes no run. Builders that do not apply to the binder of a run leave
no trace in it, and may be taken away.

A log contains more than a record of questions, since it tells how questions and calls of builders
alternate. It is kept by the binder and by the builders together, each of them writing at its end.
Both of the claims made here are instances of what is known of engines that are alike: the binder
answers as before, and an extension point does what it did, apart from a log entry that no answer
depends on.

* `Step` — a question to the binder, or the call of a builder.
* `Engine.logged`, `Engine.steps` — the engine that keeps a log, and the log of a run.
* **`Engine.bind_logged`** — keeping a log changes no run.
* **`Engine.bind_compatible`**, **`Engine.steps_compatible`** — nor does taking builders away that do not
  apply.
-/

namespace FormSchema

variable {σ τ γ α : Type}

/-! ## Steps -/

/-- One entry in the log of a run. -/
inductive Step (γ : Type) where
  -- the binder is asked, and has answered
  | asked (x : Exchange γ)
  -- the builder with a number is called with an extension point, at a place and with a path
  | called (number : Nat) (point : Definition) (place : Scope γ) (path : NodePath)

namespace Step

/-- The number of the builder that is called. -/
def number? : Step γ → Option Nat
  | .called number _ _ _ => some number
  | .asked _ => none

/-- The builders that are called, in order. -/
def numbers (steps : List (Step γ)) : List Nat := steps.filterMap number?

variable {xs ys : List (Step γ)}

@[simp] theorem numbers_append : numbers (xs ++ ys) = numbers xs ++ numbers ys := List.filterMap_append

@[simp] theorem numbers_asked (x : Exchange γ) : numbers (.asked x :: xs) = numbers xs := rfl

@[simp] theorem numbers_called (number : Nat) (point : Definition) (place : Scope γ) (path : NodePath) :
    numbers (.called number point place path :: xs) = number :: numbers xs := rfl

@[simp] theorem numbers_map_asked (asked : List (Exchange γ)) :
    numbers (asked.map .asked) = ([] : List Nat) := by
  induction asked with
  | nil => rfl
  | cons x asked ih => rw [List.map_cons, numbers_asked, ih]

end Step

/-! ## Keeping a log -/

/-- An action whose answer is put at the end of the log. -/
def logging (action : StateM σ α) (note : α → Exchange γ) : StateM (σ × List (Step γ)) α :=
  fun s => ((action s.1).1, ((action s.1).2, s.2 ++ [.asked (note (action s.1).1)]))

/-- The binder that puts every exchange into the log. Questions about an instance are not logged,
as they change no state. -/
def Binder.logged (b : Binder σ γ) : Binder (σ × List (Step γ)) γ where
  kind := b.kind
  hasSource := b.hasSource
  preBind form := logging (b.preBind form) fun _ => .started form
  bindForm place form := logging (b.bindForm place form) (.bound place form)
  bindElement place item := logging (b.bindElement place item) (.element place item)
  bindAttribute place item := logging (b.bindAttribute place item) (.attribute place item)
  postBind form output := logging (b.postBind form output) fun _ => .finished form output
  describe s := b.describe s.1
  value s := b.value s.1

/-- Puts a step at the end of the log. -/
def Run.log (step : Step γ) : Run (σ × List (Step γ)) Unit :=
  Run.ask fun s => ((), (s.1, s.2 ++ [step]))

/-- The builder with a number. It puts each of its calls into the log before it acts. -/
def Contributor.logging (c : Contributor × Nat) : Builder (σ × List (Step γ)) γ where
  compatible := c.1.appliesTo
  build site := do
    Run.log (.called c.2 site.definition site.scope site.path)
    c.1.builder.build site

namespace Engine

/-- An engine that keeps a log. Its builders are given with their numbers. -/
def logged (registry : Registry) (limit : Nat) (numbered : List (Contributor × Nat))
    (b : Binder σ γ) : Engine (σ × List (Step γ)) γ :=
  ⟨registry, limit, numbered.map Contributor.logging, b.logged⟩

/-- The log of a run. -/
def steps (registry : Registry) (limit : Nat) (numbered : List (Contributor × Nat)) (b : Binder σ γ)
    (key : FormKey) (s : σ) : List (Step γ) :=
  ((logged registry limit numbered b).bind key (s, [])).2.2

variable (registry : Registry) (limit : Nat) (numbered : List (Contributor × Nat)) (b : Binder σ γ)

/-- At an extension point every builder that applies is called once, in order, and each call is put into
the log before it takes place. -/
theorem build_extension_logged (entry : Entry (σ × List (Step γ)) γ) (point : Extension)
    (cs : List Definition) (scope : Scope γ) (path : NodePath) :
    (logged registry limit numbered b).build entry (.node (.extension point) cs) scope path =
      (numbered.filter fun c => c.1.appliesTo b.kind).forM fun c =>
        Run.log (.called c.2 (.node (.extension point) cs) scope path) >>= fun _ =>
          c.1.contribute scope point (.node (.extension point) cs)
            ((logged registry limit numbered b).buildAll entry cs scope path) := by
  have happlies : ∀ (c : Contributor × Nat) kind,
      (Contributor.logging c : Builder (σ × List (Step γ)) γ).compatible kind = c.1.appliesTo kind :=
    fun _ _ => rfl
  rw [build_extension_of_map rfl happlies]
  simp only [Contributor.logging, Contributor.builder_build_site]
  rfl

end Engine

/-! ## Keeping a log changes no run -/

/-- Putting an answer into the log does not show in the answer. -/
theorem logging_answers (action : StateM σ α) (note : α → Exchange γ) :
    Answers (fun s t => s = t.1) action (logging action note) := by
  rintro s t rfl
  exact ⟨rfl, rfl⟩

/-- A binder that keeps a log answers as it does without. -/
theorem Binder.matches_logged (b : Binder σ γ) : Binder.Matches (fun s t => s = t.1) b b.logged where
  kind := rfl
  hasSource := rfl
  preBind _ := logging_answers _ _
  bindForm _ _ := logging_answers _ _
  bindElement _ _ := logging_answers _ _
  bindAttribute _ _ := logging_answers _ _
  postBind _ _ := logging_answers _ _
  describe := by
    rintro s t rfl found
    rfl
  value := by
    rintro s t rfl found
    rfl

/-- A log entry before the second run is not seen by a relation that looks at the state of the
binder only. -/
theorem Run.Matches.after_log {m : Run σ Unit} {m' : Run (σ × List (Step γ)) Unit}
    (h : Run.Matches (fun s t => s = t.1) m m') (step : Step γ) :
    Run.Matches (fun s t => s = t.1) m (Run.log step >>= fun _ => m') := by
  intro s t output hst
  rw [exec_bind]
  exact h s _ output hst

namespace Engine

variable (registry : Registry) (limit : Nat) (b : Binder σ γ)

/-- The engine with a log and the one without are alike: each of the same builders is called after
an entry that nobody reads. -/
theorem logged_alike (numbered : List (Contributor × Nat)) :
    Alike (fun s t => s = t.1) (attended registry limit (numbered.map Prod.fst) b)
      (logged registry limit numbered b) where
  registry := rfl
  limit := rfl
  binder := b.matches_logged.toEchoes
  extensions entry entry' form := by
    intro point cs scope path _ h
    rw [build_extension_attended, build_extension_logged, List.filter_map, List.forM_eq_forM,
      List.forM_map]
    refine (Run.matching _).forM fun c _ => ?_
    exact Run.Matches.after_log (c.1.contribute_rel h scope point _) _

/-- **Keeping a log changes no run.** It comes to the same result, and beside the log its binder is left in
the same state. -/
theorem bind_logged (numbered : List (Contributor × Nat)) (key : FormKey) (s : σ) :
    ((logged registry limit numbered b).bind key (s, [])).1 =
        ((attended registry limit (numbered.map Prod.fst) b).bind key s).1 ∧
      ((logged registry limit numbered b).bind key (s, [])).2.1 =
        ((attended registry limit (numbered.map Prod.fst) b).bind key s).2 := by
  have hst : s = (s, ([] : List (Step γ))).1 := rfl
  obtain ⟨hresult, hstate⟩ := bind_alike (logged_alike registry limit b numbered) b.matches_logged key
    hst
  exact ⟨hresult.symm, hstate.symm⟩

end Engine

/-! ## Builders that do not apply -/

theorem Answers.refl (action : StateM σ α) : Answers Eq action action := by
  rintro s t rfl
  exact ⟨rfl, rfl⟩

theorem Binder.matches_refl (b : Binder σ γ) : Binder.Matches Eq b b where
  kind := rfl
  hasSource := rfl
  preBind _ := .refl _
  bindForm _ _ := .refl _
  bindElement _ _ := .refl _
  bindAttribute _ _ := .refl _
  postBind _ _ := .refl _
  describe := by
    rintro s t rfl found
    rfl
  value := by
    rintro s t rfl found
    rfl

namespace Engine

/-- Engines that are alike from the same state on have the same runs. -/
theorem bind_eq_of_alike {e e' : Engine σ γ} (h : Alike Eq e e')
    (hbinder : e.binder.Matches Eq e'.binder) (key : FormKey) (s : σ) :
    e'.bind key s = e.bind key s := by
  obtain ⟨hresult, hstate⟩ := bind_alike h hbinder key (s := s) rfl
  exact Prod.ext hresult.symm hstate.symm

variable (registry : Registry) (limit : Nat) (b : Binder σ γ)

/-- **Builders that do not apply may be taken away.** The run comes to the same result and leaves
the binder in the same state. At every extension point the builders that apply are the same, since
taking out those that do not apply is what the engine does there itself. -/
theorem bind_compatible (contributors : List Contributor) (key : FormKey) (s : σ) :
    (attended registry limit (contributors.filter fun c => c.appliesTo b.kind) b).bind key s =
      (attended registry limit contributors b).bind key s := by
  have halike : Alike Eq (attended registry limit contributors b)
      (attended registry limit (contributors.filter fun c => c.appliesTo b.kind) b) := by
    refine ⟨rfl, rfl, b.matches_refl.toEchoes, fun entry entry' form => ?_⟩
    intro point cs scope path _ h
    rw [build_extension_attended, build_extension_attended, List.filter_filter]
    simp only [Bool.and_self]
    exact (Run.matching Eq).forM fun c _ => c.contribute_rel h scope point _
  exact bind_eq_of_alike halike b.matches_refl key s

/-- **They leave no trace in the log.** So a log may number all builders of a list, whether they
apply to the binder or not. -/
theorem steps_compatible (numbered : List (Contributor × Nat)) (key : FormKey) (s : σ) :
    steps registry limit (numbered.filter fun c => c.1.appliesTo b.kind) b key s =
      steps registry limit numbered b key s := by
  have halike : Alike Eq (logged registry limit numbered b)
      (logged registry limit (numbered.filter fun c => c.1.appliesTo b.kind) b) := by
    refine ⟨rfl, rfl, b.logged.matches_refl.toEchoes, fun entry entry' form => ?_⟩
    intro point cs scope path _ h
    rw [build_extension_logged, build_extension_logged, List.filter_filter]
    simp only [Bool.and_self]
    refine (Run.matching Eq).forM fun c _ => ?_
    exact (Run.matching Eq).bind (.ask (.refl _)) fun _ => c.1.contribute_rel h scope point _
  exact congrArg (fun run => run.2.2) (bind_eq_of_alike halike b.logged.matches_refl key (s, []))

end Engine

end FormSchema
