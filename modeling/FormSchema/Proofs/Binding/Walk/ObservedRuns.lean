import FormSchema.Proofs.Binding.Growth.BeneathNodes

/-!
# Observed runs

A builder may look on without contributing anything. This module lists the builders of the library
beside such observers, and watches a run at every extension point: whenever a builder is called, it is
noted where, and what had been built and asked by then. Watching changes no run.

A note says where the extension point was reached and how much of the tree and of the record there
was before the call. So what one builder has done can be told from what another one has done, and
what is said of an order of contributions becomes a statement about the lengths of these trees and
records. The notes stand in a state of their own beside the state of the binder, and the binder
neither reads nor writes it; that watching changes no run is then an instance of what is known of
binders that answer alike.

* `Moment` — what has been built and asked by some moment of a run.
* `Contributor` — a builder of the library, or an observer that does nothing.
* **`Engine.observed`**, **`Engine.bind_observed`** — the engine that notes every call of a builder
  comes to the same result.
-/

namespace FormSchema

variable {σ τ γ α : Type}

/-! ## Moments and visits -/

/-- What has been built and asked by some moment of a run. -/
structure Moment (γ : Type) where
  tree : OutputTree
  record : List (Exchange γ)

/-- One call of a builder at an extension point. -/
structure Visit (γ : Type) where
  -- where the extension point was reached, and the path it was reached by
  place : Scope γ
  path : NodePath
  -- what had been built and asked before the call
  moment : Moment γ

/-- What is observed of a run beside the state of its binder: the calls of builders, and all exchanges
with the binder. -/
abbrev Observation (σ γ : Type) := (σ × List (Visit γ)) × List (Exchange γ)

/-- The moment at which a session stands. -/
def Session.moment (s : Session (Observation σ γ)) : Moment γ := ⟨s.output, s.state.2⟩

/-- An action that leaves a second state alone. It answers as the action does. -/
def framed (action : StateM σ α) : StateM (σ × τ) α := fun s =>
  ((action s.1).1, ((action s.1).2, s.2))

/-- The binder, beside a state that it does not know of. -/
def Binder.beside (b : Binder σ γ) : Binder (σ × τ) γ where
  kind := b.kind
  hasSource := b.hasSource
  preBind form := framed (b.preBind form)
  bindForm place form := framed (b.bindForm place form)
  bindElement place item := framed (b.bindElement place item)
  bindAttribute place item := framed (b.bindAttribute place item)
  postBind form output := framed (b.postBind form output)
  describe s := b.describe s.1
  value s := b.value s.1

/-- The binder answers alike beside a state that it does not know of, and leaves that state alone. So any
relation that sees its own state and, of the other one, only what stays, relates the two. -/
theorem Binder.matches_beside {R : σ → σ × τ → Prop} (hstate : ∀ s t, R s t → s = t.1)
    (hleft : ∀ s t, R s t → ∀ s', R s' (s', t.2)) (b : Binder σ γ) : b.Matches R b.beside := by
  have hframed : ∀ {α : Type} (action : StateM σ α), Answers R action (framed action) := by
    intro α action s t hst
    obtain rfl := hstate s t hst
    exact ⟨rfl, hleft _ t hst _⟩
  exact {
    kind := rfl
    hasSource := rfl
    preBind := fun _ => hframed _
    bindForm := fun _ _ => hframed _
    bindElement := fun _ _ => hframed _
    bindAttribute := fun _ _ => hframed _
    postBind := fun _ _ => hframed _
    describe := fun s t hst found => by rw [hstate s t hst]; rfl
    value := fun s t hst found => by rw [hstate s t hst]; rfl }

/-- The binder of an observed run. -/
def Binder.observed (b : Binder σ γ) : Binder (Observation σ γ) γ := b.beside.recorded

/-! ## Contributors -/

/-- What may be called at an extension point. -/
inductive Contributor where
  -- a builder of the library
  | library (builder : LibraryBuilder)
  -- a builder that does nothing, for binders of the given kinds or of every kind
  | observer (kinds : List String)
deriving DecidableEq

namespace Contributor

def appliesTo : Contributor → String → Bool
  | .library l, kind => l.appliesTo kind
  | .observer kinds, kind => Builder.appliesTo kinds kind

/-- The builder itself. -/
def builder : Contributor → Builder σ γ
  | .library l => l.builder
  | .observer kinds => ⟨Builder.appliesTo kinds, fun _ => pure ()⟩

/-- What is called at an extension point whose wrapped definitions are bound by `inside`. -/
def contribute (c : Contributor) (scope : Scope γ) (point : Extension) (d : Definition)
    (inside : Run σ Unit) : Run σ Unit :=
  match c with
  | .library l => l.contribute scope point d inside
  | .observer _ => pure ()

/-- Notes that a builder is called. -/
def note (scope : Scope γ) (path : NodePath) : Run (Observation σ γ) Unit := fun s =>
  (.ok (), ⟨((s.state.1.1, s.state.1.2 ++ [⟨scope, path, s.moment⟩]), s.state.2), s.output⟩)

/-- The builder, noting each of its calls. -/
def noting (c : Contributor) : Builder (Observation σ γ) γ where
  compatible := c.appliesTo
  build site := do
    note site.scope site.path
    c.builder.build site

theorem builder_compatible (c : Contributor) (kind : String) :
    (c.builder : Builder σ γ).compatible kind = c.appliesTo kind := by
  cases c with
  | library l => exact l.builder_compatible kind
  | observer kinds => rfl

theorem builder_build_site (c : Contributor) (e : Engine σ γ) (b : Binder σ γ) (entry : Entry σ γ)
    (point : Extension) (d : Definition) (cs : List Definition) (scope : Scope γ) (path : NodePath) :
    c.builder.build ⟨b, scope, path, point, d, e.wrappedAll entry cs⟩ =
      c.contribute scope point d (e.buildAll entry cs scope path) := by
  cases c with
  | library l => exact Engine.builder_build_site b e entry l point d cs scope path
  | observer kinds => rfl

end Contributor

/-! ## Engines -/

namespace Engine

/-- An engine whose builders come from the library or are observers. -/
def attended (registry : Registry) (limit : Nat) (contributors : List Contributor)
    (b : Binder σ γ) : Engine σ γ :=
  ⟨registry, limit, contributors.map Contributor.builder, b⟩

/-- The same engine, with every call of a builder and every exchange with the binder noted. -/
def observed (registry : Registry) (limit : Nat) (contributors : List Contributor)
    (b : Binder σ γ) : Engine (Observation σ γ) γ :=
  ⟨registry, limit, contributors.map Contributor.noting, b.observed⟩

variable (registry : Registry) (limit : Nat) (contributors : List Contributor) (b : Binder σ γ)

/-- An engine of the library is one without observers. -/
theorem attended_library (builders : List LibraryBuilder) :
    attended registry limit (builders.map .library) b = equipped registry limit builders b := by
  rw [attended, equipped, List.map_map]
  rfl

/-- At an extension point every contributor that applies is called once, in order. -/
theorem build_extension_attended (entry : Entry σ γ) (point : Extension) (cs : List Definition)
    (scope : Scope γ) (path : NodePath) :
    (attended registry limit contributors b).build entry (.node (.extension point) cs) scope path =
      (contributors.filter fun c => c.appliesTo b.kind).forM fun c =>
        c.contribute scope point (.node (.extension point) cs)
          ((attended registry limit contributors b).buildAll entry cs scope path) := by
  rw [build_extension_of_map rfl Contributor.builder_compatible]
  simp only [Contributor.builder_build_site]
  rfl

/-- In an observed run each call is noted before it takes place. -/
theorem build_extension_observed (entry : Entry (Observation σ γ) γ) (point : Extension)
    (cs : List Definition) (scope : Scope γ) (path : NodePath) :
    (observed registry limit contributors b).build entry (.node (.extension point) cs) scope path =
      (contributors.filter fun c => c.appliesTo b.kind).forM fun c =>
        Contributor.note scope path >>= fun _ =>
          c.contribute scope point (.node (.extension point) cs)
            ((observed registry limit contributors b).buildAll entry cs scope path) := by
  have happlies : ∀ (c : Contributor) kind,
      (c.noting : Builder (Observation σ γ) γ).compatible kind = c.appliesTo kind :=
    fun _ _ => rfl
  rw [build_extension_of_map rfl happlies]
  simp only [Contributor.noting, Contributor.builder_build_site]
  rfl

end Engine

/-! ## Watching changes no run -/

/-- The observation of a run holds the state of its binder. -/
def Observes (s : σ) (o : Observation σ γ) : Prop := s = o.1.1

theorem noted_framed_answers (action : StateM σ α) (note : α → Exchange γ) :
    Answers Observes action (noted (framed action) note) := by
  rintro s o rfl
  exact ⟨rfl, rfl⟩

/-- The binder of an observed run answers as the binder it observes. -/
theorem Binder.matches_observed (b : Binder σ γ) : Binder.Matches Observes b b.observed where
  kind := rfl
  hasSource := rfl
  preBind _ := noted_framed_answers _ _
  bindForm _ _ := noted_framed_answers _ _
  bindElement _ _ := noted_framed_answers _ _
  bindAttribute _ _ := noted_framed_answers _ _
  postBind _ _ := noted_framed_answers _ _
  describe := by
    rintro s o rfl found
    rfl
  value := by
    rintro s o rfl found
    rfl

/-- A relation to observations in which the calls of builders do not count. Such a relation
survives a note, and so a run that notes the calls matches one that does not. -/
def IgnoresVisits (R : σ → Observation τ γ → Prop) : Prop :=
  ∀ s o visits, R s o → R s ((o.1.1, visits), o.2)

/-- A note before the second run is not seen by a relation that ignores visits. -/
theorem Run.Matches.after_note {R : σ → Observation τ γ → Prop} (hR : IgnoresVisits R)
    {m : Run σ Unit} {m' : Run (Observation τ γ) Unit} (h : Run.Matches R m m') (scope : Scope γ)
    (path : NodePath) : Run.Matches R m (Contributor.note scope path >>= fun _ => m') := by
  intro s o output hso
  rw [exec_bind]
  exact h s _ output (hR s o _ hso)

/-- What a contributor does respects a congruence as soon as the binding of what the extension
point wraps does: an observer does nothing at all. -/
theorem Contributor.contribute_rel {C : Run.Congruence σ τ} {inside : Run σ Unit}
    {inside' : Run τ Unit} (h : C.Rel inside inside') (c : Contributor) (scope : Scope γ)
    (point : Extension) (d : Definition) :
    C.Rel (c.contribute scope point d inside) (c.contribute scope point d inside') := by
  cases c with
  | library l => exact Engine.contribute_rel h l scope point d
  | observer kinds => exact C.pure ()

namespace Engine

variable (registry : Registry) (limit : Nat) (contributors : List Contributor) (b : Binder σ γ)

/-- An engine and its observed counterpart are alike: at an extension point the same contributors
are called in the same order, and before each of them the second engine takes a note. -/
theorem attended_alike {R : σ → Observation τ γ → Prop} {b : Binder σ γ} {b' : Binder τ γ}
    (hR : IgnoresVisits R) (h : b.Echoes R b'.observed) :
    Alike R (attended registry limit contributors b) (observed registry limit contributors b') where
  registry := rfl
  limit := rfl
  binder := h
  extensions entry entry' form := by
    intro point cs scope path _ hinside
    have hkind : b'.kind = b.kind := h.kind.symm
    rw [build_extension_attended, build_extension_observed, hkind]
    refine (Run.matching R).forM fun c _ => ?_
    exact Run.Matches.after_note hR (Contributor.contribute_rel hinside c scope point _) scope path

/-- What is observed of a whole run. -/
def observation (key : FormKey) (s : σ) : Observation σ γ :=
  ((observed registry limit contributors b).bind key ((s, []), [])).2

/-- **Watching changes no run.** Neither the result nor the error depends on the notes, since no
binder and no builder is given them. -/
theorem bind_observed (key : FormKey) (s : σ) :
    ((observed registry limit contributors b).bind key ((s, []), [])).1 =
      ((attended registry limit contributors b).bind key s).1 :=
  (bind_alike (attended_alike registry limit contributors (fun _ _ _ h => h)
    b.matches_observed.toEchoes) b.matches_observed key (t := ((s, []), [])) rfl).1.symm

/-- An observed run builds the same tree, whether or not it succeeds. A run that fails is watched
up to where it stops. -/
theorem built_observed (key : FormKey) (s : σ) :
    (observed registry limit contributors b).built key ((s, []), []) =
      (attended registry limit contributors b).built key s :=
  (built_alike (attended_alike registry limit contributors (fun _ _ _ h => h)
    b.matches_observed.toEchoes) key (t := ((s, []), [])) rfl).symm

/-- Where the builders are those of the library, the exchanges that are observed are those of the
run. The record of an observed run and the record of a run that is only recorded are thus one list,
and the statements about either may be used of the other. -/
theorem observation_record (builders : List LibraryBuilder) (key : FormKey) (s : σ) :
    (observation registry limit (builders.map .library) b key s).2 =
      exchanges registry limit builders b key s := by
  have hmatches : b.recorded.Matches (fun s (o : Observation σ γ) => s.1 = o.1.1 ∧ s.2 = o.2)
      b.observed := by
    have hnoted : ∀ {α : Type} (action : StateM σ α) (note : α → Exchange γ),
        Answers (fun s (o : Observation σ γ) => s.1 = o.1.1 ∧ s.2 = o.2) (noted action note)
          (noted (framed action) note) := by
      rintro α action note ⟨s, record⟩ ⟨⟨_, visits⟩, _⟩ ⟨rfl, rfl⟩
      exact ⟨rfl, rfl, rfl⟩
    -- both sides keep a record, and the relation says that the records are equal besides
    refine ⟨⟨rfl, rfl, fun _ => hnoted _ _, fun _ _ => hnoted _ _, fun _ _ => hnoted _ _,
      fun _ _ => hnoted _ _, ?_, ?_⟩, fun _ _ => hnoted _ _⟩
    · intro s o hso found
      show b.describe s.1 found = b.describe o.1.1 found
      rw [hso.1]
    · intro s o hso found
      show b.value s.1 found = b.value o.1.1 found
      rw [hso.1]
  have halike := attended_alike registry limit (builders.map .library) (fun _ _ _ h => h)
    hmatches.toEchoes
  have hend := (bind_alike halike hmatches key (s := (s, [])) (t := ((s, []), [])) ⟨rfl, rfl⟩).2.2
  rw [attended_library] at hend
  exact hend.symm

end Engine

end FormSchema
