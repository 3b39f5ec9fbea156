import FormSchema.Proofs.Binding.Walk.Congruences

/-!
# Recorded binders

What a run asks of its binder is not part of its result. To speak about it, a binder is recorded:
it answers as before, and its state also holds every exchange so far. Two binders that answer alike
in related states drive an engine of the library alike, so recording a binder changes no run.

That two binders answer alike is said with a relation between their states, since they may remember
different things. The relation has to be kept by every question, and related states have to give the
same answer. This is a simulation in the usual sense, with the questions for its labels, and the
walk respects it because it looks at answers only.

* **`Binder.recorded`** — the binder that notes every exchange.
* **`Engine.bind_alike`** — engines that simulate one another give the same results.
* **`Engine.bind_recorded`** — in particular a recorded run is the run itself.
* `Engine.bind_echoes` — binders that answer a run alike are asked the same.
-/

namespace FormSchema

variable {σ τ γ α β : Type}

/-! ## Exchanges -/

/-- One call of a binder, with the answer where there is one. -/
inductive Exchange (γ : Type) where
  -- a run of a form is about to start
  | started (form : Form)
  -- a form is to be bound: the root without a place, a target where its reference stands
  | bound (place : Option (Scope γ)) (form : Form) (context : Option γ)
  -- the instances of an element are asked for
  | element (place : Scope γ) (item : ItemDefinition) (found : List γ)
  -- the instance of an attribute is asked for
  | attribute (place : Scope γ) (item : ItemDefinition) (found : Option γ)
  -- a run has succeeded
  | finished (form : Form) (output : OutputTree)

/-- Where an exchange took place, for exchanges within a form. -/
def Exchange.place? : Exchange γ → Option (Scope γ)
  | .bound place _ _ => place
  | .element place _ _ | .attribute place _ _ => some place
  | .started _ | .finished _ _ => none

/-- An action whose answer is noted at the end of a record. -/
def noted (action : StateM σ α) (note : α → Exchange γ) : StateM (σ × List (Exchange γ)) α :=
  fun s => ((action s.1).1, ((action s.1).2, s.2 ++ [note (action s.1).1]))

/-- The binder that notes every exchange beside its own state. -/
def Binder.recorded (b : Binder σ γ) : Binder (σ × List (Exchange γ)) γ where
  kind := b.kind
  hasSource := b.hasSource
  preBind form := noted (b.preBind form) fun _ => .started form
  bindForm place form := noted (b.bindForm place form) (.bound place form)
  bindElement place item := noted (b.bindElement place item) (.element place item)
  bindAttribute place item := noted (b.bindAttribute place item) (.attribute place item)
  postBind form output := noted (b.postBind form output) fun _ => .finished form output
  describe s := b.describe s.1
  value s := b.value s.1

/-! ## Matching actions and runs -/

/-- From related states two actions give the same answer and end in related states. The states may
be of different kinds, as those of a binder and of the recorded binder are. -/
def Answers (R : σ → τ → Prop) (x : StateM σ α) (y : StateM τ α) : Prop :=
  ∀ s t, R s t → (x s).1 = (y t).1 ∧ R (x s).2 (y t).2

namespace Answers

variable {R : σ → τ → Prop}

theorem pure (a : α) : Answers R (pure a : StateM σ α) (pure a : StateM τ α) :=
  fun _ _ h => ⟨rfl, h⟩

/-- Actions in a row answer alike when each of them does, whatever it was answered before. -/
theorem bind {x : StateM σ α} {y : StateM τ α} {f : α → StateM σ β} {g : α → StateM τ β}
    (h : Answers R x y) (hf : ∀ a, Answers R (f a) (g a)) : Answers R (x >>= f) (y >>= g) := by
  intro s t hst
  obtain ⟨heq, hrel⟩ := h s t hst
  have hnext := hf (x s).1 (x s).2 (y t).2 hrel
  show (f (x s).1 (x s).2).1 = (g (y t).1 (y t).2).1 ∧ R (f (x s).1 (x s).2).2 (g (y t).1 (y t).2).2
  rw [← heq]
  exact hnext

end Answers

/-- From related sessions with the same output two runs come to the same result and leave related
sessions with the same output. Beside the result this compares the trees, also those of runs that
stop. -/
def Run.Matches (R : σ → τ → Prop) (m : Run σ α) (m' : Run τ α) : Prop :=
  ∀ s t output, R s t → (m.exec ⟨s, output⟩).1 = (m'.exec ⟨t, output⟩).1 ∧
    (m.exec ⟨s, output⟩).2.output = (m'.exec ⟨t, output⟩).2.output ∧
    R (m.exec ⟨s, output⟩).2.state (m'.exec ⟨t, output⟩).2.state

/-- Matching is respected by the way runs are put together. In a sequence both sides have the same
result and the same tree halfway, so that the second parts start alike. -/
def Run.matching (R : σ → τ → Prop) : Run.Congruence σ τ where
  Rel := Run.Matches R
  pure _ := fun _ _ _ h => ⟨rfl, rfl, h⟩
  bind := by
    intro _ _ m m' f f' h hf s t output hst
    obtain ⟨hresult, houtput, hrel⟩ := h s t output hst
    rw [exec_bind, exec_bind]
    rcases hm : m.exec ⟨s, output⟩ with ⟨r, s₁, o₁⟩
    rcases hm' : m'.exec ⟨t, output⟩ with ⟨r', t₁, o₁'⟩
    rw [hm, hm'] at hresult houtput hrel
    obtain rfl : r = r' := hresult
    obtain rfl : o₁ = o₁' := houtput
    cases r with
    | error err => exact ⟨rfl, rfl, hrel⟩
    | ok a => exact hf a s₁ t₁ o₁ hrel
  edit _ := fun _ _ _ h => ⟨rfl, rfl, h⟩
  attach _ _ _ := fun _ _ _ h => ⟨rfl, rfl, h⟩
  fault _ := fun _ _ _ h => ⟨rfl, rfl, h⟩

/-- Asking two binders that answer alike matches, and asking leaves the tree as it is. -/
theorem Run.Matches.ask {R : σ → τ → Prop} {x : StateM σ α} {y : StateM τ α}
    (h : Answers R x y) : Run.Matches R (Run.ask x) (Run.ask y) := by
  intro s t output hst
  obtain ⟨heq, hrel⟩ := h s t hst
  exact ⟨congrArg Except.ok heq, rfl, hrel⟩

/-! ## Matching binders -/

/-- From related states on the second binder answers a run as the first one does. What either of
them does when the run is over is left open: no answer depends on it. Most of what is proved needs
no more than this. What the final states have to do with one another is the subject of
`Binder.Matches`. -/
structure Binder.Echoes (R : σ → τ → Prop) (b : Binder σ γ) (b' : Binder τ γ) : Prop where
  kind : b.kind = b'.kind
  hasSource : b.hasSource = b'.hasSource
  preBind : ∀ form, Answers R (b.preBind form) (b'.preBind form)
  bindForm : ∀ place form, Answers R (b.bindForm place form) (b'.bindForm place form)
  bindElement : ∀ place item, Answers R (b.bindElement place item) (b'.bindElement place item)
  bindAttribute : ∀ place item,
    Answers R (b.bindAttribute place item) (b'.bindAttribute place item)
  describe : ∀ s t, R s t → ∀ found, b.describe s found = b'.describe t found
  value : ∀ s t, R s t → ∀ found, b.value s found = b'.value t found

/-- Two binders that answer alike in related states, and stay in related states after the run. -/
structure Binder.Matches (R : σ → τ → Prop) (b : Binder σ γ) (b' : Binder τ γ) : Prop
    extends b.Echoes R b' where
  postBind : ∀ form output, Answers R (b.postBind form output) (b'.postBind form output)

/-- Noting an exchange does not show in the answer. -/
theorem noted_answers (action : StateM σ α) (note : α → Exchange γ) :
    Answers (fun s t => s = t.1) action (noted action note) := by
  rintro s t rfl
  exact ⟨rfl, rfl⟩

/-- A recorded binder answers as the binder it records. -/
theorem Binder.matches_recorded (b : Binder σ γ) :
    Binder.Matches (fun s t => s = t.1) b b.recorded where
  kind := rfl
  hasSource := rfl
  preBind _ := noted_answers _ _
  bindForm _ _ := noted_answers _ _
  bindElement _ _ := noted_answers _ _
  bindAttribute _ _ := noted_answers _ _
  postBind _ _ := noted_answers _ _
  describe := by rintro s t rfl found; rfl
  value := by rintro s t rfl found; rfl

/-- Where a binder echoes another one, both note the same. The two records are equal, and this is
then kept along the run beside the relation itself. -/
theorem Binder.Echoes.recorded {R : σ → τ → Prop} {b : Binder σ γ} {b' : Binder τ γ}
    (h : b.Echoes R b') :
    b.recorded.Echoes (fun s t => R s.1 t.1 ∧ s.2 = t.2) b'.recorded := by
  have hnoted : ∀ {α : Type} {x : StateM σ α} {y : StateM τ α} (note : α → Exchange γ),
      Answers R x y → Answers (fun (s : σ × _) (t : τ × _) => R s.1 t.1 ∧ s.2 = t.2)
        (noted x note) (noted y note) := by
    rintro α x y note hxy ⟨s, record⟩ ⟨t, _⟩ ⟨hst, rfl⟩
    obtain ⟨heq, hrel⟩ := hxy s t hst
    refine ⟨heq, hrel, ?_⟩
    show record ++ [note (x s).1] = record ++ [note (y t).1]
    rw [heq]
  exact {
    kind := h.kind
    hasSource := h.hasSource
    preBind := fun form => hnoted _ (h.preBind form)
    bindForm := fun place form => hnoted _ (h.bindForm place form)
    bindElement := fun place item => hnoted _ (h.bindElement place item)
    bindAttribute := fun place item => hnoted _ (h.bindAttribute place item)
    describe := fun s t hst => h.describe s.1 t.1 hst.1
    value := fun s t hst => h.value s.1 t.1 hst.1 }

/-! ## Matching runs -/

namespace Engine

section Alike

variable {R : σ → τ → Prop} {e : Engine σ γ} {e' : Engine τ γ} {entry : Entry σ γ}
  {entry' : Entry τ γ}

/-- Two engines over the same forms whose binders answer alike, and whose extension points match as
soon as what they wrap does. The builders of the two engines need not be the same: all that matters
is what becomes of an extension point. -/
structure Alike (R : σ → τ → Prop) (e : Engine σ γ) (e' : Engine τ γ) : Prop where
  registry : e'.registry = e.registry
  limit : e'.limit = e.limit
  binder : e.binder.Echoes R e'.binder
  extensions : ∀ entry entry' form, ExtensionsRel (Run.matching R) e e' entry entry' form

/-- References that are followed alike, wherever they stand. -/
def EntriesMatch (R : σ → τ → Prop) (entry : Entry σ γ) (entry' : Entry τ γ) : Prop :=
  ∀ r d scope path, Run.Matches R (entry r d scope path) (entry' r d scope path)

/-- Engines that are alike are linked at every form, when references are followed alike. -/
theorem linked_matching (h : Alike R e e') (hentry : EntriesMatch R entry entry') (form : Form) :
    Linked (Run.matching R) e e' entry entry' form where
  kind := h.binder.kind
  look found := by
    intro s t output hst
    have hvalue := h.binder.value s t hst found
    have hentry := h.binder.describe s t hst found
    exact ⟨congrArg Except.ok (Prod.ext hvalue hentry), rfl, hst⟩
  elements place item _ := .ask (h.binder.bindElement place item)
  attributes place item _ := .ask (h.binder.bindAttribute place item)
  follow r _ d scope path _ := hentry r d scope path

/-- References are followed alike at every level. The induction is on the levels that are left: the
target of a reference is bound with fewer. -/
theorem follow_matches (h : Alike R e e') (n : Nat) :
    EntriesMatch R (e.follow n) (e'.follow n) := by
  induction n using Nat.strongRecOn with
  | ind n ih =>
    intro r d scope path
    cases hget : e.registry.get? r.target with
    | none =>
      rw [follow_missing hget, follow_missing (by rw [h.registry, hget])]
      exact fun _ _ _ hst => ⟨rfl, rfl, hst⟩
    | some target =>
      have hget' : e'.registry.get? r.target = some target := by rw [h.registry, hget]
      cases n with
      -- the error names the limit, so the limits have to be the same
      | zero =>
        rw [follow_exhausted hget, follow_exhausted hget', h.limit]
        exact fun _ _ _ hst => ⟨rfl, rfl, hst⟩
      | succ n =>
        rw [follow_crossed hget, follow_crossed hget']
        refine cross_rel (C := Run.matching R) (.ask (h.binder.bindForm _ _)) (fun context node => ?_) d
        exact buildAll_rel (linked_matching h (ih n (Nat.lt_succ_self n)) target)
          (h.extensions _ _ target) (.top target context node) _ rfl

/-- What happens before the first definition is an action of the binder, and so the two engines
answer alike there as well. -/
theorem rootContext_answers (h : Alike R e e') (form : Form) :
    Answers R (e.rootContext form) (e'.rootContext form) := by
  refine .bind (h.binder.preBind _) fun _ => ?_
  rw [h.binder.hasSource]
  split
  · exact h.binder.bindForm _ _
  · exact .pure none

/-- The definitions of a root form are bound alike. -/
theorem root_matches (h : Alike R e e') (hentry : EntriesMatch R entry entry') (form : Form)
    (context : γ) :
    Run.Matches R
      (e.buildAll entry form.children (.top form context OutputTree.root) (.single form.label))
      (e'.buildAll entry' form.children (.top form context OutputTree.root) (.single form.label)) :=
  buildAll_rel (linked_matching h hentry form) (h.extensions _ _ form) _ _ rfl

/-- The bodies of the runs match: that is the binding of the root form with references followed
from the limit, which both engines share. -/
theorem body_matches (h : Alike R e e') (form : Form) (context : γ) :
    Run.Matches R (e.body form context) (e'.body form context) := by
  rw [body, body, h.limit]
  exact root_matches h (follow_matches h e.limit) form context

/-- **Whole runs.** Engines that are alike, and to which references come alike, give the same
result from related states. Their final states are related by whatever holds of related states and
of what the binders make of them at the end. The relation `S` is a parameter because the last word
goes to `postBind`, about which the relation `R` need not say anything. -/
theorem bindBy_alike (h : Alike R e e') (hentry : EntriesMatch R entry entry') {S : σ → τ → Prop}
    (hstopped : ∀ s t, R s t → S s t)
    (hfinished : ∀ form output s t, R s t →
      S (e.binder.postBind form output s).2 (e'.binder.postBind form output t).2)
    (key : FormKey) {s : σ} {t : τ} (hst : R s t) :
    (e.bindBy entry key s).1 = (e'.bindBy entry' key t).1 ∧
      S (e.bindBy entry key s).2 (e'.bindBy entry' key t).2 := by
  cases hget : e.registry.get? key with
  | none =>
    rw [bindBy_missing hget, bindBy_missing (by rw [h.registry, hget])]
    exact ⟨rfl, hstopped _ _ hst⟩
  | some form =>
    have hroot := rootContext_answers h form s t hst
    rw [bindBy_eq hget, bindBy_eq (e := e') (by rw [h.registry, hget])]
    rcases hs : e.rootContext form s with ⟨c, s'⟩
    rcases ht : e'.rootContext form t with ⟨c', t'⟩
    rw [hs, ht] at hroot
    obtain ⟨rfl, hrel⟩ : c = c' ∧ R s' t' := hroot
    cases c with
    | none => exact ⟨rfl, hstopped _ _ hrel⟩
    | some context =>
      -- both runs start with the same node of the root form
      obtain ⟨hresult, houtput, hstate⟩ := root_matches h hentry form context s' t' (start form) hrel
      dsimp only
      generalize (e.buildAll entry form.children _ _).exec ⟨s', start form⟩ = x at hresult houtput hstate ⊢
      generalize (e'.buildAll entry' form.children _ _).exec ⟨t', start form⟩ = y
        at hresult houtput hstate ⊢
      obtain ⟨r, s₁, o⟩ := x
      obtain ⟨r', t₁, o'⟩ := y
      obtain rfl : r = r' := hresult
      obtain rfl : o = o' := houtput
      rcases r with err | ⟨⟨⟩⟩
      · exact ⟨rfl, hstopped _ _ hstate⟩
      · exact ⟨rfl, hfinished _ _ s₁ t₁ hstate⟩

/-- The same for the runs of the engines themselves, in which references are followed from the
limit. -/
theorem bind_alike_ending (h : Alike R e e') {S : σ → τ → Prop} (hstopped : ∀ s t, R s t → S s t)
    (hfinished : ∀ form output s t, R s t →
      S (e.binder.postBind form output s).2 (e'.binder.postBind form output t).2)
    (key : FormKey) {s : σ} {t : τ} (hst : R s t) :
    (e.bind key s).1 = (e'.bind key t).1 ∧ S (e.bind key s).2 (e'.bind key t).2 := by
  rw [bind, bind, h.limit]
  exact bindBy_alike h (follow_matches h e.limit) hstopped hfinished key hst

/-- Where the binders match, related states are left behind. -/
theorem bind_alike (h : Alike R e e') (hbinder : e.binder.Matches R e'.binder) (key : FormKey) {s : σ}
    {t : τ} (hst : R s t) :
    (e.bind key s).1 = (e'.bind key t).1 ∧ R (e.bind key s).2 (e'.bind key t).2 :=
  bind_alike_ending h (fun _ _ hrel => hrel)
    (fun form output s t hrel => (hbinder.postBind form output s t hrel).2) key hst

/-- They build the same tree, whether or not they succeed. -/
theorem built_alike (h : Alike R e e') (key : FormKey) {s : σ} {t : τ} (hst : R s t) :
    e.built key s = e'.built key t := by
  rw [built, built, h.registry]
  cases e.registry.get? key with
  | none => rfl
  | some form =>
    have hroot := rootContext_answers h form s t hst
    dsimp only
    rcases hs : e.rootContext form s with ⟨c, s'⟩
    rcases ht : e'.rootContext form t with ⟨c', t'⟩
    rw [hs, ht] at hroot
    obtain ⟨rfl, hrel⟩ : c = c' ∧ R s' t' := hroot
    cases c with
    | none => rfl
    | some context => exact (body_matches h form context s' t' (start form) hrel).2.1

end Alike

/-- What a recorded binder is asked before the first definition: it is told of the run, and then
asked for the root form if it has a source. -/
theorem rootContext_record {e : Engine (σ × List (Exchange γ)) γ} {b : Binder σ γ}
    (hb : e.binder = b.recorded) (form : Form) (s : σ) :
    (e.rootContext form (s, [])).2.2 = .started form ::
      if b.hasSource then [.bound none form (e.rootContext form (s, [])).1] else [] := by
  obtain ⟨registry, limit, builders, binder⟩ := e
  cases hb
  simp only [rootContext]
  cases b.hasSource <;> rfl

/-- Before the first definition nothing is asked within a form. -/
theorem rootContext_nowhere {e : Engine (σ × List (Exchange γ)) γ} {b : Binder σ γ}
    (hb : e.binder = b.recorded) (form : Form) (s : σ) :
    ∀ x ∈ (e.rootContext form (s, [])).2.2, x.place? = none := by
  intro x hx
  rw [rootContext_record hb] at hx
  rcases List.mem_cons.mp hx with rfl | hlast
  · rfl
  · split at hlast
    · rw [List.mem_singleton.mp hlast]
      rfl
    · cases hlast

variable {R : σ → τ → Prop} {b : Binder σ γ} {b' : Binder τ γ} (registry : Registry) (limit : Nat)
  (builders : List LibraryBuilder)

/-- Engines over the same forms, with the same limit and the same builders of the library, are
alike when their binders answer alike. -/
theorem equipped_alike (h : b.Echoes R b') :
    Alike R (equipped registry limit builders b) (equipped registry limit builders b') where
  registry := rfl
  limit := rfl
  binder := h
  extensions _ _ _ := equipped_extensionsRel h.kind

/-- Binders that answer alike give the same result from related states, and leave related states
behind. -/
theorem bind_matches (h : b.Matches R b') (key : FormKey) {s : σ} {t : τ} (hst : R s t) :
    ((equipped registry limit builders b).bind key s).1 =
        ((equipped registry limit builders b').bind key t).1 ∧
      R ((equipped registry limit builders b).bind key s).2
        ((equipped registry limit builders b').bind key t).2 :=
  bind_alike (equipped_alike registry limit builders h.toEchoes) h key hst

/-- All that a run asks of its binder, from the first exchange to the last. -/
def exchanges (b : Binder σ γ) (key : FormKey) (s : σ) : List (Exchange γ) :=
  ((equipped registry limit builders b.recorded).bind key (s, [])).2.2

/-- **Recording changes no run.** A recorded run comes to the same result, and beside the record
its binder is left in the same state. The record may have been begun before: what the run adds
stands behind it. -/
theorem bind_recorded (key : FormKey) (s : σ) (record : List (Exchange γ)) :
    ((equipped registry limit builders b.recorded).bind key (s, record)).1 =
        ((equipped registry limit builders b).bind key s).1 ∧
      ((equipped registry limit builders b.recorded).bind key (s, record)).2.1 =
        ((equipped registry limit builders b).bind key s).2 := by
  have hst : s = (s, record).1 := rfl
  obtain ⟨hresult, hstate⟩ := bind_matches registry limit builders b.matches_recorded key hst
  exact ⟨hresult.symm, hstate.symm⟩

/-- Recording changes nothing about the tree. -/
theorem built_recorded (key : FormKey) (s : σ) (record : List (Exchange γ)) :
    (equipped registry limit builders b.recorded).built key (s, record) =
      (equipped registry limit builders b).built key s :=
  (built_alike (equipped_alike registry limit builders b.matches_recorded.toEchoes) key rfl).symm

end Engine

end FormSchema
