import FormSchema.Proofs.Binding.Walk.RecordedBinders
import FormSchema.Proofs.Binding.Walk.SafeRuns
import Mathlib

/-!
# Runs without dangling references

Two traversals have to agree for a check made before any run to say something about every run: the
collection of references and the walk that meets them. They do. Whatever reference a run meets, in
whatever corner of a definition tree and behind however many extension points, is one that the form
being bound lists. So a registry in which nothing dangles never lets a run miss a target.

What is preserved is an invariant of the record: every crossing noted so far is that of a reference
which the form around it lists. A reference is crossed only when it is met as a definition of the
current form, so each new entry fits, and no other exchange is of this kind.

* **`Engine.buildAll_safe_of_dangling`** — binding the definitions of a form is safe at any level.
* **`Engine.bind_target_found`** — no run misses a target, and all references met are listed.
-/

namespace FormSchema

variable {σ γ : Type}

/-- Errors of a run that finds every target: a reference may be nested too deeply, but then it is
one that some form lists. -/
def Registry.TargetsFound (r : Registry) (err : RunError) : Prop :=
  (∀ key path, err ≠ .definitionNotFound key path) ∧
    ∀ key limit path, err = .referenceDepthExceeded key limit path → ∃ form, r.Lists form key

/-- References crossed so far are all listed by the form in which they were met. Such an entry
names the place of the reference, and the form of that place is the one that is being bound there. -/
def Registry.ListsAll (r : Registry) (record : List (Exchange γ)) : Prop :=
  ∀ place target context, .bound (some place) target context ∈ record →
    r.Lists place.form target.key

namespace Engine

/-- A fault of the data neither misses a target nor exceeds the limit. -/
theorem targetsFound_fault (r : Registry) (error : BindingError) :
    r.TargetsFound (.binding error) := by
  constructor
  · intro key path h
    cases h
  · intro key limit path h
    cases h

/-- What a binder keeps when it is asked for listed targets only. Only the question for a target is
restricted. The two other ones may be put for any definition. -/
structure KeepsListed (I : σ → Prop) (r : Registry) (b : Binder σ γ) : Prop where
  elements : ∀ place item, Keeps I (b.bindElement place item)
  attributes : ∀ place item, Keeps I (b.bindAttribute place item)
  forms : ∀ place target, r.Lists place.form target.key → Keeps I (b.bindForm (some place) target)

section Walk

variable {I : σ → Prop} {r : Registry} {b : Binder σ γ} {limit : Nat}
  {builders : List LibraryBuilder} {form : Form}

/-- **Every level.** Where nothing dangles, the definitions of a form are bound safely however many levels
are left. The induction is on the levels, and a reference takes one. -/
theorem buildAll_safe_of_dangling (closed : r.dangling = []) (keeps : KeepsListed I r b)
    (known : form ∈ r.forms) (n : Nat) (context : γ) (parent : NodeId) (path : NodePath) :
    Run.Safe I r.TargetsFound
      ((equipped r limit builders b).buildAll ((equipped r limit builders b).follow n)
        form.children (.top form context parent) path) := by
  induction n using Nat.strongRecOn generalizing form context parent path with
  | ind n ih =>
    refine buildAll_safe (targetsFound_fault r) keeps.elements keeps.attributes ?_ context parent path
    intro ref hr d scope path hs
    -- the reference stands in a registered form, so it does not dangle
    have hcontains : r.contains ref.target = true :=
      Registry.dangling_eq_nil_iff.mp closed form known ref hr
    apply follow_safe (targetsFound_fault r)
    · -- a missing target would dangle
      intro hnone
      rw [equipped_registry] at hnone
      rw [Registry.contains, hnone] at hcontains
      cases hcontains
    · -- the limit may be reached, but only at a listed reference
      intro target _ _
      constructor
      · intro key path h
        cases h
      · intro key limit path h
        cases h
        exact ⟨form, known, ref, hr, rfl⟩
    · intro target htarget
      refine keeps.forms _ _ ⟨hs.symm ▸ known, ref, ?_, (Registry.key_of_get? htarget).symm⟩
      rwa [hs]
    · intro target htarget m hm context node
      exact ih m (hm ▸ Nat.lt_succ_self m) (Registry.mem_forms_of_get? htarget) context node _

end Walk

/-- A record to which exchanges other than the crossing of a reference are added still lists all
references crossed. -/
theorem noted_keeps_listsAll {α : Type} {r : Registry} {action : StateM σ α}
    {note : α → Exchange γ}
    (h : ∀ a place target context, note a = .bound (some place) target context →
      r.Lists place.form target.key) :
    Keeps (fun st => r.ListsAll st.2) (noted action note) := by
  intro st hst place target context hmem
  rcases List.mem_append.mp hmem with hold | hnew
  · exact hst place target context hold
  · exact h _ place target context (List.mem_singleton.mp hnew).symm

/-- A recorded binder that is asked for listed targets only keeps a record of listed targets only. -/
theorem recorded_keepsListed (r : Registry) (b : Binder σ γ) :
    KeepsListed (fun st => r.ListsAll st.2) r b.recorded where
  elements _ _ := noted_keeps_listsAll fun _ _ _ _ h => by cases h
  attributes _ _ := noted_keeps_listsAll fun _ _ _ _ h => by cases h
  forms place target hlists := noted_keeps_listsAll fun _ _ _ _ h => by cases h; exact hlists

/-- **No run misses a target.** Where nothing dangles, a run of a registered form never stops for
want of a form. Every reference that any run meets is one that the form being bound lists: either
its target is asked of the binder, and is in the record, or its target is in the error. -/
theorem bind_target_found (r : Registry) (limit : Nat) (builders : List LibraryBuilder)
    (b : Binder σ γ) (key : FormKey) (s : σ) (closed : r.dangling = [])
    (known : r.contains key = true) :
    (∀ missing path, ((equipped r limit builders b).bind key s).1 ≠
      .error (.definitionNotFound missing path)) ∧
    (∀ target limit' path, ((equipped r limit builders b).bind key s).1 =
        .error (.referenceDepthExceeded target limit' path) →
      ∃ form, r.Lists form target) ∧
    r.ListsAll (exchanges r limit builders b key s) := by
  obtain ⟨form, hget⟩ := Registry.contains_iff.mp known
  have hform := Registry.mem_forms_of_get? hget
  -- the errors are those of the run itself, the record is that of the recorded run
  have hrun : ∀ err, ((equipped r limit builders b).bind key s).1 = .error err →
      r.TargetsFound err := by
    refine (bind_safe (e := equipped r limit builders b) hget (targetsFound_fault r) .trivial
      (fun _ => .trivial) (fun context => ?_) trivial).2
    have keeps : KeepsListed (fun _ => True) r b :=
      ⟨fun _ _ => .trivial, fun _ _ => .trivial, fun _ _ _ => .trivial⟩
    exact buildAll_safe_of_dangling closed keeps hform limit context _ _
  have hrecord : r.ListsAll (exchanges r limit builders b key s) := by
    refine (bind_safe (e := equipped r limit builders b.recorded) (I := fun st => r.ListsAll st.2)
      hget (targetsFound_fault r) (rootContext_keeps ?_ ?_) (fun output => ?_) (fun context => ?_) ?_).1
    · exact noted_keeps_listsAll fun _ _ _ _ h => by cases h
    · exact noted_keeps_listsAll fun _ _ _ _ h => by cases h
    · exact noted_keeps_listsAll fun _ _ _ _ h => by cases h
    · exact buildAll_safe_of_dangling closed (recorded_keepsListed r b) hform limit context _ _
    · intro place target context hmem
      cases hmem
  refine ⟨fun missing path h => ?_, fun target limit' path h => ?_, hrecord⟩
  · exact (hrun _ h).1 missing path rfl
  · exact (hrun _ h).2 target limit' path rfl

/-- The orders of the example: the address is crossed into from both lines and from the order. -/
theorem bind_target_found_orders :
    Sample.orders.dangling = [] ∧ Sample.orders.contains Sample.orderKey = true ∧
    (∀ missing path, ((equipped Sample.orders 1 [.inline] Sample.binder).bind Sample.orderKey ()).1 ≠
      .error (.definitionNotFound missing path)) ∧
    (∀ target limit path,
      ((equipped Sample.orders 1 [.inline] Sample.binder).bind Sample.orderKey ()).1 =
        .error (.referenceDepthExceeded target limit path) →
      ∃ form, Sample.orders.Lists form target) ∧
    Sample.orders.ListsAll
      (exchanges Sample.orders 1 [.inline] Sample.binder Sample.orderKey ()) ∧
    (exchanges Sample.orders 1 [.inline] Sample.binder Sample.orderKey ()).length = 14 := by
  have closed : Sample.orders.dangling = [] := by decide
  have known : Sample.orders.contains Sample.orderKey = true := by decide
  obtain ⟨hfound, hdeep, hlisted⟩ :=
    bind_target_found Sample.orders 1 [.inline] Sample.binder Sample.orderKey () closed known
  exact ⟨closed, known, hfound, hdeep, hlisted, by cbv⟩

end Engine

end FormSchema
