import FormSchema.Proofs.Binding.Walk.Equations
import FormSchema.Proofs.Registry.References
import Mathlib

/-!
# Endless chains of references

A reference directly beneath a form is met in every run of that form, whatever the data holds. When
it leads to a form with such a reference of its own, and so on without end, every level that is left
is used up on the way down, and the run stops at the latest when none remains. Nothing that stands
beside these references can change that: it can only stop the run before.

Two things are shown of such a chain. That the run fails needs only that the references are met, by
an induction on the levels in which everything else in a form is skipped: whatever stands before the
reference either stops the run or lets it go on to the reference. Which error it fails with depends
on what comes before, and is known where nothing does. Then the run goes straight down, and its path
is the list of the references on the way.

* **`Registry.Chain`** — forms each of which refers to the next one by a direct child.
* **`Run.Fails`** — a run that succeeds in no session.
* **`Engine.bind_chain_fails`** — a run of the first form of a chain fails; where nothing comes
  before the references, it fails for want of a level.
-/

namespace FormSchema

/-! ## Chains -/

/-- An endless sequence of registered forms, each with a reference to the next one among its direct
children. Over finitely many forms it runs into a cycle. The same form may occur in it any number of
times, and one form that refers to itself is enough. -/
structure Registry.Chain (r : Registry) where
  form : Nat → Form
  -- the reference of a form to the next one
  ref : Nat → Reference
  -- what stands beneath that reference
  beneath : Nat → List Definition
  child : ∀ i, .node (.reference (ref i)) (beneath i) ∈ (form i).children
  target : ∀ i, r.get? (ref i).target = some (form (i + 1))

/-- The references of the chain come before everything else in their forms. -/
def Registry.Chain.Leads {r : Registry} (c : r.Chain) : Prop :=
  ∀ i, (c.form i).children.head? = some (.node (.reference (c.ref i)) (c.beneath i))

/-- The labels of some references of a chain, from the one of the form at `i` on. -/
def Registry.Chain.labels {r : Registry} (c : r.Chain) (i count : Nat) : List String :=
  (List.range' i count).map fun k => (c.ref k).label

/-! ## Runs that cannot succeed -/

variable {σ γ α β : Type}

namespace Run

/-- In no session does the run come to a result. It may end in any error, which may depend on the
session. -/
def Fails (m : Run σ α) : Prop := ∀ s t a, m.exec s ≠ (.ok a, t)

namespace Fails

/-- A run that stops at once comes to no result. -/
theorem stop (err : RunError) : Fails (Run.stop err : Run σ α) := by
  intro s t a h
  rw [exec_stop] at h
  cases h

theorem bind {m : Run σ α} (h : Fails m) (f : α → Run σ β) : Fails (m >>= f) := by
  intro s t b hrun
  obtain ⟨a, s', hfirst, -⟩ := exec_bind_eq_ok_iff.mp hrun
  exact h s s' a hfirst

/-- It does not matter how the run gets to a part that cannot succeed. -/
theorem after {m : Run σ α} {f : α → Run σ β} (h : ∀ a, Fails (f a)) : Fails (m >>= f) := by
  intro s t b hrun
  obtain ⟨a, s', -, hsecond⟩ := exec_bind_eq_ok_iff.mp hrun
  exact h a s' t b hsecond

/-- A loop fails when it fails for one of its items. Items before it may stop the loop as well, or
let it come to this item. -/
theorem forM {ι : Type} {f : ι → Run σ Unit} {xs : List ι} {x : ι} (hx : x ∈ xs)
    (h : Fails (f x)) : Fails (xs.forM f) := by
  induction xs with
  | nil => cases hx
  | cons y ys ih =>
    rcases List.mem_cons.mp hx with rfl | hys
    · exact h.bind _
    · exact after fun _ => ih hys

end Fails

end Run

namespace Engine

variable {e : Engine σ γ}

/-- Emitting a node does not stop a run. -/
theorem emit_succeeds (scope : Scope γ) (kind : NodeKind) (name : String) (d : Definition)
    (s : Session σ) : ∃ node t, (emit scope kind name d).exec s = (.ok node, t) :=
  ⟨_, _, rfl⟩

/-! ## The descent -/

/-- A form of a chain cannot be bound, however many levels are left. The induction is on the levels:
the reference to the next form takes one, and without one it stops the run. -/
theorem buildAll_chain_fails (c : e.registry.Chain) (n i : Nat) (scope : Scope γ)
    (path : NodePath) : Run.Fails (e.buildAll (e.follow n) (c.form i).children scope path) := by
  induction n generalizing i scope path with
  | zero =>
    rw [buildAll_eq_forM]
    refine .forM (c.child i) ?_
    rw [build_reference, follow_exhausted (c.target i)]
    exact .bind (.stop _) _
  | succ n ih =>
    rw [buildAll_eq_forM]
    refine .forM (c.child i) ?_
    rw [build_reference, follow_entered (c.target i)]
    refine .bind (.after fun node => .after fun bound => ?_) _
    exact .bind (ih (i + 1) _ _) _

/-- Where a reference comes first and stops the run, nothing else is bound. The error and the
session are those of the reference. -/
theorem exec_buildAll_of_first {entry : Entry σ γ} {ds : List Definition} {r : Reference}
    {cs : List Definition} (hfirst : ds.head? = some (.node (.reference r) cs)) {scope : Scope γ}
    {path : NodePath} {s t : Session σ} {err : RunError}
    (h : (entry r (.node (.reference r) cs) scope path).exec s = (.error err, t)) :
    (e.buildAll entry ds scope path).exec s = (.error err, t) := by
  obtain ⟨rest, rfl⟩ := List.head?_eq_some_iff.mp hfirst
  rw [buildAll, build_reference]
  exact Run.exec_bind_of_error (Run.exec_bind_of_error h _) _

/-- Where the references of a chain come first, a run goes straight down. It stops beneath as many
references as there were levels, and the path shows them all. -/
theorem exec_buildAll_chain (c : e.registry.Chain) (leads : c.Leads) (n i : Nat) (scope : Scope γ)
    (path : NodePath) (s : Session σ) :
    ∃ stop t,
      (e.buildAll (e.follow n) (c.form i).children scope path).exec s =
        (.error (.referenceDepthExceeded (c.ref (i + n)).target e.limit stop), t) ∧
      stop.entries = path.entries ++ c.labels i n := by
  -- on the levels: the session, the path and the place in the chain all move on with each of them
  induction n generalizing i scope path s with
  | zero =>
    refine ⟨path, s, exec_buildAll_of_first (leads i) ?_, by simp [Registry.Chain.labels]⟩
    rw [follow_exhausted (c.target i), Run.exec_stop, Nat.add_zero]
  | succ n ih =>
    obtain ⟨node, s', hemit⟩ := emit_succeeds scope .reference (c.form (i + 1)).key.id
      (.node (.reference (c.ref i)) (c.beneath i)) s
    -- beneath the node of the reference the next form is entered, with one level less
    let answer := e.binder.bindForm (some scope) (c.form (i + 1)) s'.state
    obtain ⟨stop, t, hdeeper, hentries⟩ := ih (i + 1)
      (.top (c.form (i + 1)) (answer.1.getD scope.context) node) (path.child (c.ref i).label)
      { s' with state := answer.2 }
    have hlast : i + 1 + n = i + (n + 1) := by omega
    rw [hlast] at hdeeper
    refine ⟨stop, t, exec_buildAll_of_first (leads i) ?_, ?_⟩
    · rw [follow_entered (c.target i), Run.exec_bind, hemit]
      dsimp only
      rw [Run.exec_bind, Run.exec_ask]
      dsimp only
      exact Run.exec_bind_of_error hdeeper _
    · rw [hentries, NodePath.entries_child, List.append_assoc]
      rfl

/-- The root form is bound when there is a source and the binder has an answer for the form. -/
theorem rootContext_of_bound {form : Form} {s : σ} (source : e.binder.hasSource = true)
    {context : γ} (bound : (e.binder.bindForm none form
      (e.binder.preBind form s).2).1 = some context) :
    (e.rootContext form s).1 = some context := by
  rw [rootContext, source]
  exact bound

/-- **An endless chain of references cannot be bound.** When each form of a chain refers to the next
one by a direct child, no run of the first form succeeds, whatever the binder answers, whatever the
limit and the builders are and whatever else stands in the forms. Where the references come first and
the root form is bound, the run stops at the reference beneath as many others as the limit admits: the
error names the form it leads to, and the path shows the root form and all references crossed. -/
theorem bind_chain_fails (e : Engine σ γ) (c : e.registry.Chain) {key : FormKey}
    (known : e.registry.get? key = some (c.form 0)) (s : σ) :
    (∀ tree, (e.bind key s).1 ≠ .ok tree) ∧
    (c.Leads → e.binder.hasSource = true →
      (e.binder.bindForm none (c.form 0)
        (e.binder.preBind (c.form 0) s).2).1 ≠ none →
      ∃ path, (e.bind key s).1 =
          .error (.referenceDepthExceeded (c.form (e.limit + 1)).key e.limit path) ∧
        path.entries = (c.form 0).label :: c.labels 0 e.limit ∧ path.length = e.limit + 1) := by
  have hends := bind_ends known s
  generalize (e.bind key s).1 = result at hends ⊢
  generalize (e.bind key s).2 = state at hends
  constructor
  · rintro tree rfl
    cases hends with
    | finished h hbody => exact buildAll_chain_fails c e.limit 0 _ _ _ _ _ hbody
  · intro leads source hbound
    obtain ⟨context, bound⟩ := Option.ne_none_iff_exists'.mp hbound
    have hroot := rootContext_of_bound (e := e) source bound
    obtain ⟨path, t, hstop, hentries⟩ := exec_buildAll_chain c leads e.limit 0
      (.top (c.form 0) context OutputTree.root) (.single (c.form 0).label)
      ⟨(e.rootContext (c.form 0) s).2, start (c.form 0)⟩
    -- a reference leads to the form that is registered under its target, so the target is the key
    -- of that form
    have hkey : (c.ref (0 + e.limit)).target = (c.form (e.limit + 1)).key := by
      rw [Nat.zero_add]
      exact (Registry.key_of_get? (c.target e.limit)).symm
    rw [hkey] at hstop
    refine ⟨path, ?_, hentries, ?_⟩
    · cases hends with
      | absent h =>
        rw [hroot] at h
        cases h
      | stopped h hbody =>
        rw [hroot] at h
        cases h
        rw [body, hstop] at hbody
        cases hbody
        rfl
      | finished h hbody =>
        rw [hroot] at h
        cases h
        rw [body, hstop] at hbody
        cases hbody
    · have hlength : path.entries.length = path.length := List.length_reverse
      rw [← hlength, hentries]
      simp [NodePath.single, Registry.Chain.labels]

end Engine

/-! ## An example -/

namespace Sample

def loopKey : FormKey := ⟨"", "loop"⟩

def loopReference : Reference := ⟨loopKey, .empty⟩

/-- A form that refers to itself before anything else. -/
def loop : Form := ⟨⟨loopKey, "samples", .empty⟩, [.leaf (.reference loopReference)]⟩

def loops : Registry := ⟨[loop]⟩

/-- The form that refers to itself makes up a chain by itself. -/
def loopChain : loops.Chain where
  form _ := loop
  ref _ := loopReference
  beneath _ := []
  child _ := List.mem_singleton.mpr rfl
  target _ := rfl

end Sample

namespace Engine

/-- A form that refers to itself, with three levels: the fourth crossing is refused. -/
theorem bind_chain_fails_loop :
    (equipped Sample.loops 3 [.inline] Sample.binder).registry.get? Sample.loopKey =
      some (Sample.loopChain.form 0) ∧
    Sample.loopChain.Leads ∧
    (∀ tree, ((equipped Sample.loops 3 [.inline] Sample.binder).bind Sample.loopKey ()).1 ≠
      .ok tree) ∧
    ∃ path, ((equipped Sample.loops 3 [.inline] Sample.binder).bind Sample.loopKey ()).1 =
        .error (.referenceDepthExceeded Sample.loopKey 3 path) ∧
      path.entries = ["{samples}form[@:loop]", "form-ref[@:loop]", "form-ref[@:loop]",
        "form-ref[@:loop]"] ∧ path.length = 4 := by
  have known : (equipped Sample.loops 3 [.inline] Sample.binder).registry.get? Sample.loopKey =
      some (Sample.loopChain.form 0) := rfl
  have leads : Sample.loopChain.Leads := fun _ => rfl
  obtain ⟨hnever, hexact⟩ := bind_chain_fails (equipped Sample.loops 3 [.inline] Sample.binder)
    Sample.loopChain known ()
  have bound : (Sample.binder.bindForm none Sample.loop ()).1 ≠ none := by
    have hsome : (Sample.binder.bindForm none Sample.loop ()).1 = some "loop" := by cbv
    rw [hsome]
    exact Option.some_ne_none _
  obtain ⟨path, hpath, hentries, hlength⟩ := hexact leads rfl bound
  refine ⟨known, leads, hnever, path, hpath, ?_, hlength⟩
  rw [hentries]
  cbv

end Engine

end FormSchema
