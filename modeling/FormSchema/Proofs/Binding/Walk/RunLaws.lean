import FormSchema.Binding.Session

/-!
# Laws of runs

A run is a sequence of steps in a session, any of which may stop it. This module opens the
sequencing of runs once, so that what is proved of a run is put together from what is proved of
its parts.

A run carries three things along: the state of the binder, the tree built so far, and the error with
which it may have stopped. The elementary runs each touch one of them, and their equations are
tagged for simplification, so that a run without branches is computed by rewriting.

* **`Run.exec_bind`**, **`Run.exec_bind_eq_ok_iff`** — a sequence in a session, and the session
  between the parts of a sequence that succeeds.
-/

namespace FormSchema

/-- An outcome of which something is known is a success. -/
theorem exists_ok_of_toOption {ε α β : Type} {x : Except ε α} {f : α → β} {b : β}
    (h : x.toOption.map f = some b) : ∃ a, x = .ok a ∧ f a = b := by
  cases x with
  | error err => cases h
  | ok a => exact ⟨a, rfl, Option.some.inj h⟩

namespace Run

variable {σ α β : Type}

/-! ## Sequencing -/

/-- What a run comes to in a session: its result, or the error it stops with, and the session as it
is left. It is the run itself, as a function. Written as a name, it is what the equations below
rewrite, and the layers of the monad stay closed. -/
def exec (m : Run σ α) (s : Session σ) : Except RunError α × Session σ := m s

@[simp] theorem exec_pure (a : α) (s : Session σ) : (pure a : Run σ α).exec s = (.ok a, s) := rfl

/-- A sequence of runs: the second part starts where the first one ended, unless that stopped. All
that is proved of runs that may fail goes through this equation and the two that follow from it. -/
theorem exec_bind (m : Run σ α) (f : α → Run σ β) (s : Session σ) :
    (m >>= f).exec s = match m.exec s with
      | (.ok a, t) => (f a).exec t
      | (.error err, t) => (.error err, t) := by
  show (match m s with | (a, t) => ExceptT.bindCont f a t) = _
  rw [exec]
  rcases m s with ⟨_ | a, t⟩ <;> rfl

/-- A first part that stops is all there is. -/
theorem exec_bind_of_error {m : Run σ α} {s t : Session σ} {err : RunError}
    (h : m.exec s = (.error err, t)) (f : α → Run σ β) :
    (m >>= f).exec s = (.error err, t) := by
  rw [exec_bind, h]

/-- **The session in between.** A sequence succeeds exactly when its parts do, one after the
other. -/
theorem exec_bind_eq_ok_iff {m : Run σ α} {f : α → Run σ β} {s s' : Session σ} {b : β} :
    (m >>= f).exec s = (.ok b, s') ↔
      ∃ a t, m.exec s = (.ok a, t) ∧ (f a).exec t = (.ok b, s') := by
  rw [exec_bind]
  rcases m.exec s with ⟨err | a, t⟩
  · simp
  · constructor
    · intro h
      exact ⟨a, t, rfl, h⟩
    · rintro ⟨a', t', heq, h⟩
      cases heq
      exact h

/-- Loops are equal when they do the same for every item. -/
theorem forM_congr {ι : Type} {f g : ι → Run σ Unit} {xs : List ι} (h : ∀ x ∈ xs, f x = g x) :
    xs.forM f = xs.forM g := by
  induction xs with
  | nil => rfl
  | cons x xs ih =>
    have hxs := ih fun y hy => h y (List.mem_cons_of_mem x hy)
    rw [List.forM_eq_forM, List.forM_cons, List.forM_cons, h x List.mem_cons_self]
    exact bind_congr fun _ => hxs

@[simp] theorem exec_ask (action : StateM σ α) (s : Session σ) :
    (Run.ask action).exec s =
      (.ok (action s.state).1, { s with state := (action s.state).2 }) := rfl

@[simp] theorem exec_edit (f : OutputTree → OutputTree) (s : Session σ) :
    (Run.edit f : Run σ Unit).exec s = (.ok (), { s with output := f s.output }) := rfl

@[simp] theorem exec_attach (parent : NodeId) (kind : NodeKind) (name : String) (s : Session σ) :
    (Run.attach parent kind name : Run σ NodeId).exec s =
      (.ok (s.output.attach parent kind name).2,
        { s with output := (s.output.attach parent kind name).1 }) := rfl

@[simp] theorem exec_stop (err : RunError) (s : Session σ) :
    (Run.stop err : Run σ α).exec s = (.error err, s) := rfl

/-- Two questions in a row are asked one after the other: asking the binder is itself a way to put
runs together. -/
theorem ask_bind (x : StateM σ α) (f : α → StateM σ β) :
    Run.ask (x >>= f) = Run.ask x >>= fun a => Run.ask (f a) := rfl

/-- A count that passes does not stop the run. -/
theorem check_of_none {c : Cardinality} {n : Nat} (h : c.check n = none) (kind : DefinitionKind)
    (label : String) (path : NodePath) : (Run.check c n kind label path : Run σ Unit) = pure () := by
  rw [Run.check, h]

/-- A count that breaks its cardinality stops the run. -/
theorem check_of_some {c : Cardinality} {n : Nat} {v : Violation} (h : c.check n = some v)
    (kind : DefinitionKind) (label : String) (path : NodePath) :
    (Run.check c n kind label path : Run σ Unit) =
      Run.stop (.binding ⟨.count v kind, path, some label⟩) := by
  rw [Run.check, h]

end Run

end FormSchema
