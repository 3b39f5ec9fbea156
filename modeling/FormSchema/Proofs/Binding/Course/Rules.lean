import FormSchema.Proofs.Binding.Course.Positions

/-!
# The course of a run

A run without builders does two things: it asks the binder, and it emits nodes. Its course is the list
of both, in their order. Which courses there are is laid down by rules, one for every kind of definition
and every way in which binding it may end, so that a property of all runs can be shown by going through
the rules.

The rules say what happens without saying why: that a group takes a certain winner, or that a
definition fails, is recorded by a rule as it is, together with what had been asked by then. So the
rules are few, a course determines the output and the calls of the binder, and an induction over
courses needs no case for what never happens.

* `Event` — a question or a new node.
* `Definition.Asks`, `Definition.AskedIn` — what may be asked for a definition.
* `Winner.shown?` — the instances that a winner stands for.
* `Task.Course` — the courses of definitions, instances and winners.
-/

namespace FormSchema

variable {σ γ : Type}

/-! ## Events -/

/-- One thing that happens in a run. Nodes are told with all that they show, but without their
children, which are told by later events. -/
inductive Event (γ : Type) where
  -- the binder is asked, and has answered
  | asked (x : Exchange γ)
  -- a node is emitted
  | emitted (node : OutputNode)

namespace Event

def exchange? : Event γ → Option (Exchange γ)
  | .asked x => some x
  | .emitted _ => none

def node? : Event γ → Option OutputNode
  | .asked _ => none
  | .emitted node => some node

/-- The questions among events. -/
def calls (xs : List (Event γ)) : List (Exchange γ) := xs.filterMap exchange?

/-- The nodes among events. -/
def nodes (xs : List (Event γ)) : List OutputNode := xs.filterMap node?

variable {xs ys : List (Event γ)} {x : Exchange γ} {node : OutputNode}

@[simp] theorem calls_nil : calls ([] : List (Event γ)) = [] := rfl

@[simp] theorem nodes_nil : nodes ([] : List (Event γ)) = [] := rfl

@[simp] theorem calls_asked : calls (.asked x :: xs) = x :: calls xs := rfl

@[simp] theorem nodes_asked : nodes (.asked x :: xs) = nodes xs := rfl

@[simp] theorem calls_emitted : calls (.emitted node :: xs) = calls xs := rfl

@[simp] theorem nodes_emitted : nodes (.emitted node :: xs : List (Event γ)) = node :: nodes xs :=
  rfl

@[simp] theorem calls_append : calls (xs ++ ys) = calls xs ++ calls ys := List.filterMap_append

@[simp] theorem nodes_append : nodes (xs ++ ys) = nodes xs ++ nodes ys := List.filterMap_append

@[simp] theorem calls_map_asked (asked : List (Exchange γ)) : calls (asked.map .asked) = asked := by
  induction asked with
  | nil => rfl
  | cons x xs ih => rw [List.map_cons, calls_asked, ih]

@[simp] theorem nodes_map_asked (asked : List (Exchange γ)) : nodes (asked.map .asked) = [] := by
  induction asked with
  | nil => rfl
  | cons x xs ih => rw [List.map_cons, nodes_asked, ih]

end Event

/-! ## Questions and answers -/

/-- The instances that were given in an exchange. -/
def Exchange.given : Exchange γ → List γ
  | .element _ _ found => found
  | .attribute _ _ found => found.toList
  | .started _ | .bound _ _ _ | .finished _ _ => []

/-- All instances that were given, in order. -/
def givenIn (record : List (Exchange γ)) : List γ := record.flatMap Exchange.given

theorem givenIn_append (xs ys : List (Exchange γ)) :
    givenIn (xs ++ ys) = givenIn xs ++ givenIn ys := List.flatMap_append

theorem givenIn_singleton (x : Exchange γ) : givenIn [x] = x.given := List.flatMap_singleton _ _

/-- The definitions that count as alternatives of a group. -/
def Definition.isAlternative (d : Definition) : Bool := d.kind = .element ∨ d.kind = .choice

/-- What may be asked for a definition at a place. For a group that is what may be asked for its
alternatives, and all of it at the place of the group. For an extension point there is nothing to be
asked, since nobody binds what it wraps when there are no builders. -/
inductive Definition.Asks (r : Registry) (place : Scope γ) : Definition → Exchange γ → Prop where
  | attributes {i : Item} {cs : List Definition} (found : Option γ) :
      Asks r place (.node (.attribute i) cs) (.attribute place ⟨i, cs⟩ found)
  | elements {i : Item} {cs : List Definition} (found : List γ) :
      Asks r place (.node (.element i) cs) (.element place ⟨i, cs⟩ found)
  | reference {ref : Reference} {cs : List Definition} {target : Form}
      (known : r.get? ref.target = some target) (answer : Option γ) :
      Asks r place (.node (.reference ref) cs) (.bound (some place) target answer)
  | alternative {g : Choice} {cs : List Definition} {d : Definition} {x : Exchange γ}
      (child : d ∈ cs) (alternative : d.isAlternative = true) (asks : Asks r place d x) :
      Asks r place (.node (.choice g) cs) x

/-- All that is asked for a definition is asked at one place, for the alternatives of a group as
well. -/
theorem Definition.Asks.place? {r : Registry} {place : Scope γ} {d : Definition} {x : Exchange γ}
    (h : d.Asks r place x) : x.place? = some place := by
  induction h with
  | attributes found => rfl
  | elements found => rfl
  | reference known answer => rfl
  | alternative _ _ _ ih => exact ih

/-- What was asked for one definition at a place: nothing more than once, but for the alternatives of a
group. -/
structure Definition.AskedIn (r : Registry) (place : Scope γ) (d : Definition)
    (xs : List (Exchange γ)) : Prop where
  asks : ∀ x ∈ xs, d.Asks r place x
  once : d.kind ≠ .choice → xs.length ≤ 1

/-- A single question for a definition is all that was asked for it. -/
theorem Definition.AskedIn.single {r : Registry} {place : Scope γ} {d : Definition} {x : Exchange γ}
    (h : d.Asks r place x) : d.AskedIn r place [x] where
  asks y hy := by
    rw [List.mem_singleton.mp hy]
    exact h
  once _ := Nat.le_refl 1

/-- The instances that a winner stands for. Where a group within it is in conflict there are none
to speak of. A group that wins stands for the instances of its own winner, however deep that is. -/
def Winner.shown? : Winner γ → Option (List γ)
  | .instances found => some found
  | .group (.active _ winner) => winner.shown?
  | .group .absent | .group (.conflict _) => none

/-! ## Courses -/

/-- A node is emitted for a definition at the position of a scope. Attributes whose names are distinct
are those of the definition, and only the nodes of instances have a text. -/
structure OutputNode.EmittedFor (node : OutputNode) (d : Definition) (scope : Scope γ) : Prop where
  kind : node.kind = d.kind.nodeKind
  parent : node.parent = some scope.parent
  origin : node.origin = some ⟨scope.form, .definition d⟩
  name : node.name = d.nodeName
  attributes : d.head.attributes.names.Nodup → node.attributes = d.head.attributes.entries
  silent : ¬ (d.kind = .element ∨ d.kind = .attribute) → node.value = none

namespace Task

/-- What may happen when a job is done at a position: `n` levels are left for references, the next
node to be emitted is `z`, and `before` is what the binder was asked so far. A course comes to an
end with the job done, or with an error. The number of the next node and the record so far are part
of it because what the binder says of an instance depends on the record, and the scope beneath a
node names that node. -/
inductive Course (k : Task σ γ) : Nat → Job γ → Scope γ → NodePath → NodeId → List (Exchange γ) →
    List (Event γ) → Option RunError → Prop where
  /- Definitions one after the other. -/
  | nil {n : Nat} {scope : Scope γ} {path : NodePath} {z : NodeId} {before : List (Exchange γ)} :
      Course k n (.all []) scope path z before [] none
  | cons {n : Nat} {d : Definition} {ds : List Definition} {scope : Scope γ} {path : NodePath}
      {z : NodeId} {before : List (Exchange γ)} {xs ys : List (Event γ)} {fin : Option RunError}
      (first : Course k n (.one d) scope path z before xs none)
      (rest : Course k n (.all ds) scope path (z + (Event.nodes xs).length) (before ++ Event.calls xs)
        ys fin) :
      Course k n (.all (d :: ds)) scope path z before (xs ++ ys) fin
  | halt {n : Nat} {d : Definition} {ds : List Definition} {scope : Scope γ} {path : NodePath}
      {z : NodeId} {before : List (Exchange γ)} {xs : List (Event γ)} {err : RunError}
      (first : Course k n (.one d) scope path z before xs (some err)) :
      Course k n (.all (d :: ds)) scope path z before xs (some err)
  /- One definition. -/
  | attributes {n : Nat} {i : Item} {cs : List Definition} {scope : Scope γ} {path : NodePath}
      {z : NodeId} {before : List (Exchange γ)} {found : Option γ} {xs : List (Event γ)}
      {fin : Option RunError}
      (instances : Course k n (.shown (.node (.attribute i) cs) found.toList) scope path z
        (before ++ [.attribute scope ⟨i, cs⟩ found]) xs fin) :
      Course k n (.one (.node (.attribute i) cs)) scope path z before
        (.asked (.attribute scope ⟨i, cs⟩ found) :: xs) fin
  | elements {n : Nat} {i : Item} {cs : List Definition} {scope : Scope γ} {path : NodePath}
      {z : NodeId} {before : List (Exchange γ)} {found : List γ} {xs : List (Event γ)}
      {fin : Option RunError}
      (instances : Course k n (.shown (.node (.element i) cs) found) scope path z
        (before ++ [.element scope ⟨i, cs⟩ found]) xs fin) :
      Course k n (.one (.node (.element i) cs)) scope path z before
        (.asked (.element scope ⟨i, cs⟩ found) :: xs) fin
  | absent {n : Nat} {g : Choice} {cs : List Definition} {scope : Scope γ} {path : NodePath}
      {z : NodeId} {before : List (Exchange γ)} {asked : List (Exchange γ)}
      (asks : ∀ x ∈ asked, (Definition.node (.choice g) cs).Asks k.registry scope x)
      (nothing : givenIn asked = []) :
      Course k n (.one (.node (.choice g) cs)) scope path z before (asked.map .asked) none
  | group {n : Nat} {g : Choice} {cs : List Definition} {scope : Scope γ} {path : NodePath}
      {z : NodeId} {before : List (Exchange γ)} {asked : List (Exchange γ)} {index : Nat}
      {winner : Winner γ} {xs : List (Event γ)} {fin : Option RunError}
      (asks : ∀ x ∈ asked, (Definition.node (.choice g) cs).Asks k.registry scope x)
      (given : ∀ found, winner.shown? = some found → givenIn asked = found)
      (emission : Course k n (.won (.node (.choice g) cs) (.group (.active index winner))) scope path
        z (before ++ asked) xs fin) :
      Course k n (.one (.node (.choice g) cs)) scope path z before (asked.map .asked ++ xs) fin
  | reference {n : Nat} {ref : Reference} {cs : List Definition} {target : Form} {scope : Scope γ}
      {path : NodePath} {z : NodeId} {before : List (Exchange γ)} {node : OutputNode}
      {answer : Option γ} {xs : List (Event γ)} {fin : Option RunError}
      (known : k.registry.get? ref.target = some target)
      (emitted : node.EmittedFor (.node (.reference ref) cs) scope)
      (inside : Course k n (.all target.children) (.top target (answer.getD scope.context) z)
        (path.child ref.label) (z + 1)
        (before ++ [.bound (some scope) target answer]) xs fin) :
      Course k (n + 1) (.one (.node (.reference ref) cs)) scope path z before
        (.emitted node :: .asked (.bound (some scope) target answer) :: xs) fin
  | extension {n : Nat} {x : Extension} {cs : List Definition} {scope : Scope γ} {path : NodePath}
      {z : NodeId} {before : List (Exchange γ)} :
      Course k n (.one (.node (.extension x) cs)) scope path z before [] none
  | fault {n : Nat} {d : Definition} {scope : Scope γ} {path : NodePath} {z : NodeId}
      {before : List (Exchange γ)} {asked : List (Exchange γ)} {err : RunError}
      (asks : d.AskedIn k.registry scope asked) (fails : k.FailsAt n d path err) :
      Course k n (.one d) scope path z before (asked.map .asked) (some err)
  /- Instances, each of them with all that is beneath its node. Its text and its entry are what the binder
  says before anything is asked beneath it. -/
  | shownNil {n : Nat} {d : Definition} {scope : Scope γ} {path : NodePath} {z : NodeId}
      {before : List (Exchange γ)} :
      Course k n (.shown d []) scope path z before [] none
  | shownCons {n : Nat} {d : Definition} {found : γ} {rest : List γ} {scope : Scope γ}
      {path : NodePath} {z : NodeId} {before : List (Exchange γ)} {node : OutputNode}
      {xs ys : List (Event γ)} {fin : Option RunError} (emitted : node.EmittedFor d scope)
      (value : node.value = k.binder.value (k.binder.replay k.state before) found)
      (inside : Course k n (.all d.children) (scope.descend found z)
        (path.child ((k.binder.describe (k.binder.replay k.state before) found).getD d.label)) (z + 1)
        before xs none)
      (others : Course k n (.shown d rest) scope path (z + 1 + (Event.nodes xs).length)
        (before ++ Event.calls xs) ys fin) :
      Course k n (.shown d (found :: rest)) scope path z before (.emitted node :: xs ++ ys) fin
  | shownHalt {n : Nat} {d : Definition} {found : γ} {rest : List γ} {scope : Scope γ}
      {path : NodePath} {z : NodeId} {before : List (Exchange γ)} {node : OutputNode}
      {xs : List (Event γ)} {err : RunError} (emitted : node.EmittedFor d scope)
      (value : node.value = k.binder.value (k.binder.replay k.state before) found)
      (inside : Course k n (.all d.children) (scope.descend found z)
        (path.child ((k.binder.describe (k.binder.replay k.state before) found).getD d.label)) (z + 1)
        before xs (some err)) :
      Course k n (.shown d (found :: rest)) scope path z before (.emitted node :: xs) (some err)
  /- Winners. The count of a winner is judged before the node of its group is emitted. -/
  | wonElement {n : Nat} {i : Item} {cs : List Definition} {found : List γ} {scope : Scope γ}
      {path : NodePath} {z : NodeId} {before : List (Exchange γ)} {xs : List (Event γ)}
      {fin : Option RunError}
      (instances : Course k n (.shown (.node (.element i) cs) found) scope path z before xs fin) :
      Course k n (.won (.node (.element i) cs) (.instances found)) scope path z before xs fin
  | wonGroup {n : Nat} {g : Choice} {cs : List Definition} {index : Nat} {d : Definition}
      {winner : Winner γ} {scope : Scope γ} {path : NodePath} {z : NodeId}
      {before : List (Exchange γ)} {node : OutputNode} {xs : List (Event γ)} {fin : Option RunError}
      (alternative : cs[index]? = some d)
      (emitted : node.EmittedFor (.node (.choice g) cs) scope)
      (inside : Course k n (.won d winner) (scope.withParent z) (path.child g.label) (z + 1) before xs
        fin) :
      Course k n (.won (.node (.choice g) cs) (.group (.active index winner))) scope path z before
        (.emitted node :: xs) fin
  | wonFault {n : Nat} {g : Choice} {cs : List Definition} {winner : Winner γ} {scope : Scope γ}
      {path : NodePath} {z : NodeId} {before : List (Exchange γ)} {err : RunError}
      (fails : k.FailsAt n (.node (.choice g) cs) path err) :
      Course k n (.won (.node (.choice g) cs) winner) scope path z before [] (some err)

end Task

end FormSchema
