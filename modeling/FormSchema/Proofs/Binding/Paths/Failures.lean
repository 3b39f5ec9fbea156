import FormSchema.Proofs.Binding.Groups.Questions

/-!
# How a run fails

A run stops at the first fault, and its error names neither a node nor a question. Both can be recovered from
what the run has built and asked by then. The definition that fails stands at a position; the node of the
position is still *open*, that is, nothing has been emitted since that does not lie beneath it. The binder was
asked last for this very definition, and its answer is at fault: the number of instances that it gave breaks
the cardinality of the definition, or what it gave for the elements of a group leaves the group with a fault.
References are not asked for before they are followed. One that fails has no target in the registry, or no
level is left at its position.

For a group the whole answer counts, as an assignment. Which fault it leads to is a recursion down the only
active alternatives: a group without any is counted as none, several are a conflict, and a single one is
counted first and then judged itself, one entry further down the path.

* `OutputTree.Open` — all that was emitted since a node lies beneath it.
* `Assignment.Faults` — the faults of a group, given what was found for it.
* `Task.Fails`, **`Task.Blames`** — a definition fails at a moment, by the last answers of the record.
* **`Task.Fails.failsAt`** — it fails with an error of its own, at the path where it stands.
-/

namespace FormSchema

variable {σ γ : Type}

/-! ## Open nodes -/

namespace OutputTree

variable {t t' : OutputTree} {p id : NodeId} {form : Form} {d : Definition}

/-- Every node since `p` lies beneath it. So a run that goes on may still emit at `p`. It is the
last node, or the last node lies beneath it, which is how far a depth-first walk has come. -/
def Open (t : OutputTree) (p : NodeId) : Prop := ∀ id, p ≤ id → id < t.size → p ∈ t.line id

/-- The last node is open. Nothing has been emitted since. -/
theorem open_of_last (h : id + 1 = t.size) : t.Open id := by
  intro x hle hlt
  rw [← h] at hlt
  obtain rfl : id = x := Nat.le_antisymm hle (Nat.le_of_lt_succ hlt)
  exact t.mem_line_self id

/-- A node stays open when a node is attached to it. -/
theorem Open.attached (h : t.Open p) (he : t.Extends t') (hsize : t'.size = t.size + 1)
    (hnew : t'.Attached p form d t.size) : t'.Open p := by
  intro x hle hlt
  rcases Nat.lt_or_ge x t.size with hold | hge
  · rw [he.line hold]
    exact h x hle hold
  · rw [hsize] at hlt
    obtain rfl : x = t.size := Nat.le_antisymm (Nat.le_of_lt_succ hlt) hge
    rw [hnew.line]
    exact List.mem_append_left _ (t'.mem_line_self p)

/-- A node stays open while all that is emitted lies beneath a node that was last and lies beneath it. -/
theorem Open.outward (h : t.Open p) (hlast : id + 1 = t.size) (hp : p ∈ t.line id) (he : t.Extends t')
    (hid : t'.Open id) : t'.Open p := by
  have hold : id < t.size := hlast ▸ Nat.lt_succ_self id
  intro x hle hlt
  rcases Nat.lt_or_ge x t.size with hbefore | hsince
  · rw [he.line hbefore]
    exact h x hle hbefore
  · have hx : id ∈ t'.line x := hid x (Nat.le_of_lt (Nat.lt_of_lt_of_le hold hsince)) hlt
    refine (line_prefix_of_mem hx).subset ?_
    rw [he.line hold]
    exact hp

end OutputTree

/-! ## Faults of groups -/

/-- What is at fault with an alternative for which there was found what is assigned, and with which error it is
reported. The path is that of the node the alternative would have been attached to. -/
inductive Assignment.Faults : Assignment γ → Definition → NodePath → RunError → Prop where
  -- the number of instances breaks the cardinality of an element
  | instances {A : Assignment γ} {i : Item} {cs : List Definition} {path : NodePath} {v : Violation}
      (violated : i.cardinality.check A.here.length = some v) :
      Faults A (.node (.element i) cs) path (.binding ⟨.count v .element, path, some i.elementLabel⟩)
  -- no alternative is active, and the group must not be absent
  | absent {A : Assignment γ} {g : Choice} {cs : List Definition} {path : NodePath} {v : Violation}
      (none : A.actives cs = []) (violated : g.cardinality.check 0 = some v) :
      Faults A (.node (.choice g) cs) path (.binding ⟨.count v .choice, path, some g.label⟩)
  -- one alternative is active, and the group must not be there
  | single {A : Assignment γ} {g : Choice} {cs : List Definition} {path : NodePath} {v : Violation}
      {x : Definition × Nat} (one : A.actives cs = [x]) (violated : g.cardinality.check 1 = some v) :
      Faults A (.node (.choice g) cs) path (.binding ⟨.count v .choice, path, some g.label⟩)
  -- several alternatives are active, which is reported at the group itself
  | conflict {A : Assignment γ} {g : Choice} {cs : List Definition} {path : NodePath}
      (many : 2 ≤ (A.actives cs).length) :
      Faults A (.node (.choice g) cs) path (.binding ⟨.conflict, path.child g.label, some g.label⟩)
  -- the group may be there, and its only active alternative is at fault
  | winner {A : Assignment γ} {g : Choice} {cs : List Definition} {path : NodePath} {d : Definition}
      {k : Nat} {err : RunError} (one : A.actives cs = [(d, k)]) (passed : g.cardinality.check 1 = none)
      (inner : Faults (A.within k) d (path.child g.label) err) :
      Faults A (.node (.choice g) cs) path err

/-! ## Definitions that fail -/

namespace Task

variable (k : Task σ γ) (m : Moment γ)

/-- At a moment a definition fails at its position, `n` levels being left: what the binder was
asked last was asked for this definition there, and the answer is at fault. Nothing is asked for a
reference that fails. That the definition does stand at the position, and that the node of the
position is open, is said apart from this. -/
inductive Fails : Nat → Definition → Scope γ → NodePath → RunError → Prop where
  | attributes {n : Nat} {i : Item} {cs : List Definition} {scope : Scope γ} {path : NodePath}
      {before : List (Exchange γ)} {found : Option γ} {v : Violation}
      (asked : m.record = before ++ [.attribute scope ⟨i, cs⟩ found])
      (violated : i.cardinality.check found.toList.length = some v) :
      Fails n (.node (.attribute i) cs) scope path
        (.binding ⟨.count v .attribute, path, some i.attributeLabel⟩)
  | elements {n : Nat} {i : Item} {cs : List Definition} {scope : Scope γ} {path : NodePath}
      {before : List (Exchange γ)} {found : List γ} {v : Violation}
      (asked : m.record = before ++ [.element scope ⟨i, cs⟩ found])
      (violated : i.cardinality.check found.length = some v) :
      Fails n (.node (.element i) cs) scope path
        (.binding ⟨.count v .element, path, some i.elementLabel⟩)
  | group {n : Nat} {g : Choice} {cs : List Definition} {scope : Scope γ} {path : NodePath}
      {before : List (Exchange γ)} {A : Assignment γ} {err : RunError}
      (surveyed : A.Surveys (.node (.choice g) cs) scope before m.record)
      (faults : A.Faults (.node (.choice g) cs) path err) :
      Fails n (.node (.choice g) cs) scope path err
  | missing {n : Nat} {r : Reference} {cs : List Definition} {scope : Scope γ} {path : NodePath}
      (unknown : k.registry.get? r.target = none) :
      Fails n (.node (.reference r) cs) scope path (.definitionNotFound r.target path)
  | exceeded {r : Reference} {cs : List Definition} {target : Form} {scope : Scope γ} {path : NodePath}
      (known : k.registry.get? r.target = some target) :
      Fails 0 (.node (.reference r) cs) scope path (.referenceDepthExceeded r.target k.limit path)

/-- At a moment an error is that of a definition which stands at a position and fails there, while
the node of the position is open. Together this fixes the error: a label alone might be shared by
several definitions, and a path by several positions. -/
def Blames (err : RunError) : Prop :=
  ∃ n d scope path, k.Stands m n d scope path ∧ m.tree.Open scope.parent ∧ k.Fails m n d scope path err

variable {k m} {n : Nat} {d : Definition} {scope : Scope γ} {path : NodePath} {err : RunError}

/-- A fault of a group is an error of the group, or of the alternative that is to become its
winner. The nested errors come from the last of the groups on the way down, one entry further along
the path each time. -/
theorem failsAt_of_faults {A : Assignment γ} (h : A.Faults d path err) : k.FailsAt n d path err := by
  induction h with
  | instances violated => exact .count (Or.inr (Or.inl rfl))
  | absent none violated => exact .count (Or.inr (Or.inr rfl))
  | single one violated => exact .count (Or.inr (Or.inr rfl))
  | conflict many => exact .conflict
  | winner one passed inner ih =>
    have hchild := List.mem_of_getElem? (Assignment.getElem?_of_mem_actives (one ▸ List.mem_singleton.mpr rfl))
    refine .winner hchild ?_ ih
    cases inner with
    | instances => exact Or.inl rfl
    | absent | single | conflict | winner => exact Or.inr rfl

/-- **A definition fails with an error of its own**, at the path where it stands. -/
theorem Fails.failsAt (h : k.Fails m n d scope path err) : k.FailsAt n d path err := by
  cases h with
  | attributes asked violated => exact .count (Or.inl rfl)
  | elements asked violated => exact .count (Or.inr (Or.inl rfl))
  | group surveyed faults => exact failsAt_of_faults faults
  | missing unknown => exact .missing unknown
  | exceeded known => exact .exceeded known

end Task

end FormSchema
