import FormSchema.Registry.Basic

/-!
# Reference cycles

One form leads to another when it holds a reference to it. The forms of a registry that lead to each
other make up a cycle, and so does a form that refers to itself.

Cycles are the strongly connected components of a graph that has the keys for nodes and an edge for every
reference whose target is registered. How they are told from other components, and in which order they are
reported, is a matter of its own: `Registry.cyclesAmong` does it for any list of components. `Registry.cycles`
finds the same without a list of components. `Registry.after` collects what a form leads to in one or more
steps, and a cycle is reported where its least key stands.

* `Registry.edges` — the graph of references.
* `Registry.cyclesAmong` — the cycles among given components, each with its keys in order, and in order.
* `Registry.cycles` — the cycles, found from what every form leads to.
-/

namespace FormSchema

namespace Registry

/-! ## Cycles among components -/

/-- One edge for every reference to a registered form, from the form that holds it to its target. -/
def edges (r : Registry) : List (FormKey × FormKey) :=
  r.forms.flatMap fun f =>
    (f.references.filter fun ref => r.contains ref.target).map fun ref => (f.key, ref.target)

/-- Lists of keys come one before another as their first different keys do, and a list before those that
go on from it. -/
def listBefore : List FormKey → List FormKey → Bool
  | [], [] => false
  | [], _ :: _ => true
  | _ :: _, [] => false
  | a :: as, b :: bs => a.before b || (decide (a = b) && listBefore as bs)

/-- A component of several keys is a cycle, and is reported in key order. A component of one key is a cycle
when there is an edge from the key to itself. -/
def cycleOf (r : Registry) (component : List FormKey) : Option (List FormKey) :=
  if 1 < component.length then some (component.mergeSort fun a b => !b.before a)
  else
    match component.head? with
    | none => none
    | some k => if (k, k) ∈ r.edges then some [k] else none

/-- The cycles among the components of a graph, in order. -/
def cyclesAmong (r : Registry) (components : List (List FormKey)) : List (List FormKey) :=
  (components.filterMap r.cycleOf).mergeSort fun a b => !listBefore b a

/-! ## Cycles by what forms lead to -/

/-- The registered targets of a form's references. -/
def targets (r : Registry) (key : FormKey) : List FormKey :=
  match r.get? key with
  | none => []
  | some f => (f.references.map Reference.target).filter r.contains

/-- Seeing one more key leaves fewer unseen. -/
theorem length_unseen_cons_lt {within seen : List FormKey} {k : FormKey} (hw : k ∈ within)
    (hs : k ∉ seen) :
    (within.filter fun x => x ∉ k :: seen).length < (within.filter fun x => x ∉ seen).length := by
  have split : (within.filter fun x => decide (x ∉ k :: seen)) =
      (within.filter fun x => decide (x ∉ seen)).filter fun x => decide (x ≠ k) := by
    simp [List.filter_filter, List.mem_cons, not_or]
  rw [split]
  exact List.length_filter_lt_length_iff_exists.2 ⟨k, by simp [hw, hs], by simp⟩

/-- Adds to `seen` every key that can be reached from `todo`, looking only at keys of `within`. -/
def explore (next : FormKey → List FormKey) (within : List FormKey) (seen : List FormKey) :
    List FormKey → List FormKey
  | [] => seen
  | k :: todo =>
    if _h : k ∈ within ∧ k ∉ seen then explore next within (k :: seen) (next k ++ todo)
    else explore next within seen todo
termination_by todo => ((within.filter fun x => x ∉ seen).length, todo.length)
decreasing_by
  · exact Prod.Lex.left _ _ (length_unseen_cons_lt _h.1 _h.2)
  · exact Prod.Lex.right _ (Nat.lt_succ_self _)

def after (r : Registry) (key : FormKey) : List FormKey :=
  explore r.targets r.keys [] (r.targets key)

def reachability (r : Registry) : List (FormKey × List FormKey) :=
  r.keys.map fun k => (k, r.after k)

/-- The cycle a key lies on: the keys it leads to that lead back to it. -/
def cycleAt (table : List (FormKey × List FormKey)) (key : FormKey) : List FormKey :=
  (table.filter fun (m, reached) =>
    decide (key ∈ reached) && decide (m ∈ (table.lookup key).getD [])).map Prod.fst

/-- The cycles of references between forms. A cycle is reported at its least key. -/
def cycles (r : Registry) : List (List FormKey) :=
  let table := r.reachability
  r.keys.filterMap fun k =>
    let members := cycleAt table k
    if members.head? = some k then some members else none

end Registry

end FormSchema
