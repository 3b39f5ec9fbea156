import FormSchema.Binding.Binder
import FormSchema.Binding.Error

/-!
# Outcomes of groups

A group of alternatives is resolved before anything is emitted for it. Resolution asks the binder
for the alternatives in turn and stops as soon as a second one turns out to be present. It can
change the binder's state and nothing else.
-/

namespace FormSchema

mutual

/-- What resolving a group has found. -/
inductive Outcome (γ : Type) where
  -- no alternative is present
  | absent
  -- exactly one is: the child of the group at `index`
  | active (index : Nat) (winner : Winner γ)
  -- more than one is
  | conflict (error : BindingError)

/-- The one alternative that is present. -/
inductive Winner (γ : Type) where
  -- an element, with its instances
  | instances (found : List γ)
  -- a nested group, with its own outcome
  | group (inner : Outcome γ)

end

variable {σ γ : Type}

/-- The error of a group with more than one alternative present, at the path of the group. -/
def conflictAt (label : String) (path : NodePath) : BindingError := ⟨.conflict, path, some label⟩

mutual

/-- Whether an alternative is present; `none` when it is not. Definitions that are neither
elements nor groups are no alternatives. The path is that of the group they stand in. -/
def Definition.candidate (b : Binder σ γ) (scope : Scope γ) :
    Definition → NodePath → StateM σ (Option (Winner γ))
  | .node (.element i) cs, _ => do
    let found ← b.bindElement scope ⟨i, cs⟩
    pure (if found.isEmpty then none else some (.instances found))
  | .node (.choice c) cs, path => do
    let outcome ← Definition.resolve b scope c.label cs 0 none (path.child c.label)
    match outcome with
    | .absent => pure none
    | o => pure (some (.group o))
  | .node (.attribute _) _, _ | .node (.reference _) _, _ | .node (.extension _) _, _ => pure none

/-- Resolves the alternatives of a group from the one at `index` on, `found` being what the earlier
ones have yielded. -/
def Definition.resolve (b : Binder σ γ) (scope : Scope γ) (label : String) :
    List Definition → Nat → Option (Nat × Winner γ) → NodePath → StateM σ (Outcome γ)
  | [], _, none, _ => pure .absent
  | [], _, some (i, w), _ => pure (.active i w)
  | d :: ds, index, found, path => do
    match ← d.candidate b scope path with
    | none => Definition.resolve b scope label ds (index + 1) found path
    | some w =>
      match found with
      | none => Definition.resolve b scope label ds (index + 1) (some (index, w)) path
      | some _ => pure (.conflict (conflictAt label path))

end

end FormSchema
