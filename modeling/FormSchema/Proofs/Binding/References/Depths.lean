import FormSchema.Proofs.Binding.Paths.PlacedRuns
import FormSchema.Proofs.Registry.References

/-!
# Depth of definitions and of output

How deep the definitions of the registered forms are, and what that says of the output. Nodes are
attached at positions, and a position is reached by going down the definitions of one form after the
other, with one level less for each reference that is entered.

Both measures of this library are read off the same recursion. With every head counted as one it
gives how deep a definition is, which bounds how far down a position can be. With references counted
as one and everything else as nothing it gives how often references are nested, which another module
compares with the limit.

* `Definition.deepest` — the greatest weight of a chain of definitions inside one another.
* **`Task.Stands.length_line`** — how far down a position can be.
-/

namespace FormSchema

variable {σ γ : Type}

/-! ## Chains of definitions -/

namespace Definition

mutual

/-- The greatest weight of a chain of definitions, from a definition down to a leaf, when a head counts
as `w` says. -/
def deepest (w : Head → Nat) : Definition → Nat
  | .node h cs => w h + deepestAmong w cs

/-- The greatest weight of a chain from one of several definitions. -/
def deepestAmong (w : Head → Nat) : List Definition → Nat
  | [] => 0
  | d :: ds => max (d.deepest w) (deepestAmong w ds)

end

/-- The greatest number of definitions on a chain from a definition down to a leaf. -/
def height (d : Definition) : Nat := d.deepest fun _ => 1

variable {w : Head → Nat} {d c : Definition} {ds : List Definition}

theorem deepest_le_deepestAmong (h : d ∈ ds) : d.deepest w ≤ deepestAmong w ds := by
  induction ds with
  | nil => cases h
  | cons c ds ih =>
    rw [deepestAmong]
    rcases List.mem_cons.mp h with rfl | hds
    · exact Nat.le_max_left _ _
    · exact Nat.le_trans (ih hds) (Nat.le_max_right _ _)

theorem deepest_child (h : c ∈ d.children) : w d.head + c.deepest w ≤ d.deepest w := by
  obtain ⟨head, cs⟩ := d
  rw [deepest]
  exact Nat.add_le_add_left (deepest_le_deepestAmong h) _

/-- A definition is deeper than each of its children. -/
theorem height_child (h : c ∈ d.children) : c.height + 1 ≤ d.height := by
  rw [Nat.add_comm]
  exact deepest_child (w := fun _ => 1) h

/-- The definition alone is a chain of its own. -/
theorem weight_le_deepest (d : Definition) : w d.head ≤ d.deepest w := by
  obtain ⟨head, cs⟩ := d
  rw [deepest]
  exact Nat.le_add_right _ _

theorem one_le_height (d : Definition) : 1 ≤ d.height := weight_le_deepest (w := fun _ => 1) d

end Definition

namespace Registry

/-- The greatest weight of a chain of definitions within one of the registered forms. -/
def deepest (w : Head → Nat) (r : Registry) : Nat :=
  Definition.deepestAmong w (r.forms.flatMap Form.children)

/-- The greatest number of definitions on a chain from a child of a registered form down to a leaf. -/
def height (r : Registry) : Nat := r.deepest fun _ => 1

theorem deepest_child {w : Head → Nat} {r : Registry} {form : Form} {d : Definition}
    (hform : form ∈ r.forms) (hd : d ∈ form.children) : d.deepest w ≤ r.deepest w :=
  Definition.deepest_le_deepestAmong (List.mem_flatMap.mpr ⟨form, hform, hd⟩)

end Registry

/-! ## Depth of positions -/

namespace Task

variable {k : Task σ γ} {m : Moment γ} {n : Nat} {d : Definition} {scope : Scope γ}
  {path : NodePath} {id : NodeId}

/-- **How far down a position is.** The way down to a position has at most one node for every
definition on the way, and every level that is left admits one more chain of definitions. The
induction is on how the position is reached. In each step the bound pays for one more node with one
definition less beneath, and an entered reference pays with a level for a whole form. -/
theorem Stands.length_line (hroot : k.root ∈ k.registry.forms) (h : k.Stands m n d scope path) :
    (m.tree.line scope.parent).length + d.height + n * k.registry.height ≤
      (k.limit + 1) * k.registry.height + 1 := by
  induction h with
  | @top context c rooted bound child =>
    have hheight : c.height ≤ k.registry.height := Registry.deepest_child hroot child
    rw [Scope.top_parent, rooted.line, List.length_singleton, Nat.succ_mul]
    omega
  | within above shown child ih =>
    have hheight := Definition.height_child child
    rw [Scope.descend_parent, shown.attached.length_line]
    omega
  | @grouped n g cs c scope path id above attached child ih =>
    have hheight : c.height + 1 ≤ (Definition.node (.choice g) cs).height :=
      Definition.height_child child
    rw [Scope.withParent_parent, attached.length_line]
    omega
  | @wrapped n x cs c scope path above child ih =>
    have hheight : c.height + 1 ≤ (Definition.node (.extension x) cs).height :=
      Definition.height_child child
    omega
  | @entered n r cs target c scope path id context above attached known bound child ih =>
    -- the reference itself counts, and its level pays for the definitions of its target
    have hheight : c.height ≤ k.registry.height :=
      Registry.deepest_child (Registry.mem_forms_of_get? known) child
    have hreference := (Definition.node (.reference r) cs).one_le_height
    rw [Nat.succ_mul] at ih
    rw [Scope.top_parent, attached.length_line]
    omega
  | @trailing n r cs c scope path id above attached child ih =>
    have hheight : c.height + 1 ≤ (Definition.node (.reference r) cs).height :=
      Definition.height_child child
    rw [Scope.withParent_parent, attached.length_line]
    omega

/-- A node has no more nodes above it than definitions can stand inside one another. -/
theorem Placed.length_ancestors (hroot : k.root ∈ k.registry.forms) (h : k.Placed m id) :
    (m.tree.ancestors id).length ≤ (k.limit + 1) * k.registry.height := by
  obtain ⟨n, d, scope, path, hstands, hattached, -⟩ := h
  have hline := hstands.length_line hroot
  have hone := d.one_le_height
  rw [OutputTree.ancestors, hattached.line, List.dropLast_concat]
  omega

end Task

end FormSchema
