import FormSchema.Proofs.Binding.References.Depths
import Mathlib

/-!
# References inside one another

The limit of a run is spent on the forms that references lead to: a level is taken while the target of a
reference is bound, and given back before the extension points of the reference itself are. A reference
wrapped there still has its node beneath the first one, so the output may nest more references than the
limit says. How many more is settled by how references are nested within the definitions of a form.

* `OutputTree.crossings` — the reference nodes among a node and the nodes above it.
* `Registry.nesting` — how far references are nested within one registered form.
* **`Engine.bind_crossings_le`** — the reference nodes above one another are at most the limit times that
  nesting.
* **`Engine.bind_crossings_beyond_limit`** — they may be more than the limit.
-/

namespace FormSchema

variable {σ γ : Type}

/-! ## Counting references -/

/-- References count one, other heads nothing. -/
def Head.crossing : Head → Nat
  | .reference _ => 1
  | _ => 0

theorem Head.crossing_eq_zero {h : Head} (hkind : h.kind ≠ .reference) : h.crossing = 0 := by
  cases h with
  | reference r => exact absurd rfl hkind
  | _ => rfl

/-- The greatest number of references on a chain from a definition down to a leaf. -/
def Definition.nesting (d : Definition) : Nat := d.deepest Head.crossing

theorem Definition.nesting_child {d c : Definition} (h : c ∈ d.children) :
    d.head.crossing + c.nesting ≤ d.nesting :=
  Definition.deepest_child (w := Head.crossing) h

theorem Definition.nesting_node (head : Head) {cs : List Definition} {c : Definition} (h : c ∈ cs) :
    head.crossing + c.nesting ≤ (Definition.node head cs).nesting :=
  Definition.nesting_child (d := .node head cs) h

theorem Definition.crossing_le_nesting (d : Definition) : d.head.crossing ≤ d.nesting :=
  Definition.weight_le_deepest (w := Head.crossing) d

/-- The greatest number of references on a chain of definitions within a registered form. -/
def Registry.nesting (r : Registry) : Nat := r.deepest Head.crossing

namespace OutputTree

def isReference (t : OutputTree) (id : NodeId) : Bool :=
  (t.node? id).any fun n => n.kind = .reference

/-- The number of reference nodes among a node and the nodes above it. The node itself counts if it
is one. -/
def crossings (t : OutputTree) (id : NodeId) : Nat := (t.line id).countP t.isReference

variable {t : OutputTree} {p id : NodeId} {form : Form} {d : Definition}

/-- Whether a node is that of a reference is read off the kind with which it was emitted. -/
theorem isReference_of_emitted {kind : NodeKind} (h : t.Emitted kind form d id) :
    t.isReference id = decide (kind = .reference) := by
  obtain ⟨n, hn, hkind, -⟩ := h
  rw [isReference, hn, Option.any_some, hkind]

/-- Attaching the node of a reference adds one, attaching any other node adds nothing. -/
theorem Attached.crossings (h : t.Attached p form d id) :
    t.crossings id = t.crossings p + d.head.crossing := by
  rw [OutputTree.crossings, h.line, List.countP_append, List.countP_singleton,
    isReference_of_emitted h.emitted]
  obtain ⟨head, cs⟩ := d
  cases head <;> rfl

end OutputTree

/-! ## Positions -/

namespace Task

variable {k : Task σ γ} {m : Moment γ} {n : Nat} {d : Definition} {scope : Scope γ}
  {path : NodePath} {id : NodeId}

theorem Rooted.crossings (h : k.Rooted m) : m.tree.crossings OutputTree.root = 0 := by
  have hline := h.line
  obtain ⟨node, hnode, hkind, -⟩ := h
  rw [OutputTree.crossings, hline, List.countP_singleton, OutputTree.isReference, hnode,
    Option.any_some, hkind]
  rfl

/-- Instances belong to elements and attributes, and so they cross nothing. -/
theorem Shows.crossing {found : γ} {entry : String} (h : k.Shows m d scope found id entry) :
    d.head.crossing = 0 := by
  obtain ⟨known, p, node, -, -, hgave, -⟩ := h.said
  rcases hgave with _ | _
  · rfl
  · rfl

/-- The reference nodes above a position, together with those that may still come beneath it: as long
as a level is left, those of the definition itself, and those of one form for every other level. -/
theorem Stands.crossings_le (hroot : k.root ∈ k.registry.forms) (h : k.Stands m n d scope path) :
    m.tree.crossings scope.parent ≤ k.limit * k.registry.nesting ∧
    ∀ left, n = left + 1 → m.tree.crossings scope.parent + d.nesting + left * k.registry.nesting ≤
      k.limit * k.registry.nesting := by
  induction h with
  | @top context c rooted bound child =>
    have hnesting : c.nesting ≤ k.registry.nesting := Registry.deepest_child hroot child
    rw [Scope.top_parent, rooted.crossings]
    refine ⟨Nat.zero_le _, fun left hleft => ?_⟩
    rw [hleft, Nat.succ_mul]
    omega
  | within above shown child ih =>
    obtain ⟨hnow, hleft⟩ := ih
    have hhead := shown.crossing
    have hnesting := Definition.nesting_child child
    rw [Scope.descend_parent, shown.attached.crossings, hhead]
    refine ⟨hnow, fun left hn => ?_⟩
    have hbefore := hleft left hn
    omega
  | @grouped n g cs c scope path id above attached child ih =>
    obtain ⟨hnow, hleft⟩ := ih
    have hcrossings : m.tree.crossings id = m.tree.crossings scope.parent := attached.crossings
    have hnesting : 0 + c.nesting ≤ (Definition.node (.choice g) cs).nesting :=
      Definition.nesting_node (.choice g) child
    rw [Scope.withParent_parent, hcrossings]
    refine ⟨hnow, fun left hn => ?_⟩
    have hbefore := hleft left hn
    omega
  | @wrapped n x cs c scope path above child ih =>
    obtain ⟨hnow, hleft⟩ := ih
    have hnesting : 0 + c.nesting ≤ (Definition.node (.extension x) cs).nesting :=
      Definition.nesting_node (.extension x) child
    refine ⟨hnow, fun left hn => ?_⟩
    have hbefore := hleft left hn
    omega
  | @entered n r cs target c scope path id context above attached known bound child ih =>
    -- the level that was taken pays for the references of the target
    have hbefore := ih.2 n rfl
    have hcrossings : m.tree.crossings id = m.tree.crossings scope.parent + 1 := attached.crossings
    have hreference : 1 ≤ (Definition.node (.reference r) cs).nesting :=
      (Definition.node (.reference r) cs).crossing_le_nesting
    have hnesting : c.nesting ≤ k.registry.nesting :=
      Registry.deepest_child (Registry.mem_forms_of_get? known) child
    rw [Scope.top_parent, hcrossings]
    refine ⟨by omega, fun left hn => ?_⟩
    rw [hn, Nat.succ_mul] at hbefore
    omega
  | @trailing n r cs c scope path id above attached child ih =>
    -- the level is back, but the node of the reference stays above
    have hbefore := ih.2 n rfl
    have hcrossings : m.tree.crossings id = m.tree.crossings scope.parent + 1 := attached.crossings
    have hnesting : 1 + c.nesting ≤ (Definition.node (.reference r) cs).nesting :=
      Definition.nesting_node (.reference r) child
    rw [Scope.withParent_parent, hcrossings]
    refine ⟨by omega, fun left hn => ?_⟩
    cases hn
    omega

theorem Placed.crossings_le (hroot : k.root ∈ k.registry.forms) (h : k.Placed m id) :
    m.tree.crossings id ≤ k.limit * k.registry.nesting := by
  obtain ⟨n, d, scope, path, hstands, hattached, hlevel, -⟩ := h
  obtain ⟨hnow, hleft⟩ := hstands.crossings_le hroot
  rw [hattached.crossings]
  by_cases hkind : d.kind = .reference
  · -- a reference has a node only where a level is left
    obtain ⟨left, rfl⟩ := Nat.exists_eq_add_one.mpr (hlevel hkind)
    have hbefore := hleft left rfl
    have hreference := d.crossing_le_nesting
    omega
  · rw [Head.crossing_eq_zero hkind]
    exact hnow

end Task

namespace Engine

/-- **References above one another.** In every tree that is returned, at most the limit times the nesting
of references within a form are above one another. Where no form has a reference beneath another, that is
the limit itself. -/
theorem bind_crossings_le (r : Registry) (limit : Nat) (builders : List LibraryBuilder)
    (b : Binder σ γ) (key : FormKey) (s : σ) {tree : OutputTree}
    (h : ((equipped r limit builders b).bind key s).1 = .ok tree) :
    (∀ id < tree.size, tree.crossings id ≤ limit * r.nesting) ∧
    (r.nesting ≤ 1 → ∀ id < tree.size, tree.crossings id ≤ limit) := by
  obtain ⟨form, hget, hrooted, hplaced⟩ := bind_placed h
  have hall : ∀ id < tree.size, tree.crossings id ≤ limit * r.nesting := by
    intro id hid
    by_cases hroot : id = OutputTree.root
    · subst hroot
      rw [hrooted.crossings]
      exact Nat.zero_le _
    · exact (hplaced id hid hroot).crossings_le (Registry.mem_forms_of_get? hget)
  refine ⟨hall, fun hsingle id hid => Nat.le_trans (hall id hid) ?_⟩
  calc limit * r.nesting ≤ limit * 1 := Nat.mul_le_mul_left limit hsingle
    _ = limit := Nat.mul_one limit

/-- Orders have no reference beneath another: with a limit of one, no two are above one another. -/
theorem bind_crossings_le_orders :
    Sample.orders.nesting ≤ 1 ∧
    ∃ tree, ((equipped Sample.orders 1 [.inline] Sample.binder).bind Sample.orderKey ()).1 =
        .ok tree ∧ tree.size = 14 ∧ ∀ id < tree.size, tree.crossings id ≤ 1 := by
  have hnesting : Sample.orders.nesting ≤ 1 := by decide
  have hsize : ((equipped Sample.orders 1 [.inline] Sample.binder).bind Sample.orderKey
      ()).1.toOption.map OutputTree.size = some 14 := by cbv
  obtain ⟨tree, h, hnodes⟩ := exists_ok_of_toOption hsize
  obtain ⟨-, hsingle⟩ :=
    bind_crossings_le Sample.orders 1 [.inline] Sample.binder Sample.orderKey () h
  exact ⟨hnesting, tree, h, hnodes, hsingle hnesting⟩

end Engine

/-! ## More references than the limit -/

namespace Sample

def toTarget : Reference := ⟨⟨"", "t"⟩, .empty⟩

/-- A form with a reference that wraps another one. -/
def wrapping : Form :=
  ⟨⟨⟨"", "id"⟩, "test", .empty⟩,
    [.node (.reference toTarget) [.node (.extension ⟨"w", .empty⟩) [.leaf (.reference toTarget)]]]⟩

def wrappers : Registry := ⟨[wrapping, .empty ⟨"", "t"⟩ "test"]⟩

def silent : Binder Unit String :=
  (Script.mk "scripted" true [] [] [] none []).binder fun _ s => s

end Sample

namespace Engine

/-- With a limit of one, the second reference is bound beneath the node of the first. -/
theorem bind_crossings_beyond_limit :
    ∃ tree, ((equipped Sample.wrappers 1 [.inline] Sample.silent).bind ⟨"", "id"⟩ ()).1 = .ok tree ∧
      ∃ id < tree.size, ¬ tree.crossings id ≤ 1 := by
  have hshown : ((equipped Sample.wrappers 1 [.inline] Sample.silent).bind ⟨"", "id"⟩
      ()).1.toOption.map (fun tree => (tree.size, tree.crossings 2)) = some (3, 2) := by cbv
  obtain ⟨tree, h, hpair⟩ := exists_ok_of_toOption hshown
  have hsize : tree.size = 3 := congrArg Prod.fst hpair
  have hcrossings : tree.crossings 2 = 2 := congrArg Prod.snd hpair
  refine ⟨tree, h, 2, ?_, ?_⟩
  · rw [hsize]
    decide
  · rw [hcrossings]
    decide

end Engine

end FormSchema
