import FormSchema.Proofs.Output.Arena
import FormSchema.Proofs.Binding.Conformance.Blocks
import FormSchema.Proofs.Binding.Walk.Jobs

/-!
# The way down to a node

Every node but the root hangs below a node that was there before it. So the way from the root down to
a node is known as soon as the node is attached, and nothing that is added later changes it.

A growing tree is the frame of everything that is said about runs. Later steps add nodes and append
to lists of children, and do nothing else to what is there already. So facts about a node, once they
are known, need to be shown only for the tree in which the node is new.

* `OutputTree.line` — the nodes from the root down to a node.
* **`OutputTree.Extends`**, **`OutputTree.Extends.line`** — a tree that has only grown keeps the way
  down to every node it had.
* **`OutputTree.Grafted`**, **`OutputTree.Buds`** — one node has been added, and where.
* **`Engine.emit_buds`**, **`Engine.emitFound_buds`** — what is emitted for a definition or for an
  instance is one node, attached to the parent of the scope.
-/

namespace FormSchema

namespace OutputTree

variable {t t' t'' : OutputTree} {id p : NodeId} {n : OutputNode}

/-! ## Lines -/

def parent? (t : OutputTree) (id : NodeId) : Option NodeId :=
  (t.node? id).bind OutputNode.parent

/-- The nodes from the root down to a node, the node itself included. Parents stand before their
children, so that the way up comes to an end. -/
def line (t : OutputTree) (id : NodeId) : List NodeId :=
  match t.parent? id with
  | none => [id]
  | some p => if _h : p < id then t.line p ++ [id] else [id]
termination_by id

/-- A node without a parent is a line by itself. -/
theorem line_of_orphan (h : t.parent? id = none) : t.line id = [id] := by
  rw [line, h]

/-- A node that stands behind its parent continues the line of the parent. -/
theorem line_of_parent (h : t.parent? id = some p) (hlt : p < id) :
    t.line id = t.line p ++ [id] := by
  rw [line, h]
  exact dif_pos hlt

/-- The nodes above a node, from the root down. -/
def ancestors (t : OutputTree) (id : NodeId) : List NodeId := (t.line id).dropLast

theorem mem_line_self (t : OutputTree) (id : NodeId) : id ∈ t.line id := by
  rw [line]
  split
  · exact List.mem_singleton.mpr rfl
  · split
    · exact List.mem_append_right _ (List.mem_singleton.mpr rfl)
    · exact List.mem_singleton.mpr rfl

/-- Parents stand before their children, so a line only goes on to later nodes. -/
theorem mem_line_le {a : NodeId} (h : a ∈ t.line id) : a ≤ id := by
  induction id using Nat.strongRecOn with
  | ind id ih =>
    rw [line] at h
    split at h
    · exact Nat.le_of_eq (List.mem_singleton.mp h)
    · split at h
      · rename_i p _ hlt
        rcases List.mem_append.mp h with habove | hself
        · exact Nat.le_of_lt (Nat.lt_of_le_of_lt (ih p hlt habove) hlt)
        · exact Nat.le_of_eq (List.mem_singleton.mp hself)
      · exact Nat.le_of_eq (List.mem_singleton.mp h)

/-- The way down to a node leads on from the way down to any node on it. -/
theorem line_prefix_of_mem {a : NodeId} (h : a ∈ t.line id) : t.line a <+: t.line id := by
  induction id using Nat.strongRecOn with
  | ind id ih =>
    have hself : t.line id = [id] → t.line a <+: t.line id := by
      intro hline
      obtain rfl : a = id := List.mem_singleton.mp (hline ▸ h)
      exact List.prefix_refl _
    cases hp : t.parent? id with
    | none => exact hself (line_of_orphan hp)
    | some p =>
      by_cases hlt : p < id
      · have hline : t.line id = t.line p ++ [id] := line_of_parent hp hlt
        rcases List.mem_append.mp (hline ▸ h) with habove | hlast
        · rw [hline]
          exact (ih p hlt habove).trans (List.prefix_append _ _)
        · obtain rfl : a = id := List.mem_singleton.mp hlast
          exact List.prefix_refl _
      · -- a parent that is no older is not followed, and then the line is the node alone
        refine hself ?_
        rw [line, hp]
        exact dif_neg hlt

/-! ## Growing trees -/

/-- A later tree has all nodes of an earlier one as they were, but for their children. Of a node
that was there all else stays: its kind, name, text, attributes, origin and parent. -/
structure Extends (t t' : OutputTree) : Prop where
  size : t.size ≤ t'.size
  node : ∀ {id n}, t.node? id = some n → ∃ cs, t'.node? id = some { n with children := cs }

namespace Extends

theorem refl (t : OutputTree) : t.Extends t where
  size := Nat.le_refl _
  node h := ⟨_, h⟩

theorem trans (h : t.Extends t') (h' : t'.Extends t'') : t.Extends t'' where
  size := Nat.le_trans h.size h'.size
  node hn := by
    obtain ⟨cs, hcs⟩ := h.node hn
    obtain ⟨cs', hcs'⟩ := h'.node hcs
    exact ⟨cs', hcs'⟩

theorem parent? (h : t.Extends t') (hid : id < t.size) : t'.parent? id = t.parent? id := by
  obtain ⟨n, hn⟩ : ∃ n, t.node? id = some n := ⟨_, Array.getElem?_eq_getElem hid⟩
  obtain ⟨cs, hcs⟩ := h.node hn
  rw [OutputTree.parent?, OutputTree.parent?, hn, hcs]
  rfl

/-- **What was known of the way down stays true.** -/
theorem line (h : t.Extends t') (hid : id < t.size) : t'.line id = t.line id := by
  induction id using Nat.strongRecOn with
  | ind id ih =>
    cases hp : t.parent? id with
    | none => rw [line_of_orphan hp, line_of_orphan ((h.parent? hid).trans hp)]
    | some p =>
      have hp' := (h.parent? hid).trans hp
      by_cases hlt : p < id
      · rw [line_of_parent hp hlt, line_of_parent hp' hlt, ih p hlt (Nat.lt_trans hlt hid)]
      · rw [OutputTree.line, OutputTree.line, hp, hp']
        simp only [dif_neg hlt]

/-- The node of a definition stays one, since its kind and its origin do. -/
theorem emitted (h : t.Extends t') {kind : NodeKind} {form : Form} {d : Definition}
    (he : t.Emitted kind form d id) : t'.Emitted kind form d id := by
  obtain ⟨n, hn, hkind, horigin⟩ := he
  obtain ⟨cs, hcs⟩ := h.node hn
  exact ⟨_, hcs, hkind, horigin⟩

end Extends

/-! ## Attached nodes -/

/-- A node was emitted for a definition of a form, and attached to the node `p`. -/
structure Attached (t : OutputTree) (p : NodeId) (form : Form) (d : Definition) (id : NodeId) :
    Prop where
  below : p < id
  parent : t.parent? id = some p
  emitted : t.Emitted d.kind.nodeKind form d id

namespace Attached

variable {form : Form} {d : Definition}

theorem lt_size (h : t.Attached p form d id) : id < t.size := by
  obtain ⟨n, hn, -, -⟩ := h.emitted
  exact lt_size_of_node? hn

theorem line (h : t.Attached p form d id) : t.line id = t.line p ++ [id] :=
  line_of_parent h.parent h.below

/-- The new node is one step further down than the one it is attached to. -/
theorem length_line (h : t.Attached p form d id) :
    (t.line id).length = (t.line p).length + 1 := by
  rw [h.line, List.length_append, List.length_singleton]

theorem mono (h : t.Attached p form d id) (he : t.Extends t') : t'.Attached p form d id where
  below := h.below
  parent := (he.parent? h.lt_size).trans h.parent
  emitted := he.emitted h.emitted

end Attached

/-! ## One more node -/

/-- A tree has got one more node. Nothing is said of where it hangs. -/
structure Grafted (t t' : OutputTree) (n : OutputNode) : Prop where
  size : t'.size = t.size + 1
  extended : t.Extends t'
  node : t'.node? t.size = some n

/-- The same, and it is known where: the new node is attached to the node `p`, and has nothing beneath it. -/
structure Buds (t : OutputTree) (p : NodeId) (t' : OutputTree) (n : OutputNode) : Prop where
  size : t'.size = t.size + 1
  node : t'.node? t.size = some n
  bare : n.children = #[]
  parent : n.parent = some p
  link : ∀ m, t.node? p = some m → t'.node? p = some { m with children := m.children.push t.size }
  others : ∀ id < t.size, id ≠ p → t'.node? id = t.node? id

namespace Buds

theorem attach (kind : NodeKind) (name : String) (hp : p < t.size) :
    t.Buds p (t.attach p kind name).1 (.fresh kind name (some p)) where
  size := size_attach _ _
  node := node?_attach_new _ _ hp
  bare := rfl
  parent := rfl
  link _ hm := node?_attach_parent _ _ hm
  others _ hid hne := node?_attach_other _ _ hid hne

/-- The new node may be rewritten, but for its links. Values, attributes and origins are written
after a node is attached, and each of these steps leaves the links of the tree alone. -/
theorem rewrite (h : t.Buds p t' n) (hp : p < t.size) {f : OutputTree → OutputTree}
    {g : OutputNode → OutputNode} (hf : Rewrites f t.size g) (hchildren : (g n).children = n.children)
    (hparent : (g n).parent = n.parent) : t.Buds p (f t') (g n) where
  size := (hf.size _).trans h.size
  node := hf.node_self h.node
  bare := hchildren.trans h.bare
  parent := hparent.trans h.parent
  link m hm := by
    rw [hf.node_other (Nat.ne_of_lt hp)]
    exact h.link m hm
  others id hid hne := by
    rw [hf.node_other (Nat.ne_of_lt hid)]
    exact h.others id hid hne

theorem grafted (h : t.Buds p t' n) : Grafted t t' n where
  size := h.size
  extended := {
    size := by
      rw [h.size]
      exact Nat.le_succ _
    node := by
      intro id m hm
      by_cases hid : id = p
      · subst hid
        exact ⟨_, h.link m hm⟩
      · exact ⟨m.children, (h.others id (lt_size_of_node? hm) hid).trans hm⟩ }
  node := h.node

end Buds

namespace Grafted

/-- What the new node shows makes it an attached one. -/
theorem attached (h : Grafted t t' n) {form : Form} {d : Definition} (hp : p < t.size)
    (hparent : n.parent = some p) (hkind : n.kind = d.kind.nodeKind)
    (horigin : n.origin = some ⟨form, .definition d⟩) : t'.Attached p form d t.size where
  below := hp
  parent := by
    rw [OutputTree.parent?, h.node]
    exact hparent
  emitted := ⟨n, h.node, hkind, horigin⟩

end Grafted

end OutputTree

/-! ## Nodes of definitions -/

namespace Engine

variable {σ γ : Type} {s : Session σ}

/-- Emitting a definition adds one node: attached to the parent of the scope, of the given kind and
name, without a text, and with the definition as its origin. Distinct attributes are those of the
definition. -/
theorem emit_buds (scope : Scope γ) (kind : NodeKind) (name : String) (d : Definition)
    (hp : scope.parent < s.output.size) :
    ∃ t n, (emit scope kind name d).exec s = (.ok s.output.size, { s with output := t }) ∧
      s.output.Buds scope.parent t n ∧ n.kind = kind ∧ n.value = none ∧
      n.origin = some ⟨scope.form, .definition d⟩ ∧ n.name = name ∧
      (d.head.attributes.names.Nodup → n.attributes = d.head.attributes.entries) := by
  have hattached := OutputTree.Buds.attach kind name hp
  have horigined := hattached.rewrite hp (OutputTree.setOrigin_rewrites _ ⟨scope.form, .definition d⟩) rfl rfl
  have hcopied := horigined.rewrite hp (OutputTree.copyAttributes_rewrites _ d.head.attributes) rfl rfl
  exact ⟨_, _, rfl, hcopied, rfl, rfl, rfl, rfl,
    fun hnames => OutputTree.withAttributes_of_nodup hnames rfl⟩

/-- Leaving a comment adds one node of its own kind, whose origin is the extension point. -/
theorem leaveComment_buds (scope : Scope γ) (x : Extension) (d : Definition)
    (hp : scope.parent < s.output.size) :
    ∃ t n, (LibraryBuilder.leaveComment scope x d).exec s = (.ok (), { s with output := t }) ∧
      s.output.Buds scope.parent t n ∧ n.kind = .comment ∧
      n.origin = some ⟨scope.form, .definition d⟩ := by
  have hattached := OutputTree.Buds.attach .comment "comment" hp
  have hvalued := hattached.rewrite hp (OutputTree.setValue_rewrites _ x.representation) rfl rfl
  have hcopied := hvalued.rewrite hp (OutputTree.copyAttributes_rewrites _ x.attributes) rfl rfl
  have horigined := hcopied.rewrite hp (OutputTree.setOrigin_rewrites _ ⟨scope.form, .definition d⟩) rfl rfl
  exact ⟨_, _, rfl, horigined, rfl, rfl⟩

/-- The node of an instance shows what the binder says of the instance as it is emitted. -/
theorem emitFound_buds (e : Engine σ γ) (kind : NodeKind) (name : String) (d : Definition)
    (scope : Scope γ) (found : γ) (hp : scope.parent < s.output.size) :
    ∃ t n, (e.emitFound kind name d scope found).exec s =
        (.ok (s.output.size, (e.binder.describe s.state found).getD d.label),
          { s with output := t }) ∧
      s.output.Buds scope.parent t n ∧ n.kind = kind ∧ n.value = e.binder.value s.state found ∧
      n.origin = some ⟨scope.form, .definition d⟩ ∧ n.name = name ∧
      (d.head.attributes.names.Nodup → n.attributes = d.head.attributes.entries) := by
  obtain ⟨t, n, hemit, hbuds, hkind, hblank, hshows⟩ := emit_buds scope kind name d hp
  rw [emitFound, Run.exec_bind, hemit]
  dsimp only
  rw [Run.exec_bind, exec_look]
  cases hvalue : e.binder.value s.state found with
  | none => exact ⟨t, n, rfl, hbuds, hkind, hblank, hshows⟩
  | some text =>
    have hshown := hbuds.rewrite hp (OutputTree.setValue_rewrites _ text) rfl rfl
    exact ⟨_, _, rfl, hshown, hkind, rfl, hshows⟩

end Engine

end FormSchema
