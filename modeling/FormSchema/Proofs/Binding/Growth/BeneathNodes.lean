import FormSchema.Proofs.Output.Arena
import FormSchema.Proofs.Binding.Walk.RecordedBinders

/-!
# Growth beneath a node

A part of a recorded run works beneath one node: it attaches children to that node, it grows what is
beneath those, and it asks the binder from that node and from the new ones. Everything else stays
what it was. Parts that work beneath the same node one after the other add up.

The relation is a frame: what it lists has changed in the way it says, and all the rest has not. It
is kept for single nodes, so that the children of a node can be told from what was asked at it, and
both from what goes on further down. A new node starts with nothing beneath it, so after it has
grown it holds exactly what has grown, while its parent sees only that it is there.

* **`Grown`** — from one session to a later one, only what is beneath a node has grown.
* **`Grown.trans`** — growth beneath one node adds up.
* **`Planted`** — a new node has just been attached; **`Planted.beneath`** — and then has grown.
-/

namespace FormSchema

variable {σ γ : Type}

/-! ## Exchanges at a node -/

/-- Whether an exchange took place at a node. Exchanges outside of forms take place at none. -/
def Exchange.isAt (x : Exchange γ) (id : NodeId) : Bool :=
  x.place?.any fun place => place.parent = id

/-- What was asked at a node, in order. -/
def askedAt (record : List (Exchange γ)) (id : NodeId) : List (Exchange γ) :=
  record.filter fun x => x.isAt id

namespace Exchange

variable {x : Exchange γ} {id j : NodeId} {place : Scope γ}

theorem isAt_of_place? (h : x.place? = some place) : x.isAt place.parent = true := by
  rw [isAt, h]
  simp

theorem not_isAt (h : x.isAt id = true) (hne : j ≠ id) : ¬ x.isAt j = true := by
  rw [isAt] at h ⊢
  cases hplace : x.place? with
  | none =>
    rw [hplace] at h
    cases h
  | some place =>
    rw [hplace] at h
    have hid : place.parent = id := by simpa using h
    intro hj
    have hj' : place.parent = j := by simpa using hj
    exact hne (hj'.symm.trans hid)

end Exchange

section AskedAt

variable {record xs : List (Exchange γ)} {id j : NodeId}

/-- What is asked at a node by two parts of a record is what is asked there by the one and then by
the other. -/
theorem askedAt_append : askedAt (record ++ xs) id = askedAt record id ++ askedAt xs id :=
  List.filter_append record xs

theorem askedAt_all (h : ∀ x ∈ xs, x.isAt id = true) : askedAt xs id = xs :=
  List.filter_eq_self.mpr h

/-- What is asked at one node is not asked at another. -/
theorem askedAt_other (h : ∀ x ∈ xs, x.isAt id = true) (hne : j ≠ id) : askedAt xs j = [] :=
  List.filter_eq_nil_iff.mpr fun x hx => Exchange.not_isAt (h x hx) hne

/-- Exchanges outside forms took place at no node. -/
theorem askedAt_nowhere (h : ∀ x ∈ xs, x.place? = none) : askedAt xs id = [] := by
  apply List.filter_eq_nil_iff.mpr
  intro x hx
  rw [Exchange.isAt, h x hx]
  exact Bool.false_ne_true

end AskedAt

/-! ## Growth -/

/-- Nothing has been asked at nodes that do not exist yet. So the record of a new node starts
empty. -/
def Fresh (s : Session (σ × List (Exchange γ))) : Prop :=
  ∀ id, s.output.size ≤ id → askedAt s.state.2 id = []

/-- Between two sessions, only what is beneath the node `p` has grown: `p` has got the children
`ids`, and `xs` was asked at it. Nodes that did not exist before are not spoken of, and may be
anything. -/
structure Grown (p : NodeId) (s s' : Session (σ × List (Exchange γ))) (ids : List NodeId)
    (xs : List (Exchange γ)) : Prop where
  size : s.output.size ≤ s'.output.size
  record : s.state.2 <+: s'.state.2
  node : ∀ n, s.output.node? p = some n →
    s'.output.node? p = some { n with children := n.children ++ ids.toArray }
  others : ∀ id < s.output.size, id ≠ p → s'.output.node? id = s.output.node? id
  asked : askedAt s'.state.2 p = askedAt s.state.2 p ++ xs
  askedOthers : ∀ id < s.output.size, id ≠ p → askedAt s'.state.2 id = askedAt s.state.2 id
  fresh : Fresh s → Fresh s'

namespace Grown

variable {p : NodeId} {s s' s'' : Session (σ × List (Exchange γ))} {ids ids' : List NodeId}
  {xs xs' : List (Exchange γ)}

/-- Nothing has grown beneath a node where nothing has happened. -/
theorem refl (p : NodeId) (s : Session (σ × List (Exchange γ))) : Grown p s s [] [] where
  size := Nat.le_refl _
  record := List.prefix_refl _
  node n h := by
    rw [h]
    simp
  others _ _ _ := rfl
  asked := (List.append_nil _).symm
  askedOthers _ _ _ := rfl
  fresh h := h

/-- **Growth adds up.** The children and the questions of both parts follow one another, in the
order of the parts. -/
theorem trans (h : Grown p s s' ids xs) (h' : Grown p s' s'' ids' xs') :
    Grown p s s'' (ids ++ ids') (xs ++ xs') where
  size := Nat.le_trans h.size h'.size
  record := h.record.trans h'.record
  node n hn := by
    rw [h'.node _ (h.node n hn)]
    simp
  others id hid hne := by
    rw [h'.others id (Nat.lt_of_lt_of_le hid h.size) hne, h.others id hid hne]
  asked := by
    rw [h'.asked, h.asked, List.append_assoc]
  askedOthers id hid hne := by
    rw [h'.askedOthers id (Nat.lt_of_lt_of_le hid h.size) hne, h.askedOthers id hid hne]
  fresh hf := h'.fresh (h.fresh hf)

/-- Questions asked at the node itself are growth. -/
theorem of_asked (houtput : s'.output = s.output) (hrecord : s'.state.2 = s.state.2 ++ xs)
    (hat : ∀ x ∈ xs, x.isAt p = true) (hp : p < s.output.size) : Grown p s s' [] xs where
  size := Nat.le_of_eq (congrArg OutputTree.size houtput.symm)
  record := by
    rw [hrecord]
    exact List.prefix_append _ _
  node n hn := by
    rw [houtput, hn]
    simp
  others id _ _ := by rw [houtput]
  asked := by
    rw [hrecord, askedAt_append, askedAt_all hat]
  askedOthers id _ hne := by
    rw [hrecord, askedAt_append, askedAt_other hat hne, List.append_nil]
  fresh hf := by
    intro id hid
    rw [houtput] at hid
    have hne : id ≠ p := Nat.ne_of_gt (Nat.lt_of_lt_of_le hp hid)
    rw [hrecord, askedAt_append, hf id hid, askedAt_other hat hne]
    rfl

end Grown

/-! ## New nodes -/

/-- The node `q` has just been attached beneath `p`, and `xs` was asked at `p`. Nothing is beneath
the new node yet. -/
structure Planted (p : NodeId) (s s' : Session (σ × List (Exchange γ))) (q : NodeId)
    (n : OutputNode) (xs : List (Exchange γ)) : Prop where
  grown : Grown p s s' [q] xs
  below : p < q
  id : q = s.output.size
  size : s'.output.size = q + 1
  node : s'.output.node? q = some n
  childless : n.children = #[]
  silent : askedAt s'.state.2 q = []

namespace Planted

variable {p q : NodeId} {s s' s'' : Session (σ × List (Exchange γ))} {n : OutputNode}
  {ids : List NodeId} {xs ys : List (Exchange γ)}

/-- Attaching a node plants it: it is the last child of its parent and the last node of the tree. -/
theorem attach {kind : NodeKind} {name : String}
    (h : (Run.attach p kind name).exec s = (.ok q, s')) (hp : p < s.output.size) (hf : Fresh s) :
    Planted p s s' q (.fresh kind name (some p)) [] := by
  rw [Run.exec_attach] at h
  cases h
  exact {
    grown := {
      size := by
        rw [OutputTree.size_attach]
        exact Nat.le_succ _
      record := List.prefix_refl _
      node := by
        intro n hn
        rw [OutputTree.node?_attach_parent _ _ hn]
        simp
      others := fun id hid hne => OutputTree.node?_attach_other _ _ hid hne
      asked := (List.append_nil _).symm
      askedOthers := fun _ _ _ => rfl
      -- what is still to come has greater numbers than before
      fresh := by
        intro hf id hid
        rw [OutputTree.size_attach] at hid
        exact hf id (Nat.le_of_succ_le hid) }
    below := hp
    id := rfl
    size := OutputTree.size_attach _ _
    node := OutputTree.node?_attach_new _ _ hp
    childless := rfl
    silent := hf _ (Nat.le_refl _) }

theorem ne_of_lt (h : Planted p s s' q n xs) {id : NodeId} (hid : id < s.output.size) : id ≠ q := by
  rw [h.id]
  exact Nat.ne_of_lt hid

/-- The new node is rewritten. Rewriting concerns what it shows, and leaves its links as they are. -/
theorem edit {f : OutputTree → OutputTree} {g : OutputNode → OutputNode}
    (h : Planted p s s' q n xs) (hf : OutputTree.Rewrites f q g)
    (hg : (g n).children = n.children) (hrun : (Run.edit f).exec s' = (.ok (), s'')) :
    Planted p s s'' q (g n) xs := by
  rw [Run.exec_edit] at hrun
  cases hrun
  -- the parent is older than the new node, so rewriting the one spares the other
  have hpq : p ≠ q := Nat.ne_of_lt h.below
  exact {
    grown := {
      size := by
        rw [hf.size]
        exact h.grown.size
      record := h.grown.record
      node := by
        intro m hm
        rw [hf.node_other hpq]
        exact h.grown.node m hm
      others := by
        intro id hid hne
        rw [hf.node_other (h.ne_of_lt hid)]
        exact h.grown.others id hid hne
      asked := h.grown.asked
      askedOthers := h.grown.askedOthers
      fresh := by
        intro hfresh id hid
        rw [hf.size] at hid
        exact h.grown.fresh hfresh id hid }
    below := h.below
    id := h.id
    size := by
      rw [hf.size]
      exact h.size
    node := hf.node_self h.node
    childless := hg.trans h.childless
    silent := h.silent }

theorem asked (h : Planted p s s' q n xs) (houtput : s''.output = s'.output)
    (hrecord : s''.state.2 = s'.state.2 ++ ys) (hat : ∀ y ∈ ys, y.isAt p = true) :
    Planted p s s'' q n (xs ++ ys) where
  grown := by
    have hp : p < s'.output.size := by
      rw [h.size]
      exact Nat.lt_succ_of_lt h.below
    have hgrown := h.grown.trans (.of_asked houtput hrecord hat hp)
    rwa [List.append_nil] at hgrown
  below := h.below
  id := h.id
  size := by rw [houtput, h.size]
  node := by rw [houtput, h.node]
  childless := h.childless
  silent := by
    have hqp : q ≠ p := Nat.ne_of_gt h.below
    rw [hrecord, askedAt_append, h.silent, askedAt_other hat hqp]
    rfl

/-- **What grows beneath a new node** is growth beneath its parent, and the new node holds all of
it. The nodes further down, which the new one holds, were not there before, so that for older nodes
nothing else has changed. -/
theorem beneath (h : Planted p s s' q n xs) (hg : Grown q s' s'' ids ys) :
    Grown p s s'' [q] xs ∧ s''.output.node? q = some { n with children := ids.toArray } ∧
      askedAt s''.state.2 q = ys := by
  have hpq : p ≠ q := Nat.ne_of_lt h.below
  have hp : p < s'.output.size := by
    rw [h.size]
    exact Nat.lt_succ_of_lt h.below
  have hnode : s''.output.node? q = some { n with children := ids.toArray } := by
    rw [hg.node n h.node, h.childless, Array.empty_append]
  have hasked : askedAt s''.state.2 q = ys := by
    rw [hg.asked, h.silent, List.nil_append]
  refine ⟨?_, hnode, hasked⟩
  -- beneath the new node nothing touches the parent, or any other node from before
  exact {
    size := Nat.le_trans h.grown.size hg.size
    record := h.grown.record.trans hg.record
    node := by
      intro m hm
      rw [hg.others p hp hpq]
      exact h.grown.node m hm
    others := by
      intro id hid hne
      rw [hg.others id (Nat.lt_of_lt_of_le hid h.grown.size) (h.ne_of_lt hid)]
      exact h.grown.others id hid hne
    asked := by
      rw [hg.askedOthers p hp hpq]
      exact h.grown.asked
    askedOthers := by
      intro id hid hne
      rw [hg.askedOthers id (Nat.lt_of_lt_of_le hid h.grown.size) (h.ne_of_lt hid)]
      exact h.grown.askedOthers id hid hne
    fresh := fun hf => hg.fresh (h.grown.fresh hf) }

end Planted

/-- What emitting does: the node of a definition is attached to the parent of the scope. -/
theorem Engine.emit_planted {scope : Scope γ} {kind : NodeKind} {name : String} {d : Definition}
    {s s' : Session (σ × List (Exchange γ))} {q : NodeId}
    (h : (emit scope kind name d).exec s = (.ok q, s')) (hp : scope.parent < s.output.size)
    (hf : Fresh s) :
    ∃ n, Planted scope.parent s s' q n [] ∧ n.kind = kind ∧ n.value = none ∧
      n.origin = some ⟨scope.form, .definition d⟩ := by
  rw [emit] at h
  obtain ⟨node, t₁, hattach, h⟩ := Run.exec_bind_eq_ok_iff.mp h
  obtain ⟨⟨⟩, t₂, horigin, h⟩ := Run.exec_bind_eq_ok_iff.mp h
  obtain ⟨⟨⟩, t₃, hcopy, h⟩ := Run.exec_bind_eq_ok_iff.mp h
  rw [Run.exec_pure] at h
  cases h
  have hplanted := Planted.attach hattach hp hf
  have horigined := hplanted.edit (OutputTree.setOrigin_rewrites _ _) rfl horigin
  exact ⟨_, horigined.edit (OutputTree.copyAttributes_rewrites _ _) rfl hcopy, rfl, rfl, rfl⟩

/-- A run starts with the node of the root form alone. -/
theorem Engine.start_node (form : Form) :
    (start form).size = 1 ∧ ∃ n, (start form).node? OutputTree.root = some n ∧ n.kind = .form ∧
      n.children = #[] ∧ n.parent = none ∧ n.origin = some ⟨form, .form form⟩ := by
  have hrewrites := (OutputTree.copyAttributes_rewrites OutputTree.root form.attributes).comp
    (OutputTree.setOrigin_rewrites OutputTree.root ⟨form, .form form⟩)
  have hnew : (OutputTree.new .form form.key.id).node? OutputTree.root =
      some (.fresh .form form.key.id none) := rfl
  have hsize : (OutputTree.new .form form.key.id).size = 1 := rfl
  exact ⟨(hrewrites.size _).trans hsize, _, hrewrites.node_self hnew, rfl, rfl, rfl, rfl⟩

/-! ## Settled nodes -/

/-- From the node `lo` on, a later tree and record hold what a session holds. A node is settled as
soon as nothing more is going to happen beneath it, and that is known when the walk has left it. -/
structure Settled (tree : OutputTree) (record : List (Exchange γ)) (lo : NodeId)
    (s : Session (σ × List (Exchange γ))) : Prop where
  prefix_record : s.state.2 <+: record
  node : ∀ id, lo ≤ id → id < s.output.size → tree.node? id = s.output.node? id
  asked : ∀ id, lo ≤ id → id < s.output.size → askedAt record id = askedAt s.state.2 id

namespace Settled

variable {tree : OutputTree} {record : List (Exchange γ)} {lo lo' p : NodeId}
  {s s' : Session (σ × List (Exchange γ))} {ids : List NodeId} {xs : List (Exchange γ)}

/-- From a later node on less is said. -/
theorem mono (h : Settled tree record lo s) (hle : lo ≤ lo') : Settled tree record lo' s where
  prefix_record := h.prefix_record
  node id hid := h.node id (Nat.le_trans hle hid)
  asked id hid := h.asked id (Nat.le_trans hle hid)

/-- What grows beneath an older node unsettles nothing. -/
theorem of_grown (h : Settled tree record lo s') (hg : Grown p s s' ids xs) (hp : p < lo) :
    Settled tree record lo s where
  prefix_record := hg.record.trans h.prefix_record
  node id hlo hid := by
    have hne : id ≠ p := Nat.ne_of_gt (Nat.lt_of_lt_of_le hp hlo)
    rw [h.node id hlo (Nat.lt_of_lt_of_le hid hg.size), hg.others id hid hne]
  asked id hlo hid := by
    have hne : id ≠ p := Nat.ne_of_gt (Nat.lt_of_lt_of_le hp hlo)
    rw [h.asked id hlo (Nat.lt_of_lt_of_le hid hg.size), hg.askedOthers id hid hne]

end Settled

end FormSchema
