import FormSchema.Proofs.Output.Edits
import Mathlib.Data.List.Perm.Subperm

/-!
# Descendants of a node

The nodes beneath a node are listed by a loop over a stack: the node on top is taken off and listed, and its
children are put on the stack with the first of them on top. In a tree whose links are sound this comes to an
end, and lists every node of which the first one is a proper ancestor, once, and each of them before what is
beneath it.

Between the loop and what it lists stands the tour, the list that a recursion over the tree would make. It has
no stack, so that what it contains can be shown by following the recursion, and it is unique. Every tour is
unwound by the loop. That there is one at all rests on the order of numbers: children come later than their
parents, so no way down goes on for longer than there are nodes. The loop of the library has fuel for just as
many steps, and a tour that lists no node twice never needs more.

* `OutputTree.Unwinds` — a run of the loop over the stack, to its end.
* `OutputTree.Tour` — nodes, each of them followed by all that is beneath it.
* **`OutputTree.Tour.unwinds`**, **`OutputTree.Tour.mem_iff`**, **`OutputTree.Tour.nodup`** — the loop makes a
  tour, of what is beneath its nodes, each of them once.
* **`OutputTree.edited_exact`** — what is known of a tree after any edits.
-/

namespace FormSchema

namespace OutputTree

variable {t : OutputTree} {ids found more stack : List NodeId} {id a c m p : NodeId}

/-- The loop over a stack of nodes, the top of which is the end of the list, comes to an end and has listed the
nodes `found`. -/
inductive Unwinds (t : OutputTree) : List NodeId → List NodeId → Prop where
  | empty : Unwinds t [] []
  | pop {stack found : List NodeId} {id : NodeId} (next : Unwinds t (stack ++ (t.children id).reverse) found) :
      Unwinds t (stack ++ [id]) (id :: found)

/-- The list goes through the nodes in order, and after each of them through its children in the same way. -/
inductive Tour (t : OutputTree) : List NodeId → List NodeId → Prop where
  | nil : Tour t [] []
  | cons {id : NodeId} {ids below others : List NodeId} (beneath : Tour t (t.children id) below)
      (rest : Tour t ids others) : Tour t (id :: ids) (id :: (below ++ others))

/-! ## Lines in a sound tree

The line of a node is the way down to it from the root, by the links up. To compare it with a listing that
follows the links down, the way has to be cut after its first node: either it ends there, or it goes on to a
child. -/

namespace WellLinked

theorem line_eq (h : t.WellLinked) (hp : t.parent? c = some p) : t.line c = t.line p ++ [c] :=
  line_of_parent hp (h.parent_lt hp)

/-- A node is on the way down to itself, and otherwise one of its children is on the way too. -/
theorem mem_line_iff (h : t.WellLinked) :
    a ∈ t.line m ↔ a = m ∨ ∃ c ∈ t.children a, c ∈ t.line m := by
  constructor
  · intro ha
    induction m using Nat.strongRecOn with
    | ind m ih =>
      cases hm : t.parent? m with
      | none =>
        rw [line_of_orphan hm] at ha
        exact Or.inl (List.mem_singleton.mp ha)
      | some q =>
        rw [h.line_eq hm, List.mem_append, List.mem_singleton] at ha
        refine ha.symm.imp_right fun habove => ?_
        -- the parent is `a`, and `m` the child, or the child is on the way to the parent
        rcases ih q (h.parent_lt hm) habove with rfl | ⟨c, hc, hcq⟩
        · exact ⟨m, (h.child a m).mpr hm, mem_line_self t m⟩
        · exact ⟨c, hc, h.line_eq hm ▸ List.mem_append_left _ hcq⟩
  · rintro (rfl | ⟨c, hc, hcm⟩)
    · exact mem_line_self t a
    · refine (line_prefix_of_mem hcm).subset ?_
      rw [h.line_eq ((h.child a c).mp hc)]
      exact List.mem_append_left _ (mem_line_self t a)

theorem lt_of_child (h : t.WellLinked) (hc : c ∈ t.children a) : a < c := h.parent_lt ((h.child a c).mp hc)

/-- The ancestors of a node are those of which a child is on the way down to it. -/
theorem mem_ancestors_iff (h : t.WellLinked) :
    a ∈ t.ancestors m ↔ ∃ c ∈ t.children a, c ∈ t.line m := by
  cases hm : t.parent? m with
  | none =>
    rw [ancestors, line_of_orphan hm]
    refine ⟨fun ha => absurd ha List.not_mem_nil, fun ⟨c, hc, hcm⟩ => ?_⟩
    rw [h.child, List.mem_singleton.mp hcm, hm] at hc
    cases hc
  | some q =>
    -- the nodes above a node are those on the line of its parent
    have hancestors : t.ancestors m = t.line q := by
      rw [ancestors, h.line_eq hm, List.dropLast_concat]
    rw [hancestors]
    constructor
    · intro ha
      have hne : a ≠ m := Nat.ne_of_lt (Nat.lt_of_le_of_lt (mem_line_le ha) (h.parent_lt hm))
      have hline : a ∈ t.line m := h.line_eq hm ▸ List.mem_append_left _ ha
      exact (h.mem_line_iff.mp hline).resolve_left hne
    · rintro ⟨c, hc, hcm⟩
      have hne : a ≠ m := Nat.ne_of_lt (Nat.lt_of_lt_of_le (h.lt_of_child hc) (mem_line_le hcm))
      have hline := h.mem_line_iff.mpr (Or.inr ⟨c, hc, hcm⟩)
      rw [h.line_eq hm, List.mem_append, List.mem_singleton] at hline
      exact hline.resolve_right hne

end WellLinked

/-- Neither of two nodes is beneath the other. -/
def Apart (t : OutputTree) (a b : NodeId) : Prop := a ∉ t.line b ∧ b ∉ t.line a

theorem WellLinked.children_apart (h : t.WellLinked) (p : NodeId) : (t.children p).Pairwise t.Apart := by
  refine (h.increasing p).imp_of_mem fun {a b} ha hb hlt => ⟨fun hab => ?_, fun hba => ?_⟩
  · rw [h.line_eq ((h.child p b).mp hb), List.mem_append, List.mem_singleton] at hab
    rcases hab with habove | hab
    · exact absurd (mem_line_le habove) (Nat.not_le.mpr (h.lt_of_child ha))
    · exact absurd hab (Nat.ne_of_lt hlt)
  · exact absurd (mem_line_le hba) (Nat.not_le.mpr hlt)

/-! ## Tours

A tour is put together from the tours of the children of each node. No node is listed twice, because nodes
neither of which is beneath the other have nothing in common beneath them, and the children of one node are such
nodes. -/

/-- Children come later than their parents, so a tour comes to an end. The induction is on how many numbers are
left above that of the node. -/
theorem WellLinked.exists_tour (h : t.WellLinked) (ids : List NodeId) : ∃ found, t.Tour ids found := by
  -- the list is walked with tours for the children of each node at hand
  have hlist (ids : List NodeId) (hbeneath : ∀ id ∈ ids, ∃ below, t.Tour (t.children id) below) :
      ∃ found, t.Tour ids found := by
    induction ids with
    | nil => exact ⟨[], .nil⟩
    | cons id ids ih =>
      obtain ⟨below, hbelow⟩ := hbeneath id List.mem_cons_self
      obtain ⟨others, hothers⟩ := ih fun j hj => hbeneath j (List.mem_cons_of_mem id hj)
      exact ⟨_, .cons hbelow hothers⟩
  suffices hnode : ∀ left id, t.size - id = left → ∃ below, t.Tour (t.children id) below from
    hlist ids fun id _ => hnode _ id rfl
  intro left
  induction left using Nat.strongRecOn with
  | ind left ih =>
    rintro id rfl
    refine hlist _ fun c hc => ih _ ?_ c rfl
    have hlt := h.lt_of_child hc
    have hsize := lt_size_of_parent? ((h.child id c).mp hc)
    exact Nat.sub_lt_sub_left (Nat.lt_trans hlt hsize) hlt

namespace Tour

theorem unique {found' : List NodeId} (h : t.Tour ids found) (h' : t.Tour ids found') : found = found' := by
  induction h generalizing found' with
  | nil =>
    cases h'
    rfl
  | cons _ _ ihbeneath ihrest =>
    cases h' with
    | cons beneath' rest' => rw [ihbeneath beneath', ihrest rest']

/-- **The loop makes a tour** of the nodes on top of the stack before it goes on with the rest. -/
theorem unwinds (h : t.Tour ids found) (hmore : t.Unwinds stack more) :
    t.Unwinds (stack ++ ids.reverse) (found ++ more) := by
  induction h generalizing stack more with
  | nil => rwa [List.reverse_nil, List.append_nil]
  | cons _ _ ihbeneath ihrest =>
    rw [List.reverse_cons, List.cons_append, List.append_assoc, ← List.append_assoc stack]
    exact .pop (ihbeneath (ihrest hmore))

/-- So does a visit with enough fuel: as much as the tour lists nodes is enough, and what is left over is there
for the rest. -/
theorem visit (h : t.Tour ids found) (fuel : Nat) (more : List NodeId) :
    t.visit (fuel + found.length) (ids ++ more) = found ++ t.visit fuel more := by
  induction h generalizing fuel more with
  | nil => rfl
  | @cons id ids below others _ _ ihbeneath ihrest =>
    have hfuel : fuel + (id :: (below ++ others)).length =
        fuel + others.length + below.length + 1 := by
      rw [List.length_cons, List.length_append]
      omega
    rw [hfuel, List.cons_append, OutputTree.visit, ihbeneath, ihrest, List.cons_append, List.append_assoc]

/-- **What a tour lists** are the nodes to which the way leads down through one of those that it starts from. -/
theorem mem_iff (h : t.Tour ids found) (ht : t.WellLinked) : m ∈ found ↔ ∃ c ∈ ids, c ∈ t.line m := by
  induction h with
  | nil => simp
  | cons _ _ ihbeneath ihrest =>
    rw [List.mem_cons, List.mem_append, ihbeneath, ihrest, ← or_assoc, eq_comm, ← ht.mem_line_iff,
      List.exists_mem_cons_iff]

/-- **A tour lists no node twice** if none of those that it starts from is beneath another. -/
theorem nodup (h : t.Tour ids found) (ht : t.WellLinked) (hapart : ids.Pairwise t.Apart) : found.Nodup := by
  induction h with
  | nil => exact .nil
  | @cons id ids below others beneath rest ihbeneath ihrest =>
    obtain ⟨hid, hids⟩ := List.pairwise_cons.mp hapart
    have hbelow : ∀ m ∈ below, id ∈ t.line m ∧ id ≠ m := by
      intro m hm
      obtain ⟨c, hc, hcm⟩ := (beneath.mem_iff ht).mp hm
      exact ⟨ht.mem_line_iff.mpr (Or.inr ⟨c, hc, hcm⟩),
        Nat.ne_of_lt (Nat.lt_of_lt_of_le (ht.lt_of_child hc) (mem_line_le hcm))⟩
    have hothers : ∀ m ∈ others, id ∉ t.line m := by
      intro m hm hidm
      obtain ⟨c, hc, hcm⟩ := (rest.mem_iff ht).mp hm
      -- of two nodes on the way down to a third one is on the way to the other
      rcases List.prefix_or_prefix_of_prefix (line_prefix_of_mem hidm) (line_prefix_of_mem hcm) with hpre | hpre
      · exact (hid c hc).1 (hpre.subset (mem_line_self t id))
      · exact (hid c hc).2 (hpre.subset (mem_line_self t c))
    refine List.nodup_cons.mpr ⟨fun hmem => ?_, List.nodup_append.mpr
      ⟨ihbeneath (ht.children_apart id), ihrest hids, fun m hm m' hm' heq => ?_⟩⟩
    · rcases List.mem_append.mp hmem with hmem | hmem
      · exact (hbelow id hmem).2 rfl
      · exact hothers id hmem (mem_line_self t id)
    · exact hothers m' hm' (heq ▸ (hbelow m hm).1)

end Tour

namespace WellLinked

/-- **Descendants are a tour** of the children: the tree has nodes enough for it. -/
theorem descendants_tour (h : t.WellLinked) (id : NodeId) : t.Tour (t.children id) (t.descendants id) := by
  obtain ⟨found, hfound⟩ := h.exists_tour (t.children id)
  have hnodes : found ⊆ List.range t.size := by
    intro m hm
    obtain ⟨c, hc, hcm⟩ := (hfound.mem_iff h).mp hm
    have hancestor : id ∈ t.ancestors m := h.mem_ancestors_iff.mpr ⟨c, hc, hcm⟩
    refine List.mem_range.mpr (Nat.lt_of_not_le fun hge => ?_)
    rw [ancestors, line_of_orphan (parent?_of_size_le hge)] at hancestor
    cases hancestor
  -- a list of different nodes is no longer than there are nodes
  have hlength : found.length ≤ t.size := by
    have hle := ((hfound.nodup h (h.children_apart id)).subperm hnodes).length_le
    rwa [List.length_range] at hle
  have hvisit := hfound.visit (t.size - found.length) []
  have hnil : ∀ fuel, t.visit fuel [] = [] := fun fuel => by cases fuel <;> rfl
  rw [Nat.sub_add_cancel hlength, List.append_nil, hnil, List.append_nil] at hvisit
  rw [descendants, hvisit]
  exact hfound

theorem descendants_unwinds (h : t.WellLinked) (id : NodeId) :
    t.Unwinds (t.children id).reverse (t.descendants id) := by
  have hunwinds := (h.descendants_tour id).unwinds .empty
  rwa [List.nil_append, List.append_nil] at hunwinds

/-- Each child comes first, and then its own descendants. -/
theorem descendants_eq (h : t.WellLinked) (id : NodeId) :
    t.descendants id = (t.children id).flatMap fun c => c :: t.descendants c := by
  suffices hfrom : ∀ {ids found}, t.Tour ids found → found = ids.flatMap fun c => c :: t.descendants c from
    hfrom (h.descendants_tour id)
  intro ids found hfound
  induction hfound with
  | nil => rfl
  | @cons id ids below others beneath _ _ ihrest =>
    rw [List.flatMap_cons, ← ihrest, beneath.unique (h.descendants_tour id), List.cons_append]

theorem mem_descendants_iff (h : t.WellLinked) : m ∈ t.descendants a ↔ a ∈ t.ancestors m :=
  ((h.descendants_tour a).mem_iff h).trans h.mem_ancestors_iff.symm

theorem descendants_nodup (h : t.WellLinked) (id : NodeId) : (t.descendants id).Nodup :=
  (h.descendants_tour id).nodup h (h.children_apart id)

end WellLinked

/-! ## Edited trees

Edits keep links sound, so all of this applies to what any edits lead to. -/

/-- **An edited tree is one tree.** Whatever edits led to it, every node but the root has a parent that was
there before it, and occurs once among all children, which are in the order of attachment; the attributes of a
node have different names, each at the place of its first setting with the value of its last. To attach a node
adds it and one link to it, and to set something on a node changes neither another node nor any link. The loop
that lists descendants comes to an end, and lists each child followed by its own descendants: those nodes that
have the node among their proper ancestors, each of them once. -/
theorem edited_exact {kind : NodeKind} {name : String} {edits : List Edit}
    (h : edited? kind name edits = some t) :
    t.WellLinked ∧
    (∀ id < t.size, ∀ p, (t.children p).count id = if t.parent? id = some p then 1 else 0) ∧
    (∀ id n, t.node? id = some n → Retains (edits.flatMap (Edit.setsOn id)) n.attributes) ∧
    (∀ p < t.size, ∀ kind name, t.Buds p (t.attach p kind name).1 (.fresh kind name (some p))) ∧
    (∀ (id : NodeId) (r : Relabel), Rewrites (r.apply id) id r.write ∧
      ∀ n, (r.write n).parent = n.parent ∧ (r.write n).children = n.children) ∧
    ∀ id, t.Unwinds (t.children id).reverse (t.descendants id) ∧
      t.descendants id = (t.children id).flatMap (fun c => c :: t.descendants c) ∧
      (t.descendants id).Nodup ∧
      ∀ m, m ∈ t.descendants id ↔ id ∈ t.ancestors m := by
  have hsound := edited_sound h
  have ht := hsound.linked
  refine ⟨ht, fun id _ p => ht.count_children id p, hsound.retained,
    fun p hp kind name => Buds.attach kind name hp,
    fun id r => ⟨r.rewrites id, fun n => ⟨r.write_parent n, r.write_children n⟩⟩, fun id => ?_⟩
  exact ⟨ht.descendants_unwinds id, ht.descendants_eq id, ht.descendants_nodup id,
    fun m => ht.mem_descendants_iff⟩

end OutputTree

namespace Sample

/-- Two nodes are attached to the root, and a third one to the first of them when the second is there. An
attribute of the first is set, and set again when others are copied. -/
def edits : List Edit := [
  .attach 0 .element "total",
  .attach 0 .element "note",
  .relabel 1 (.entry "unit" "kg"),
  .relabel 1 (.entry "lang" "en"),
  .attach 1 .attribute "currency",
  .relabel 1 (.copied ⟨[("unit", "lb"), ("style", "bold")]⟩),
  .relabel 2 (.text "paid")]

def editedSheet : OutputTree := (OutputTree.edited? .form "sheet" edits).getD default

end Sample

namespace OutputTree

theorem edited_exact_sheet :
    edited? .form "sheet" Sample.edits = some Sample.editedSheet ∧
    Sample.editedSheet.WellLinked ∧
    (Sample.editedSheet.children 1).count 3 = 1 ∧ (Sample.editedSheet.children 0).count 3 = 0 ∧
    Retains [("unit", "kg"), ("lang", "en"), ("unit", "lb"), ("style", "bold")]
      [("unit", "lb"), ("lang", "en"), ("style", "bold")] ∧
    Sample.editedSheet.Unwinds [2, 1] [1, 3, 2] ∧
    ∀ m, m ∈ [1, 3, 2] ↔ 0 ∈ Sample.editedSheet.ancestors m := by
  have h : edited? .form "sheet" Sample.edits = some Sample.editedSheet := rfl
  obtain ⟨hlinked, hcount, hretained, -, -, hlisted⟩ := edited_exact h
  obtain ⟨hunwinds, -, -, hmem⟩ := hlisted root
  have hsize : 3 < Sample.editedSheet.size := by decide
  exact ⟨h, hlinked, hcount 3 hsize 1, hcount 3 hsize 0, hretained 1 _ rfl, hunwinds, hmem⟩

end OutputTree

end FormSchema
