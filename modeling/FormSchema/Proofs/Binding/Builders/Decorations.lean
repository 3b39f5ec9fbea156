import FormSchema.Proofs.Output.Arena
import FormSchema.Proofs.Binding.Walk.CoupledRuns

/-!
# Trees without comments

A comment is a leaf that says nothing to the rest of the tree. When all of them are removed the other
nodes close up, so each of them moves down by the comments before it. This module defines what remains,
and shows that trees grow alike with and without comments.

Removing nodes from a tree moves all that come after them, and with them every link. The position to
which a node moves is the number of nodes before it that are kept, its *rank*. Ranks depend only on
the kinds of the nodes up to the one in question, and this is what makes the step lemmas short:
planting a node at the end of a tree changes no rank that was known before.

* `OutputTree.plant` — a tree with one more node, which is complete from the start.
* `OutputTree.withoutComments` — what remains of a tree.
* **`OutputTree.withoutComments_plant`**, **`OutputTree.withoutComments_plant_comment`** — planting a
  node, seen without comments.
-/

namespace FormSchema

/-! ## Planting -/

/-- The node with one more child. -/
def OutputNode.link (n : OutputNode) (child : NodeId) : OutputNode :=
  { n with children := n.children.push child }

namespace OutputTree

variable {t : OutputTree} {id parent : NodeId} {node : OutputNode}

theorem ext_toList {t t' : OutputTree} (h : t.nodes.toList = t'.nodes.toList) : t = t' := by
  obtain ⟨nodes⟩ := t
  obtain ⟨nodes'⟩ := t'
  exact congrArg OutputTree.mk (Array.toList_inj.mp h)

theorem ext_node? {t t' : OutputTree} (h : ∀ id, t.node? id = t'.node? id) : t = t' := by
  obtain ⟨nodes⟩ := t
  obtain ⟨nodes'⟩ := t'
  exact congrArg OutputTree.mk (Array.ext_getElem? h)

/-- The tree with one more node beneath another one. In runs nodes are attached first and written
to afterwards, which comes to the same. -/
def plant (t : OutputTree) (parent : NodeId) (node : OutputNode) : OutputTree :=
  ⟨(t.nodes.modify parent fun n => n.link t.size).push node⟩

theorem toList_plant : (t.plant parent node).nodes.toList =
    (t.nodes.toList.modify parent fun n => n.link t.size) ++ [node] := by
  simp [plant]

@[simp] theorem size_plant : (t.plant parent node).size = t.size + 1 := by
  simp [plant, size]

theorem node?_plant (id : NodeId) :
    (t.plant parent node).node? id =
      if id = t.size then some node
      else if parent = id then (t.node? id).map fun n => n.link t.size
      else t.node? id := by
  simp only [plant, node?, size, Array.getElem?_push, Array.size_modify, Array.getElem?_modify]
  rfl

/-- A node that is attached and then rewritten is planted. Only the new node is rewritten, so that
the link from its parent may be made before or after. -/
theorem plant_of_rewrites {f : OutputTree → OutputTree} {g : OutputNode → OutputNode}
    (h : Rewrites f t.size g) (hp : parent < t.size) (kind : NodeKind) (name : String) :
    f (t.attach parent kind name).1 = t.plant parent (g (.fresh kind name (some parent))) := by
  apply ext_node?
  intro id
  rw [h.node, node?_plant]
  -- node by node: the older ones, the new one, and none beyond
  rcases Nat.lt_trichotomy id t.size with hlt | rfl | hgt
  · rw [if_neg (Nat.ne_of_gt hlt), if_neg (Nat.ne_of_lt hlt)]
    by_cases hid : parent = id
    · subst hid
      obtain ⟨n, hn⟩ : ∃ n, t.node? parent = some n := ⟨_, Array.getElem?_eq_getElem hlt⟩
      rw [node?_attach_parent kind name hn, if_pos rfl, hn]
      rfl
    · rw [node?_attach_other kind name hlt (Ne.symm hid), if_neg hid]
  · rw [if_pos rfl, if_pos rfl, node?_attach_new kind name hp]
    rfl
  · have hnone : t.node? id = none := Array.getElem?_eq_none (Nat.le_of_lt hgt)
    have hattach : (t.attach parent kind name).1.node? id = none :=
      Array.getElem?_eq_none (by rw [← size, size_attach]; exact hgt)
    simp [hattach, hnone, Nat.ne_of_gt hgt]

/-- Growing a tree by the node of a definition is planting that node. -/
theorem grow_eq_plant (hp : parent < t.size) (kind : NodeKind) (name : String) (origin : Origin)
    (attrs : OtherAttributes) :
    t.grow parent kind name origin attrs = t.plant parent (withAttributes attrs.entries
      { OutputNode.fresh kind name (some parent) with origin := some origin }) :=
  plant_of_rewrites
    ((copyAttributes_rewrites t.size attrs).comp (setOrigin_rewrites t.size origin)) hp kind name

end OutputTree

/-! ## Removing comments -/

/-- The kinds of the nodes, in their order. -/
def OutputTree.kinds (t : OutputTree) : List NodeKind := t.nodes.toList.map OutputNode.kind

/-- Where a node comes to stand when the comments before it are removed. -/
def rankIn (kinds : List NodeKind) (id : NodeId) : NodeId :=
  (kinds.take id).countP fun k => k ≠ .comment

/-- The node as it remains: its parent and its children have moved, and comments are no longer among
the children. -/
def OutputNode.stripped (kinds : List NodeKind) (n : OutputNode) : OutputNode :=
  { n with
    parent := n.parent.map (rankIn kinds)
    children := ((n.children.toList.filter fun id => kinds[id]? ≠ some .comment).map
      (rankIn kinds)).toArray }

/-- What remains of a tree when all comments are removed. -/
def OutputTree.withoutComments (t : OutputTree) : OutputTree :=
  ⟨(t.nodes.filter fun n => n.kind ≠ .comment).map (OutputNode.stripped t.kinds)⟩

section Ranks

variable {kinds : List NodeKind} {kind : NodeKind} {id : NodeId} {n : OutputNode}

/-- Nodes behind a node do not change its rank. -/
theorem rankIn_append (h : id ≤ kinds.length) (later : List NodeKind) :
    rankIn (kinds ++ later) id = rankIn kinds id := by
  rw [rankIn, List.take_append_of_le_length h, rankIn]

/-- The rank of the next node is the number of nodes that are kept. -/
theorem rankIn_length (kinds later : List NodeKind) :
    rankIn (kinds ++ later) kinds.length = kinds.countP fun k => k ≠ .comment := by
  rw [rankIn_append (Nat.le_refl _), rankIn, List.take_length]

/-- A node that is kept stands before the end of what is kept. -/
theorem rankIn_lt (h : kinds[id]? = some kind) (hkind : kind ≠ .comment) :
    rankIn kinds id < kinds.countP fun k => k ≠ .comment := by
  have hnext : rankIn kinds (id + 1) = rankIn kinds id + 1 := by
    rw [rankIn, List.take_add_one, h, List.countP_append, rankIn]
    simp [hkind]
  have hle : rankIn kinds (id + 1) ≤ kinds.countP fun k => k ≠ .comment :=
    (List.take_sublist (id + 1) kinds).countP_le
  exact Nat.lt_of_lt_of_le (hnext ▸ Nat.lt_succ_self _) hle

/-- A node whose links lead to earlier nodes does not depend on later ones. -/
theorem OutputNode.stripped_append (hchildren : ∀ id ∈ n.children, id < kinds.length)
    (hparent : ∀ id, n.parent = some id → id < kinds.length) (later : List NodeKind) :
    n.stripped (kinds ++ later) = n.stripped kinds := by
  have hkept : ∀ id ∈ n.children.toList,
      decide ((kinds ++ later)[id]? ≠ some .comment) = decide (kinds[id]? ≠ some .comment) := by
    intro id hid
    rw [List.getElem?_append_left (hchildren id (Array.mem_toList_iff.mp hid))]
  -- a child moves up by the comments in front of it, and none of these is new
  have hmoved : ∀ id ∈ n.children.toList.filter fun id => kinds[id]? ≠ some .comment,
      rankIn (kinds ++ later) id = rankIn kinds id := by
    intro id hid
    have hid' := Array.mem_toList_iff.mp (List.mem_filter.mp hid).1
    exact rankIn_append (Nat.le_of_lt (hchildren id hid')) later
  have hup : n.parent.map (rankIn (kinds ++ later)) = n.parent.map (rankIn kinds) := by
    cases hp : n.parent with
    | none => rfl
    | some id => exact congrArg some (rankIn_append (Nat.le_of_lt (hparent id hp)) later)
  rw [stripped, stripped, hup, List.filter_congr hkept, List.map_congr_left hmoved]

end Ranks

/-- Changing one item of a list and changing what remains of it after a selection. The position in
what remains is the number of selected items before it, which for nodes is the rank. -/
theorem filter_map_modify {α β : Type} {p : α → Bool} {s : α → β} {f : α → α} {g : β → β}
    (hp : ∀ a, p (f a) = p a) (hs : ∀ a, s (f a) = g (s a)) {l : List α} {i : Nat} {a : α}
    (hi : l[i]? = some a) (ha : p a = true) :
    ((l.modify i f).filter p).map s = ((l.filter p).map s).modify ((l.take i).countP p) g := by
  induction l generalizing i with
  | nil => simp at hi
  | cons b l ih =>
    cases i with
    | zero =>
      obtain rfl : b = a := by simpa using hi
      simp [hp, ha, hs]
    | succ i =>
      have hrest := ih (by simpa using hi)
      by_cases hb : p b = true
      · simp [hb, hrest]
      · simp [hb, hrest]

namespace OutputTree

variable {t : OutputTree} {id parent : NodeId} {node n : OutputNode}

/-- All links of a tree lead to its nodes. Trees that are built by planting are linked, and links
of linked trees do not depend on later nodes. -/
def Linked (t : OutputTree) : Prop :=
  ∀ id n, t.node? id = some n →
    (∀ child ∈ n.children, child < t.size) ∧ ∀ parent, n.parent = some parent → parent < t.size

@[simp] theorem length_kinds : t.kinds.length = t.size := by simp [kinds, size]

/-- Planting a node adds its kind at the end, and changes the kind of no other node. -/
theorem kinds_plant : (t.plant parent node).kinds = t.kinds ++ [node.kind] := by
  have hlink : (t.nodes.toList.modify parent fun n => n.link t.size).map OutputNode.kind =
      t.nodes.toList.map OutputNode.kind := by
    apply List.ext_getElem?
    intro id
    rw [List.getElem?_map, List.getElem?_map, List.getElem?_modify]
    cases t.nodes.toList[id]? with
    | none => rfl
    | some n => by_cases h : parent = id <;> simp [h, OutputNode.link]
  simp [kinds, toList_plant, hlink]

theorem getElem?_kinds : t.kinds[id]? = (t.node? id).map OutputNode.kind := by
  simp [kinds, node?]

theorem toList_withoutComments : t.withoutComments.nodes.toList =
    (t.nodes.toList.filter fun n => n.kind ≠ .comment).map (OutputNode.stripped t.kinds) := by
  simp [withoutComments]

theorem countP_take_kinds (id : NodeId) :
    ((t.nodes.toList.take id).countP fun n => n.kind ≠ .comment) = rankIn t.kinds id := by
  rw [rankIn, kinds, ← List.map_take, List.countP_map]
  rfl

/-- As many nodes remain as there are nodes that are no comments. -/
theorem size_withoutComments :
    t.withoutComments.size = t.kinds.countP fun k => k ≠ .comment := by
  rw [kinds, List.countP_map, size, ← Array.length_toList, toList_withoutComments, List.length_map,
    ← List.countP_eq_length_filter]
  rfl

/-- A node at the end moves to the end. -/
theorem rankIn_size (later : List NodeKind) :
    rankIn (t.kinds ++ later) t.size = t.withoutComments.size := by
  rw [size_withoutComments, ← length_kinds, rankIn_length]

/-- The nodes that remain do not depend on what is planted later. -/
theorem Linked.stripped_eq (ht : t.Linked) (later : List NodeKind) :
    (t.nodes.toList.filter fun n => n.kind ≠ .comment).map (OutputNode.stripped (t.kinds ++ later)) =
      t.withoutComments.nodes.toList := by
  rw [toList_withoutComments]
  refine List.map_congr_left fun n hn => ?_
  obtain ⟨id, hid⟩ := List.mem_iff_getElem?.mp (List.mem_filter.mp hn).1
  obtain ⟨hchildren, hup⟩ := ht id n (by simpa [node?] using hid)
  rw [← length_kinds] at hchildren hup
  exact n.stripped_append hchildren hup later

/-- **Planting a node.** Without comments, the same node is planted where its parent has moved. The
parent is no comment, which is so in every run because nothing is attached to comments. -/
theorem withoutComments_plant (ht : t.Linked) (hparent : t.node? parent = some n)
    (hn : n.kind ≠ .comment) (hkind : node.kind ≠ .comment) (hup : node.parent = some parent)
    (hdown : node.children = #[]) :
    (t.plant parent node).withoutComments =
      t.withoutComments.plant (rankIn t.kinds parent)
        { node with parent := some (rankIn t.kinds parent) } := by
  have hlt : parent < t.size := lt_size_of_node? hparent
  have hget : t.nodes.toList[parent]? = some n := by simpa [node?] using hparent
  -- linking the new child and stripping the node may be done in either order
  have hlink : ∀ a : OutputNode, (a.link t.size).stripped (t.kinds ++ [node.kind]) =
      (a.stripped (t.kinds ++ [node.kind])).link t.withoutComments.size := by
    intro a
    simp [OutputNode.link, OutputNode.stripped, hkind, rankIn_size]
  have hrank : rankIn (t.kinds ++ [node.kind]) parent = rankIn t.kinds parent :=
    rankIn_append (by rw [length_kinds]; exact Nat.le_of_lt hlt) _
  have hnode : node.stripped (t.kinds ++ [node.kind]) =
      { node with parent := some (rankIn t.kinds parent) } := by
    simp [OutputNode.stripped, hup, hdown, hrank]
  apply ext_toList
  rw [toList_withoutComments, kinds_plant, toList_plant, toList_plant, List.filter_append,
    List.map_append, filter_map_modify (f := fun n => n.link t.size)
      (g := fun n => n.link t.withoutComments.size) (fun _ => rfl) hlink hget (decide_eq_true hn),
    ht.stripped_eq, countP_take_kinds]
  simp [hkind, hnode]

/-- **Planting a comment.** Without comments, nothing has changed. The link from its parent goes
with it. -/
theorem withoutComments_plant_comment (ht : t.Linked) (hparent : t.node? parent = some n)
    (hn : n.kind ≠ .comment) (hkind : node.kind = .comment) :
    (t.plant parent node).withoutComments = t.withoutComments := by
  have hget : t.nodes.toList[parent]? = some n := by simpa [node?] using hparent
  have hlink : ∀ a : OutputNode, (a.link t.size).stripped (t.kinds ++ [node.kind]) =
      a.stripped (t.kinds ++ [node.kind]) := by
    intro a
    simp [OutputNode.link, OutputNode.stripped, hkind]
  apply ext_toList
  rw [toList_withoutComments, kinds_plant, toList_plant, List.filter_append, List.map_append,
    filter_map_modify (f := fun n => n.link t.size) (g := id) (fun _ => rfl) hlink hget
      (decide_eq_true hn),
    ht.stripped_eq, List.modify_id]
  simp [hkind]

/-- A linked tree stays linked when a leaf is planted beneath one of its nodes. -/
theorem Linked.plant (ht : t.Linked) (hparent : parent < t.size) (hup : node.parent = some parent)
    (hdown : node.children = #[]) : (t.plant parent node).Linked := by
  intro id n hn
  rw [node?_plant] at hn
  rw [size_plant]
  -- the new node, its parent, and all others
  split at hn
  · cases hn
    simp only [hup, hdown]
    exact ⟨fun child hchild => by simp at hchild, fun p hp => by
      cases hp
      exact Nat.lt_succ_of_lt hparent⟩
  · split at hn
    · obtain ⟨m, hm, rfl⟩ := Option.map_eq_some_iff.mp hn
      obtain ⟨hchildren, hup'⟩ := ht id m hm
      refine ⟨fun child hchild => ?_, fun p hp => ?_⟩
      · rcases Array.mem_push.mp hchild with hchild | rfl
        · exact Nat.lt_succ_of_lt (hchildren child hchild)
        · exact Nat.lt_succ_self _
      · exact Nat.lt_succ_of_lt (hup' p hp)
    · obtain ⟨hchildren, hup'⟩ := ht id n hn
      exact ⟨fun child hchild => Nat.lt_succ_of_lt (hchildren child hchild),
        fun p hp => Nat.lt_succ_of_lt (hup' p hp)⟩

/-! ### Values -/

theorem kinds_setValue (id : NodeId) (value : String) : (t.setValue id value).kinds = t.kinds := by
  apply List.ext_getElem?
  intro i
  rw [getElem?_kinds, getElem?_kinds, (setValue_rewrites id value).node]
  split
  · rw [Option.map_map]
    rfl
  · rfl

theorem Linked.setValue (ht : t.Linked) (id : NodeId) (value : String) :
    (t.setValue id value).Linked := by
  intro i n hn
  rw [(setValue_rewrites id value).node] at hn
  rw [(setValue_rewrites id value).size]
  split at hn
  · obtain ⟨m, hm, rfl⟩ := Option.map_eq_some_iff.mp hn
    exact ht i m hm
  · exact ht i n hn

/-- Without comments, a node gets its value where it has moved. -/
theorem withoutComments_setValue (h : t.node? id = some n) (hn : n.kind ≠ .comment) (value : String) :
    (t.setValue id value).withoutComments =
      t.withoutComments.setValue (rankIn t.kinds id) value := by
  have hget : t.nodes.toList[id]? = some n := by simpa [node?] using h
  have hnodes : ∀ t : OutputTree, ∀ id, (t.setValue id value).nodes.toList =
      t.nodes.toList.modify id fun n => { n with value := some value } := by
    intro t id
    simp [OutputTree.setValue, OutputTree.modify]
  apply ext_toList
  rw [toList_withoutComments, kinds_setValue, hnodes, hnodes, toList_withoutComments,
    filter_map_modify (f := fun n => { n with value := some value })
      (g := fun n => { n with value := some value }) (fun _ => rfl) (fun _ => rfl) hget
      (decide_eq_true hn), countP_take_kinds]

end OutputTree

/-! ## Comments -/

/-- Changing an item that is not selected changes nothing of a selection. -/
theorem filter_modify_of_neg {α : Type} {p : α → Bool} {f : α → α} (hp : ∀ a, p (f a) = p a)
    {l : List α} {i : Nat} {a : α} (hi : l[i]? = some a) (ha : p a = false) :
    (l.modify i f).filter p = l.filter p := by
  induction l generalizing i with
  | nil => simp at hi
  | cons b l ih =>
    cases i with
    | zero =>
      obtain rfl : b = a := by simpa using hi
      simp [hp, ha]
    | succ i =>
      have hrest := ih (by simpa using hi)
      by_cases hb : p b = true <;> simp [hb, hrest]

/-- The comments of a tree, in their order. -/
def OutputTree.comments (t : OutputTree) : List OutputNode :=
  t.nodes.toList.filter fun n => n.kind = .comment

namespace OutputTree

variable {t : OutputTree} {id parent : NodeId} {node n : OutputNode}

theorem filter_comments_plant (hparent : t.node? parent = some n) (hn : n.kind ≠ .comment) :
    (t.plant parent node).comments = t.comments ++ [node].filter fun n => n.kind = .comment := by
  have hget : t.nodes.toList[parent]? = some n := by simpa [node?] using hparent
  rw [comments, toList_plant, List.filter_append,
    filter_modify_of_neg (f := fun n => n.link t.size) (fun _ => rfl) hget (decide_eq_false hn),
    comments]

/-- A node that is none leaves the comments as they are. -/
theorem comments_plant (hparent : t.node? parent = some n) (hn : n.kind ≠ .comment)
    (hkind : node.kind ≠ .comment) : (t.plant parent node).comments = t.comments := by
  rw [filter_comments_plant hparent hn]
  simp [hkind]

/-- A comment that is planted is the last of the comments. -/
theorem comments_plant_comment (hparent : t.node? parent = some n) (hn : n.kind ≠ .comment)
    (hkind : node.kind = .comment) : (t.plant parent node).comments = t.comments ++ [node] := by
  rw [filter_comments_plant hparent hn]
  simp [hkind]

theorem comments_setValue (h : t.node? id = some n) (hn : n.kind ≠ .comment) (value : String) :
    (t.setValue id value).comments = t.comments := by
  have hget : t.nodes.toList[id]? = some n := by simpa [node?] using h
  have hnodes : (t.setValue id value).nodes.toList =
      t.nodes.toList.modify id fun n => { n with value := some value } := by
    simp [OutputTree.setValue, OutputTree.modify]
  rw [comments, hnodes, filter_modify_of_neg (f := fun n => { n with value := some value })
    (fun _ => rfl) hget (decide_eq_false hn), comments]

end OutputTree

end FormSchema
