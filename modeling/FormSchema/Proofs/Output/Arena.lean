import FormSchema.Output.Tree

/-!
# Nodes of a growing tree

An output tree grows in two ways: a node is attached beneath another one, and a node is rewritten in
place. This module says what either does to every single node.

A tree is an array of nodes that name one another by their numbers. Nothing is ever taken out of it, so a
number means the same node from the moment it is given out. That makes every later statement about a growing
tree a statement about lookups: what is found under a number after a step, in terms of what was found there
before. Attaching is the only step that touches two numbers, the new one and that of the parent.

* **`OutputTree.node?_attach_new`**, **`OutputTree.node?_attach_parent`**,
  **`OutputTree.node?_attach_other`** — attaching adds one node, and one link to it.
* **`OutputTree.Rewrites`** — a change of one node, which leaves all others as they were.
-/

namespace FormSchema

namespace OutputTree

variable {t : OutputTree} {id parent : NodeId} {n : OutputNode}

theorem lt_size_of_node? (h : t.node? id = some n) : id < t.size := by
  rw [node?] at h
  exact (Array.getElem?_eq_some_iff.mp h).choose

theorem children_of_node? (h : t.node? id = some n) : t.children id = n.children.toList := by
  rw [children, h]

/-! ## Attaching

The new node is pushed to the end of the array, and the node at the place of the parent is modified. The parent
has to be there; if its number were that of the new node, the link would be put into the new node itself. -/

section Attach

variable (kind : NodeKind) (name : String)

@[simp] theorem attach_id : (t.attach parent kind name).2 = t.size := rfl

@[simp] theorem size_attach : (t.attach parent kind name).1.size = t.size + 1 := by
  show ((t.nodes.push (.fresh kind name (some parent))).modify parent _).size = t.nodes.size + 1
  rw [Array.size_modify, Array.size_push]

theorem node?_attach (j : NodeId) :
    (t.attach parent kind name).1.node? j =
      if parent = j then
        (t.nodes.push (.fresh kind name (some parent)))[j]?.map fun n =>
          { n with children := n.children.push t.size }
      else (t.nodes.push (.fresh kind name (some parent)))[j]? := by
  rw [node?, attach]
  exact Array.getElem?_modify

theorem node?_attach_new (h : parent < t.size) :
    (t.attach parent kind name).1.node? t.size = some (.fresh kind name (some parent)) := by
  have hne : parent ≠ t.size := Nat.ne_of_lt h
  rw [node?_attach, if_neg hne]
  exact Array.getElem?_push_size

/-- The parent is linked to the new node, after its other children. -/
theorem node?_attach_parent (h : t.node? parent = some n) :
    (t.attach parent kind name).1.node? parent =
      some { n with children := n.children.push t.size } := by
  have hlt : parent < t.nodes.size := lt_size_of_node? h
  rw [node?] at h
  rw [node?_attach, if_pos rfl, Array.getElem?_push_lt hlt, ← Array.getElem?_eq_getElem hlt, h]
  rfl

theorem node?_attach_other (h : id < t.size) (hne : id ≠ parent) :
    (t.attach parent kind name).1.node? id = t.node? id := by
  rw [node?_attach, if_neg (Ne.symm hne), Array.getElem?_push_lt h, node?,
    ← Array.getElem?_eq_getElem h]

end Attach

/-! ## Rewriting

Setting a value, an origin or attributes changes one node by a function of the node. Such changes at one node
compose, and what they do to any other node is nothing. -/

/-- A change of a tree that rewrites one node: it is `g` of what it was, and no other node is touched. Where
there is no node of that number nothing happens. -/
structure Rewrites (f : OutputTree → OutputTree) (id : NodeId) (g : OutputNode → OutputNode) :
    Prop where
  size : ∀ t, (f t).size = t.size
  node : ∀ t j, (f t).node? j = if id = j then (t.node? j).map g else t.node? j

namespace Rewrites

variable {f f' : OutputTree → OutputTree} {g g' : OutputNode → OutputNode}

theorem node_self (h : Rewrites f id g) (hn : t.node? id = some n) :
    (f t).node? id = some (g n) := by
  rw [h.node, if_pos rfl, hn]
  rfl

theorem node_other (h : Rewrites f id g) {j : NodeId} (hne : j ≠ id) :
    (f t).node? j = t.node? j := by
  rw [h.node, if_neg (Ne.symm hne)]

theorem modify (id : NodeId) (g : OutputNode → OutputNode) :
    Rewrites (fun t => t.modify id g) id g where
  size _ := Array.size_modify
  node _ _ := Array.getElem?_modify

theorem comp (h' : Rewrites f' id g') (h : Rewrites f id g) :
    Rewrites (fun t => f' (f t)) id (g' ∘ g) where
  size t := by rw [h'.size, h.size]
  node t j := by
    rw [h'.node, h.node]
    by_cases hj : id = j
    · rw [if_pos hj, if_pos hj, if_pos hj, Option.map_map]
    · rw [if_neg hj, if_neg hj, if_neg hj]

theorem refl (id : NodeId) : Rewrites (fun t => t) id (fun n => n) where
  size _ := rfl
  node _ _ := by simp

end Rewrites

theorem setValue_rewrites (id : NodeId) (value : String) :
    Rewrites (fun t => t.setValue id value) id fun n => { n with value := some value } :=
  .modify id _

theorem setOrigin_rewrites (id : NodeId) (origin : Origin) :
    Rewrites (fun t => t.setOrigin id origin) id fun n => { n with origin := some origin } :=
  .modify id _

/-- What copying attributes does to a node. -/
def withAttributes (entries : List (String × String)) (n : OutputNode) : OutputNode :=
  { n with
    attributes := entries.foldl (fun acc e => OutputNode.setEntry e.1 e.2 acc) n.attributes }

theorem copyAttributes_rewrites (id : NodeId) (attrs : OtherAttributes) :
    Rewrites (fun t => t.copyAttributes id attrs) id (withAttributes attrs.entries) := by
  obtain ⟨entries⟩ := attrs
  -- the induction is on the entries, and a step sets one of them before the rest
  induction entries with
  | nil => exact .refl id
  | cons e entries ih =>
    have hstep : Rewrites (fun t => t.setAttribute id e.1 e.2) id fun n =>
        { n with attributes := OutputNode.setEntry e.1 e.2 n.attributes } := .modify id _
    exact ih.comp hstep

end OutputTree

/-! ## Attributes

Attributes are copied by setting one after the other, and a setting looks for the name first. If all names are
different and the node had none before, nothing is ever found, and the copy is the list itself. -/

/-- A name that is new goes to the end. -/
theorem OutputNode.setEntry_of_notMem {name value : String} {entries : List (String × String)}
    (h : name ∉ entries.map Prod.fst) : setEntry name value entries = entries ++ [(name, value)] := by
  induction entries with
  | nil => rfl
  | cons e entries ih =>
    rw [List.map_cons, List.mem_cons, not_or] at h
    rw [setEntry, if_neg (Ne.symm h.1), ih h.2, List.cons_append]

/-- Attributes with different names are copied as they are. -/
theorem OutputTree.withAttributes_of_nodup {entries : List (String × String)}
    (h : (entries.map Prod.fst).Nodup) {n : OutputNode} (hn : n.attributes = []) :
    (withAttributes entries n).attributes = entries := by
  suffices hfold : ∀ before : List (String × String),
      (before.map Prod.fst ++ entries.map Prod.fst).Nodup →
      entries.foldl (fun acc e => OutputNode.setEntry e.1 e.2 acc) before = before ++ entries by
    rw [withAttributes, hn, hfold [] h, List.nil_append]
  clear h
  induction entries with
  | nil => exact fun before _ => (List.append_nil before).symm
  | cons e entries ih =>
    intro before hnames
    -- the entries that were set so far are generalised, each new one goes behind them
    have hnew : e.1 ∉ before.map Prod.fst := by
      intro he
      exact (List.nodup_append.mp hnames).2.2 _ he _ (by simp) rfl
    rw [List.foldl_cons, OutputNode.setEntry_of_notMem hnew, ih]
    · simp
    · simpa using hnames

end FormSchema
