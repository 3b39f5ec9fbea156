import FormSchema.Proofs.Binding.Conformance.Lineage
import Mathlib.Logic.Relation

/-!
# Nodes in preorder

Nodes are numbered as they are attached, and a new node may be attached to any older one. Where all that is
beneath a node is attached before anything else, the numbers run in preorder: the nodes beneath a node are
the ones that follow it.

A run attaches nodes in this way, but the type of trees allows any other. What is said here is therefore said of
stretches of numbers: a stretch is in preorder if it is divided among some nodes, each of which comes first in
its share and shares out the rest among its children in the same way. Such stretches can be put one after the
other, and a node in front of a stretch makes one stretch with it. These two steps are all that a run ever does.

* `OutputTree.Spans` — nodes take up a range of numbers, together with all that is beneath them.
* **`OutputTree.Spans.descendants`** — the descendants of a node in such a range are the numbers after it.
* `OutputTree.Sprouts` — a tree has grown at one node only, and what is new is in preorder.
* **`OutputTree.Sprouts.trans`**, **`OutputTree.Buds.sprouts`** — one part after the other at the same node,
  and a new node with what has grown at it.
-/

namespace FormSchema

namespace OutputTree

variable {t t' t'' : OutputTree} {ids ids' : List NodeId} {id j p lo mid hi : Nat} {n : OutputNode}

/-- The line down to a node ends with the node. -/
theorem getLast?_line (t : OutputTree) (id : NodeId) : (t.line id).getLast? = some id := by
  rw [line]
  split
  · rfl
  · split
    · exact List.getLast?_concat
    · rfl

/-! ## Ranges

A range does not depend on anything outside of it: what is attached elsewhere later, and what becomes of the
node above, leave it as it is. So a range can be judged when it is complete, and the judgement stands. -/

/-- The nodes take up the numbers from `lo` up to `hi`, each of them followed by all that is beneath it. -/
inductive Spans (t : OutputTree) : List NodeId → Nat → Nat → Prop where
  | nil {lo : Nat} : Spans t [] lo lo
  | cons {id mid hi : Nat} {n : OutputNode} {ids : List NodeId} (node : t.node? id = some n)
      (beneath : Spans t n.children.toList (id + 1) mid) (rest : Spans t ids mid hi) :
      Spans t (id :: ids) id hi

/-- A node is beneath another one when it is a child of that one, or of a node beneath that one. -/
def Under (t : OutputTree) (p id : NodeId) : Prop := Relation.TransGen (fun q c => c ∈ t.children q) p id

namespace Spans

theorem le (h : t.Spans ids lo hi) : lo ≤ hi := by
  induction h with
  | nil => exact Nat.le_refl _
  | cons _ _ _ ihbeneath ihrest => exact Nat.le_trans (Nat.le_of_succ_le ihbeneath) ihrest

theorem append (h : t.Spans ids lo mid) (h' : t.Spans ids' mid hi) : t.Spans (ids ++ ids') lo hi := by
  induction h with
  | nil => exact h'
  | cons node beneath _ _ ih => exact .cons node beneath (ih h')

/-- A range depends on its own nodes only. -/
theorem congr (h : t.Spans ids lo hi) (hsame : ∀ j, lo ≤ j → j < hi → t'.node? j = t.node? j) :
    t'.Spans ids lo hi := by
  induction h with
  | nil => exact .nil
  | cons node beneath rest ihbeneath ihrest =>
    have hbeneath := beneath.le
    have hrest := rest.le
    refine .cons ((hsame _ (Nat.le_refl _) (Nat.lt_of_lt_of_le hbeneath hrest)).trans node)
      (ihbeneath fun j hlo hhi => hsame j (Nat.le_of_succ_le hlo) (Nat.lt_of_lt_of_le hhi hrest))
      (ihrest fun j hlo hhi => hsame j (Nat.le_trans (Nat.le_of_succ_le hbeneath) hlo) hhi)

/-- **A range is visited in order**, before the rest of a work list. The visit uses up as much fuel as there are
numbers in the range, and with what is left it goes on to the rest. -/
theorem visit (h : t.Spans ids lo hi) (fuel : Nat) (rest : List NodeId) :
    t.visit (fuel + (hi - lo)) (ids ++ rest) = List.range' lo (hi - lo) ++ t.visit fuel rest := by
  induction h generalizing fuel rest with
  | nil =>
    rw [Nat.sub_self]
    rfl
  | @cons id mid hi n ids node beneath others ihbeneath ihothers =>
    have hbeneath := beneath.le
    have hothers := others.le
    -- one step for the node itself, then its range, then that of the others
    have hfuel : fuel + (hi - id) = fuel + (hi - mid) + (mid - (id + 1)) + 1 := by omega
    have hrange : List.range' id (hi - id) =
        id :: (List.range' (id + 1) (mid - (id + 1)) ++ List.range' mid (hi - mid)) := by
      have hmid : mid = id + 1 + (mid - (id + 1)) := by omega
      have hlength : hi - id = mid - (id + 1) + (hi - mid) + 1 := by omega
      rw [hlength, List.range'_succ]
      conv_rhs => rw [hmid, Nat.add_sub_cancel_left]
      rw [← List.range'_append_1, ← hmid]
    rw [hfuel, List.cons_append, OutputTree.visit, children_of_node? node, ihbeneath, ihothers, hrange]
    rw [List.cons_append, List.append_assoc]

/-- Every node of a range is followed by a range of its own, of all that is beneath it. It ends within the
first one, because ranges lie inside one another or apart. -/
theorem exists_beneath (h : t.Spans ids lo hi) (hlo : lo ≤ j) (hhi : j < hi) :
    ∃ n m, t.node? j = some n ∧ t.Spans n.children.toList (j + 1) m ∧ m ≤ hi := by
  induction h with
  | nil => exact absurd hhi (Nat.not_lt.mpr hlo)
  | @cons id mid hi n ids node beneath rest ihbeneath ihrest =>
    rcases Nat.eq_or_lt_of_le hlo with rfl | hlt
    · exact ⟨n, mid, node, beneath, rest.le⟩
    · rcases Nat.lt_or_ge j mid with hmid | hmid
      · obtain ⟨m, k, hm, hspans, hk⟩ := ihbeneath hlt hmid
        exact ⟨m, k, hm, hspans, Nat.le_trans hk rest.le⟩
      · exact ihrest hmid hhi

/-- A node before a range of all that is beneath it has the range as its descendants. -/
theorem descendants_eq {m : Nat} (hn : t.node? j = some n) (h : t.Spans n.children.toList (j + 1) m)
    (hm : m ≤ t.size) : t.descendants j = List.range' (j + 1) (m - (j + 1)) := by
  have hvisit := h.visit (t.size - (m - (j + 1))) []
  have hfuel : t.size - (m - (j + 1)) + (m - (j + 1)) = t.size := by omega
  have hnil : ∀ fuel, t.visit fuel [] = [] := fun fuel => by cases fuel <;> rfl
  rw [hfuel, List.append_nil, hnil, List.append_nil] at hvisit
  rw [OutputTree.descendants, children_of_node? hn]
  exact hvisit

/-- **The descendants of a node** in a range are the numbers that follow it. -/
theorem descendants (h : t.Spans ids lo hi) (hsize : hi ≤ t.size) (hlo : lo ≤ j) (hhi : j < hi) :
    ∃ k, j + 1 + k ≤ t.size ∧ t.descendants j = List.range' (j + 1) k := by
  obtain ⟨n, m, hn, hspans, hm⟩ := h.exists_beneath hlo hhi
  have hle := hspans.le
  exact ⟨m - (j + 1), by omega, descendants_eq hn hspans (Nat.le_trans hm hsize)⟩

/-- Whatever is in a range is one of its nodes, or beneath one of them. -/
theorem exists_under (h : t.Spans ids lo hi) (hlo : lo ≤ j) (hhi : j < hi) :
    ∃ i ∈ ids, i = j ∨ t.Under i j := by
  induction h with
  | nil => exact absurd hhi (Nat.not_lt.mpr hlo)
  | @cons id mid hi n ids node beneath rest ihbeneath ihrest =>
    rcases Nat.eq_or_lt_of_le hlo with rfl | hlt
    · exact ⟨id, List.mem_cons_self, Or.inl rfl⟩
    · -- the range of `id` ends at `mid`, and what comes after belongs to the others
      rcases Nat.lt_or_ge j mid with hmid | hmid
      · obtain ⟨i, hi, hij⟩ := ihbeneath hlt hmid
        have hchild : i ∈ t.children id := by rwa [children_of_node? node]
        refine ⟨id, List.mem_cons_self, Or.inr ?_⟩
        rcases hij with rfl | hunder
        · exact .single hchild
        · exact .head hchild hunder
      · obtain ⟨i, hi, hij⟩ := ihrest hmid hhi
        exact ⟨i, List.mem_cons_of_mem id hi, hij⟩

end Spans

/-! ## Growing at one node

Whatever a run does at a position adds children at the end of one node and changes no other node that was there.
The new nodes make up one range, and the way down to each of them passes the node that has grown. -/

/-- A tree has grown at the node `p` only: that node has got the children `ids` at the end, every other node
is what it was, and the new nodes are these children with all that is beneath them, in preorder. -/
structure Sprouts (t : OutputTree) (p : NodeId) (t' : OutputTree) (ids : List NodeId) : Prop where
  node : ∀ n, t.node? p = some n → t'.node? p = some { n with children := n.children ++ ids.toArray }
  others : ∀ id < t.size, id ≠ p → t'.node? id = t.node? id
  spans : t'.Spans ids t.size t'.size
  line : ∀ id, t.size ≤ id → id < t'.size → t'.line p <+: t'.line id

namespace Sprouts

theorem size (h : t.Sprouts p t' ids) : t.size ≤ t'.size := h.spans.le

theorem extended (h : t.Sprouts p t' ids) : t.Extends t' where
  size := h.size
  node := by
    intro id n hn
    by_cases hid : id = p
    · subst hid
      exact ⟨_, h.node n hn⟩
    · exact ⟨n.children, (h.others id (lt_size_of_node? hn) hid).trans hn⟩

theorem refl (t : OutputTree) (p : NodeId) : t.Sprouts p t [] where
  node n hn := by
    rw [hn]
    simp
  others _ _ _ := rfl
  spans := .nil
  line _ hlo hhi := absurd hhi (Nat.not_lt.mpr hlo)

/-- **One part after the other.** What grows at the same node later comes after what has grown before. -/
theorem trans (h : t.Sprouts p t' ids) (h' : t'.Sprouts p t'' ids') (hp : p < t.size) :
    t.Sprouts p t'' (ids ++ ids') where
  node n hn := by
    rw [h'.node _ (h.node n hn)]
    simp
  others id hid hne := by
    rw [h'.others id (Nat.lt_of_lt_of_le hid h.size) hne, h.others id hid hne]
  spans := by
    -- what was new before is older than what is new now, and it is not `p`
    refine (h.spans.congr fun j hlo hhi => ?_).append h'.spans
    exact h'.others j hhi (Nat.ne_of_gt (Nat.lt_of_lt_of_le hp hlo))
  line id hlo hhi := by
    rcases Nat.lt_or_ge id t'.size with hlt | hge
    · rw [h'.extended.line hlt, h'.extended.line (Nat.lt_of_lt_of_le hp h.size)]
      exact h.line id hlo hlt
    · exact h'.line id hge hhi

/-- Every new node is beneath the one that has grown, by its links up as well as by the links down. -/
theorem beneath (h : t.Sprouts p t' ids) (hp : p < t.size) (hlo : t.size ≤ id) (hhi : id < t'.size) :
    p ∈ t'.ancestors id ∧ t'.Under p id := by
  have hne : id ≠ p := Nat.ne_of_gt (Nat.lt_of_lt_of_le hp hlo)
  constructor
  · -- the line ends with the node itself, so anything else on it is an ancestor
    have hmem : p ∈ t'.line id := (h.line id hlo hhi).subset (mem_line_self t' p)
    rw [← List.dropLast_append_getLast? id (getLast?_line t' id), List.mem_append,
      List.mem_singleton] at hmem
    exact hmem.resolve_right (Ne.symm hne)
  · obtain ⟨n, hn⟩ : ∃ n, t.node? p = some n := ⟨_, Array.getElem?_eq_getElem hp⟩
    obtain ⟨i, hi, hij⟩ := h.spans.exists_under hlo hhi
    have hchild : i ∈ t'.children p := by
      rw [children_of_node? (h.node n hn)]
      simp [hi]
    rcases hij with rfl | hunder
    · exact .single hchild
    · exact .head hchild hunder

end Sprouts

/-- **A new node, and what has grown at it.** To the node that it was attached to it is one more child. What has
grown at the new node is beneath the older one too, and is not among its children. -/
theorem Buds.sprouts (h : t.Buds p t' n) (hp : p < t.size) (h' : t'.Sprouts t.size t'' ids) :
    t.Sprouts p t'' [t.size] where
  node m hm := by
    have hp' : p < t'.size := h.size ▸ Nat.lt_succ_of_lt hp
    rw [h'.others p hp' (Nat.ne_of_lt hp), h.link m hm, Array.push_eq_append]
  others id hid hne := by
    have hid' : id < t'.size := h.size ▸ Nat.lt_succ_of_lt hid
    rw [h'.others id hid' (Nat.ne_of_lt hid), h.others id hid hne]
  spans := by
    have hspans := h'.spans
    rw [h.size] at hspans
    refine .cons (h'.node n h.node) ?_ .nil
    rwa [h.bare, Array.empty_append]
  line id hlo hhi := by
    have hparent : t''.parent? t.size = some p := by
      rw [parent?, h'.node n h.node]
      exact h.parent
    -- the line of a later node leads over the new one, and so over `p`
    have hline : t''.line p <+: t''.line t.size := by
      rw [line_of_parent hparent hp]
      exact List.prefix_append _ _
    rcases Nat.eq_or_lt_of_le hlo with rfl | hlt
    · exact hline
    · exact hline.trans (h'.line id (h.size ▸ hlt) hhi)

end OutputTree

end FormSchema
