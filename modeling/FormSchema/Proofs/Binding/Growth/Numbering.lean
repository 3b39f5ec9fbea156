import FormSchema.Proofs.Binding.Growth.AtOneNode

/-!
# How nodes are numbered

The numbers of nodes tell when they were attached. They also tell where: binding anything at a position only
adds to what is beneath one node, so that the nodes of a tree that is returned are numbered in preorder.

A run that grows one node at a time and never comes back to an older one gives out its numbers in
the order of a walk over the finished tree. So the descendants of a node can be read off the
numbers: they are those that follow it, up to the last one that was attached beneath it.

* `OutputTree.GrownAt` — nothing has changed but what is beneath a node.
* **`Engine.bind_spans`** — a tree that is returned is one range, with all that is beneath the root.
* **`Engine.bind_preorder`** — the descendants of a node are the numbers that follow it.
-/

namespace FormSchema

variable {σ γ : Type}

/-- A tree has grown at the node `p` only. All nodes that were there are what they were, except that `p` may
have got more children, after those it had. All new nodes are beneath `p`, by their links up as well as by
the links down. -/
structure OutputTree.GrownAt (t : OutputTree) (p : NodeId) (t' : OutputTree) : Prop where
  size : t.size ≤ t'.size
  others : ∀ id < t.size, id ≠ p → t'.node? id = t.node? id
  node : ∀ n, t.node? p = some n → ∃ more, t'.node? p = some { n with children := n.children ++ more }
  beneath : ∀ id, t.size ≤ id → id < t'.size → p ∈ t'.ancestors id ∧ t'.Under p id

/-- Children that sprout at a node grow the tree there. -/
theorem OutputTree.Sprouts.grownAt {t t' : OutputTree} {p : NodeId} {ids : List NodeId}
    (h : t.Sprouts p t' ids) (hp : p < t.size) : t.GrownAt p t' where
  size := h.size
  others := h.others
  node n hn := ⟨_, h.node n hn⟩
  beneath _ hlo hhi := h.beneath hp hlo hhi

namespace Engine

variable (r : Registry) (limit : Nat) (builders : List LibraryBuilder) (b : Binder σ γ)

/-- Whatever definitions are bound at a position, children sprout at its node. -/
theorem buildAll_follow_sprouts (n : Nat) (ds : List Definition) (scope : Scope γ) (path : NodePath)
    (s : Session σ) (hp : scope.parent < s.output.size) :
    ∃ ids, s.output.Sprouts scope.parent (((equipped r limit builders b).buildAll
      ((equipped r limit builders b).follow n) ds scope path).exec s).2.output ids := by
  have hgrows : Growing r limit builders b (.blank σ γ) n (.all ds) := perform_grows b.notes_blank n _
  obtain ⟨ids, -, hsprouts, -⟩ := hgrows scope path s _ _ rfl hp
  exact ⟨ids, hsprouts⟩

/-- The body of a run grows the root. -/
theorem body_sprouts (form : Form) (context : γ) (s : Session σ) (hroot : OutputTree.root < s.output.size) :
    ∃ ids, s.output.Sprouts OutputTree.root
      (((equipped r limit builders b).body form context).exec s).2.output ids :=
  buildAll_follow_sprouts r limit builders b limit form.children (.top form context OutputTree.root)
    (.single form.label) s hroot

/-- **A tree that is returned is one range.** Its nodes are numbered as a walk meets them that
takes parents before children, and children in their order. -/
theorem bind_spans {key : FormKey} {s : σ} {tree : OutputTree}
    (h : ((equipped r limit builders b).bind key s).1 = .ok tree) :
    ∃ n, tree.node? OutputTree.root = some n ∧ 0 < tree.size ∧
      tree.Spans n.children.toList (OutputTree.root + 1) tree.size := by
  cases hget : r.get? key with
  | none =>
    rw [bind_missing (by exact hget)] at h
    cases h
  | some form =>
    have hends := bind_ends (e := equipped r limit builders b) hget s
    rw [h] at hends
    generalize ((equipped r limit builders b).bind key s).2 = state at hends
    cases hends with
    | @finished context t _ hbody =>
      obtain ⟨hsize, n, hn, -, hbare, -, -⟩ := start_node form
      have hroot : OutputTree.root < (start form).size := by
        rw [hsize]
        exact Nat.one_pos
      obtain ⟨ids, hsprouts⟩ := body_sprouts r limit builders b form context
        ⟨((equipped r limit builders b).rootContext form s).2, start form⟩ hroot
      rw [hbody] at hsprouts
      refine ⟨_, hsprouts.node n hn, Nat.lt_of_lt_of_le hroot hsprouts.size, ?_⟩
      -- the root was bare when the run began, so all of its children were attached by the body
      have hspans := hsprouts.spans
      rw [hsize] at hspans
      rwa [hbare, Array.empty_append]

/-- **Nodes are numbered in preorder.** Whatever is bound at a position, and in whatever session, only the
node of the position has grown, and all that is new is beneath it; this holds of single definitions of every
kind, of lists of them, with any builders of the library, and whether or not the run goes on. So in a tree
that is returned all nodes but the root are its descendants, in the order of their numbers, and the
descendants of any node are the numbers that follow it. -/
theorem bind_preorder :
    (∀ n d (scope : Scope γ) path (s : Session σ), scope.parent < s.output.size →
      s.output.GrownAt scope.parent (((equipped r limit builders b).build
        ((equipped r limit builders b).follow n) d scope path).exec s).2.output) ∧
    (∀ n ds (scope : Scope γ) path (s : Session σ), scope.parent < s.output.size →
      s.output.GrownAt scope.parent (((equipped r limit builders b).buildAll
        ((equipped r limit builders b).follow n) ds scope path).exec s).2.output) ∧
    ∀ key s tree, ((equipped r limit builders b).bind key s).1 = .ok tree →
      tree.descendants OutputTree.root = List.range' 1 (tree.size - 1) ∧
      ∀ id < tree.size, ∃ k, id + 1 + k ≤ tree.size ∧ tree.descendants id = List.range' (id + 1) k := by
  refine ⟨fun n d scope path s hp => ?_, fun n ds scope path s hp => ?_, fun key s tree h => ?_⟩
  · have hgrows : Growing r limit builders b (.blank σ γ) n (.one d) := perform_grows b.notes_blank n _
    obtain ⟨ids, -, hsprouts, -⟩ := hgrows scope path s _ _ rfl hp
    exact hsprouts.grownAt hp
  · obtain ⟨ids, hsprouts⟩ := buildAll_follow_sprouts r limit builders b n ds scope path s hp
    exact hsprouts.grownAt hp
  · obtain ⟨n, hn, hpos, hspans⟩ := bind_spans r limit builders b h
    -- the root heads one range, and so does every node beneath it
    have hroot : tree.Spans [OutputTree.root] OutputTree.root tree.size := .cons hn hspans .nil
    exact ⟨OutputTree.Spans.descendants_eq hn hspans (Nat.le_refl _),
      fun id hid => hroot.descendants (Nat.le_refl _) (Nat.zero_le id) hid⟩

end Engine

namespace Sample

/-- The scope of a run over orders before its first definition. -/
def orderScope : Scope String := .top order "order" OutputTree.root

end Sample

namespace Engine

/-- An order with two lines, an inlined address beneath each of them and a comment after that. The first line
has the number 1, and its descendants are the four nodes that follow. -/
theorem bind_preorder_orders :
    Sample.orderScope.parent < (start Sample.order).size ∧
    (∀ path, (start Sample.order).GrownAt OutputTree.root
      (((equipped Sample.orders 1 [.inline, .comment []] Sample.binder).build
        ((equipped Sample.orders 1 [.inline, .comment []] Sample.binder).follow 1) Sample.line Sample.orderScope
        path).exec ⟨(), start Sample.order⟩).2.output) ∧
    (∀ path, (start Sample.order).GrownAt OutputTree.root
      (((equipped Sample.orders 1 [.inline, .comment []] Sample.binder).buildAll
        ((equipped Sample.orders 1 [.inline, .comment []] Sample.binder).follow 1) Sample.order.children
        Sample.orderScope path).exec ⟨(), start Sample.order⟩).2.output) ∧
    ∃ tree, ((equipped Sample.orders 1 [.inline, .comment []] Sample.binder).bind Sample.orderKey ()).1 =
        .ok tree ∧ tree.size = 16 ∧ tree.descendants 1 = [2, 3, 4, 5] ∧
      tree.descendants OutputTree.root = List.range' 1 15 ∧
      ∃ k, 2 + k ≤ 16 ∧ tree.descendants 1 = List.range' 2 k := by
  have hscope : Sample.orderScope.parent < (start Sample.order).size := by decide
  have hshown : ((equipped Sample.orders 1 [.inline, .comment []] Sample.binder).bind
      Sample.orderKey ()).1.toOption.map (fun tree => (tree.size, tree.descendants 1)) =
        some (16, [2, 3, 4, 5]) := by cbv
  obtain ⟨hone, hall, hbind⟩ := bind_preorder Sample.orders 1 [.inline, .comment []] Sample.binder
  obtain ⟨tree, htree, hpair⟩ := exists_ok_of_toOption hshown
  have hsize : tree.size = 16 := congrArg Prod.fst hpair
  obtain ⟨hdescendants, hnodes⟩ := hbind Sample.orderKey () tree htree
  rw [hsize] at hdescendants hnodes
  exact ⟨hscope, fun path => hone 1 Sample.line Sample.orderScope path ⟨(), start Sample.order⟩ hscope,
    fun path => hall 1 Sample.order.children Sample.orderScope path ⟨(), start Sample.order⟩ hscope,
    tree, htree, hsize, congrArg Prod.snd hpair, hdescendants, hnodes 1 (by decide)⟩

end Engine

end FormSchema
