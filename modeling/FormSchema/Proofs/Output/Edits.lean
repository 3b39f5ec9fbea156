import FormSchema.Proofs.Binding.Conformance.Lineage
import Mathlib.Data.List.Induction

/-!
# Trees that are edited

Besides being grown by runs, an output tree may be edited from outside: nodes are attached to any node that is
there, and attributes, values and origins are set on any node, in any order. None of this can break the tree.

Two invariants are kept. The first is about links: a node names as its parent an earlier node, and is listed
among the children of that node and of no other. Since a new node is always the last one, it can neither be
its own ancestor nor be listed twice. The second is about attributes, of which each keeps the place of its
first setting and the value of its last. Both are invariants of single edits, and no edit that is admitted
needs more than the presence of the node that it names.

* `Relabel`, `Edit`, `OutputTree.edited?` — edits, and the tree they lead to.
* **`Relabel.rewrites`** — an edit of one node leaves all other nodes as they are.
* **`OutputTree.WellLinked`**, **`OutputTree.WellLinked.edit`** — parents come first, and every node but the
  root is among the children of its parent.
* **`Retains`**, **`Retains.setEntry`** — attributes that were set again keep their places.
* **`OutputTree.edited_sound`** — both hold after any edits.
-/

namespace FormSchema

/-! ## Edits

What can be set on a node is one kind of edit, with one account of what becomes of the node; attaching is the
other kind. A tree is edited by a list of edits, and there is no tree if one of them names a node that is not
there at that moment. -/

/-- What may be set on a node of an output tree. -/
inductive Relabel where
  | entry (name value : String)
  | copied (attrs : OtherAttributes)
  | text (value : String)
  | origin (origin : Origin)

/-- A change of an output tree: a node is attached, or an attribute, the value or the origin of one is set. -/
inductive Edit where
  | attach (parent : NodeId) (kind : NodeKind) (name : String)
  | relabel (id : NodeId) (relabel : Relabel)

namespace Relabel

def apply (id : NodeId) : Relabel → OutputTree → OutputTree
  | entry name value, t => t.setAttribute id name value
  | copied attrs, t => t.copyAttributes id attrs
  | text value, t => t.setValue id value
  | origin o, t => t.setOrigin id o

/-- The attributes that are set, one after the other. -/
def sets : Relabel → List (String × String)
  | entry name value => [(name, value)]
  | copied attrs => attrs.entries
  | text _ => []
  | origin _ => []

/-- What becomes of the node. -/
def write : Relabel → OutputNode → OutputNode
  | entry name value, n => OutputTree.withAttributes [(name, value)] n
  | copied attrs, n => OutputTree.withAttributes attrs.entries n
  | text value, n => { n with value := some value }
  | origin o, n => { n with origin := some o }

/-- **Only the node itself is changed.** A relabelling looks the node up, and puts it back with
what is new. -/
theorem rewrites (id : NodeId) (r : Relabel) : OutputTree.Rewrites (r.apply id) id r.write := by
  cases r with
  | entry name value => exact .modify id _
  | copied attrs => exact OutputTree.copyAttributes_rewrites id attrs
  | text value => exact OutputTree.setValue_rewrites id value
  | origin o => exact OutputTree.setOrigin_rewrites id o

@[simp] theorem write_parent (r : Relabel) (n : OutputNode) : (r.write n).parent = n.parent := by
  cases r <;> rfl

@[simp] theorem write_children (r : Relabel) (n : OutputNode) : (r.write n).children = n.children := by
  cases r <;> rfl

theorem write_attributes (r : Relabel) (n : OutputNode) :
    (r.write n).attributes =
      r.sets.foldl (fun acc e => OutputNode.setEntry e.1 e.2 acc) n.attributes := by
  cases r <;> rfl

end Relabel

namespace Edit

/-- The node that must be there. -/
def node : Edit → NodeId
  | attach parent _ _ => parent
  | relabel id _ => id

def apply : Edit → OutputTree → OutputTree
  | attach parent kind name, t => (t.attach parent kind name).1
  | relabel id r, t => r.apply id t

/-- The attributes that an edit sets on a node. -/
def setsOn (id : NodeId) : Edit → List (String × String)
  | attach _ _ _ => []
  | relabel j r => if j = id then r.sets else []

end Edit

namespace OutputTree

/-- One edit, of a node that is there. -/
def edit? (t : OutputTree) (e : Edit) : Option OutputTree :=
  if e.node < t.size then some (e.apply t) else none

/-- The tree that edits lead to, starting from a root alone. -/
def edited? (kind : NodeKind) (name : String) (edits : List Edit) : Option OutputTree :=
  edits.foldlM edit? (new kind name)

variable {t t' : OutputTree} {kind : NodeKind} {name : String} {edits : List Edit} {e : Edit}
  {id p : NodeId} {n : OutputNode}

theorem edit?_eq_some_iff : t.edit? e = some t' ↔ e.node < t.size ∧ e.apply t = t' := by
  rw [edit?, Option.ite_none_right_eq_some, Option.some.injEq]

theorem edited?_append_singleton :
    edited? kind name (edits ++ [e]) = (edited? kind name edits).bind fun t => t.edit? e := by
  rw [edited?, List.foldlM_append]
  exact congrArg (Option.bind _) (funext fun t => bind_pure (t.edit? e))

/-! ## Links

The links up and the links down are stored apart and could disagree. That they do not is the invariant: a node
is among the children of another one exactly when it names that one as its parent. The order of the children
is the order of their numbers, hence that in which they were attached. -/

/-- Every node but the root has a parent that was there before it and has it among its children, which are in
the order in which they were attached. -/
structure WellLinked (t : OutputTree) : Prop where
  rooted : root < t.size ∧ t.parent? root = none
  parent : ∀ id < t.size, id ≠ root → ∃ p < id, t.parent? id = some p
  child : ∀ p id, id ∈ t.children p ↔ t.parent? id = some p
  increasing : ∀ p, (t.children p).Pairwise (· < ·)

theorem parent?_of_size_le (h : t.size ≤ id) : t.parent? id = none := by
  rw [parent?, node?, Array.getElem?_eq_none h]
  rfl

theorem lt_size_of_parent? (h : t.parent? id = some p) : id < t.size := by
  by_contra hge
  rw [parent?_of_size_le (Nat.not_lt.mp hge)] at h
  cases h

theorem children_of_size_le (h : t.size ≤ id) : t.children id = [] := by
  rw [children, node?, Array.getElem?_eq_none h]

namespace WellLinked

theorem parent_lt (h : t.WellLinked) (hp : t.parent? id = some p) : p < id := by
  have hne : id ≠ root := by
    rintro rfl
    rw [h.rooted.2] at hp
    cases hp
  obtain ⟨q, hlt, hq⟩ := h.parent id (lt_size_of_parent? hp) hne
  rw [hp, Option.some.injEq] at hq
  exact hq ▸ hlt

theorem children_nodup (h : t.WellLinked) (p : NodeId) : (t.children p).Nodup :=
  (h.increasing p).imp Nat.ne_of_lt

/-- **A node occurs once among all children**, at its parent. -/
theorem count_children (h : t.WellLinked) (id p : NodeId) :
    (t.children p).count id = if t.parent? id = some p then 1 else 0 := by
  rw [(h.children_nodup p).count]
  exact if_congr (h.child p id) rfl rfl

theorem new (kind : NodeKind) (name : String) : (new kind name).WellLinked := by
  have hparent : ∀ id, (OutputTree.new kind name).parent? id = none
    | 0 => rfl
    | _ + 1 => rfl
  have hchildren : ∀ p, (OutputTree.new kind name).children p = []
    | 0 => rfl
    | _ + 1 => rfl
  refine ⟨⟨Nat.one_pos, rfl⟩, fun id hid hne => absurd (Nat.lt_one_iff.mp hid) hne,
    fun p id => ?_, fun p => ?_⟩
  · rw [hchildren, hparent]
    exact ⟨fun h => (nomatch h), fun h => (nomatch h)⟩
  · rw [hchildren]
    exact .nil

/-- Links are all that matters: whatever else is changed about nodes, a tree with the same links is as sound as
before. -/
theorem congr (h : t.WellLinked) (hsize : t'.size = t.size)
    (hparent : ∀ id, t'.parent? id = t.parent? id) (hchildren : ∀ id, t'.children id = t.children id) :
    t'.WellLinked where
  rooted := by
    rw [hsize, hparent]
    exact h.rooted
  parent id hid hne := by
    rw [hparent]
    exact h.parent id (hsize ▸ hid) hne
  child p id := by
    rw [hparent, hchildren]
    exact h.child p id
  increasing p := by
    rw [hchildren]
    exact h.increasing p

end WellLinked

namespace Buds

theorem parent?_eq (h : t.Buds p t' n) (id : NodeId) :
    t'.parent? id = if id = t.size then some p else t.parent? id := by
  rcases Nat.lt_trichotomy id t.size with hlt | rfl | hgt
  · rw [if_neg (Nat.ne_of_lt hlt), h.grafted.extended.parent? hlt]
  · rw [if_pos rfl, parent?, h.node]
    exact h.parent
  · rw [if_neg (Nat.ne_of_gt hgt), parent?_of_size_le (Nat.le_of_lt hgt), parent?_of_size_le]
    exact h.size ▸ hgt

theorem children_eq (h : t.Buds p t' n) (hp : p < t.size) (id : NodeId) :
    t'.children id = t.children id ++ if id = p then [t.size] else [] := by
  rcases Nat.lt_trichotomy id t.size with hlt | rfl | hgt
  · obtain ⟨m, hm⟩ : ∃ m, t.node? id = some m := ⟨_, Array.getElem?_eq_getElem hlt⟩
    by_cases hid : id = p
    · subst hid
      rw [if_pos rfl, children_of_node? hm, children_of_node? (h.link m hm), Array.toList_push]
    · rw [if_neg hid, children_of_node? hm, children_of_node? ((h.others id hlt hid).trans hm),
        List.append_nil]
  · rw [if_neg (Nat.ne_of_gt hp), children_of_size_le (Nat.le_refl _), children_of_node? h.node, h.bare]
    rfl
  · rw [if_neg (Nat.ne_of_gt (Nat.lt_trans hp hgt)), children_of_size_le (Nat.le_of_lt hgt),
      children_of_size_le (h.size ▸ hgt)]
    rfl

/-- A new node is linked, and all others stay so. The number of the new node is greater than any that occurs in
a link, so it cannot be there already and goes to the end of the children. -/
theorem wellLinked (h : t.Buds p t' n) (hp : p < t.size) (ht : t.WellLinked) : t'.WellLinked where
  rooted := by
    rw [h.parent?_eq, if_neg (Nat.ne_of_lt ht.rooted.1), h.size]
    exact ⟨Nat.lt_succ_of_lt ht.rooted.1, ht.rooted.2⟩
  parent id hid hne := by
    rw [h.parent?_eq]
    by_cases hnew : id = t.size
    · rw [if_pos hnew]
      exact ⟨p, hnew ▸ hp, rfl⟩
    · rw [if_neg hnew]
      rw [h.size] at hid
      exact ht.parent id (Nat.lt_of_le_of_ne (Nat.le_of_lt_succ hid) hnew) hne
  child q id := by
    rw [h.parent?_eq, h.children_eq hp, List.mem_append, ht.child]
    -- the new node is a child of `p` alone, and the others are children of whom they were
    by_cases hnew : id = t.size
    · rw [hnew, if_pos rfl, parent?_of_size_le (Nat.le_refl _), Option.some.injEq]
      by_cases hq : q = p
      · simp [hq]
      · simp [hq, Ne.symm hq]
    · rw [if_neg hnew]
      refine or_iff_left fun hmem => hnew ?_
      split at hmem
      · exact List.mem_singleton.mp hmem
      · exact absurd hmem List.not_mem_nil
  increasing q := by
    rw [h.children_eq hp, List.pairwise_append]
    refine ⟨ht.increasing q, ?_, fun c hc new hnew => ?_⟩
    · split
      · exact List.pairwise_singleton _ _
      · exact .nil
    · have hlt : c < t.size := lt_size_of_parent? ((ht.child q c).mp hc)
      split at hnew
      · exact List.mem_singleton.mp hnew ▸ hlt
      · exact absurd hnew List.not_mem_nil

end Buds

namespace Rewrites

variable {f : OutputTree → OutputTree} {g : OutputNode → OutputNode}

/-- Rewriting a node that keeps its links changes none. -/
theorem wellLinked (h : Rewrites f id g) (hparent : ∀ n, (g n).parent = n.parent)
    (hchildren : ∀ n, (g n).children = n.children) (ht : t.WellLinked) : (f t).WellLinked := by
  refine ht.congr (h.size t) (fun j => ?_) fun j => ?_
  · rw [parent?, parent?, h.node]
    split
    · rw [Option.bind_map]
      exact congrArg _ (funext hparent)
    · rfl
  · rw [children, children, h.node]
    by_cases hj : id = j
    · rw [if_pos hj]
      cases t.node? j with
      | none => rfl
      | some n => exact congrArg Array.toList (hchildren n)
    · rw [if_neg hj]

end Rewrites

/-- **An edit of a tree leaves a tree.** Attaching links the new node both ways, and relabelling
touches no link. -/
theorem WellLinked.edit (h : t.WellLinked) (he : e.node < t.size) : (e.apply t).WellLinked := by
  cases e with
  | attach p kind name => exact (Buds.attach kind name he).wellLinked he h
  | relabel id r => exact (r.rewrites id).wellLinked r.write_parent r.write_children h

end OutputTree

/-! ## Attributes -/

theorem OutputNode.lookup_setEntry (name value key : String) (entries : List (String × String)) :
    (setEntry name value entries).lookup key = ((name, value) :: entries).lookup key := by
  induction entries with
  | nil => rfl
  | cons entry entries ih =>
    obtain ⟨k, v⟩ := entry
    rw [setEntry]
    by_cases hk : k = name
    · rw [if_pos hk, hk, List.lookup_cons, List.lookup_cons, List.lookup_cons]
      cases key == name <;> rfl
    · rw [if_neg hk, List.lookup_cons, ih, List.lookup_cons, List.lookup_cons, List.lookup_cons]
      by_cases hkey : key = k
      · rw [hkey, beq_self_eq_true, beq_eq_false_iff_ne.mpr hk]
      · rw [beq_eq_false_iff_ne.mpr hkey]

/-- A name that is present stays where it is. -/
theorem OutputNode.names_setEntry_of_mem {name value : String} {entries : List (String × String)}
    (h : name ∈ entries.map Prod.fst) :
    (setEntry name value entries).map Prod.fst = entries.map Prod.fst := by
  induction entries with
  | nil => exact absurd h List.not_mem_nil
  | cons entry entries ih =>
    rw [setEntry]
    split
    · rfl
    · rename_i hne
      rw [List.map_cons, List.mem_cons] at h
      rw [List.map_cons, List.map_cons, ih (h.resolve_left (Ne.symm hne))]

/-- What is kept of attributes that are set one after the other: each name once, where it was set first, with
the value that was set last. -/
structure Retains (settings kept : List (String × String)) : Prop where
  unique : (kept.map Prod.fst).Nodup
  first : kept.map Prod.fst = (settings.map Prod.fst).eraseDups
  last : ∀ name, kept.lookup name = settings.reverse.lookup name

namespace Retains

variable {settings more kept : List (String × String)}

theorem nil : Retains [] [] := ⟨.nil, rfl, fun _ => rfl⟩

/-- **One more setting.** A name that is set already keeps its place, and gets the new value there. -/
theorem setEntry (h : Retains settings kept) (name value : String) :
    Retains (settings ++ [(name, value)]) (OutputNode.setEntry name value kept) := by
  -- which value counts does not depend on whether the name was there before; where it stands does
  have hlast (key : String) : (OutputNode.setEntry name value kept).lookup key =
      (settings ++ [(name, value)]).reverse.lookup key := by
    rw [OutputNode.lookup_setEntry, List.reverse_append, List.reverse_singleton, List.singleton_append,
      List.lookup_cons, List.lookup_cons, h.last]
  have hmem : name ∈ settings.map Prod.fst ↔ name ∈ kept.map Prod.fst := by
    rw [h.first, List.mem_eraseDups]
  have herase : ((settings ++ [(name, value)]).map Prod.fst).eraseDups =
      kept.map Prod.fst ++ ([name].removeAll (settings.map Prod.fst)).eraseDups := by
    rw [List.map_append, List.eraseDups_append, ← h.first]
    rfl
  by_cases hname : name ∈ kept.map Prod.fst
  · have hnames := @OutputNode.names_setEntry_of_mem name value kept hname
    refine ⟨hnames ▸ h.unique, ?_, hlast⟩
    have hnone : [name].removeAll (settings.map Prod.fst) = [] := by
      simpa [List.removeAll] using hmem.mpr hname
    rw [herase, hnone, hnames]
    exact (List.append_nil _).symm
  · have hnames : (OutputNode.setEntry name value kept).map Prod.fst = kept.map Prod.fst ++ [name] := by
      rw [OutputNode.setEntry_of_notMem hname, List.map_append]
      rfl
    refine ⟨?_, ?_, hlast⟩
    · rw [hnames]
      refine List.nodup_append.mpr ⟨h.unique, List.pairwise_singleton _ name, fun a ha b hb hab => ?_⟩
      exact hname (List.mem_singleton.mp hb ▸ hab ▸ ha)
    · have hnew : [name].removeAll (settings.map Prod.fst) = [name] := by
        simpa [List.removeAll] using mt hmem.mp hname
      rw [herase, hnew, hnames]
      rfl

/-- **More settings**, one after the other. -/
theorem foldl (h : Retains settings kept) :
    Retains (settings ++ more) (more.foldl (fun acc e => OutputNode.setEntry e.1 e.2 acc) kept) := by
  induction more generalizing settings kept with
  | nil => rwa [List.append_nil]
  | cons entry more ih =>
    rw [List.append_cons]
    exact ih (h.setEntry entry.1 entry.2)

end Retains

namespace OutputTree

variable {t t' : OutputTree} {kind : NodeKind} {name : String} {edits : List Edit} {e : Edit}

theorem size_le_edit (t : OutputTree) (e : Edit) : t.size ≤ (e.apply t).size := by
  cases e with
  | attach p kind name => exact Nat.le_of_lt (size_attach kind name ▸ Nat.lt_succ_self t.size)
  | relabel id r => exact Nat.le_of_eq ((r.rewrites id).size t).symm

/-- What is known of a tree after some edits. The attributes of a node are told by the edits that named it, in
their order, and those that named other nodes do not count. -/
structure Sound (edits : List Edit) (t : OutputTree) : Prop where
  linked : t.WellLinked
  retained : ∀ id n, t.node? id = some n → Retains (edits.flatMap (Edit.setsOn id)) n.attributes
  -- nothing is set on nodes that are still to come
  unset : ∀ id, t.size ≤ id → edits.flatMap (Edit.setsOn id) = []

theorem Sound.new (kind : NodeKind) (name : String) : Sound [] (new kind name) where
  linked := .new kind name
  retained
    | 0, _, rfl => .nil
    | _ + 1, _, hn => (nomatch hn)
  unset _ _ := rfl

/-- **One more edit.** What it sets on its node comes after all that was set there before, and
nothing is set on any other. -/
theorem Sound.edit (h : Sound edits t) (he : e.node < t.size) : Sound (edits ++ [e]) (e.apply t) := by
  have hsets (id : NodeId) : (edits ++ [e]).flatMap (Edit.setsOn id) =
      edits.flatMap (Edit.setsOn id) ++ e.setsOn id := by
    rw [List.flatMap_append, List.flatMap_singleton]
  refine ⟨h.linked.edit he, fun id n hn => ?_, fun id hid => ?_⟩
  · rw [hsets]
    cases e with
    | attach p kind name =>
      have hbuds := Buds.attach kind name he
      rw [Edit.setsOn, List.append_nil]
      rcases Nat.lt_or_ge id t.size with hlt | hge
      · -- an older node, perhaps the parent: it keeps its attributes
        obtain ⟨m, hm⟩ : ∃ m, t.node? id = some m := ⟨_, Array.getElem?_eq_getElem hlt⟩
        obtain ⟨cs, hcs⟩ := hbuds.grafted.extended.node hm
        obtain rfl : { m with children := cs } = n := Option.some.inj (hcs.symm.trans hn)
        exact h.retained id m hm
      · -- the new node has nothing set, and nobody can have set anything on it before
        have hlt : id < t.size + 1 := hbuds.size ▸ lt_size_of_node? hn
        obtain rfl : id = t.size := Nat.le_antisymm (Nat.le_of_lt_succ hlt) hge
        obtain rfl : OutputNode.fresh kind name (some p) = n :=
          Option.some.inj (hbuds.node.symm.trans hn)
        rw [h.unset _ hge]
        exact .nil
    | relabel j r =>
      have hwrites := r.rewrites j
      rw [Edit.apply, hwrites.node] at hn
      rw [Edit.setsOn]
      -- only the relabelled node gets something, and last of all
      by_cases hj : j = id
      · subst hj
        rw [if_pos rfl, Option.map_eq_some_iff] at hn
        obtain ⟨m, hm, rfl⟩ := hn
        rw [if_pos rfl, r.write_attributes]
        exact (h.retained j m hm).foldl
      · rw [if_neg hj] at hn
        rw [if_neg hj, List.append_nil]
        exact h.retained id n hn
  · -- a node that is not there yet is not edited
    have hsize : t.size ≤ id := Nat.le_trans (size_le_edit t e) hid
    rw [hsets, h.unset id hsize, List.nil_append]
    cases e with
    | attach p kind name => rfl
    | relabel j r => exact if_neg (Nat.ne_of_lt (Nat.lt_of_lt_of_le he hsize))

/-- **Any edits of a root leave a tree**, whose attributes are the ones that were set. -/
theorem edited_sound (h : edited? kind name edits = some t) : Sound edits t := by
  induction edits using List.reverseRecOn generalizing t with
  | nil =>
    obtain rfl : new kind name = t := Option.some.inj h
    exact .new kind name
  | append_singleton edits e ih =>
    rw [edited?_append_singleton, Option.bind_eq_some_iff] at h
    obtain ⟨before, hbefore, hedit⟩ := h
    obtain ⟨he, rfl⟩ := edit?_eq_some_iff.mp hedit
    exact (ih hbefore).edit he

end OutputTree

end FormSchema
