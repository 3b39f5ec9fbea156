import FormSchema.Output.View
import FormSchema.Proofs.Json.Texts
import FormSchema.Proofs.Output.Traversal

/-!
# Views and their texts

The view of a tree is found by going down from the root, and no deeper than there are nodes. In a tree with
sound links that is deep enough, so the view shows every node with all that it says of itself. The text of the
view leaves out what a node has nothing to say about, and tells nothing of positions. It loses nothing else:
two trees have the same text exactly when they have the same view.

The claim has two halves that do not meet. On the side of the tree it has to be shown that the view is what the
nodes say, and that the bound on its depth cuts nothing off. On the side of the text it has to be shown that the
members of an object determine the fields they were made from. An absent field and an empty list leave no
member at all. They are told apart from fields that are there since a present field always has its member, under
a name of its own.

* `OutputTree.Depicts` — views of some nodes, each with views of its children.
* **`OutputTree.WellLinked.depicts_view`**, **`OutputTree.Depicts.unique`** — the view of a tree depicts it, and no
  other one does.
* **`OutputView.toJson_injective`** — what is left out of a text can be told from the rest.
* **`OutputTree.edited_texts`** — the texts of edited trees.
-/

namespace FormSchema

namespace OutputTree

variable {t : OutputTree} {ids : List NodeId} {views views' : List OutputView} {id : NodeId}

/-! ## Views of nodes

A view is computed with a bound on the depth, and an exhausted bound would look like a node without children.
The relation that follows has no bound. The two agree because the bound is the number of nodes, and the way down
to a node of number `k` has at most `k` steps. -/

/-- The views depict the nodes, in order: each what the node says of itself, and views of its children. -/
inductive Depicts (t : OutputTree) : List NodeId → List OutputView → Prop where
  | nil : Depicts t [] []
  | cons {id : NodeId} {ids : List NodeId} {n : OutputNode} {below others : List OutputView}
      (node : t.node? id = some n) (beneath : Depicts t n.children.toList below)
      (rest : Depicts t ids others) :
      Depicts t (id :: ids)
        (.node n.kind n.name n.value n.attributes (n.origin.map fun o => o.producer.label) below :: others)

/-- There is one view of a node at most. -/
theorem Depicts.unique (h : t.Depicts ids views) (h' : t.Depicts ids views') : views = views' := by
  induction h generalizing views' with
  | nil =>
    cases h'
    rfl
  | cons node _ _ ihbeneath ihrest =>
    cases h' with
    | cons node' beneath' rest' =>
      obtain rfl := Option.some.inj (node.symm.trans node')
      rw [ihbeneath beneath', ihrest rest']

theorem depicts_map {f : NodeId → OutputView} (h : ∀ id ∈ ids, t.Depicts [id] [f id]) :
    t.Depicts ids (ids.map f) := by
  induction ids with
  | nil => exact .nil
  | cons id ids ih =>
    have hrest := ih fun j hj => h j (List.mem_cons_of_mem id hj)
    have hfirst := h id List.mem_cons_self
    rw [List.map_cons]
    generalize f id = view at hfirst
    cases hfirst with
    | cons node beneath _ => exact .cons node beneath hrest

/-- Children come later than their parents, so there is nothing beneath the last node. -/
theorem WellLinked.depicts_viewFrom (h : t.WellLinked) {depth : Nat} (hid : id < t.size)
    (hdepth : t.size - id ≤ depth) : t.Depicts [id] [t.viewFrom depth id] := by
  induction depth generalizing id with
  | zero => exact absurd hdepth (Nat.not_le.mpr (Nat.sub_pos_of_lt hid))
  | succ depth ih =>
    obtain ⟨n, hn⟩ : ∃ n, t.node? id = some n := ⟨_, Array.getElem?_eq_getElem hid⟩
    rw [viewFrom, hn]
    refine .cons hn (depicts_map fun c hc => ?_) .nil
    rw [← children_of_node? hn] at hc
    have hlt : id < c := h.lt_of_child hc
    have hsize : c < t.size := lt_size_of_parent? ((h.child id c).mp hc)
    exact ih hsize (Nat.le_of_lt_succ (Nat.lt_of_lt_of_le (Nat.sub_lt_sub_left hid hlt) hdepth))

/-- **The view of a tree depicts its root**, and with it the whole tree. -/
theorem WellLinked.depicts_view (h : t.WellLinked) : t.Depicts [root] [t.view] :=
  h.depicts_viewFrom h.rooted.1 (Nat.sub_le _ _)

end OutputTree

/-! ## Views as values

A view becomes an object whose members stand in a fixed order, some of which may be missing. Looking each name up
gives back what was there of every field, and a field is determined by what is looked up. -/

namespace OutputView

/-- Induction over a view, with the hypothesis for every view beneath it. -/
@[elab_as_elim]
theorem induct {P : OutputView → Prop}
    (node : ∀ kind name value attributes definition children, (∀ v ∈ children, P v) →
      P (.node kind name value attributes definition children)) (v : OutputView) : P v :=
  @OutputView.rec P (fun views => ∀ v ∈ views, P v) node (by simp)
    (fun _ _ hv hvs => List.forall_mem_cons.mpr ⟨hv, hvs⟩) v

theorem toJsons_eq_map (views : List OutputView) : toJsons views = views.map toJson := by
  induction views with
  | nil => rfl
  | cons v views ih => rw [toJsons, ih, List.map_cons]

/-- A member that is there when there is a value for it. -/
def member? (name : String) (v : Option Json) : List (String × Json) := (v.map (name, ·)).toList

theorem lookup_member? (key name : String) (v : Option Json) :
    (member? name v).lookup key = if key = name then v else none := by
  cases v with
  | none => simp [member?]
  | some v =>
    by_cases h : key = name
    · subst h
      simp [member?]
    · simp [member?, List.lookup_cons, beq_eq_false_iff_ne.mpr h, h]

theorem textual_member? (name : String) {v : Option Json} (h : ∀ w ∈ v, w.Textual) :
    ∀ m ∈ member? name v, m.2.Textual := by
  cases v with
  | none => simp [member?]
  | some v => simpa [member?] using h

/-- The attributes of a node, unless there are none. -/
def attributesJson? (attributes : List (String × String)) : Option Json :=
  if attributes = [] then none else some (.object (attributes.map fun e => (e.1, .string e.2)))

def childrenJson? (children : List OutputView) : Option Json :=
  if children = [] then none else some (.array (children.map toJson))

/-- The members that a view becomes, in order. -/
def members : OutputView → List (String × Json)
  | .node kind name value attributes definition children =>
    member? "kind" (some (.string kind.name)) ++ member? "name" (some (.string name)) ++
      member? "value" (value.map .string) ++ member? "attributes" (attributesJson? attributes) ++
      member? "definition" (definition.map .string) ++ member? "children" (childrenJson? children)

theorem toJson_eq (v : OutputView) : v.toJson = .object v.members := by
  obtain ⟨kind, name, value, attributes, definition, children⟩ := v
  cases value <;> cases attributes <;> cases definition <;> cases children <;>
    simp [toJson, members, member?, attributesJson?, childrenJson?, toJsons_eq_map]

/-- **Every field of a view can be told from its members.** -/
theorem members_lookup (kind : NodeKind) (name : String) (value : Option String)
    (attributes : List (String × String)) (definition : Option String) (children : List OutputView) :
    ["kind", "name", "value", "attributes", "definition", "children"].map
      (fun key => (node kind name value attributes definition children).members.lookup key) =
    [some (.string kind.name), some (.string name), value.map .string, attributesJson? attributes,
      definition.map .string, childrenJson? children] := by
  simp [members, List.lookup_append, lookup_member?]

theorem NodeKind.name_injective {k k' : NodeKind} (h : k.name = k'.name) : k = k' := by
  revert h
  cases k <;> cases k' <;> decide

/-- Attributes are determined by the member they become, and by its absence. -/
theorem attributesJson?_injective {as as' : List (String × String)}
    (h : attributesJson? as = attributesJson? as') : as = as' := by
  have hinjective : Function.Injective fun e : String × String => (e.1, Json.string e.2) := by
    rintro ⟨n, v⟩ ⟨n', v'⟩ heq
    simpa using heq
  unfold attributesJson? at h
  split_ifs at h with has has'
  · rw [has, has']
  · exact hinjective.list_map (Json.object.inj (Option.some.inj h))

/-- Views are compared in the order of the children, and each is determined by its value. -/
theorem map_toJson_injective {cs cs' : List OutputView}
    (hcs : ∀ c ∈ cs, ∀ {c' : OutputView}, c.toJson = c'.toJson → c = c')
    (h : cs.map toJson = cs'.map toJson) : cs = cs' := by
  induction cs generalizing cs' with
  | nil => exact (List.map_eq_nil_iff.mp h.symm).symm
  | cons c cs ih =>
    cases cs' with
    | nil => cases h
    | cons c' cs' =>
      obtain ⟨hc, hrest⟩ := List.cons.inj h
      rw [hcs c List.mem_cons_self hc, ih (fun d hd => hcs d (List.mem_cons_of_mem c hd)) hrest]

theorem childrenJson?_injective {cs cs' : List OutputView}
    (hcs : ∀ c ∈ cs, ∀ {c' : OutputView}, c.toJson = c'.toJson → c = c')
    (h : childrenJson? cs = childrenJson? cs') : cs = cs' := by
  unfold childrenJson? at h
  split_ifs at h with hnil hnil'
  · rw [hnil, hnil']
  · exact map_toJson_injective hcs (Json.array.inj (Option.some.inj h))

theorem toJson_textual (v : OutputView) : v.toJson.Textual := by
  induction v using induct with
  | node kind name value attributes definition children ih =>
    have hattributes : ∀ w ∈ attributesJson? attributes, w.Textual := by
      intro w hw
      unfold attributesJson? at hw
      split_ifs at hw
      · cases hw
      · obtain rfl := Option.some.inj hw
        exact .object fun m hm => by
          obtain ⟨e, -, rfl⟩ := List.mem_map.mp hm
          exact .string e.2
    have hchildren : ∀ w ∈ childrenJson? children, w.Textual := by
      intro w hw
      unfold childrenJson? at hw
      split_ifs at hw
      · cases hw
      · obtain rfl := Option.some.inj hw
        exact .array fun v hv => by
          obtain ⟨c, hc, rfl⟩ := List.mem_map.mp hv
          exact ih c hc
    have htext : ∀ text : Option String, ∀ w ∈ text.map Json.string, w.Textual := by
      rintro (_ | text) w hw
      · cases hw
      · obtain rfl := Option.some.inj hw
        exact .string text
    rw [toJson_eq]
    -- the members of the object are optional, and each of them is textual if it is there
    refine .object ?_
    simp only [members, List.forall_mem_append]
    exact ⟨⟨⟨⟨⟨textual_member? _ (htext (some _)), textual_member? _ (htext (some _))⟩,
      textual_member? _ (htext value)⟩, textual_member? _ hattributes⟩,
      textual_member? _ (htext definition)⟩, textual_member? _ hchildren⟩

/-- **Views with the same value are the same**: what is missing was not there. -/
theorem toJson_injective {v w : OutputView} (h : v.toJson = w.toJson) : v = w := by
  induction v using induct generalizing w with
  | node kind name value attributes definition children ih =>
    obtain ⟨kind', name', value', attributes', definition', children'⟩ := w
    rw [toJson_eq, toJson_eq, Json.object.injEq] at h
    have hlookup := members_lookup kind name value attributes definition children
    rw [h, members_lookup] at hlookup
    simp only [List.cons.injEq, Option.some.injEq, Json.string.injEq, and_true] at hlookup
    obtain ⟨hkind, hname, hvalue, hattributes, hdefinition, hchildren⟩ := hlookup
    have hstring : Function.Injective (Option.map Json.string) :=
      Option.map_injective fun _ _ => Json.string.inj
    rw [NodeKind.name_injective hkind, hname, hstring hvalue, attributesJson?_injective hattributes,
      hstring hdefinition, childrenJson?_injective ih hchildren.symm]

end OutputView

/-! ## Texts of trees

Compact texts of values determine the values if these hold no numbers, and views hold none. -/

namespace OutputTree

/-- **Two trees have the same text exactly when they have the same view**, whatever edits led to them. The
view of a tree is what its nodes say from the root down. -/
theorem edited_texts {kind kind' : NodeKind} {name name' : String} {edits edits' : List Edit}
    {t t' : OutputTree} (h : edited? kind name edits = some t) (h' : edited? kind' name' edits' = some t') :
    (∀ v, t.Depicts [root] [v] ↔ v = t.view) ∧ (∀ v, t'.Depicts [root] [v] ↔ v = t'.view) ∧
      (t.toJson.compact = t'.toJson.compact ↔ t.view = t'.view) := by
  have hdepicts : ∀ {t : OutputTree}, t.WellLinked → ∀ v, t.Depicts [root] [v] ↔ v = t.view := by
    intro t ht v
    refine ⟨fun hv => List.head_eq_of_cons_eq (hv.unique ht.depicts_view), ?_⟩
    rintro rfl
    exact ht.depicts_view
  refine ⟨hdepicts (edited_sound h).linked, hdepicts (edited_sound h').linked, fun htext => ?_, fun hview => ?_⟩
  · exact OutputView.toJson_injective
      (Json.compact_inj t.view.toJson_textual t'.view.toJson_textual htext)
  · rw [toJson, toJson, hview]

end OutputTree

namespace Sample

/-- Two nodes beneath the root, and one beneath the first of them, with a quote for its value. -/
def byLevels : List Edit := [
  .attach 0 .element "total",
  .attach 0 .element "note",
  .attach 1 .attribute "unit",
  .relabel 3 (.text "\x22")]

/-- The same, each node followed by what is beneath it. -/
def byBranches : List Edit := [
  .attach 0 .element "total",
  .attach 1 .attribute "unit",
  .relabel 2 (.text "\x22"),
  .attach 0 .element "note"]

/-- The same, with an empty value on the last node. -/
def withEmpty : List Edit := byBranches ++ [.relabel 3 (.text "")]

def sheetOf (edits : List Edit) : OutputTree := (OutputTree.edited? .form "sheet" edits).getD default

/-- The values of the views right beneath a view. -/
def valuesBelow : OutputView → List (Option String)
  | .node _ _ _ _ _ children => children.map fun | .node _ _ value _ _ _ => value

end Sample

namespace OutputTree

/-- The nodes of the first two trees have different numbers. An empty value is not the same as none. -/
theorem edited_texts_sheet :
    edited? .form "sheet" Sample.byLevels = some (Sample.sheetOf Sample.byLevels) ∧
    edited? .form "sheet" Sample.byBranches = some (Sample.sheetOf Sample.byBranches) ∧
    edited? .form "sheet" Sample.withEmpty = some (Sample.sheetOf Sample.withEmpty) ∧
    (Sample.sheetOf Sample.byLevels).children root = [1, 2] ∧
    (Sample.sheetOf Sample.byBranches).children root = [1, 3] ∧
    (Sample.sheetOf Sample.byLevels).toJson.compact = (Sample.sheetOf Sample.byBranches).toJson.compact ∧
    (Sample.sheetOf Sample.byLevels).toJson.compact ≠ (Sample.sheetOf Sample.withEmpty).toJson.compact := by
  have hlevels : edited? .form "sheet" Sample.byLevels = some (Sample.sheetOf Sample.byLevels) := rfl
  have hbranches : edited? .form "sheet" Sample.byBranches = some (Sample.sheetOf Sample.byBranches) := rfl
  have hempty : edited? .form "sheet" Sample.withEmpty = some (Sample.sheetOf Sample.withEmpty) := rfl
  refine ⟨hlevels, hbranches, hempty, rfl, rfl, (edited_texts hlevels hbranches).2.2.mpr rfl, fun htext => ?_⟩
  have hview := (edited_texts hlevels hempty).2.2.mp htext
  exact absurd (congrArg Sample.valuesBelow hview) (by decide)

end OutputTree

end FormSchema
