import FormSchema.Proofs.Binding.Course.Scopes
import FormSchema.Proofs.Definition.Shapes

/-!
# Origins of nodes

Every node of an output tree has an origin: a definition, and the form that the definition belongs to.
All else that a node shows follows from its origin, but for the text of an instance, which is what the
binder says of it.

The form changes at the node of a reference. Definitions beneath it are those of the target, and beneath
every other node they belong to the form of that node, so that the form is back when a reference is
done.

What a node shows is known where it is emitted, and what it shows does not change afterwards. Three
facts are put together here for each node: its definition is well-formed, because it was reached
from the children of a registered form; its form is the one that the node above encloses; and its
text is what the binder said of the instance the node stands for. The first is an induction along
the course of the run, the others are read off the accounts of the course.

* `Definition.Names` — what the nodes of a definition are called.
* `OutputTree.Encloses` — the form that definitions beneath a node belong to.
* `OutputNode.RecordsForm`, `Task.RecordsDefinition` — what the root and the other nodes show.
* **`Task.Course.nodes_named`** — what definitions pass on to their children holds at all nodes.
* **`Engine.bind_records`** — the nodes of a run that succeeds are faithful records.
-/

namespace FormSchema

variable {σ γ : Type}

/-! ## What nodes show -/

/-- The name of the nodes of a definition: its id, else its lookup key, else a fixed name. The node of a
reference has the id of the form that it leads to. Extension points have no nodes of their own. -/
def Definition.Names (r : Registry) (name : String) : Definition → Prop
  | .node (.element i) _ => name = (i.id <|> i.lookup).getD "element"
  | .node (.attribute i) _ => name = (i.id <|> i.lookup).getD "attribute"
  | .node (.choice g) _ => name = g.id.getD "choice"
  | .node (.reference ref) _ => ∃ target, r.get? ref.target = some target ∧ name = target.key.id
  | .node (.extension _) _ => False

/-- The form that definitions belong to when they are bound beneath a node. For a group or an
instance it is the form that the node itself belongs to. -/
inductive OutputTree.Encloses (r : Registry) (t : OutputTree) (p : NodeId) : Form → Prop where
  -- beneath a reference it is the target
  | entered {target : Form} (leads : t.LeadsTo r p target) : Encloses r t p target
  -- beneath any other node it is the form of that node
  | kept {n : OutputNode} {source : Origin} (here : t.node? p = some n) (kind : n.kind ≠ .reference)
      (origin : n.origin = some source) : Encloses r t p source.form

/-- What the node of a root form shows. -/
structure OutputNode.RecordsForm (n : OutputNode) (form : Form) : Prop where
  kind : n.kind = .form
  parent : n.parent = none
  origin : n.origin = some ⟨form, .form form⟩
  name : n.name = form.key.id
  attributes : n.attributes = form.attributes.entries
  value : n.value = none

/-- What the node of a definition shows, which belongs to a form. -/
structure Task.RecordsDefinition (k : Task σ γ) (t : OutputTree) (record : List (Exchange γ))
    (id : NodeId) (n : OutputNode) (d : Definition) (form : Form) : Prop where
  kind : n.kind = d.kind.nodeKind
  origin : n.origin = some ⟨form, .definition d⟩
  name : d.Names k.registry n.name
  attributes : n.attributes = d.head.attributes.entries
  -- the text is what the binder says of the instance that the node stands for
  value : d.kind = .element ∨ d.kind = .attribute → ∃ found, k.Portrays t record id found
  silent : ¬ (d.kind = .element ∨ d.kind = .attribute) → n.value = none
  -- the form is the one that the parent encloses
  parent : ∃ p < id, n.parent = some p ∧ t.Encloses k.registry p form

/-! ## The root -/

/-- A run starts with a node that records the root form. -/
theorem Engine.start_records {form : Form} (hnames : form.attributes.names.Nodup) :
    ∃ m, (start form).node? OutputTree.root = some m ∧ m.RecordsForm form := by
  have hrewrites := (OutputTree.copyAttributes_rewrites OutputTree.root form.attributes).comp
    (OutputTree.setOrigin_rewrites OutputTree.root ⟨form, .form form⟩)
  have hnew : (OutputTree.new .form form.key.id).node? OutputTree.root =
      some (.fresh .form form.key.id none) := rfl
  exact ⟨_, hrewrites.node_self hnew, rfl, rfl, rfl, rfl,
    OutputTree.withAttributes_of_nodup hnames rfl, rfl⟩

section Runs

variable {k : Task σ γ} {context : γ} {t : OutputTree} {record : List (Exchange γ)}
  {xs : List (Event γ)} {n : OutputNode}

theorem Written.root_records (hw : Written k context t record xs)
    (hnames : k.root.attributes.names.Nodup) :
    ∃ n, t.node? OutputTree.root = some n ∧ n.RecordsForm k.root := by
  obtain ⟨m, hm, hrecords⟩ := Engine.start_records hnames
  obtain ⟨n, hn, hbare⟩ := hw.node?_start hm
  exact ⟨n, hn, {
    kind := (congrArg OutputNode.kind hbare).trans hrecords.kind
    parent := (congrArg OutputNode.parent hbare).trans hrecords.parent
    origin := (congrArg OutputNode.origin hbare).trans hrecords.origin
    name := (congrArg OutputNode.name hbare).trans hrecords.name
    attributes := (congrArg OutputNode.attributes hbare).trans hrecords.attributes
    value := (congrArg OutputNode.value hbare).trans hrecords.value }⟩

/-! ## Definitions of nodes -/

section Named

variable {A : Definition → Prop} {m : Nat} {job : Job γ} {scope : Scope γ} {path : NodePath}
  {z : NodeId} {before : List (Exchange γ)} {fin : Option RunError}

/-- The node of an instance has the name of its definition. Groups and references have names of
another kind, which depend on an id of their own or on the target. -/
theorem OutputNode.EmittedFor.names {r : Registry} {d : Definition} (h : n.EmittedFor d scope)
    (hkind : d.kind = .element ∨ d.kind = .attribute) : d.Names r n.name := by
  obtain ⟨head, cs⟩ := d
  match head with
  | .attribute i | .element i => exact h.name
  | .choice g | .reference ref | .extension x => rcases hkind with hkind | hkind <;> cases hkind

/-- **Definitions of nodes.** Every node is emitted for a definition and has its name. A property
that definitions pass on to their children, and that the children of all forms have, is one of these
definitions. The induction goes along the course. A job says of which definitions the property is
known, and the rules hand it on to the children of these and, at a reference, to the children of the
target. -/
theorem Task.Course.nodes_named (hchild : ∀ d, A d → ∀ c ∈ d.children, A c)
    (hforms : ∀ form ∈ k.registry.forms, ∀ c ∈ form.children, A c)
    (hc : k.Course m job scope path z before xs fin) :
    job.Within A → ∀ node ∈ Event.nodes xs,
      ∃ d, A d ∧ d.Names k.registry node.name ∧ ∃ scope : Scope γ, node.EmittedFor d scope := by
  induction hc with
  -- nothing is emitted
  | nil | extension | shownNil | wonFault =>
    intro _ node hnode
    cases hnode
  | cons _ _ ihfirst ihrest =>
    intro hA
    rw [Event.nodes_append]
    exact List.forall_mem_append.mpr ⟨ihfirst (hA _ List.mem_cons_self),
      ihrest fun c hc => hA c (List.mem_cons_of_mem _ hc)⟩
  | halt _ ih => exact fun hA => ih (hA _ List.mem_cons_self)
  | attributes _ ih => exact fun hA => ih ⟨hA, Or.inr rfl⟩
  | elements _ ih => exact fun hA => ih ⟨hA, Or.inl rfl⟩
  -- questions only
  | absent | fault =>
    intro _
    rw [Event.nodes_map_asked]
    nofun
  | group _ _ _ ih =>
    intro hA
    rw [Event.nodes_append, Event.nodes_map_asked]
    exact ih hA
  -- the children of a target are those of a form, whoever refers to it
  | reference known emitted _ ih =>
    intro hA
    have hname := emitted.name.trans (congrArg FormKey.id (Registry.key_of_get? known).symm)
    exact List.forall_mem_cons.mpr ⟨⟨_, hA, ⟨_, known, hname⟩, _, emitted⟩,
      ih (hforms _ (Registry.mem_forms_of_get? known))⟩
  | shownCons emitted _ _ _ ihinside ihothers =>
    rintro ⟨hA, hkind⟩
    rw [List.cons_append, Event.nodes_emitted, Event.nodes_append]
    exact List.forall_mem_cons.mpr ⟨⟨_, hA, emitted.names hkind, _, emitted⟩,
      List.forall_mem_append.mpr ⟨ihinside (hchild _ hA), ihothers ⟨hA, hkind⟩⟩⟩
  | shownHalt emitted _ _ ih =>
    rintro ⟨hA, hkind⟩
    exact List.forall_mem_cons.mpr ⟨⟨_, hA, emitted.names hkind, _, emitted⟩, ih (hchild _ hA)⟩
  | wonElement _ ih => exact fun hA => ih ⟨hA, Or.inl rfl⟩
  | wonGroup alternative emitted _ ih =>
    intro hA
    exact List.forall_mem_cons.mpr ⟨⟨_, hA, emitted.name, _, emitted⟩,
      ih (hchild _ hA _ (List.mem_of_getElem? alternative))⟩

end Named

/-! ## Enclosing forms -/

theorem OutputTree.exists_node_of_formAt? {r : Registry} {p : NodeId} {form : Form}
    (h : t.formAt? r p = some form) : ∃ m, t.node? p = some m := by
  cases hnode : t.node? p with
  | none =>
    rw [formAt?, hnode] at h
    cases h
  | some m => exact ⟨m, rfl⟩

/-- The form beneath a node that was emitted for a definition. -/
theorem OutputNode.EmittedFor.encloses {r : Registry} {d : Definition} {scope : Scope γ} {p : NodeId}
    {form : Form} (h : n.EmittedFor d scope) (hn : t.node? p = some n)
    (hform : t.formAt? r p = some form) : t.Encloses r p form := by
  rw [OutputTree.formAt?, hn, Option.bind_some, h.origin] at hform
  obtain ⟨head, cs⟩ := d
  cases head with
  | reference ref => exact .entered ⟨scope.form, ref, cs, ⟨n, hn, h.kind, h.origin⟩, hform⟩
  | _ =>
    cases hform
    refine .kept hn (fun hkind => ?_) h.origin
    rw [h.kind] at hkind
    cases hkind

/-- The form beneath the root is the root form. -/
theorem Written.encloses_root {r : Registry} {form : Form} (hw : Written k context t record xs)
    (hform : t.formAt? r OutputTree.root = some form) : t.Encloses r OutputTree.root form := by
  obtain ⟨n, hn, hkind, -, horigin⟩ := hw.node?_root
  rw [hw.formAt?_root] at hform
  cases hform
  exact .kept hn (by rw [hkind]; decide) horigin

/-! ## Whole runs -/

namespace Task

variable {fin : Option RunError} {id : NodeId}

section Body

variable (hc : k.Course k.limit (.all k.root.children) (.top k.root context OutputTree.root)
    (.single k.root.label) 1 (k.prelude context) xs fin)
  (hw : Written k context t record xs)

include hc hw

/-- Every node but the root records what it was emitted for. -/
theorem Course.recorded (hn : t.node? id = some n) (hid : id ≠ OutputTree.root) :
    k.Records t record id := by
  refine (hc.moves_top hw).records id (Nat.pos_of_ne_zero hid) ?_
  rw [List.nil_append, ← hw.size]
  exact OutputTree.lt_size_of_node? hn

/-- The form that a scope shows is the one that the node of the scope encloses. -/
theorem Course.encloses {p : NodeId} {form : Form} (hform : t.formAt? k.registry p = some form) :
    t.Encloses k.registry p form := by
  by_cases hp : p = OutputTree.root
  · subst hp
    exact hw.encloses_root hform
  · obtain ⟨m, hm⟩ := OutputTree.exists_node_of_formAt? hform
    obtain ⟨m', d, scope, hm', hfor, -⟩ := hc.recorded hw hm hp
    exact hfor.encloses hm' hform

/-- Parents stand before their children. -/
theorem Course.parent_lt {p : NodeId} (hn : t.node? id = some n) (hp : n.parent = some p) :
    p < id := by
  refine (hc.moves_top hw).past.parents id ?_ p (OutputTree.parent?_of_node? hn hp)
  rw [List.nil_append, ← hw.size]
  exact OutputTree.lt_size_of_node? hn

/-- Nodes of well-formed forms are faithful records. What was emitted is in the tree, and what is
emitted records the definition it stands for. -/
theorem Course.records (hforms : ∀ form ∈ k.registry.forms, form.WellFormed)
    (hroot : k.root ∈ k.registry.forms) (hn : t.node? id = some n) (hid : id ≠ OutputTree.root) :
    ∃ d form, k.RecordsDefinition t record id n d form := by
  obtain ⟨n', d, scope, hn', hfor, hform, hportrays⟩ := hc.recorded hw hn hid
  obtain rfl : n = n' := Option.some.inj (hn.symm.trans hn')
  -- the definition is well-formed, since it comes from a well-formed form
  obtain ⟨d', hshape, hname, scope', hfor'⟩ := hc.nodes_named
    (fun d hd => (by cases hd with | node _ _ children => exact children))
    (fun form hf => (hforms form hf).children) (hforms _ hroot).children n.bare
    (hw.bare_mem_nodes hn hid)
  obtain rfl : d = d' := by
    have horigin := Option.some.inj (hfor.origin.symm.trans hfor'.origin)
    exact Producer.definition.inj (congrArg Origin.producer horigin)
  have hdistinct : d.head.attributes.names.Nodup := by
    cases hshape with
    | node attributes _ _ => exact attributes.distinct
  exact ⟨d, scope.form, {
    kind := hfor.kind
    origin := hfor.origin
    name := hname
    attributes := hfor.attributes hdistinct
    value := hportrays
    silent := hfor.silent
    parent := ⟨scope.parent, hc.parent_lt hw hn hfor.parent, hfor.parent, hc.encloses hw hform⟩ }⟩

end Body

/-- When a run succeeds, its nodes record the root form and definitions. -/
theorem Goes.records {tree : OutputTree} (hforms : ∀ form ∈ k.registry.forms, form.WellFormed)
    (hroot : k.root ∈ k.registry.forms) (h : k.Goes (.ok tree) t record) :
    (∃ n, tree.node? OutputTree.root = some n ∧ n.RecordsForm k.root) ∧
    ∀ id n, tree.node? id = some n → id ≠ OutputTree.root →
      ∃ d form, k.RecordsDefinition tree record id n d form := by
  cases h with
  | @finished context _ xs source course nodes =>
    have hw : Written k context t
        (k.prelude context ++ (Event.calls xs ++ [.finished k.root t])) xs := by
      refine written_around _ nodes fun x hx => ?_
      rw [List.mem_singleton.mp hx]
      rfl
    exact ⟨hw.root_records (hforms _ hroot).attributes.distinct,
      fun id n hn hid => course.records hw hforms hroot hn hid⟩

end Task

end Runs

namespace Engine

/-- **Every node is a faithful record.** When a run without builders succeeds, the root of the tree shows
the root form: its id, its attributes, no text, and the form itself as the origin. Every other node has a
definition of its kind as its origin, and shows the name and the attributes of that definition, of a
reference and not of its target, but for the name, which is the id of the target. The nodes of elements
and attributes have the text that the binder gives for their instance, and others have none. The form of
an origin is the target where the parent is the node of a reference, and that of the parent's origin
elsewhere. Attributes of well-formed forms have distinct names, and no other forms can be built. -/
theorem bind_records {r : Registry} (hforms : ∀ form ∈ r.forms, form.WellFormed) (limit : Nat)
    (b : Binder σ γ) (key : FormKey) (s : σ) {t : OutputTree}
    (h : ((equipped r limit [] b).bind key s).1 = .ok t) :
    ∃ root, r.get? key = some root ∧
      (∃ n, t.node? OutputTree.root = some n ∧ n.RecordsForm root) ∧
      ∀ id n, t.node? id = some n → id ≠ OutputTree.root → ∃ d form,
        Task.RecordsDefinition ⟨r, limit, b, s, root⟩ t (exchanges r limit [] b key s) id n d form := by
  cases hget : r.get? key with
  | none =>
    rw [bind_missing (by exact hget)] at h
    cases h
  | some root =>
    have hgoes := bind_course ⟨r, limit, b, s, root⟩ hget
    rw [h] at hgoes
    exact ⟨root, rfl, hgoes.records hforms (Registry.mem_forms_of_get? hget)⟩

end Engine

namespace Sample

/-- A place to go to. -/
def place : Form := ⟨⟨⟨"", "place"⟩, "samples", ⟨[("style", "postal")]⟩⟩,
  [.leaf (.element (item "city" .required))]⟩

/-- A box with the place that it goes to and, after that, its weight. -/
def delivery : Form := ⟨⟨⟨"", "delivery"⟩, "samples", ⟨[("carrier", "post")]⟩⟩,
  [.node (.element (item "box" .required))
    [.leaf (.reference ⟨⟨"", "place"⟩, ⟨[("role", "to")]⟩⟩),
      .leaf (.element ⟨⟨none, some "weight", .empty⟩, .required⟩)]]⟩

def deliveries : Registry := ⟨[place, delivery]⟩

def courier : Binder Unit String :=
  (Script.mk "script" true [] [("box", .list ["small"]), ("city", .list ["Paris"]),
    ("weight", .list ["heavy"])] [] none []).binder fun _ s => s

theorem deliveries_wellFormed : ∀ form ∈ deliveries.forms, form.WellFormed := by
  have hcity : (Definition.leaf (.element (item "city" .required))).WellFormed := .leaf .empty
  have hto : (Definition.leaf (.reference ⟨⟨"", "place"⟩, ⟨[("role", "to")]⟩⟩)).WellFormed :=
    .leaf ⟨by decide, by decide⟩
  have hweight : (Definition.leaf (.element ⟨⟨none, some "weight", .empty⟩, .required⟩)).WellFormed :=
    .leaf .empty
  have hplace : place.WellFormed :=
    ⟨⟨by decide, by decide⟩, by decide, List.forall_mem_singleton.mpr hcity⟩
  have hdelivery : delivery.WellFormed :=
    ⟨⟨by decide, by decide⟩, by decide, List.forall_mem_singleton.mpr
      (.node .empty trivial (List.forall_mem_cons.mpr ⟨hto, List.forall_mem_singleton.mpr hweight⟩))⟩
  exact List.forall_mem_cons.mpr ⟨hplace, List.forall_mem_singleton.mpr hdelivery⟩

end Sample

namespace Engine

/-- The city is one of the form of places, which the reference is named after; the weight, which comes
next, is one of the form of deliveries again. -/
theorem bind_records_deliveries :
    ∃ t, ((equipped Sample.deliveries 1 [] Sample.courier).bind ⟨"", "delivery"⟩ ()).1 = .ok t ∧
      (t.nodes.toList.map fun n => (n.name, n.attributes, n.value, n.origin.map (·.form.key.id))) =
        [("delivery", [("carrier", "post")], none, some "delivery"),
          ("box", [], some "small", some "delivery"),
          ("place", [("role", "to")], none, some "delivery"),
          ("city", [], some "Paris", some "place"),
          ("weight", [], some "heavy", some "delivery")] ∧
      (∃ n, t.node? OutputTree.root = some n ∧ n.RecordsForm Sample.delivery) ∧
      ∀ id n, t.node? id = some n → id ≠ OutputTree.root → ∃ d form,
        Task.RecordsDefinition ⟨Sample.deliveries, 1, Sample.courier, (), Sample.delivery⟩ t
          (exchanges Sample.deliveries 1 [] Sample.courier ⟨"", "delivery"⟩ ()) id n d form := by
  have hshown : ((equipped Sample.deliveries 1 [] Sample.courier).bind
      ⟨"", "delivery"⟩ ()).1.toOption.map (fun t => t.nodes.toList.map fun n =>
        (n.name, n.attributes, n.value, n.origin.map (·.form.key.id))) =
      some [("delivery", [("carrier", "post")], none, some "delivery"),
        ("box", [], some "small", some "delivery"),
        ("place", [("role", "to")], none, some "delivery"),
        ("city", [], some "Paris", some "place"),
        ("weight", [], some "heavy", some "delivery")] := by cbv
  cases h : ((equipped Sample.deliveries 1 [] Sample.courier).bind ⟨"", "delivery"⟩ ()).1 with
  | error err =>
    rw [h] at hshown
    cases hshown
  | ok t =>
    rw [h] at hshown
    have hget : Sample.deliveries.get? ⟨"", "delivery"⟩ = some Sample.delivery := rfl
    obtain ⟨root, hroot, hform, hdefinitions⟩ :=
      bind_records Sample.deliveries_wellFormed 1 Sample.courier ⟨"", "delivery"⟩ () h
    obtain rfl := Option.some.inj (hget.symm.trans hroot)
    exact ⟨t, rfl, Option.some.inj hshown, hform, hdefinitions⟩

end Engine

end FormSchema
