import FormSchema.FormFile.Assembly
import FormSchema.Proofs.Binding.Walk.Equations
import FormSchema.Proofs.Definition.Shapes
import Mathlib.Data.List.Forall2

/-!
# How forms come to be

A definition starts out bare and is grown by one insertion after another: a lookup key, an attribute, a
child that is itself complete. Whatever comes about in this way is well-formed and keeps what was inserted
in its order. Form files are assembled in the same way, so the same holds of every form that is read.

The relation between a definition and what was inserted is inductive, with one rule for each way of
growing. It records the order of the insertions and not their interleaving: an attribute that came
after a child is listed with the attributes all the same. This is as much as can be read off a
definition again, because attributes and children are stored apart. Two things follow by going
through the rules once each, that the shape is right and that nothing was lost or moved.

A child has to be complete when it is inserted, and stays as it is from then on. So what holds of a
root that was built holds of everything within it, and the statements about whole trees need no
induction of their own over insertions.

* `Definition.Built`, `Form.Built` — what has been inserted, in order.
* **`Definition.Built.wellFormed`**, **`Definition.Built.arranged`** — what was inserted is kept as it was.
* **`Draft.assemble_built`**, **`parseForm_built`** — assembling is inserting, in the order of the file.
* **`Form.obtainable_wellFormed`** — no form of another shape can be had.
* **`Registry.admitted_of_obtainable`** — so whatever registry holds such forms, a run over it may rely
  on the kinds.
-/

namespace FormSchema

/-! ## Insertions

There are five kinds of bare heads, one operation that sets a lookup key, one that adds an attribute
and one that adds a child. Failing operations leave nothing behind, so only the successful ones have
a rule. -/

/-- A head that nothing has been added to. -/
inductive Head.Fresh : Head → Prop where
  | attribute (id : Option String) (c : Cardinality) : Fresh (.attribute ⟨⟨id, none, .empty⟩, c⟩)
  | element (id : Option String) (c : Cardinality) : Fresh (.element ⟨⟨id, none, .empty⟩, c⟩)
  | choice (id : Option String) (c : Cardinality) : Fresh (.choice ⟨id, c, .empty⟩)
  | reference (target : FormKey) : Fresh (.reference ⟨target, .empty⟩)
  | extension (representation : String) : Fresh (.extension ⟨representation, .empty⟩)

/-- Sets the lookup key of an attribute or an element. Other heads have none. -/
def Head.withLookup (key : String) : Head → Head
  | .attribute i => .attribute ⟨{ i.toSubject with lookup := some key }, i.cardinality⟩
  | .element i => .element ⟨{ i.toSubject with lookup := some key }, i.cardinality⟩
  | h => h

/-- A definition that has been built up from a fresh one, with the attributes and the children that
were inserted in this order. Setting the lookup key leaves no trace in the two lists. A child has
itself been built, with lists of its own that the parent does not care about. -/
inductive Definition.Built : Definition → List (String × String) → List Definition → Prop where
  | fresh {head : Head} (h : head.Fresh) : Built (.leaf head) [] []
  | keyed {head : Head} {cs : List Definition} {attributes children} (key : String)
      (built : Built (.node head cs) attributes children) :
      Built (.node (head.withLookup key) cs) attributes children
  | attributed {d grown : Definition} {attributes children} {name value : String}
      (built : Built d attributes children) (h : d.withAttribute name value = .ok grown) :
      Built grown (attributes ++ [(name, value)]) children
  | child {d c grown : Definition} {attributes children} {below beneath}
      (built : Built d attributes children) (complete : Built c below beneath)
      (h : d.withChild c = .ok grown) : Built grown attributes (children ++ [c])

/-- A form that has been built up from an empty one, with the attributes and the children that were
inserted in this order. -/
inductive Form.Built : Form → List (String × String) → List Definition → Prop where
  | empty (key : FormKey) (source : String) : Built (.empty key source) [] []
  | attributed {f grown : Form} {attributes children} {name value : String}
      (built : Built f attributes children) (h : f.withAttribute name value = .ok grown) :
      Built grown (attributes ++ [(name, value)]) children
  | child {f grown : Form} {c : Definition} {attributes children} {below beneath}
      (built : Built f attributes children) (complete : c.Built below beneath)
      (h : f.withChild c = .ok grown) : Built grown attributes (children ++ [c])

/-- How a head keeps the children that were inserted: in their order, or in the order of the slots where
there is one for each kind. -/
def Head.Arranges : Head → List Definition → List Definition → Prop
  | .extension _, inserted, kept =>
    kept.Perm inserted ∧ kept.Pairwise fun a b => a.kind.slot < b.kind.slot
  | _, inserted, kept => kept = inserted

section Heads

variable (key : String) (attrs : OtherAttributes) (head : Head)

@[simp] theorem Head.attributes_withLookup : (head.withLookup key).attributes = head.attributes := by
  cases head <;> rfl

@[simp] theorem Head.hosts_withLookup (cs : List Definition) :
    (head.withLookup key).Hosts cs ↔ head.Hosts cs := by
  cases head <;> rfl

@[simp] theorem Head.arranges_withLookup (inserted kept : List Definition) :
    (head.withLookup key).Arranges inserted kept ↔ head.Arranges inserted kept := by
  cases head <;> rfl

@[simp] theorem Head.arranges_setAttributes (inserted kept : List Definition) :
    (head.setAttributes attrs).Arranges inserted kept ↔ head.Arranges inserted kept := by
  cases head <;> rfl

theorem Head.Fresh.attributes_eq {head : Head} (h : head.Fresh) : head.attributes = .empty := by
  cases h <;> rfl

theorem Head.arranges_nil : head.Arranges [] [] := by
  match head with
  | .attribute _ | .element _ | .choice _ | .reference _ => rfl
  | .extension _ => exact ⟨.nil, .nil⟩

theorem Head.Arranges.mem_iff {head : Head} {inserted kept : List Definition}
    (h : head.Arranges inserted kept) (c : Definition) : c ∈ kept ↔ c ∈ inserted := by
  match head, h with
  | .attribute _, h | .element _, h | .choice _, h | .reference _, h =>
    rw [show kept = inserted from h]
  | .extension _, ⟨h, _⟩ => exact h.mem_iff

end Heads

/-! ## What was inserted is kept

The attributes of a head are the inserted ones, entry by entry. The children are the inserted ones
in their order, with one exception: an extension point sorts what it wraps by kind. `Head.Arranges`
says both in one, so that the induction does not have to know which of the two it is looking at. -/

namespace Definition.Built

variable {d : Definition} {attributes : List (String × String)} {children : List Definition}

/-- **Built definitions are well-formed.** -/
theorem wellFormed (h : d.Built attributes children) : d.WellFormed := by
  induction h with
  | fresh h => exact .leaf (h.attributes_eq ▸ .empty)
  | keyed key _ ih =>
    obtain ⟨attributes, hosted, children⟩ := ih
    exact .node (by rw [Head.attributes_withLookup]; exact attributes)
      ((Head.hosts_withLookup ..).mpr hosted) children
  | attributed _ h ih => exact ih.withAttribute h
  | child _ _ h ih ihchild => exact ih.withChild ihchild h

theorem entries_eq (h : d.Built attributes children) : d.head.attributes.entries = attributes := by
  induction h with
  | fresh h => exact congrArg OtherAttributes.entries h.attributes_eq
  | keyed key _ ih => rw [← ih, Definition.head, Head.attributes_withLookup, Definition.head]
  | attributed _ h ih =>
    obtain ⟨attrs, hinsert, rfl⟩ := withAttribute_eq_ok h
    rw [Definition.head, Head.attributes_setAttributes, OtherAttributes.entries_insert hinsert, ih]
  | child _ _ h ih _ => rw [head_of_withChild h, ih]

/-- **Built definitions keep their children** in the order in which they were inserted, or by kind. -/
theorem arranged (h : d.Built attributes children) : d.head.Arranges children d.children := by
  induction h with
  | @fresh head h => exact head.arranges_nil
  | keyed key _ ih => exact (Head.arranges_withLookup ..).mpr ih
  | attributed _ h ih =>
    obtain ⟨attrs, -, rfl⟩ := withAttribute_eq_ok h
    exact (Head.arranges_setAttributes ..).mpr ih
  | @child d c _ _ inserted _ _ _ _ h ih _ =>
    obtain ⟨head, cs⟩ := d
    -- only an extension point puts the new child anywhere but at the end
    by_cases hkind : head.kind = .extension
    · match head with
      | .extension x =>
        obtain ⟨hperm, hslots⟩ := ih
        have hgrown := withChild_slots hslots h
        obtain ⟨-, rfl⟩ := withChild_extension h
        refine ⟨(c.insertBySlot_perm cs).trans ?_, hgrown⟩
        exact (hperm.cons c).trans (List.perm_append_singleton c inserted).symm
    · obtain ⟨-, rfl⟩ := withChild_plain hkind h
      match head with
      | .attribute _ | .element _ | .choice _ | .reference _ => exact congrArg (· ++ [c]) ih
      | .extension _ => exact absurd rfl hkind

/-- The children were complete when they were inserted. -/
theorem child_built (h : d.Built attributes children) :
    ∀ c ∈ d.children, ∃ below beneath, c.Built below beneath := by
  have hinserted : ∀ c ∈ children, ∃ below beneath, c.Built below beneath := by
    induction h with
    | fresh => exact nofun
    | keyed _ _ ih => exact ih
    | attributed _ _ ih => exact ih
    | child _ complete _ ih _ =>
      exact List.forall_mem_append.mpr ⟨ih, List.forall_mem_singleton.mpr ⟨_, _, complete⟩⟩
  exact fun c hc => hinserted c ((h.arranged.mem_iff c).mp hc)

end Definition.Built

namespace Form.Built

variable {f : Form} {attributes : List (String × String)} {children : List Definition}

theorem wellFormed (h : f.Built attributes children) : f.WellFormed := by
  induction h with
  | empty key source => exact .empty key source
  | attributed _ h ih => exact ih.withAttribute h
  | child _ complete h ih => exact ih.withChild complete.wellFormed h

theorem kept (h : f.Built attributes children) :
    f.attributes.entries = attributes ∧ f.children = children := by
  induction h with
  | empty => exact ⟨rfl, rfl⟩
  | attributed _ h ih =>
    obtain ⟨attrs, hinsert, rfl⟩ := withAttribute_eq_ok h
    exact ⟨by rw [OtherAttributes.entries_insert hinsert, ih.1], ih.2⟩
  | @child _ _ c _ _ _ _ _ _ h ih =>
    obtain ⟨-, rfl⟩ := withChild_eq_ok h
    exact ⟨ih.1, congrArg (· ++ [c]) ih.2⟩

theorem child_built (h : f.Built attributes children) :
    ∀ c ∈ f.children, ∃ below beneath, c.Built below beneath := by
  rw [h.kept.2]
  induction h with
  | empty => exact nofun
  | attributed _ _ ih => exact ih
  | child _ complete _ ih =>
    exact List.forall_mem_append.mpr ⟨ih, List.forall_mem_singleton.mpr ⟨_, _, complete⟩⟩

end Form.Built

/-! ## Everywhere in a tree

What has been shown of the root of a definition is carried to every definition within it. The
relation goes down from parents to children and passes through extension points like through
anything else. -/

/-- A definition stands somewhere within another one, or is that one. What an extension point wraps stands
within it. -/
inductive Definition.Within (d : Definition) : Definition → Prop where
  | here : Within d d
  | beneath {c e : Definition} (hc : c ∈ e.children) (h : Within d c) : Within d e

/-- A definition stands somewhere within a form. -/
def Form.Holds (f : Form) (d : Definition) : Prop := ∃ c ∈ f.children, d.Within c

theorem Definition.Built.within {d e : Definition} {attributes : List (String × String)}
    {children : List Definition} (he : e.Built attributes children) (h : d.Within e) :
    ∃ below beneath, d.Built below beneath := by
  induction h generalizing attributes children with
  | here => exact ⟨_, _, he⟩
  | beneath hc _ ih =>
    obtain ⟨_, _, hbuilt⟩ := he.child_built _ hc
    exact ih hbuilt

/-- The definition has been built, and what was inserted into it is kept in the order of insertion. -/
def Definition.Ordered (d : Definition) : Prop :=
  (∃ attributes children, d.Built attributes children) ∧
    ∀ attributes children, d.Built attributes children →
      d.head.attributes.entries = attributes ∧ d.head.Arranges children d.children

def Form.Ordered (f : Form) : Prop :=
  (∃ attributes children, f.Built attributes children) ∧
    ∀ attributes children, f.Built attributes children →
      f.attributes.entries = attributes ∧ f.children = children

/-- No child is passed over for its kind: resolving a group comes to the same whatever it would do at an
attribute or a reference, and binding the extension points of a reference binds all of its children. -/
def Definition.Undropped : Definition → Prop
  | .node (.choice c) cs => ∀ (σ γ : Type) (answer : Definition → StateM σ (Option (Winner γ)))
      (b : Binder σ γ) (place : Scope γ) (path : NodePath),
      resolveOr answer b place c.label cs 0 none path = resolve b place c.label cs 0 none path
  | .node (.reference _) cs => ∀ (σ γ : Type) (e : Engine σ γ) (entry : Entry σ γ) (scope : Scope γ)
      (path : NodePath), e.buildExtensions entry cs scope path = e.buildAll entry cs scope path
  | _ => True

theorem Definition.WellFormed.undropped {d : Definition} (h : d.WellFormed) : d.Undropped := by
  obtain ⟨-, hosted, children⟩ := h
  rename_i head cs
  match head with
  | .choice c =>
    exact fun σ γ answer b place path =>
      resolveOr_eq answer b place c.label cs hosted children 0 none path
  | .reference r => exact fun σ γ e entry scope path => e.buildExtensions_eq entry hosted scope path
  | .attribute _ | .element _ | .extension _ => trivial

/-! ## Assembling

A form file is first taken apart into a draft and then assembled, and assembling calls the same
operations as a program that builds forms by hand. The two loops, over other attributes and over
children, are treated for any type of thing that is inserted into; definitions and forms are the two
instances. What the loops carry along is a predicate on the thing and the list of what has been
inserted so far. -/

theorem DraftHead.assemble_built {config : Config} {draft : DraftHead} {head : Head}
    (h : draft.assemble config = .ok head) : (Definition.leaf head).Built [] [] := by
  -- attributes and elements are assembled alike, a lookup key being set on a fresh head
  have hitem : ∀ (make : Item → Head) {item : ItemDraft} {c : Cardinality},
      (∀ id, (make ⟨⟨id, none, .empty⟩, c⟩).Fresh) →
      (∀ id key, (make ⟨⟨id, none, .empty⟩, c⟩).withLookup key = make ⟨⟨id, some key, .empty⟩, c⟩) →
      (Definition.leaf (make ⟨⟨item.id, item.lookup, .empty⟩, c⟩)).Built [] [] := by
    intro make item c hfresh hkeyed
    obtain ⟨id, lookup, _⟩ := item
    cases lookup with
    | none => exact .fresh (hfresh id)
    | some key => exact hkeyed id key ▸ .keyed key (.fresh (hfresh id))
  match draft with
  | .attribute item =>
    obtain ⟨c, -, h⟩ := exists_ok_of_bind h
    cases h
    exact hitem .attribute (fun id => .attribute id c) fun _ _ => rfl
  | .element item =>
    obtain ⟨c, -, h⟩ := exists_ok_of_bind h
    cases h
    exact hitem .element (fun id => .element id c) fun _ _ => rfl
  | .choice item =>
    obtain ⟨c, -, h⟩ := exists_ok_of_bind h
    split at h
    · cases h
    · cases h
      exact .fresh (.choice item.id c)
  | .reference target =>
    cases h
    exact .fresh (.reference target)
  | .extension representation =>
    cases h
    exact .fresh (.extension representation)

/-- Attributes are inserted in the order in which they are listed, under the names they are listed with. -/
theorem foldlM_withOthers {α : Type} {insert : α → String → String → Except ModelError α}
    (Has : α → List (String × String) → Prop)
    (hinsert : ∀ {x y attributes name value}, Has x attributes → insert x name value = .ok y →
      Has y (attributes ++ [(name, value)]))
    {others : List (String × Yaml.Value)} {x y : α} {attributes : List (String × String)}
    (hx : Has x attributes)
    (h : others.foldlM (fun x (name, v) => do
      (insert x name (← attributeText name v)).mapError .model) x = (.ok y : Except FormFileError α)) :
    ∃ added, Has y (attributes ++ added) ∧ added.map Prod.fst = others.map Prod.fst := by
  induction others generalizing x attributes with
  | nil =>
    cases h
    exact ⟨[], by rwa [List.append_nil], rfl⟩
  | cons other others ih =>
    obtain ⟨next, hnext, h⟩ := exists_ok_of_bind h
    obtain ⟨text, -, hnext⟩ := exists_ok_of_bind hnext
    obtain ⟨added, hbuilt, hnames⟩ := ih (hinsert hx (ok_of_mapError hnext)) h
    refine ⟨(other.1, text) :: added, ?_, congrArg (other.1 :: ·) hnames⟩
    rwa [List.append_assoc] at hbuilt

namespace Draft

variable {config : Config}

/-- What a draft says to insert, and in which order. -/
def Says (config : Config) (others : List (String × Yaml.Value)) (drafts : List Draft)
    (attributes : List (String × String)) (children : List Definition) : Prop :=
  attributes.map Prod.fst = others.map Prod.fst ∧
    List.Forall₂ (fun draft d => draft.assemble config = .ok d) drafts children

/-- Children are assembled and inserted in the order in which they are listed. -/
theorem foldlM_withDrafts {α : Type} {insert : α → Definition → Except ModelError α}
    (Has : α → List Definition → Prop)
    (hinsert : ∀ {x y children c below beneath}, Has x children → c.Built below beneath →
      insert x c = .ok y → Has y (children ++ [c]))
    {drafts : List Draft} {x y : α} {children : List Definition}
    (hcomplete : ∀ draft ∈ drafts, ∀ c, draft.assemble config = .ok c →
      ∃ below beneath, c.Built below beneath)
    (hx : Has x children)
    (h : drafts.foldlM (fun x draft => do
      let c ← draft.assemble config
      (insert x c).mapError .model) x = (.ok y : Except FormFileError α)) :
    ∃ added, Has y (children ++ added) ∧
      List.Forall₂ (fun draft d => draft.assemble config = .ok d) drafts added := by
  induction drafts generalizing x children with
  | nil =>
    cases h
    exact ⟨[], by rwa [List.append_nil], .nil⟩
  | cons draft drafts ih =>
    obtain ⟨next, hnext, h⟩ := exists_ok_of_bind h
    obtain ⟨c, hc, hnext⟩ := exists_ok_of_bind hnext
    obtain ⟨hfirst, hrest⟩ := List.forall_mem_cons.mp hcomplete
    obtain ⟨_, _, hbelow⟩ := hfirst c hc
    obtain ⟨added, hbuilt, hadded⟩ := ih hrest (hinsert hx hbelow (ok_of_mapError hnext)) h
    exact ⟨c :: added, by rwa [List.append_assoc] at hbuilt, .cons hc hadded⟩

theorem assembleOnto_eq_foldlM (d : Definition) (drafts : List Draft) :
    assembleOnto config d drafts = drafts.foldlM (fun d draft => do
      let c ← draft.assemble config
      (d.withChild c).mapError .model) d := by
  induction drafts generalizing d with
  | nil => rfl
  | cons draft drafts ih =>
    rw [assembleOnto, List.foldlM_cons, bind_assoc]
    exact congrArg (draft.assemble config >>= ·) (funext fun c => congrArg _ (funext fun d => ih d))

/-- **Assembling is inserting.** A definition is built up from what its draft says, in that order. -/
theorem assemble_built {head : DraftHead} {others : List (String × Yaml.Value)} {drafts : List Draft}
    {d : Definition} (h : (node head others drafts).assemble config = .ok d) :
    ∃ attributes children, d.Built attributes children ∧
      Says config others drafts attributes children := by
  rw [assemble] at h
  obtain ⟨bare, hbare, h⟩ := exists_ok_of_bind h
  obtain ⟨d₀, hothers, h⟩ := exists_ok_of_bind h
  obtain ⟨attributes, hbuilt, hnames⟩ :=
    foldlM_withOthers (fun d attributes => d.Built attributes []) Definition.Built.attributed
      (DraftHead.assemble_built hbare) hothers
  -- the drafts beneath are smaller, so that they are known to build definitions
  have hcomplete : ∀ draft ∈ drafts, ∀ c, draft.assemble config = .ok c →
      ∃ below beneath, c.Built below beneath := by
    rintro ⟨head', others', drafts'⟩ hdraft c hc
    obtain ⟨below, beneath, hbelow, -⟩ := assemble_built hc
    exact ⟨below, beneath, hbelow⟩
  rw [assembleOnto_eq_foldlM] at h
  obtain ⟨children, hd, hchildren⟩ :=
    foldlM_withDrafts (fun d children => d.Built attributes children) Definition.Built.child hcomplete
      hbuilt h
  exact ⟨attributes, children, hd, hnames, hchildren⟩
termination_by drafts
decreasing_by
  have hlt := List.sizeOf_lt_of_mem hdraft
  rw [node.sizeOf_spec] at hlt
  omega

end Draft

theorem FormDraft.assemble_built {config : Config} {source : String} {draft : FormDraft} {f : Form}
    (h : draft.assemble config source = .ok f) :
    ∃ attributes children, f.Built attributes children ∧
      Draft.Says config draft.others draft.children attributes children := by
  obtain ⟨f₀, hothers, h⟩ := exists_ok_of_bind h
  obtain ⟨attributes, hbuilt, hnames⟩ :=
    foldlM_withOthers (fun f attributes => f.Built attributes []) Form.Built.attributed
      (.empty draft.key source) hothers
  have hcomplete : ∀ child ∈ draft.children, ∀ c, child.assemble config = .ok c →
      ∃ below beneath, c.Built below beneath := by
    rintro ⟨head, others, drafts⟩ - c hc
    obtain ⟨below, beneath, hbelow, -⟩ := Draft.assemble_built hc
    exact ⟨below, beneath, hbelow⟩
  obtain ⟨children, hf, hsaid⟩ :=
    Draft.foldlM_withDrafts (fun f children => f.Built attributes children) Form.Built.child hcomplete
      hbuilt h
  exact ⟨attributes, children, hf, hnames, hsaid⟩

/-- **Reading is inserting.** A form that is read from a text is built up from what the text says, in that
order. -/
theorem parseForm_built {config : Config} {source text : String} {f : Form}
    (h : parseForm config source text = .ok f) :
    ∃ draft attributes children, (Yaml.tree? text >>= FormDraft.ofTree?) = some draft ∧
      f.Built attributes children ∧
      Draft.Says config draft.others draft.children attributes children := by
  rw [parseForm] at h
  split at h
  · cases h
  · next draft hdraft =>
    obtain ⟨attributes, children, hbuilt, hsays⟩ := FormDraft.assemble_built h
    exact ⟨draft, attributes, children, hdraft, hbuilt, hsays⟩

/-! ## Forms that can be had

There are two ways to come by a form, building one through the operations and reading one from a
file. Both end in `Built`, so there is one theorem for both, about every definition at every depth. -/

/-- A form has been built up by insertions, or has been read from a text. -/
def Form.Obtainable (f : Form) : Prop :=
  (∃ attributes children, f.Built attributes children) ∨
    ∃ config source text, parseForm config source text = .ok f

theorem Form.Obtainable.built {f : Form} (h : f.Obtainable) :
    ∃ attributes children, f.Built attributes children := by
  cases h with
  | inl h => exact h
  | inr h =>
    obtain ⟨config, source, text, h⟩ := h
    obtain ⟨_, attributes, children, -, hbuilt, -⟩ := parseForm_built h
    exact ⟨attributes, children, hbuilt⟩

/-- **Only well-formed trees can be had.** Whether a form has been built by insertions or read from a text,
it is well-formed, it keeps what was inserted in the order of insertion, and so does every definition within
it. None of its definitions is passed over for its kind. -/
theorem Form.obtainable_wellFormed {f : Form} (h : f.Obtainable) :
    f.WellFormed ∧ f.Ordered ∧ ∀ d, f.Holds d → d.WellFormed ∧ d.Ordered ∧ d.Undropped := by
  obtain ⟨attributes, children, hbuilt⟩ := h.built
  refine ⟨hbuilt.wellFormed, ⟨⟨attributes, children, hbuilt⟩, fun _ _ h => h.kept⟩, fun d hd => ?_⟩
  obtain ⟨c, hc, hwithin⟩ := hd
  obtain ⟨_, _, hcomplete⟩ := hbuilt.child_built c hc
  obtain ⟨below, beneath, hd⟩ := hcomplete.within hwithin
  exact ⟨hd.wellFormed, ⟨⟨below, beneath, hd⟩, fun _ _ h => ⟨h.entries_eq, h.arranged⟩⟩,
    hd.wellFormed.undropped⟩

/-- Definitions stand only where they are permitted in a registry of forms that can be had. -/
theorem Registry.admitted_of_obtainable {r : Registry} (h : ∀ form ∈ r.forms, form.Obtainable) :
    r.Admitted := by
  refine admitted_of_wellFormed fun form hform => ?_
  obtain ⟨attributes, children, hbuilt⟩ := (h form hform).built
  exact hbuilt.wellFormed

/-! ## An example -/

namespace Sample

/-- A point at which a reference was inserted before an attribute. -/
def labelPoint : Definition :=
  .node (.extension ⟨"label", .empty⟩) [.leaf (.attribute (item "stamp" .optional)), shipTo]

def letter : Form :=
  ⟨⟨⟨"", "letter"⟩, "samples", ⟨[("note", "urgent")]⟩⟩,
    [.node (.element ⟨⟨some "page", some "pages", .empty⟩, .requiredMultiple⟩) [labelPoint]]⟩

/-- The form file of a letter without contents. -/
def letterText : String := "_version: 1\nid: letter\nnote: urgent\n"

theorem letter_built : letter.Built [("note", "urgent")] letter.children := by
  have hstamp : (Definition.leaf (.attribute (item "stamp" .optional))).Built [] [] :=
    .fresh (.attribute (some "stamp") .optional)
  have hshipTo : shipTo.Built [] [] := .fresh (.reference ⟨"", "address"⟩)
  have hpoint : labelPoint.Built [] [shipTo, .leaf (.attribute (item "stamp" .optional))] :=
    .child (.child (.fresh (.extension "label")) hshipTo rfl) hstamp rfl
  have hpage : (Definition.node (.element ⟨⟨some "page", some "pages", .empty⟩, .requiredMultiple⟩)
      [labelPoint]).Built [] [labelPoint] :=
    .child (.keyed "pages" (.fresh (.element (some "page") .requiredMultiple))) hpoint rfl
  exact .child (.attributed (.empty ⟨"", "letter"⟩ "samples") rfl) hpage rfl

end Sample

/-- A letter that is built and one that is read are well-formed and keep their note. The extension point of
the former was given its reference first, and keeps the attribute before it. -/
theorem Form.obtainable_wellFormed_letter :
    Sample.letter.WellFormed ∧ Sample.letter.Holds Sample.labelPoint ∧
      Sample.labelPoint.WellFormed ∧ Sample.labelPoint.Ordered ∧
    ∃ f, parseForm .standard "samples" Sample.letterText = .ok f ∧ f.WellFormed ∧ f.Ordered ∧
      f.attributes.entries = [("note", "urgent")] := by
  have hholds : Sample.letter.Holds Sample.labelPoint :=
    ⟨_, List.mem_singleton.mpr rfl, .beneath (List.mem_singleton.mpr rfl) .here⟩
  obtain ⟨hletter, -, hparts⟩ := Form.obtainable_wellFormed (Or.inl ⟨_, _, Sample.letter_built⟩)
  obtain ⟨hpoint, hordered, -⟩ := hparts Sample.labelPoint hholds
  have hread : (parseForm .standard "samples" Sample.letterText).toOption.map
      (fun f => f.attributes.entries) = some [("note", "urgent")] := by decide +kernel
  obtain ⟨f, hparse, hnote⟩ := exists_ok_of_toOption hread
  obtain ⟨hf, hkept, -⟩ := Form.obtainable_wellFormed (Or.inr ⟨_, _, _, hparse⟩)
  exact ⟨hletter, hholds, hpoint, hordered, f, hparse, hf, hkept, hnote⟩

end FormSchema
