import FormSchema.Binding.Engine
import FormSchema.Registry.Basic

/-!
# The shape of definitions

What a definition promises to those that walk it: which kinds stand beneath which, that an extension
point wraps at most one definition of each kind, and that attributes have names of their own. The type of
definitions admits any tree, so none of this is free: it holds because the checked ways to grow a
definition look at the kind of a child before they take it. Each of them is shown to keep the whole promise
up, and with that every definition that is grown from bare ones has it.

Resolving a group and binding a reference rely on the promise. They pass over children of certain kinds,
which is no loss where such children cannot stand, and this is said without reference to kinds at all:
what they would do at such a child makes no difference.

* `Definition.WellFormed`, `Form.WellFormed` — the promise, for every definition of a tree.
* **`Definition.WellFormed.withAttribute`**, **`Definition.WellFormed.withChild`** — growing keeps it up.
* `Definition.Admitted`, `Registry.Admitted` — the part of it that is about kinds alone, and
  **`Registry.admitted_of_wellFormed`**, that it is a part of it.
* **`Definition.withChild_slots`** — what an extension point wraps stands in the order of the slots.
* **`Definition.resolveOr_eq`** — resolving a group never comes to an attribute or a reference.
* **`Engine.buildExtensions_eq`** — beneath a reference everything is dispatched.
-/

namespace FormSchema

/-! ## Well-formed definitions

The promise has three parts. Other attributes have distinct names, and none of them is a word of the
schema. What stands beneath a head is of the kinds that the head hosts; beneath an extension point
there is moreover at most one child of each kind, which is a condition on the children together and
not on each of them. And the same holds further down. The predicate is inductive over the tree, so
that having it for a definition means having it for all that stands within. -/

/-- The names are distinct, and none of them belongs to the schema. -/
structure OtherAttributes.WellFormed (a : OtherAttributes) : Prop where
  distinct : a.names.Nodup
  unreserved : ∀ name ∈ a.names, name ∉ reservedNames

/-- Whether definitions may stand together beneath a head. Attributes and references take extension
points only, groups take alternatives and extension points, elements take anything, and an extension
point takes one child of each kind. -/
def Head.Hosts : Head → List Definition → Prop
  | .attribute _, cs | .reference _, cs => ∀ c ∈ cs, c.kind = .extension
  | .choice _, cs => ∀ c ∈ cs, c.kind = .element ∨ c.kind = .choice ∨ c.kind = .extension
  | .element _, _ => True
  | .extension _, cs => (cs.map Definition.kind).Nodup

/-- Everywhere in a definition, attributes and children are as they may be. -/
inductive Definition.WellFormed : Definition → Prop where
  | node {head : Head} {cs : List Definition} (attributes : head.attributes.WellFormed)
      (hosted : head.Hosts cs) (children : ∀ c ∈ cs, WellFormed c) : WellFormed (.node head cs)

/-- Everywhere in a form, attributes and children are as they may be. -/
structure Form.WellFormed (f : Form) : Prop where
  attributes : f.attributes.WellFormed
  hosted : ∀ d ∈ f.children, d.kind = .element ∨ d.kind = .choice ∨ d.kind = .reference
  children : ∀ d ∈ f.children, d.WellFormed

/-! ### Kinds alone

Attributes are asked for where an element is built, and nowhere else, as long as no attribute stands where
it may not. For this only the kinds matter.

The weaker promise asks of every child by itself whether it is permitted, and forgets the attributes
and the slots. It is what the proofs about runs start from; that it follows from the full promise is
the only link between the two. -/

/-- Everywhere in a definition, the kinds of the children are permitted beneath their parent. -/
inductive Definition.Admitted : Definition → Prop where
  | node {head : Head} {cs : List Definition} (permitted : ∀ c ∈ cs, head.permits c.kind = true)
      (children : ∀ c ∈ cs, Admitted c) : Admitted (.node head cs)

/-- Beneath an attribute no attribute is permitted. -/
theorem Definition.Admitted.no_attributes {d : Definition} (h : d.Admitted)
    (hkind : d.kind = .attribute) : ∀ c ∈ d.children, c.kind ≠ .attribute := by
  obtain ⟨head, cs⟩ := d
  obtain ⟨permitted, -⟩ := h
  intro c hc hattribute
  have hpermits := permitted c hc
  rw [hattribute] at hpermits
  cases head <;> cases hkind
  cases hpermits

/-- In all registered forms the definitions stand where they are permitted. -/
def Registry.Admitted (r : Registry) : Prop :=
  ∀ form ∈ r.forms, ∀ d ∈ form.children, Form.permits d.kind = true ∧ d.Admitted

/-- Directly beneath a form no attribute is permitted. -/
theorem Registry.Admitted.no_attributes {r : Registry} (h : r.Admitted) {form : Form}
    (hform : form ∈ r.forms) : ∀ c ∈ form.children, c.kind ≠ .attribute := by
  intro c hc hattribute
  have hpermits := (h form hform c hc).1
  rw [hattribute] at hpermits
  cases hpermits

/-- What may stand together beneath a head may stand there one by one. -/
theorem Head.Hosts.permits {head : Head} {cs : List Definition} (h : head.Hosts cs) :
    ∀ c ∈ cs, head.permits c.kind = true := by
  match head, h with
  | .attribute _, h | .reference _, h | .choice _, h => exact fun c hc => decide_eq_true (h c hc)
  | .element _, _ | .extension _, _ => exact fun _ _ => rfl

theorem Definition.WellFormed.admitted {d : Definition} (h : d.WellFormed) : d.Admitted := by
  induction h with
  | node _ hosted _ ih => exact .node hosted.permits ih

/-- In well-formed forms definitions stand where they are permitted. -/
theorem Registry.admitted_of_wellFormed {r : Registry} (h : ∀ form ∈ r.forms, form.WellFormed) :
    r.Admitted := fun form hform d hd =>
  ⟨decide_eq_true ((h form hform).hosted d hd), ((h form hform).children d hd).admitted⟩

/-! ## Growing

Each way of growing a definition either fails or gives back the definition with one thing more in
it. The lemmas here say first what a success gives: the attributes with one entry more, the children
with one child more, at their end or in its slot. Then the promise is kept because the guard that
was passed is exactly the clause of the promise that the new thing could have broken. -/

theorem OtherAttributes.WellFormed.empty : OtherAttributes.empty.WellFormed := ⟨.nil, nofun⟩

theorem OtherAttributes.WellFormed.insert {a b : OtherAttributes} {name value : String}
    (ha : a.WellFormed) (h : a.insert name value = .ok b) : b.WellFormed := by
  have hnames : b.names = a.names ++ [name] := names_insert h
  rw [OtherAttributes.insert] at h
  split at h
  · cases h
  · next hreserved =>
    split at h
    · cases h
    · next hnew =>
      refine ⟨?_, fun n hn => ?_⟩
      · -- the new name is not among the old ones, since the insertion would have refused it
        rw [hnames]
        refine List.nodup_append.mpr ⟨ha.distinct, List.pairwise_singleton _ name, ?_⟩
        intro n hn m hm heq
        rw [List.mem_singleton.mp hm] at heq
        exact hnew (heq ▸ hn)
      · -- nor is it reserved, which was asked first
        rw [hnames, List.mem_append, List.mem_singleton] at hn
        cases hn with
        | inl hn => exact ha.unreserved n hn
        | inr hn => exact hn ▸ hreserved

theorem OtherAttributes.entries_insert {a b : OtherAttributes} {name value : String}
    (h : a.insert name value = .ok b) : b.entries = a.entries ++ [(name, value)] := by
  rw [OtherAttributes.insert] at h
  split at h
  · cases h
  · split at h
    · cases h
    · cases h
      rfl

/-- Errors are renamed, results are not. -/
theorem ok_of_mapError {ε ε' α : Type} {f : ε → ε'} {x : Except ε α} {a : α}
    (h : x.mapError f = .ok a) : x = .ok a := by
  cases x with
  | error cause => cases h
  | ok b =>
    cases h
    rfl

theorem exists_ok_of_bind {ε α β : Type} {x : Except ε α} {f : α → Except ε β} {b : β}
    (h : (x >>= f) = .ok b) : ∃ a, x = .ok a ∧ f a = .ok b := by
  cases x with
  | error cause => cases h
  | ok a => exact ⟨a, rfl, h⟩

theorem OtherAttributes.insert_of_add {a b : OtherAttributes} {name value : String}
    (h : a.add name value = .ok b) : a.insert name value = .ok b := ok_of_mapError h

theorem exists_ok_of_map {ε α β : Type} {x : Except ε α} {f : α → β} {b : β}
    (h : x.map f = .ok b) : ∃ a, x = .ok a ∧ b = f a := by
  cases x with
  | error cause => cases h
  | ok a =>
    cases h
    exact ⟨a, rfl, rfl⟩

@[simp] theorem Head.attributes_setAttributes (h : Head) (attrs : OtherAttributes) :
    (h.setAttributes attrs).attributes = attrs := by
  cases h <;> rfl

@[simp] theorem Head.hosts_setAttributes (h : Head) (attrs : OtherAttributes) (cs : List Definition) :
    (h.setAttributes attrs).Hosts cs ↔ h.Hosts cs := by
  cases h <;> rfl

namespace Definition

/-- An attribute that is added stands after the others. -/
theorem withAttribute_eq_ok {d grown : Definition} {name value : String}
    (h : d.withAttribute name value = .ok grown) :
    ∃ attrs, d.head.attributes.insert name value = .ok attrs ∧
      grown = .node (d.head.setAttributes attrs) d.children := by
  obtain ⟨head, cs⟩ := d
  obtain ⟨attrs, hadd, rfl⟩ := exists_ok_of_map h
  exact ⟨attrs, OtherAttributes.insert_of_add hadd, rfl⟩

theorem insertBySlot_perm (d : Definition) (cs : List Definition) :
    (d.insertBySlot cs).Perm (d :: cs) := by
  induction cs with
  | nil => exact .refl _
  | cons c cs ih =>
    rw [insertBySlot]
    split
    · exact .refl _
    · exact (ih.cons c).trans (.swap d c cs)

theorem mem_insertBySlot {c d : Definition} {ds : List Definition}
    (h : c ∈ d.insertBySlot ds) : c = d ∨ c ∈ ds := by
  induction ds with
  | nil => exact List.mem_cons.mp h
  | cons e es ih =>
    rw [Definition.insertBySlot] at h
    split at h
    · exact List.mem_cons.mp h
    · rcases List.mem_cons.mp h with rfl | h
      · exact Or.inr List.mem_cons_self
      · exact (ih h).imp_right (List.mem_cons_of_mem e)

/-- Beneath an extension point a child goes where its slot is, if no other of its kind is there. -/
theorem withChild_extension {x : Extension} {cs : List Definition} {child grown : Definition}
    (h : (node (.extension x) cs).withChild child = .ok grown) :
    child.kind ∉ cs.map kind ∧ grown = node (.extension x) (child.insertBySlot cs) := by
  rw [withChild] at h
  split at h
  · cases h
  · next hfree =>
    cases h
    refine ⟨fun hmem => hfree ?_, rfl⟩
    obtain ⟨c, hc, hkind⟩ := List.mem_map.mp hmem
    exact List.any_eq_true.mpr ⟨c, hc, decide_eq_true hkind⟩

/-- Beneath any other definition a child that is permitted goes after the others. -/
theorem withChild_plain {head : Head} {cs : List Definition} {child grown : Definition}
    (hplain : head.kind ≠ .extension) (h : (node head cs).withChild child = .ok grown) :
    head.permits child.kind = true ∧ grown = node head (cs ++ [child]) := by
  rw [withChild.eq_def] at h
  split at h
  · next heq =>
    cases heq
    exact absurd rfl hplain
  · next heq =>
    cases heq
    split at h
    · next hpermits =>
      cases h
      exact ⟨hpermits, rfl⟩
    · cases h

/-- A definition stays what it is when it is given a child. -/
theorem head_of_withChild {d child grown : Definition} (h : d.withChild child = .ok grown) :
    grown.head = d.head := by
  obtain ⟨head, cs⟩ := d
  match head with
  | .extension x =>
    obtain ⟨-, rfl⟩ := withChild_extension h
    rfl
  | .attribute _ | .element _ | .choice _ | .reference _ =>
    obtain ⟨-, rfl⟩ := withChild_plain (fun hkind => (by cases hkind)) h
    rfl

end Definition

theorem Head.hosts_nil (head : Head) : head.Hosts [] := by
  match head with
  | .attribute _ | .reference _ | .choice _ => exact nofun
  | .element _ => trivial
  | .extension _ => exact .nil

/-- A head hosts what it permits, one after the other. -/
theorem Head.hosts_append {head : Head} {cs : List Definition} {child : Definition}
    (hplain : head.kind ≠ .extension) (hcs : head.Hosts cs) (h : head.permits child.kind = true) :
    head.Hosts (cs ++ [child]) := by
  match head with
  | .attribute _ | .reference _ | .choice _ =>
    exact List.forall_mem_append.mpr ⟨hcs, List.forall_mem_singleton.mpr (of_decide_eq_true h)⟩
  | .element _ => trivial
  | .extension _ => exact absurd rfl hplain

theorem Head.hosts_insertBySlot {x : Extension} {cs : List Definition} {child : Definition}
    (hcs : (Head.extension x).Hosts cs) (hnew : child.kind ∉ cs.map Definition.kind) :
    (Head.extension x).Hosts (child.insertBySlot cs) :=
  ((child.insertBySlot_perm cs).map Definition.kind).nodup_iff.mpr (List.nodup_cons.mpr ⟨hnew, hcs⟩)

namespace Definition

theorem WellFormed.leaf {head : Head} (h : head.attributes.WellFormed) : (leaf head).WellFormed :=
  .node h head.hosts_nil nofun

/-- **Adding attributes** keeps a definition well-formed. A name that is taken is refused, and one
that is accepted goes to the end. -/
theorem WellFormed.withAttribute {d grown : Definition} {name value : String} (hd : d.WellFormed)
    (h : d.withAttribute name value = .ok grown) : grown.WellFormed := by
  obtain ⟨attrs, hattrs, rfl⟩ := withAttribute_eq_ok h
  obtain ⟨attributes, hosted, children⟩ := hd
  refine .node ?_ ((Head.hosts_setAttributes _ _ _).mpr hosted) children
  rw [Head.attributes_setAttributes]
  exact attributes.insert hattrs

/-- **Adding children** keeps a definition well-formed. A child of a kind that is not hosted is
refused, and beneath an extension point one of a kind that is there already. -/
theorem WellFormed.withChild {d child grown : Definition} (hd : d.WellFormed)
    (hchild : child.WellFormed) (h : d.withChild child = .ok grown) : grown.WellFormed := by
  obtain ⟨attributes, hosted, children⟩ := hd
  rename_i head cs
  by_cases hkind : head.kind = .extension
  · match head with
    | .extension x =>
      obtain ⟨hnew, rfl⟩ := withChild_extension h
      refine .node attributes (Head.hosts_insertBySlot hosted hnew) fun c hc => ?_
      cases mem_insertBySlot hc with
      | inl hc => exact hc ▸ hchild
      | inr hc => exact children c hc
  · obtain ⟨hpermits, rfl⟩ := withChild_plain hkind h
    exact .node attributes (Head.hosts_append hkind hosted hpermits)
      (List.forall_mem_append.mpr ⟨children, List.forall_mem_singleton.mpr hchild⟩)

end Definition

namespace Form

theorem withAttribute_eq_ok {f grown : Form} {name value : String}
    (h : f.withAttribute name value = .ok grown) :
    ∃ attrs, f.attributes.insert name value = .ok attrs ∧ grown = { f with attributes := attrs } := by
  obtain ⟨attrs, hadd, rfl⟩ := exists_ok_of_map h
  exact ⟨attrs, OtherAttributes.insert_of_add hadd, rfl⟩

theorem withChild_eq_ok {f grown : Form} {child : Definition} (h : f.withChild child = .ok grown) :
    permits child.kind = true ∧ grown = { f with children := f.children ++ [child] } := by
  rw [withChild] at h
  split at h
  · next hpermits =>
    cases h
    exact ⟨hpermits, rfl⟩
  · cases h

theorem WellFormed.empty (key : FormKey) (source : String) : (Form.empty key source).WellFormed :=
  ⟨.empty, nofun, nofun⟩

theorem WellFormed.withAttribute {f grown : Form} {name value : String} (hf : f.WellFormed)
    (h : f.withAttribute name value = .ok grown) : grown.WellFormed := by
  obtain ⟨attrs, hattrs, rfl⟩ := withAttribute_eq_ok h
  exact ⟨hf.attributes.insert hattrs, hf.hosted, hf.children⟩

theorem WellFormed.withChild {f grown : Form} {child : Definition} (hf : f.WellFormed)
    (hchild : child.WellFormed) (h : f.withChild child = .ok grown) : grown.WellFormed := by
  obtain ⟨hpermits, rfl⟩ := withChild_eq_ok h
  exact ⟨hf.attributes,
    List.forall_mem_append.mpr
      ⟨hf.hosted, List.forall_mem_singleton.mpr (of_decide_eq_true hpermits)⟩,
    List.forall_mem_append.mpr ⟨hf.children, List.forall_mem_singleton.mpr hchild⟩⟩

end Form

/-! ## Slots

An extension point wraps at most one child of each kind and keeps them in a fixed order of kinds.
Since the slots of two kinds are different, a list that is strictly sorted by slots has no two
children of one kind, and the other way round a child of a new kind has just one place to go to. -/

theorem DefinitionKind.slot_injective : Function.Injective DefinitionKind.slot := by
  intro k k' h
  cases k <;> cases k' <;> first | rfl | cases h

/-- A definition of a new kind goes where its slot is: before the first child of a greater slot.
What is before it has a smaller slot, since no child has the same one. -/
theorem Definition.insertBySlot_slots {d : Definition} {cs : List Definition}
    (hcs : cs.Pairwise fun a b => a.kind.slot < b.kind.slot) (hnew : ∀ c ∈ cs, c.kind ≠ d.kind) :
    (d.insertBySlot cs).Pairwise fun a b => a.kind.slot < b.kind.slot := by
  induction cs with
  | nil => exact List.pairwise_singleton _ d
  | cons c cs ih =>
    obtain ⟨hc, htail⟩ := List.pairwise_cons.mp hcs
    rw [insertBySlot]
    split
    · -- the new child goes in front, and everything behind `c` is behind it as well
      rename_i hlt
      refine List.pairwise_cons.mpr ⟨fun a ha => ?_, hcs⟩
      rcases List.mem_cons.mp ha with rfl | ha
      · exact hlt
      · exact Nat.lt_trans hlt (hc a ha)
    · -- it goes further back: its slot is not smaller than that of `c`, and not the same
      rename_i hge
      have hne : c.kind.slot ≠ d.kind.slot := fun heq =>
        hnew c List.mem_cons_self (DefinitionKind.slot_injective heq)
      refine List.pairwise_cons.mpr ⟨fun a ha => ?_, ih htail fun e he => ?_⟩
      · rcases mem_insertBySlot ha with rfl | ha
        · exact Nat.lt_of_le_of_ne (Nat.le_of_not_lt hge) hne
        · exact hc a ha
      · exact hnew e (List.mem_cons_of_mem c he)

/-- What an extension point wraps stands in the order attribute, element, choice, reference,
extension, at most one of each. Insertion keeps the order, and that it is there to begin with is
clear of the empty list. -/
theorem Definition.withChild_slots {x : Extension} {cs : List Definition} {child grown : Definition}
    (hcs : cs.Pairwise fun a b => a.kind.slot < b.kind.slot)
    (h : (Definition.node (.extension x) cs).withChild child = .ok grown) :
    grown.children.Pairwise fun a b => a.kind.slot < b.kind.slot := by
  rw [withChild] at h
  split at h
  · cases h
  · rename_i hfree
    cases h
    refine insertBySlot_slots hcs fun c hc heq => hfree ?_
    exact List.any_eq_true.mpr ⟨c, hc, decide_eq_true heq⟩

/-! ## Arms that are never taken

The walk has to say something for every kind of child, also for those that cannot stand where it
looks. One way to show that such an arm does not matter is to replace it. `candidateOr` and
`resolveOr` resolve a group with an arbitrary answer where the walk has a fixed one, and on
well-formed definitions they come to the same for every answer. -/

variable {σ γ : Type}

namespace Definition

mutual

/-- Whether an alternative is present, with an answer of one's own for attributes and references. -/
def candidateOr (answer : Definition → StateM σ (Option (Winner γ))) (b : Binder σ γ)
    (place : Scope γ) : Definition → NodePath → StateM σ (Option (Winner γ))
  | .node (.element i) cs, _ => do
    let found ← b.bindElement place ⟨i, cs⟩
    pure (if found.isEmpty then none else some (.instances found))
  | .node (.choice c) cs, path => do
    let outcome ← resolveOr answer b place c.label cs 0 none (path.child c.label)
    match outcome with
    | .absent => pure none
    | o => pure (some (.group o))
  | .node (.extension _) _, _ => pure none
  | d, _ => answer d

/-- Resolves a group, with an answer of one's own for attributes and references. -/
def resolveOr (answer : Definition → StateM σ (Option (Winner γ))) (b : Binder σ γ)
    (place : Scope γ) (label : String) :
    List Definition → Nat → Option (Nat × Winner γ) → NodePath → StateM σ (Outcome γ)
  | [], _, none, _ => pure .absent
  | [], _, some (i, w), _ => pure (.active i w)
  | d :: ds, index, found, path => do
    match ← candidateOr answer b place d path with
    | none => resolveOr answer b place label ds (index + 1) found path
    | some w =>
      match found with
      | none => resolveOr answer b place label ds (index + 1) (some (index, w)) path
      | some _ => pure (.conflict (conflictAt label path))

end

variable (answer : Definition → StateM σ (Option (Winner γ))) (b : Binder σ γ) (place : Scope γ)

mutual

theorem candidateOr_eq (d : Definition) (hd : d.WellFormed)
    (hkind : d.kind = .element ∨ d.kind = .choice ∨ d.kind = .extension) (path : NodePath) :
    candidateOr answer b place d path = d.candidate b place path := by
  match d, hd, hkind with
  | .node (.element _) _, _, _ => rw [candidateOr, candidate]
  | .node (.choice c) cs, .node _ hosted children, _ =>
    rw [candidateOr, candidate]
    exact congrArg (· >>= _) (resolveOr_eq c.label cs hosted children 0 none (path.child c.label))
  | .node (.extension _) _, _, _ => rw [candidateOr, candidate]
  | .node (.attribute _) _, _, hkind => exact absurd hkind (by rintro (h | h | h) <;> cases h)
  | .node (.reference _) _, _, hkind => exact absurd hkind (by rintro (h | h | h) <;> cases h)

/-- **No attribute or reference among alternatives.** Whatever answer stands ready for them,
resolving the children of a well-formed group never comes to it. The recursion is that of the
resolution itself, mutual with the lemma about one candidate, because a group among the alternatives
is resolved in turn. -/
theorem resolveOr_eq (label : String) (ds : List Definition)
    (hosted : ∀ d ∈ ds, d.kind = .element ∨ d.kind = .choice ∨ d.kind = .extension)
    (children : ∀ d ∈ ds, d.WellFormed) (index : Nat) (found : Option (Nat × Winner γ))
    (path : NodePath) :
    resolveOr answer b place label ds index found path =
      Definition.resolve b place label ds index found path := by
  match ds with
  | [] => cases found <;> rfl
  | d :: ds =>
    obtain ⟨hd, hds⟩ := List.forall_mem_cons.mp hosted
    obtain ⟨hshape, hshapes⟩ := List.forall_mem_cons.mp children
    have hrest := resolveOr_eq label ds hds hshapes
    rw [resolveOr, Definition.resolve, candidateOr_eq d hshape hd]
    refine congrArg _ (funext fun candidate => ?_)
    cases candidate with
    | none => exact hrest _ _ _
    -- the answer that stands ready is not used, and otherwise the two loops are the same
    | some w =>
      cases found with
      | none => exact hrest _ _ _
      | some first => rfl

end

end Definition

/-- **Beneath a reference everything is dispatched.** Where only extension points stand, those that
are bound are all there are, so that the walk which picks the extension points and the walk which
takes every child are one and the same. -/
theorem Engine.buildExtensions_eq (e : Engine σ γ) (entry : Entry σ γ) {cs : List Definition}
    (hosted : ∀ c ∈ cs, c.kind = .extension) (scope : Scope γ) (path : NodePath) :
    e.buildExtensions entry cs scope path = e.buildAll entry cs scope path := by
  induction cs with
  | nil => rw [buildExtensions, buildAll]
  | cons c cs ih =>
    obtain ⟨hc, hcs⟩ := List.forall_mem_cons.mp hosted
    rw [buildExtensions, buildAll, if_pos hc, ih hcs]

end FormSchema
