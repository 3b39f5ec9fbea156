import FormSchema.Proofs.Definition.Insertions
import FormSchema.Proofs.Registry.KeyOrder
import Mathlib.Data.List.Nodup

/-!
# Where references stand

Every definition of a tree stands at a position: the indices of the children through which the way leads down
to it. Depth first is the order of positions, in which a position comes before those that it is a part of. So
a list of references in this order, each at a position of its own, has every occurrence of a reference once.

A reference is a value, and a form may hold the same value at several positions. A list of values cannot show
that each occurrence has been counted once. So positions are carried along, and the list of references is what
is left of the list of positions when they are dropped again. An extension point keeps what it wraps in slots,
one for each kind; for a definition that was built in the library its children are these slots in their order,
so positions among them follow the order of kinds and not the order in which they were filled.

* `Definition.at?`, `Form.at?` — the definition at a position.
* `Definition.parts` — all definitions of a tree, with their positions.
* **`Definition.parts_ordered`**, **`Definition.mem_parts`** — in order, and none is missing.
* **`Definition.references_eq`** — references are the parts that are references.
* **`Definition.Built.slots`** — what an extension point wraps, in the order of the slots.
* **`Registry.dangling_exact`** — dangling references, one for each occurrence.
-/

namespace FormSchema

theorem DefinitionKind.mem_all (kind : DefinitionKind) : kind ∈ all := by
  cases kind <;> decide

def Head.reference? : Head → Option Reference
  | .reference ref => some ref
  | .attribute _ | .element _ | .choice _ | .extension _ => none

namespace Definition

/-! ## Positions

A position is a list of indices, and positions are compared as lists are: a shorter one comes before those that
go on from it, which is what listing a node before its children means. -/

/-- The definition that stands at a position. -/
def at? (d : Definition) : List Nat → Option Definition
  | [] => some d
  | k :: position => d.children[k]?.bind fun c => c.at? position

mutual

/-- All definitions of a tree with their positions, depth first. -/
def parts : Definition → List (List Nat × Definition)
  | .node h cs => ([], .node h cs) :: partsFrom cs 0

def partsFrom : List Definition → Nat → List (List Nat × Definition)
  | [], _ => []
  | d :: ds, k => d.parts.map (Prod.map (k :: ·) id) ++ partsFrom ds (k + 1)

end

variable {d e : Definition} {ds cs : List Definition} {position : List Nat}

theorem partsFrom_eq (ds : List Definition) (k : Nat) :
    partsFrom ds k = (ds.zipIdx k).flatMap fun x => x.1.parts.map (Prod.map (x.2 :: ·) id) := by
  induction ds generalizing k with
  | nil => rfl
  | cons d ds ih => rw [partsFrom, ih, List.zipIdx_cons, List.flatMap_cons]

theorem mem_partsFrom : (position, e) ∈ partsFrom ds 0 ↔
    ∃ k below d, position = k :: below ∧ ds[k]? = some d ∧ (below, e) ∈ d.parts := by
  rw [partsFrom_eq, List.mem_flatMap]
  constructor
  · rintro ⟨⟨d, k⟩, hd, hmem⟩
    obtain ⟨⟨below, _⟩, hbelow, heq⟩ := List.mem_map.mp hmem
    cases heq
    exact ⟨k, below, d, rfl, List.mk_mem_zipIdx_iff_getElem?.mp hd, hbelow⟩
  · rintro ⟨k, below, d, rfl, hd, hbelow⟩
    exact ⟨(d, k), List.mk_mem_zipIdx_iff_getElem?.mpr hd, List.mem_map.mpr ⟨_, hbelow, rfl⟩⟩

/-- **All parts are listed**, each at its position. The induction is on the definition: a part is
the definition itself or a part of one of its children. -/
theorem mem_parts : (position, e) ∈ d.parts ↔ d.at? position = some e := by
  induction d using Definition.induct generalizing position with
  | node head cs ih =>
    rw [parts, List.mem_cons, mem_partsFrom]
    -- at no steps stands the definition itself, and behind a step a part of the child
    cases position with
    | nil =>
      rw [at?, Option.some.injEq]
      simp [eq_comm]
    | cons k below =>
      rw [at?, Option.bind_eq_some_iff]
      constructor
      · rintro (h | ⟨j, below', c, heq, hc, hmem⟩)
        · cases h
        · cases heq
          exact ⟨c, hc, (ih c (List.mem_of_getElem? hc)).mp hmem⟩
      · rintro ⟨c, hc, hat⟩
        exact Or.inr ⟨k, below, c, rfl, hc, (ih c (List.mem_of_getElem? hc)).mpr hat⟩

theorem partsFrom_ordered (h : ∀ d ∈ ds, d.parts.Pairwise fun x y => x.1 < y.1) (k : Nat) :
    (partsFrom ds k).Pairwise fun x y => x.1 < y.1 := by
  have hindices : (ds.zipIdx k).Pairwise fun x y => x.2 < y.2 := by
    rw [← List.pairwise_map, List.zipIdx_map_snd]
    exact List.pairwise_lt_range'
  rw [partsFrom_eq, List.pairwise_flatMap]
  refine ⟨fun x hx => ?_, hindices.imp fun hlt a ha b hb => ?_⟩
  · rw [List.pairwise_map]
    exact (h x.1 (List.fst_mem_of_mem_zipIdx hx)).imp fun hlt => List.cons_lt_cons_iff.mpr (Or.inr ⟨rfl, hlt⟩)
  · obtain ⟨a, -, rfl⟩ := List.mem_map.mp ha
    obtain ⟨b, -, rfl⟩ := List.mem_map.mp hb
    exact List.cons_lt_cons_iff.mpr (Or.inl hlt)

/-- **Parts are listed in the order of their positions.** -/
theorem parts_ordered (d : Definition) : d.parts.Pairwise fun x y => x.1 < y.1 := by
  induction d using Definition.induct with
  | node head cs ih =>
    rw [parts, List.pairwise_cons]
    refine ⟨fun x hx => ?_, partsFrom_ordered ih 0⟩
    obtain ⟨k, below, -, heq, -⟩ := mem_partsFrom.mp hx
    rw [heq]
    exact List.nil_lt_cons k below

/-! ## References

A form lists its references by a recursion of its own, which knows nothing of positions. It is the list of all
parts with everything left out that is not a reference. -/

theorem referencesAll_eq (h : ∀ d ∈ ds, d.references = d.parts.filterMap fun x => x.2.head.reference?)
    (k : Nat) : referencesAll ds = (partsFrom ds k).filterMap fun x => x.2.head.reference? := by
  induction ds generalizing k with
  | nil => rfl
  | cons d ds ih =>
    obtain ⟨hd, hds⟩ := List.forall_mem_cons.mp h
    rw [referencesAll, partsFrom, List.filterMap_append, List.filterMap_map, hd, ih hds (k + 1)]
    rfl

/-- **The references of a tree** are those of its parts that are references, in the order of the parts. -/
theorem references_eq (d : Definition) : d.references = d.parts.filterMap fun x => x.2.head.reference? := by
  induction d using Definition.induct with
  | node head cs ih =>
    rw [parts, List.filterMap_cons]
    match head with
    | .reference ref => exact congrArg (ref :: ·) (referencesAll_eq ih 0)
    | .attribute _ | .element _ | .choice _ | .extension _ => exact referencesAll_eq ih 0

/-! ## Slots

The children of an extension point are its slots. They are filled in any order, but each is inserted behind
those of lesser kinds, so the list of children is the list of slots without the empty ones. -/

theorem within_of_at? (h : d.at? position = some e) : e.Within d := by
  induction position generalizing d with
  | nil =>
    obtain rfl := Option.some.inj h
    exact .here
  | cons k position ih =>
    obtain ⟨c, hc, hat⟩ := Option.bind_eq_some_iff.mp h
    exact .beneath (List.mem_of_getElem? hc) (ih hat)

/-- **Slots in order.** The children of an extension point are what it wraps of each kind: attribute, element,
choice, reference, extension. -/
theorem Built.slots {x : Extension} {attributes : List (String × String)} {children : List Definition}
    (h : Built (.node (.extension x) cs) attributes children) :
    cs = DefinitionKind.all.filterMap (Definition.node (.extension x) cs).wrapped? := by
  have hslots : cs.Pairwise fun a b => a.kind.slot < b.kind.slot := h.arranged.2
  have hkinds : (cs.map Definition.kind).Nodup :=
    List.pairwise_map.mpr (hslots.imp fun hlt heq => absurd (heq ▸ hlt) (Nat.lt_irrefl _))
  have hwrapped {kind : DefinitionKind} {c : Definition} :
      (Definition.node (.extension x) cs).wrapped? kind = some c ↔ c ∈ cs ∧ c.kind = kind :=
    find?_key_eq_some_iff hkinds
  have hkept : (DefinitionKind.all.filterMap (Definition.node (.extension x) cs).wrapped?).Pairwise
      fun a b => a.kind.slot < b.kind.slot := by
    have hall : DefinitionKind.all.Pairwise fun a b => a.slot < b.slot := by decide
    refine hall.filterMap _ fun kind kind' hlt c hc c' hc' => ?_
    rwa [(hwrapped.mp hc).2, (hwrapped.mp hc').2]
  have hdistinct {l : List Definition} (hl : l.Pairwise fun a b => a.kind.slot < b.kind.slot) : l.Nodup :=
    hl.imp fun hlt heq => absurd (heq ▸ hlt) (Nat.lt_irrefl _)
  -- both lists are in the order of the slots, and have the same members
  refine ((List.perm_ext_iff_of_nodup (hdistinct hslots) (hdistinct hkept)).mpr fun c => ?_).eq_of_pairwise
    (fun a b _ _ hab hba => absurd hab (Nat.lt_asymm hba)) hslots hkept
  rw [List.mem_filterMap]
  constructor
  · exact fun hc => ⟨c.kind, DefinitionKind.mem_all c.kind, hwrapped.mpr ⟨hc, rfl⟩⟩
  · rintro ⟨kind, -, hc⟩
    exact (hwrapped.mp hc).1

end Definition

/-! ## Forms

A form has no head, so no definition stands at the empty position. All others begin with the index of one of
its definitions. -/

namespace Form

/-- The definition that stands at a position. None stands at the empty one, which is the form itself. -/
def at? (f : Form) : List Nat → Option Definition
  | [] => none
  | k :: position => f.children[k]?.bind fun c => c.at? position

/-- The references of a form with their positions. -/
def sites (f : Form) : List (List Nat × Reference) :=
  (Definition.partsFrom f.children 0).filterMap fun x => x.2.head.reference?.map (x.1, ·)

variable {f : Form} {position : List Nat} {ref : Reference}

theorem references_eq_sites (f : Form) : f.references = f.sites.map Prod.snd := by
  rw [references, Definition.referencesAll_eq (fun d _ => d.references_eq) 0, sites, List.map_filterMap]
  refine congrArg (List.filterMap · _) (funext fun x => ?_)
  rw [Option.map_map]
  exact Option.map_id'.symm

theorem sites_ordered (f : Form) : f.sites.Pairwise fun x y => x.1 < y.1 := by
  refine (Definition.partsFrom_ordered (fun d _ => d.parts_ordered) 0).filterMap _ fun x y hlt s hs t ht => ?_
  obtain ⟨_, -, rfl⟩ := Option.map_eq_some_iff.mp hs
  obtain ⟨_, -, rfl⟩ := Option.map_eq_some_iff.mp ht
  exact hlt

/-- **A site of a form** is a position at which a reference stands. -/
theorem mem_sites_iff :
    (position, ref) ∈ f.sites ↔ ∃ cs, f.at? position = some (.node (.reference ref) cs) := by
  have hat (d : Definition) :
      (position, d) ∈ Definition.partsFrom f.children 0 ↔ f.at? position = some d := by
    rw [Definition.mem_partsFrom]
    cases position with
    | nil => simp [at?]
    | cons k below => simp [at?, Definition.mem_parts, Option.bind_eq_some_iff]
  rw [sites, List.mem_filterMap]
  constructor
  · rintro ⟨⟨_, head, cs⟩, hmem, href⟩
    obtain ⟨ref', href', heq⟩ := Option.map_eq_some_iff.mp href
    cases heq
    match head, href' with
    | .reference _, rfl => exact ⟨cs, (hat _).mp hmem⟩
  · rintro ⟨cs, hcs⟩
    exact ⟨_, (hat _).mpr hcs, rfl⟩

theorem holds_of_at? {d : Definition} (h : f.at? position = some d) : f.Holds d := by
  cases position with
  | nil => cases h
  | cons k below =>
    obtain ⟨c, hc, hat⟩ := Option.bind_eq_some_iff.mp h
    exact ⟨c, List.mem_of_getElem? hc, Definition.within_of_at? hat⟩

end Form

/-! ## Registries

What dangles is reported as a pair of keys, once for every occurrence. Behind each pair there is a form, a
position in it and the reference that stands there, and these tell occurrences apart where the pairs do not. -/

/-- A reference that stands at a position of a registered form. -/
structure Occurrence where
  form : FormKey
  position : List Nat
  reference : Reference

/-- Occurrences come in the order of the keys of their forms, and within one form in that of their positions. -/
def Occurrence.Before (a b : Occurrence) : Prop :=
  a.form.before b.form = true ∨ (a.form = b.form ∧ a.position < b.position)

namespace Registry

variable {r : Registry}

/-- The occurrences of references whose target is not registered. -/
def holes (r : Registry) : List Occurrence :=
  r.forms.flatMap fun f =>
    (f.sites.filter fun site => !r.contains site.2.target).map fun site => ⟨f.key, site.1, site.2⟩

/-- What is reported as dangling is told by the occurrences, in the same order and as often. -/
theorem dangling_eq_holes (r : Registry) :
    r.dangling = r.holes.map fun o => ⟨o.form, o.reference.target⟩ := by
  rw [dangling, holes, List.map_flatMap]
  refine congrArg (List.flatMap · r.forms) (funext fun f => ?_)
  rw [f.references_eq_sites, List.filter_map, List.map_map, List.map_map]
  rfl

theorem Grown.holes_ordered (h : r.Grown) : r.holes.Pairwise Occurrence.Before := by
  rw [holes, List.pairwise_flatMap]
  refine ⟨fun f _ => ?_, h.ordered.imp fun hbefore a ha b hb => ?_⟩
  · rw [List.pairwise_map]
    exact (f.sites_ordered.filter _).imp fun hlt => Or.inr ⟨rfl, hlt⟩
  · obtain ⟨_, -, rfl⟩ := List.mem_map.mp ha
    obtain ⟨_, -, rfl⟩ := List.mem_map.mp hb
    exact Or.inl hbefore

theorem Grown.mem_holes_iff (h : r.Grown) {o : Occurrence} :
    o ∈ r.holes ↔ ∃ f cs, r.get? o.form = some f ∧
      f.at? o.position = some (.node (.reference o.reference) cs) ∧ r.get? o.reference.target = none := by
  have hmissing (key : FormKey) : (!r.contains key) = true ↔ r.get? key = none := by
    rw [contains, Bool.not_eq_true', Option.isSome_eq_false_iff, Option.isNone_iff_eq_none]
  rw [holes, List.mem_flatMap]
  constructor
  · rintro ⟨f, hf, ho⟩
    obtain ⟨⟨position, ref⟩, hsite, rfl⟩ := List.mem_map.mp ho
    obtain ⟨hsite, htarget⟩ := List.mem_filter.mp hsite
    obtain ⟨cs, hcs⟩ := Form.mem_sites_iff.mp hsite
    exact ⟨f, cs, h.get?_eq_some_iff.mpr ⟨hf, rfl⟩, hcs, (hmissing _).mp htarget⟩
  · rintro ⟨f, cs, hf, hcs, htarget⟩
    obtain ⟨form, position, ref⟩ := o
    obtain ⟨hmem, rfl⟩ := h.get?_eq_some_iff.mp hf
    have hsite : (position, ref) ∈ f.sites := Form.mem_sites_iff.mpr ⟨cs, hcs⟩
    exact ⟨f, hmem, List.mem_map.mpr
      ⟨_, List.mem_filter.mpr ⟨hsite, (hmissing _).mpr htarget⟩, rfl⟩⟩

/-- **Every occurrence counts once.** The references of a form are those that stand at its positions, each once
and in the order of the positions, which is depth first; at an extension point the positions are those of the
kinds, in the order attribute, element, choice, reference, extension. The dangling references of a registry
are those whose target is not registered, each once, by the keys of the forms and then by position. There are
none exactly when every reference at any position of a registered form has a registered target. -/
theorem dangling_exact :
    (∀ f : Form, ∃ sites : List (List Nat × Reference), f.references = sites.map Prod.snd ∧
      (sites.Pairwise fun x y => x.1 < y.1) ∧
      ∀ position ref, (position, ref) ∈ sites ↔
        ∃ cs, f.at? position = some (.node (.reference ref) cs)) ∧
    (∀ f : Form, f.Obtainable → ∀ position x cs,
      f.at? position = some (.node (.extension x) cs) →
        cs = DefinitionKind.all.filterMap (Definition.node (.extension x) cs).wrapped?) ∧
    ∀ r : Registry, r.Grown →
      (∃ holes : List Occurrence,
        r.dangling = holes.map (fun o => ⟨o.form, o.reference.target⟩) ∧
        holes.Pairwise Occurrence.Before ∧
        ∀ o, o ∈ holes ↔ ∃ f cs, r.get? o.form = some f ∧
          f.at? o.position = some (.node (.reference o.reference) cs) ∧
          r.get? o.reference.target = none) ∧
      (r.dangling = [] ↔ ∀ key f, r.get? key = some f → ∀ position ref cs,
        f.at? position = some (.node (.reference ref) cs) → ∃ g, r.get? ref.target = some g) := by
  refine ⟨fun f => ⟨f.sites, f.references_eq_sites, f.sites_ordered, fun _ _ => Form.mem_sites_iff⟩,
    fun f hf position x cs hcs => ?_, fun r hr => ⟨⟨r.holes, r.dangling_eq_holes, hr.holes_ordered,
      fun _ => hr.mem_holes_iff⟩, ?_⟩⟩
  · -- an extension point anywhere in a built form was built itself, with its slots in their order
    obtain ⟨attributes, children, hbuilt⟩ := hf.built
    obtain ⟨c, hc, hwithin⟩ := f.holds_of_at? hcs
    obtain ⟨_, _, hcomplete⟩ := hbuilt.child_built c hc
    obtain ⟨_, _, hpoint⟩ := hcomplete.within hwithin
    exact hpoint.slots
  · rw [dangling_eq_holes, List.map_eq_nil_iff, List.eq_nil_iff_forall_not_mem]
    constructor
    · intro hnone key f hf position ref cs hcs
      cases htarget : r.get? ref.target with
      | some g => exact ⟨g, rfl⟩
      | none => exact absurd (hr.mem_holes_iff.mpr ⟨f, cs, hf, hcs, htarget⟩) (hnone ⟨key, position, ref⟩)
    · rintro hall o ho
      obtain ⟨f, cs, hf, hcs, htarget⟩ := hr.mem_holes_iff.mp ho
      obtain ⟨g, hg⟩ := hall _ f hf _ _ cs hcs
      rw [hg] at htarget
      cases htarget

end Registry

namespace Sample

def sealed : Reference := ⟨⟨"", "seal"⟩, .empty⟩

def sealPoint : Definition := .node (.extension ⟨"seal", .empty⟩) [.leaf (.reference sealed)]

/-- A point at which a reference was inserted before an attribute that has a point of its own. -/
def markPoint : Definition :=
  .node (.extension ⟨"mark", .empty⟩) [.node (.attribute (item "stamp" .optional)) [sealPoint], shipTo]

/-- An address that is marked, and one that is not. -/
def consignment : Form := ⟨⟨⟨"", "consignment"⟩, "samples", .empty⟩,
  [.node (.reference ⟨⟨"", "address"⟩, .empty⟩) [markPoint], shipTo]⟩

/-- Of the forms that are referred to only one is registered. -/
def consignments : Registry := ⟨[consignment, .empty ⟨"", "seal"⟩ "samples"]⟩

theorem consignment_built : consignment.Built [] consignment.children := by
  have hshipTo : shipTo.Built [] [] := .fresh (.reference ⟨"", "address"⟩)
  have hseal : sealPoint.Built [] [.leaf (.reference sealed)] :=
    .child (.fresh (.extension "seal")) (.fresh (.reference ⟨"", "seal"⟩)) rfl
  have hstamp : (Definition.node (.attribute (item "stamp" .optional)) [sealPoint]).Built [] [sealPoint] :=
    .child (.fresh (.attribute (some "stamp") .optional)) hseal rfl
  have hmark : markPoint.Built [] [shipTo, .node (.attribute (item "stamp" .optional)) [sealPoint]] :=
    .child (.child (.fresh (.extension "mark")) hshipTo rfl) hstamp rfl
  have hmarked : (Definition.node (.reference ⟨⟨"", "address"⟩, .empty⟩) [markPoint]).Built [] [markPoint] :=
    .child hshipTo hmark rfl
  exact .child (.child (.empty ⟨"", "consignment"⟩ "samples") hmarked rfl) hshipTo rfl

end Sample

/-- The address is missing at three positions, and the seal at none. -/
theorem Registry.dangling_exact_consignments :
    (∃ sites : List (List Nat × Reference), Sample.consignment.references = sites.map Prod.snd ∧
      ([0, 0, 0, 0, 0], Sample.sealed) ∈ sites) ∧
    Sample.markPoint.children = DefinitionKind.all.filterMap Sample.markPoint.wrapped? ∧
    (∃ holes : List Occurrence,
      Sample.consignments.dangling = holes.map (fun o => ⟨o.form, o.reference.target⟩) ∧
      ⟨⟨"", "consignment"⟩, [0, 0, 1], ⟨⟨"", "address"⟩, .empty⟩⟩ ∈ holes) ∧
    Sample.consignments.dangling = List.replicate 3 ⟨⟨"", "consignment"⟩, ⟨"", "address"⟩⟩ := by
  obtain ⟨hsites, hslots, hregistry⟩ := Registry.dangling_exact
  have hgrown : Sample.consignments.Grown :=
    .insert (.insert .empty (f := Sample.consignment) rfl) (f := .empty ⟨"", "seal"⟩ "samples") rfl
  obtain ⟨sites, hreferences, -, hmem⟩ := hsites Sample.consignment
  obtain ⟨⟨holes, hdangling, -, hholes⟩, -⟩ := hregistry _ hgrown
  refine ⟨⟨sites, hreferences, (hmem _ _).mpr ⟨[], rfl⟩⟩, ?_, ⟨holes, hdangling, (hholes _).mpr ?_⟩, by decide⟩
  · exact hslots Sample.consignment (Or.inl ⟨_, _, Sample.consignment_built⟩) [0, 0] _ _ rfl
  · exact ⟨Sample.consignment, [], hgrown.get?_eq_some_iff.mpr ⟨List.mem_cons_self, rfl⟩, rfl, by decide⟩

end FormSchema
