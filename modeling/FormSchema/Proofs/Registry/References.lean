import FormSchema.Registry.Basic

/-!
# References and their targets

What a form lists as its references, and what a registry answers for them.

A form lists the references of its definitions depth first. Nearly every property of a run is about the
forms that it may come across, and those are found by going from references to the forms registered under
their targets. Two facts make that possible: a definition that is met somewhere within a form has its
references among those of the form, and a lookup gives back a registered form that has the key it was
looked up by.

* **`Definition.references_subset_of_mem`** — a tree lists the references of all its parts.
* **`Registry.dangling_eq_nil_iff`** — no reference dangles exactly when all targets are
  registered.
-/

namespace FormSchema

/-! ## References of parts

A walk over definitions goes from a node to its children. Whatever is known of all references of a form
therefore has to be handed down: from a list of definitions to its members, and from a node to what stands
beneath it. -/

namespace Definition

/-- The references of one tree in a list are references of the list, wherever the tree stands in it. -/
theorem references_subset_referencesAll {d : Definition} {ds : List Definition} (h : d ∈ ds) :
    d.references ⊆ referencesAll ds := by
  induction ds with
  | nil => cases h
  | cons c cs ih =>
    rw [referencesAll]
    rcases List.mem_cons.mp h with rfl | hcs
    · exact List.subset_append_left _ _
    · exact List.Subset.trans (ih hcs) (List.subset_append_right _ _)

/-- What stands beneath a node is part of what the node holds. -/
theorem referencesAll_subset_references (h : Head) (cs : List Definition) :
    referencesAll cs ⊆ (Definition.node h cs).references := by
  match h with
  | .reference r => exact List.subset_cons_self _ _
  | .attribute _ | .element _ | .choice _ | .extension _ => exact List.Subset.refl _

/-- The references of a child are references of its parent. -/
theorem references_subset_of_mem {h : Head} {c : Definition} {cs : List Definition}
    (hc : c ∈ cs) : c.references ⊆ (Definition.node h cs).references :=
  List.Subset.trans (references_subset_referencesAll hc) (referencesAll_subset_references h cs)

end Definition

/-! ## Lookups

A registry is searched by key, and the form that is found is one of those that it holds. Nothing here needs
keys to be distinct. That a registry holds one form at most under each key is a matter of how it was grown,
and is said where the order of keys is. -/

namespace Registry

variable {r : Registry} {key : FormKey} {form : Form}

theorem mem_forms_of_get? (h : r.get? key = some form) : form ∈ r.forms :=
  List.mem_of_find?_eq_some h

theorem key_of_get? (h : r.get? key = some form) : form.key = key := by
  rw [get?] at h
  simpa using List.find?_some h

theorem contains_iff : r.contains key = true ↔ ∃ form, r.get? key = some form := by
  rw [contains, Option.isSome_iff_exists]

/-- A registered form lists a reference to a key. Whether there is a form under that key is another question,
and the references for which there is none are those that dangle. -/
def Lists (r : Registry) (form : Form) (key : FormKey) : Prop :=
  form ∈ r.forms ∧ ∃ ref ∈ form.references, ref.target = key

/-- No reference dangles exactly when every reference of every form has a registered target. -/
theorem dangling_eq_nil_iff :
    r.dangling = [] ↔ ∀ form ∈ r.forms, ∀ ref ∈ form.references, r.contains ref.target = true := by
  rw [dangling, List.flatMap_eq_nil_iff]
  refine forall₂_congr fun form _ => ?_
  rw [List.map_eq_nil_iff, List.filter_eq_nil_iff]
  refine forall₂_congr fun ref _ => ?_
  simp

end Registry

end FormSchema
