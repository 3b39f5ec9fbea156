import FormSchema.Proofs.Registry.References
import Mathlib.Data.List.Sort
import Mathlib.Data.String.Basic

/-!
# Forms in the order of their keys

Keys come one before another by group and then by id, which is a strict linear order. A registry that has
been grown by insertions lists its forms in this order, each key once, whatever the order of insertion was.

An insertion goes through the forms until it finds one that comes later, and puts the new one before it. This
keeps the order only because the key is new: a form whose key is taken is refused before that. So the
invariant of a grown registry is a single one, that its keys come strictly one before another. Distinct keys
and a single form under each key are read off it.

* **`FormKey.before_trans`**, **`FormKey.before_of_not_before`** — the order of keys.
* **`Registry.Grown.ordered`** — a grown registry lists its forms in key order.
* **`Registry.Grown.get?_eq_some_iff`** — and holds one form under each key.
-/

namespace FormSchema

/-- What a loop keeps at every step that succeeds holds of its result. Nothing is asked of the steps that fail,
because none of them comes before a result. -/
theorem foldlM_keeps {ε α β : Type} {step : β → α → Except ε β} {P : β → Prop}
    (hstep : ∀ b a b', P b → step b a = .ok b' → P b') {items : List α} {b b' : β} (hb : P b)
    (h : items.foldlM step b = .ok b') : P b' := by
  induction items generalizing b with
  | nil =>
    obtain rfl : b = b' := Except.ok.inj h
    exact hb
  | cons a items ih =>
    rw [List.foldlM_cons] at h
    cases hnext : step b a with
    | error cause =>
      rw [hnext] at h
      cases h
    | ok next =>
      rw [hnext] at h
      exact ih (hstep b a next hb hnext) h

/-- Where keys are distinct, what is found under a key is the one that has it. -/
theorem find?_key_eq_some_iff {α κ : Type} [DecidableEq κ] {key : α → κ} {items : List α}
    (distinct : (items.map key).Nodup) {k : κ} {a : α} :
    (items.find? fun b => key b = k) = some a ↔ a ∈ items ∧ key a = k := by
  have hsound : ∀ {b}, (items.find? fun b => key b = k) = some b → b ∈ items ∧ key b = k := fun hb =>
    ⟨List.mem_of_find?_eq_some hb, by simpa using List.find?_some hb⟩
  refine ⟨hsound, ?_⟩
  rintro ⟨ha, hkey⟩
  cases hfind : items.find? fun b => key b = k with
  | none => exact absurd hkey (by simpa using List.find?_eq_none.mp hfind a ha)
  | some b =>
    obtain ⟨hb, hsame⟩ := hsound hfind
    exact congrArg some (List.inj_on_of_nodup_map distinct hb ha (hsame.trans hkey.symm))

/-! ## Keys

The order is lexicographic: groups are compared first, and ids only where the groups are the same. That it is
transitive and total is what sorted lists of forms rest on, here and wherever forms or cycles are listed. -/

namespace FormKey

theorem before_iff {a b : FormKey} :
    a.before b = true ↔ a.group < b.group ∨ (a.group = b.group ∧ a.id < b.id) := by
  simp [before]

theorem not_before_self (a : FormKey) : ¬ a.before a = true := by
  rw [before_iff]
  rintro (h | ⟨-, h⟩) <;> exact lt_irrefl _ h

theorem ne_of_before {a b : FormKey} (h : a.before b = true) : a ≠ b := by
  rintro rfl
  exact not_before_self a h

/-- **Before is transitive.** Keys are compared by group first, and by id where the groups are the
same, each time as texts. -/
theorem before_trans {a b c : FormKey} (hab : a.before b = true) (hbc : b.before c = true) :
    a.before c = true := by
  rw [before_iff] at hab hbc ⊢
  rcases hab with hab | ⟨hgroup, hid⟩
  · rcases hbc with hbc | ⟨hgroup', -⟩
    · exact Or.inl (lt_trans hab hbc)
    · exact Or.inl (hgroup' ▸ hab)
  · rcases hbc with hbc | ⟨hgroup', hid'⟩
    · exact Or.inl (hgroup ▸ hbc)
    · exact Or.inr ⟨hgroup.trans hgroup', lt_trans hid hid'⟩

/-- **Of two keys one comes first.** Two keys that are not the same are told apart by their groups, or else by
their ids. -/
theorem before_of_not_before {a b : FormKey} (hne : a ≠ b) (h : ¬ a.before b = true) :
    b.before a = true := by
  rw [before_iff, not_or, not_and, not_lt, not_lt] at h
  rw [before_iff]
  obtain ⟨hgroup, hid⟩ := h
  rcases hgroup.lt_or_eq with hlt | heq
  · exact Or.inl hlt
  · refine Or.inr ⟨heq, lt_of_le_of_ne (hid heq.symm) fun hsame => hne ?_⟩
    obtain ⟨_, _⟩ := a
    obtain ⟨_, _⟩ := b
    exact congrArg₂ FormKey.mk heq.symm hsame.symm

/-- Keys in order are determined by which keys they are: no two orders of the same keys are both strict. -/
theorem eq_of_ordered {ks ks' : List FormKey} (h : ks.Pairwise fun a b => a.before b = true)
    (h' : ks'.Pairwise fun a b => a.before b = true) (hperm : ks.Perm ks') : ks = ks' := by
  refine hperm.eq_of_pairwise (fun a b _ _ hab hba => ?_) h h'
  exact absurd (before_trans hab hba) (not_before_self a)

end FormKey

/-! ## Registries

A registry is a list of forms. The type does not keep that list in order, the insertions do, and therefore all
that follows is said of registries that have been grown from the empty one. -/

namespace Registry

/-- Forms in the order of their keys, no two of which are alike. -/
def Sorted (forms : List Form) : Prop := forms.Pairwise fun f g => f.key.before g.key = true

/-- A registry that has been grown from the empty one. -/
inductive Grown : Registry → Prop where
  | empty : Grown .empty
  | insert {r r' : Registry} {f : Form} (grown : Grown r) (h : r.insert f = .ok r') : Grown r'

theorem place_perm (f : Form) (forms : List Form) : (place f forms).Perm (f :: forms) := by
  induction forms with
  | nil => exact .refl _
  | cons g gs ih =>
    rw [place]
    split
    · exact .refl _
    · exact (ih.cons g).trans (.swap f g gs)

/-- A form with a new key is put where it belongs, and the list stays in order. The key has to be new: of two
forms with one key neither comes before the other. -/
theorem Sorted.place {f : Form} {forms : List Form} (h : Sorted forms)
    (hnew : ∀ g ∈ forms, g.key ≠ f.key) : Sorted (place f forms) := by
  induction forms with
  | nil => exact List.pairwise_singleton _ _
  | cons g gs ih =>
    obtain ⟨hg, hgs⟩ := List.pairwise_cons.mp h
    obtain ⟨hne, hrest⟩ := List.forall_mem_cons.mp hnew
    rw [Registry.place]
    -- the new form goes in front of the first one that it comes before
    split
    · next hbefore =>
      refine List.pairwise_cons.mpr ⟨List.forall_mem_cons.mpr ⟨hbefore, fun k hk => ?_⟩, h⟩
      exact FormKey.before_trans hbefore (hg k hk)
    · next hnot =>
      have hfirst : g.key.before f.key = true := FormKey.before_of_not_before hne.symm hnot
      refine List.pairwise_cons.mpr ⟨fun k hk => ?_, ih hgs hrest⟩
      rcases List.mem_cons.mp ((place_perm f gs).mem_iff.mp hk) with rfl | hk
      · exact hfirst
      · exact hg k hk

/-- A form is registered only under a key that is free, and then takes its place. -/
theorem insert_eq_ok {r r' : Registry} {f : Form} :
    r.insert f = .ok r' ↔ r.get? f.key = none ∧ r' = ⟨place f r.forms⟩ := by
  rw [insert]
  cases r.get? f.key with
  | none => simp [eq_comm]
  | some g => simp

/-- Under a key that is taken a form is refused, and the error names both sources. -/
theorem insert_eq_error {r : Registry} {f : Form} {cause : DuplicateForm} :
    r.insert f = .error cause ↔
      ∃ g, r.get? f.key = some g ∧ cause = ⟨f.key, g.source, f.source⟩ := by
  rw [insert]
  cases r.get? f.key with
  | none => simp
  | some g => simp [eq_comm]

theorem get?_eq_none_iff {r : Registry} {key : FormKey} :
    r.get? key = none ↔ ∀ f ∈ r.forms, f.key ≠ key := by
  rw [get?, List.find?_eq_none]
  simp

/-- A registry of given forms is grown. -/
theorem grown_of_ofForms {forms : List Form} {r : Registry} (h : ofForms forms = .ok r) : r.Grown :=
  foldlM_keeps (fun _ _ _ => .insert) .empty h

/-- **A grown registry lists its forms in key order.** -/
theorem Grown.ordered {r : Registry} (h : r.Grown) : Sorted r.forms := by
  induction h with
  | empty => exact List.Pairwise.nil
  | insert _ hinsert ih =>
    obtain ⟨hfree, rfl⟩ := insert_eq_ok.mp hinsert
    exact ih.place (get?_eq_none_iff.mp hfree)

/-- The keys of a grown registry come one before another. -/
theorem Grown.keys_ordered {r : Registry} (h : r.Grown) :
    r.keys.Pairwise fun a b => a.before b = true :=
  List.pairwise_map.mpr h.ordered

theorem Grown.keys_nodup {r : Registry} (h : r.Grown) : r.keys.Nodup :=
  h.keys_ordered.imp FormKey.ne_of_before

/-- Forms in key order are determined by which forms they are. -/
theorem Sorted.eq_of_perm {forms forms' : List Form} (h : Sorted forms) (h' : Sorted forms')
    (hperm : forms.Perm forms') : forms = forms' := by
  refine hperm.eq_of_pairwise (fun f g _ _ hfg hgf => ?_) h h'
  exact absurd (FormKey.before_trans hfg hgf) (FormKey.not_before_self f.key)

/-- **One form under each key.** What is found under a key is the form that has it, and there is no other. -/
theorem Grown.get?_eq_some_iff {r : Registry} (h : r.Grown) {key : FormKey} {f : Form} :
    r.get? key = some f ↔ f ∈ r.forms ∧ f.key = key :=
  find?_key_eq_some_iff h.keys_nodup

end Registry

end FormSchema
