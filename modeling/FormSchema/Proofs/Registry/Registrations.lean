import FormSchema.Proofs.Registry.ByteOrder
import Mathlib

/-!
# Forms that are registered one after the other

A registry is grown by insertions, and an insertion may be refused. Whatever comes, the form that was first
under its key is kept: later ones are refused and change nothing. So the registry is a matter of which forms
came first, and it lists them in the order of their keys. Where no two forms have the same key none is refused,
and the order in which they come makes no difference.

* `Registry.attempt`, `Registry.attempts` — insertions that may be refused.
* `Registry.accepted` — the forms that were not refused.
* **`Registry.Holds.attempt`** — what one more insertion does.
* **`Registry.ofForms_eq_ok_iff`** — forms with different keys are registered all.
* **`Registry.attempts_exact`** — what is known of a registry after any insertions.
-/

namespace FormSchema

/-- An absent group is the empty one; otherwise keys differ if their groups or their ids do. -/
theorem FormKey.ofGroup_eq_iff {group group' : Option String} {id id' : String} :
    FormKey.ofGroup group id = FormKey.ofGroup group' id' ↔
      group.getD "" = group'.getD "" ∧ id = id' := by
  rw [FormKey.ofGroup, FormKey.ofGroup, FormKey.mk.injEq]

namespace Registry

/-! ## Insertions that may be refused

An insertion answers with an error and leaves no registry behind, so whoever inserts form after form goes on
with the registry from before. Of forms in a row some are accepted then and some are not, and which of them are
is settled by the forms that come before them alone. -/

/-- What an insertion answers, and the registry it leaves behind. A form that is refused leaves the one that
was there. -/
def attempt (r : Registry) (f : Form) : Except DuplicateForm Unit × Registry :=
  match r.insert f with
  | .ok grown => (.ok (), grown)
  | .error cause => (.error cause, r)

/-- The registry after forms were inserted one after the other, whether they were refused or not. -/
def attempts (forms : List Form) : Registry := forms.foldl (fun r f => (r.attempt f).2) .empty

/-- Of forms that are inserted one after the other those that are not refused, in the order in which they
come. -/
def acceptedBy (r : Registry) : List Form → List Form
  | [] => []
  | f :: forms =>
    match r.attempt f with
    | (.ok _, grown) => f :: acceptedBy grown forms
    | (.error _, same) => acceptedBy same forms

def accepted (forms : List Form) : List Form := acceptedBy .empty forms

variable {r r' : Registry} {f : Form} {forms kept : List Form} {key : FormKey}

theorem attempt_of_ok (h : r.insert f = .ok r') : r.attempt f = (.ok (), r') := by
  rw [attempt, h]

theorem attempt_of_error {cause : DuplicateForm} (h : r.insert f = .error cause) :
    r.attempt f = (.error cause, r) := by
  rw [attempt, h]

theorem attempts_append (forms : List Form) (f : Form) :
    attempts (forms ++ [f]) = ((attempts forms).attempt f).2 := by
  rw [attempts, List.foldl_append]
  rfl

/-- The last form is accepted if the registry after those before it takes it. -/
theorem accepted_append (forms : List Form) (f : Form) :
    accepted (forms ++ [f]) =
      accepted forms ++ if ((attempts forms).attempt f).1.isOk then [f] else [] := by
  -- the statement is about the empty registry, the induction has to start from any
  suffices hfrom : ∀ r : Registry, acceptedBy r (forms ++ [f]) = acceptedBy r forms ++
      if ((forms.foldl (fun r f => (r.attempt f).2) r).attempt f).1.isOk then [f] else [] from hfrom .empty
  induction forms with
  | nil =>
    intro r
    rw [List.nil_append, acceptedBy, acceptedBy]
    cases h : r.insert f with
    | ok grown => rw [List.foldl_nil, attempt_of_ok h]; rfl
    | error cause => rw [List.foldl_nil, attempt_of_error h]; rfl
  | cons g forms ih =>
    intro r
    rw [List.cons_append, acceptedBy, acceptedBy, List.foldl_cons]
    cases h : r.insert g with
    | ok grown => rw [attempt_of_ok h]; exact congrArg (g :: ·) (ih grown)
    | error cause => rw [attempt_of_error h]; exact ih r

/-! ## What a registry holds

The invariant has three parts: the registry is grown, it holds what was kept and nothing else, and under every
key it finds the first form that came with that key. The last part speaks of all forms that came, the refused
ones included. A refused form changes none of the three, since the form for which it was refused came first. -/

/-- A form that is registered is found under its key, and nothing else is changed: what was found before is
found still, and under all other keys there is what there was. -/
theorem Grown.get?_insert (hr : r.Grown) (h : r.insert f = .ok r') (key : FormKey) :
    r'.get? key = (r.get? key).or ([f].find? fun g => g.key = key) := by
  obtain ⟨hfree, rfl⟩ := insert_eq_ok.mp h
  have hmem : ∀ g, g ∈ place f r.forms ↔ g = f ∨ g ∈ r.forms := fun g => by
    rw [(place_perm f r.forms).mem_iff, List.mem_cons]
  refine Option.ext fun g => ?_
  rw [(hr.insert h).get?_eq_some_iff, hmem]
  -- under its own key the form is found, as there was nothing before; other keys are as before
  by_cases hkey : f.key = key
  · subst hkey
    rw [hfree, Option.none_or, List.find?_singleton, if_pos (decide_eq_true rfl), Option.some.injEq]
    constructor
    · rintro ⟨rfl | hg, hsame⟩
      · rfl
      · exact absurd hsame (get?_eq_none_iff.mp hfree g hg)
    · rintro rfl
      exact ⟨Or.inl rfl, rfl⟩
  · rw [List.find?_singleton, if_neg (by simpa using hkey), Option.or_none, hr.get?_eq_some_iff]
    refine and_congr_left fun hsame => ⟨fun hg => hg.resolve_left ?_, Or.inr⟩
    rintro rfl
    exact hkey hsame

/-- After some insertions a registry holds the forms that were kept, and finds those that came first. -/
structure Holds (r : Registry) (forms kept : List Form) : Prop where
  grown : r.Grown
  holds : r.forms.Perm kept
  first : ∀ key, r.get? key = forms.find? fun f => f.key = key

theorem Holds.empty : Holds .empty [] [] := ⟨.empty, .nil, fun _ => rfl⟩

/-- A form is taken exactly when none of those that were kept has its key. -/
theorem Holds.attempt_eq_ok_iff (h : r.Holds forms kept) :
    (r.attempt f).1 = .ok () ↔ ∀ g ∈ kept, g.key ≠ f.key := by
  have hfree : r.get? f.key = none ↔ ∀ g ∈ kept, g.key ≠ f.key := by
    rw [get?_eq_none_iff]
    exact forall_congr' fun g => by rw [h.holds.mem_iff]
  rw [← hfree]
  cases hinsert : r.insert f with
  | ok grown =>
    rw [attempt_of_ok hinsert]
    exact ⟨fun _ => (insert_eq_ok.mp hinsert).1, fun _ => rfl⟩
  | error cause =>
    obtain ⟨g, hget, -⟩ := insert_eq_error.mp hinsert
    rw [attempt_of_error hinsert, hget]
    exact ⟨fun hok => (nomatch hok), fun hnone => (nomatch hnone)⟩

/-- A form is refused for the one that was kept under its key, and the error names where both of them come
from, the kept one first. -/
theorem Holds.attempt_eq_error_iff (h : r.Holds forms kept) {cause : DuplicateForm} :
    (r.attempt f).1 = .error cause ↔
      ∃ g ∈ kept, g.key = f.key ∧ cause = ⟨f.key, g.source, f.source⟩ := by
  have herror : (r.attempt f).1 = .error cause ↔ r.insert f = .error cause := by
    cases hinsert : r.insert f with
    | ok grown =>
      rw [attempt_of_ok hinsert]
      exact ⟨fun h => (nomatch h), fun h => (nomatch h)⟩
    | error found =>
      rw [attempt_of_error hinsert]
      exact ⟨fun h => congrArg _ (Except.error.inj h), fun h => congrArg _ (Except.error.inj h)⟩
  rw [herror, insert_eq_error]
  refine exists_congr fun g => ?_
  rw [h.grown.get?_eq_some_iff, h.holds.mem_iff, and_assoc]

/-- **One more insertion.** If the form is taken it is kept besides the others, and if it is refused nothing
changes; either way the first form under each key is found. -/
theorem Holds.attempt (h : r.Holds forms kept) (f : Form) :
    (r.attempt f).2.Holds (forms ++ [f]) (kept ++ if (r.attempt f).1.isOk then [f] else []) := by
  cases hinsert : r.insert f with
  | ok grown =>
    rw [attempt_of_ok hinsert]
    refine ⟨h.grown.insert hinsert, ?_, fun key => ?_⟩
    · obtain ⟨-, rfl⟩ := insert_eq_ok.mp hinsert
      exact (place_perm f r.forms).trans
        ((h.holds.cons f).trans (List.perm_append_singleton f kept).symm)
    · rw [h.grown.get?_insert hinsert, h.first, List.find?_append]
  | error cause =>
    obtain ⟨g, hget, -⟩ := insert_eq_error.mp hinsert
    rw [attempt_of_error hinsert]
    refine ⟨h.grown, h.holds.trans (.of_eq (List.append_nil kept).symm), fun key => ?_⟩
    rw [List.find?_append, ← h.first]
    by_cases hkey : f.key = key
    · -- the form under this key came before
      rw [← hkey, hget]
      rfl
    · rw [List.find?_singleton, if_neg (by simpa using hkey), Option.or_none]

/-- **Any insertions.** The registry holds the forms that were accepted. -/
theorem attempts_holds (forms : List Form) : (attempts forms).Holds forms (accepted forms) := by
  induction forms using List.reverseRecOn with
  | nil => exact .empty
  | append_singleton forms f ih =>
    rw [attempts_append, accepted_append]
    exact ih.attempt f

/-! ## Registries of given forms

Here the first refusal ends everything. None comes exactly if the keys are distinct, and the registry is then
the list of all forms sorted by key, which depends on the forms alone and not on how they were listed. -/

/-- Forms are registered all if their keys are free and different. -/
theorem Grown.foldlM_insert_iff (hr : r.Grown) :
    forms.foldlM Registry.insert r = .ok r' ↔
      ((r.forms ++ forms).map fun f => f.key).Nodup ∧ r'.forms.Perm (r.forms ++ forms) ∧
        Sorted r'.forms := by
  induction forms generalizing r with
  | nil =>
    rw [List.foldlM_nil, List.append_nil]
    constructor
    · intro h
      obtain rfl : r = r' := Except.ok.inj h
      exact ⟨hr.keys_nodup, .refl _, hr.ordered⟩
    · rintro ⟨-, hperm, hsorted⟩
      obtain ⟨_⟩ := r
      obtain ⟨_⟩ := r'
      -- a sorted list is determined by what is in it
      exact congrArg (fun forms => (Except.ok ⟨forms⟩ : Except DuplicateForm Registry))
        (hr.ordered.eq_of_perm hsorted hperm.symm)
  | cons f forms ih =>
    rw [List.foldlM_cons]
    cases hinsert : r.insert f with
    | ok grown =>
      have hgrown : (grown.forms ++ forms).Perm (r.forms ++ f :: forms) := by
        obtain ⟨-, rfl⟩ := insert_eq_ok.mp hinsert
        exact ((place_perm f r.forms).append_right forms).trans List.perm_middle.symm
      rw [← (hgrown.map fun f => f.key).nodup_iff, ← hgrown.congr_right]
      exact ih (hr.insert hinsert)
    | error cause =>
      -- the key of the refused form is taken, so it occurs twice among those to be registered
      obtain ⟨g, hget, -⟩ := insert_eq_error.mp hinsert
      refine ⟨fun h => (nomatch h), fun h => absurd (key_of_get? hget) ?_⟩
      have hdistinct := h.1
      rw [List.map_append, List.nodup_append] at hdistinct
      exact hdistinct.2.2 _ (List.mem_map_of_mem (mem_forms_of_get? hget)) _ List.mem_cons_self

/-- **All or none.** Forms make up a registry exactly when their keys differ; it is the one that lists them in
the order of their keys. -/
theorem ofForms_eq_ok_iff :
    ofForms forms = .ok r ↔
      (forms.map fun f => f.key).Nodup ∧ r.forms.Perm forms ∧ Sorted r.forms :=
  Grown.empty.foldlM_insert_iff

/-- Of forms with different keys none is refused. By induction from the end: the last one finds those before
it accepted, and none of them has its key. -/
theorem accepted_of_nodup (h : (forms.map fun f => f.key).Nodup) : accepted forms = forms := by
  induction forms using List.reverseRecOn with
  | nil => rfl
  | append_singleton forms f ih =>
    rw [List.map_append, List.nodup_append] at h
    have hkept : accepted forms = forms := ih h.1
    have hnew : ∀ g ∈ accepted forms, g.key ≠ f.key := fun g hg =>
      h.2.2 _ (List.mem_map_of_mem (hkept ▸ hg)) _ (List.mem_singleton.mpr rfl)
    rw [accepted_append, (attempts_holds forms).attempt_eq_ok_iff.mpr hnew, hkept]
    rfl

/-- The registry of some forms is the one that they leave behind when they are inserted. -/
theorem ofForms_of_nodup (h : (forms.map fun f => f.key).Nodup) : ofForms forms = .ok (attempts forms) := by
  have hholds := attempts_holds forms
  rw [accepted_of_nodup h] at hholds
  exact ofForms_eq_ok_iff.mpr ⟨h, hholds.holds, hholds.grown.ordered⟩

/-- **A registry never loses or replaces a form.** Keys are equal when their ids are and their groups, of which
an absent one is empty. Whatever forms were inserted, the next one is taken exactly when none of the accepted
ones has its key; otherwise the error names the key, the source of the one that is kept and that of the one
that is refused, and the registry is the same as before. Under each key the first form that came is found, and
the accepted forms are listed in the order of the bytes of group and id. Forms make up a registry exactly when
their keys differ, and it is the same for any order in which they come. -/
theorem attempts_exact :
    (∀ (group group' : Option String) (id id' : String),
      FormKey.ofGroup group id = FormKey.ofGroup group' id' ↔ group.getD "" = group'.getD "" ∧ id = id') ∧
    (∀ (forms : List Form) (f : Form),
      (((attempts forms).attempt f).1 = .ok () ↔ ∀ g ∈ accepted forms, g.key ≠ f.key) ∧
      ∀ cause, (((attempts forms).attempt f).1 = .error cause ↔
          ∃ g ∈ accepted forms, g.key = f.key ∧ cause = ⟨f.key, g.source, f.source⟩) ∧
        (((attempts forms).attempt f).1 = .error cause → attempts (forms ++ [f]) = attempts forms)) ∧
    (∀ (forms : List Form) (key : FormKey),
      (attempts forms).get? key = forms.find? fun f => f.key = key) ∧
    (∀ forms : List Form, (attempts forms).forms.Perm (accepted forms) ∧
      (attempts forms).forms.Pairwise fun f g =>
        Text.bytes f.key.group < Text.bytes g.key.group ∨
          (f.key.group = g.key.group ∧ Text.bytes f.key.id < Text.bytes g.key.id)) ∧
    (∀ forms : List Form, (∃ r, ofForms forms = .ok r) ↔ (forms.map fun f => f.key).Nodup) ∧
    ∀ (forms forms' : List Form) (r : Registry), ofForms forms = .ok r → forms.Perm forms' →
      ofForms forms' = .ok r := by
  refine ⟨fun _ _ _ _ => FormKey.ofGroup_eq_iff, fun forms f => ?_, fun forms => (attempts_holds forms).first,
    fun forms => ?_, fun forms => ?_, fun forms forms' r hr hperm => ?_⟩
  · have hholds := attempts_holds forms
    refine ⟨hholds.attempt_eq_ok_iff, fun cause => ⟨hholds.attempt_eq_error_iff, fun herror => ?_⟩⟩
    -- an attempt that fails leaves the registry as it was
    rw [attempts_append]
    cases hinsert : (attempts forms).insert f with
    | ok grown =>
      rw [attempt_of_ok hinsert] at herror
      cases herror
    | error _ => rw [attempt_of_error hinsert]
  · have hholds := attempts_holds forms
    exact ⟨hholds.holds, hholds.grown.ordered.imp fun h => FormKey.before_iff_bytes.mp h⟩
  · constructor
    · rintro ⟨r, hr⟩
      exact (ofForms_eq_ok_iff.mp hr).1
    · exact fun h => ⟨_, ofForms_of_nodup h⟩
  · obtain ⟨hkeys, hholds, hsorted⟩ := ofForms_eq_ok_iff.mp hr
    exact ofForms_eq_ok_iff.mpr
      ⟨(hperm.map fun f => f.key).nodup_iff.mp hkeys, hholds.trans hperm, hsorted⟩

end Registry

/-! ## An example

Ids are compared by their bytes, by which an accented letter comes after all plain ones. An empty group is the
same as none. -/

namespace Sample

def sheet (group : Option String) (id source : String) : Form := .empty (.ofGroup group id) source

/-- Two sheets with one id in different groups, and one whose id comes first by its bytes. -/
def sheets : List Form := [sheet none "é" "one", sheet (some "g") "é" "two", sheet none "z" "three"]

/-- A sheet whose group is empty, which is the same as having none. -/
def sheetAgain : Form := sheet (some "") "é" "four"

end Sample

namespace Registry

/-- The sheet that comes again is refused for the first one, which is still found. Without it the sheets make
up the same registry from the last to the first, and with it they make up none. -/
theorem attempts_exact_sheets :
    ((attempts Sample.sheets).attempt Sample.sheetAgain).1 = .error ⟨⟨"", "é"⟩, "one", "four"⟩ ∧
    attempts (Sample.sheets ++ [Sample.sheetAgain]) = attempts Sample.sheets ∧
    (attempts Sample.sheets).get? ⟨"", "é"⟩ = some (Sample.sheet none "é" "one") ∧
    (attempts Sample.sheets).keys = [⟨"", "z"⟩, ⟨"", "é"⟩, ⟨"g", "é"⟩] ∧
    (∃ r, ofForms Sample.sheets = .ok r ∧ ofForms Sample.sheets.reverse = .ok r) ∧
    ¬ ∃ r, ofForms (Sample.sheets ++ [Sample.sheetAgain]) = .ok r := by
  obtain ⟨-, hnext, hfirst, -, hforms, horder⟩ := attempts_exact
  have haccepted : accepted Sample.sheets = Sample.sheets := accepted_of_nodup (by decide)
  have hfound : Sample.sheet none "é" "one" ∈ accepted Sample.sheets := haccepted ▸ List.mem_cons_self
  have herror : ((attempts Sample.sheets).attempt Sample.sheetAgain).1 =
      .error ⟨⟨"", "é"⟩, "one", "four"⟩ := ((hnext _ _).2 _).1.mpr ⟨_, hfound, by decide, rfl⟩
  obtain ⟨r, hr⟩ := (hforms Sample.sheets).mpr (by decide)
  refine ⟨herror, ((hnext _ _).2 _).2 herror, hfirst _ _, by cbv, ⟨r, hr, horder _ _ r hr ?_⟩, fun h => ?_⟩
  · exact (List.reverse_perm Sample.sheets).symm
  · exact absurd ((hforms _).mp h) (by decide)

end Registry

end FormSchema
