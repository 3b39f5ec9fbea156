import FormSchema.Proofs.Registry.Reachability
import FormSchema.Proofs.Binding.Walk.SafeRuns
import Mathlib

/-!
# Nested references

The forms that a run is inside of at some moment follow each other by references. Without cycles
none of them comes twice, so they are no more than the registry holds, and a supply of levels that
is as large as the registry, less the root form, never runs out. References that stand side by side
do not add up, since each of them starts over from the forms around it.

A trail is the invariant that carries this: it lists the forms that are open and says of each of
them that it leads to the current one. An open form that were entered again would lead to itself.
Since a trail has no repetition its length is bounded, and what is kept along the way is that levels
and trail together are at least as many as there are forms.

* **`Registry.Trail`** — the forms that are open, the current one among them.
* **`Engine.bind_depth_sufficient`** — without cycles a run does not exceed a sufficient limit.
-/

namespace FormSchema

/-! ## Trails -/

namespace Registry

/-- The forms that are open when the definitions of a form are bound: registered, without
repetition, and each of them leads to the current one. The list is not part of the state of a run.
It is put together in the induction, from the references on the way down. -/
structure Trail (r : Registry) (key : FormKey) (trail : List FormKey) : Prop where
  nodup : trail.Nodup
  registered : trail ⊆ r.keys
  leads : ∀ k ∈ trail, Relation.ReflTransGen r.Leads k key

namespace Trail

variable {r : Registry} {key next : FormKey} {trail : List FormKey}

/-- At the beginning only the root form is open. -/
theorem single (h : key ∈ r.keys) : r.Trail key [key] where
  nodup := by simp
  registered := by simpa using h
  leads k hk := by
    rw [List.mem_singleton.mp hk]

/-- **Going one form deeper.** Without cycles the next form is not open yet. -/
theorem cons (h : r.Trail key trail) (acyclic : r.cycles = []) (hlead : r.Leads key next) :
    r.Trail next (next :: trail) where
  nodup := by
    have hnot : next ∉ trail := by
      intro hmem
      -- an open form leads to the current one, which would lead back to it
      have hback : Relation.TransGen r.Leads next next :=
        Relation.TransGen.tail' (h.leads next hmem) hlead
      exact cycles_eq_nil_iff.mp acyclic next hback
    exact List.nodup_cons.mpr ⟨hnot, h.nodup⟩
  registered := List.cons_subset.mpr ⟨hlead.mem_keys, h.registered⟩
  leads k hk := by
    rcases List.mem_cons.mp hk with rfl | hmem
    · exact .refl
    · exact (h.leads k hmem).tail hlead

/-- There are no more open forms than forms. -/
theorem length_le (h : r.Trail key trail) : trail.length ≤ r.size := by
  have hle : trail.length ≤ r.keys.length := (h.nodup.subperm h.registered).length_le
  rw [keys, List.length_map] at hle
  exact hle

end Trail

end Registry

/-! ## Levels -/

/-- Errors other than a limit exceeded. -/
def RunError.WithinLimit (err : RunError) : Prop :=
  ∀ key limit path, err ≠ .referenceDepthExceeded key limit path

namespace Engine

variable {σ γ : Type} {r : Registry} {b : Binder σ γ} {limit : Nat}
  {builders : List LibraryBuilder}

/-- Faults of the data have nothing to do with the limit. -/
theorem withinLimit_fault (error : BindingError) : RunError.WithinLimit (.binding error) := by
  intro key limit path h
  cases h

/-- A form is entered safely when the levels left and the forms open make up for all forms. The
induction is on the levels: a reference takes one of them and opens one more form. -/
theorem buildAll_safe_of_trail (acyclic : r.cycles = []) (n : Nat) {form : Form}
    {trail : List FormKey} (hget : r.get? form.key = some form) (htrail : r.Trail form.key trail)
    (hlevels : r.size ≤ n + trail.length) (context : γ) (parent : NodeId) (path : NodePath) :
    Run.Safe (fun _ : σ => True) RunError.WithinLimit
      ((equipped r limit builders b).buildAll ((equipped r limit builders b).follow n)
        form.children (.top form context parent) path) := by
  induction n using Nat.strongRecOn generalizing form trail context parent path with
  | ind n ih =>
    refine buildAll_safe withinLimit_fault (fun _ _ => .trivial) (fun _ _ => .trivial) ?_ _ _ _
    intro ref href d scope path hs
    -- a target is not on the trail already, or there would be a cycle
    have hopened : ∀ target, r.get? ref.target = some target →
        r.Trail target.key (target.key :: trail) := fun target htarget =>
      htrail.cons acyclic (Registry.leads_of_reference hget href htarget)
    apply follow_safe withinLimit_fault
    · intro _ key limit path h
      cases h
    · -- one more form would be open than there are forms
      intro target htarget hn
      have hlength := (hopened target htarget).length_le
      rw [List.length_cons] at hlength
      omega
    · exact fun _ _ => .trivial
    · -- one level less, one form more
      intro target htarget m hm context node
      have hentered : r.get? target.key = some target := by
        rw [Registry.key_of_get? htarget]
        exact htarget
      refine ih m (hm ▸ Nat.lt_succ_self m) hentered (hopened target htarget) ?_ context node _
      rw [List.length_cons]
      omega

/-- **Without cycles the limit is not exceeded.** As many levels as there are forms beside the root
suffice for every run, whatever the binder answers and whatever stands at extension points. -/
theorem bind_depth_sufficient (r : Registry) (limit : Nat) (builders : List LibraryBuilder)
    (b : Binder σ γ) (key : FormKey) (s : σ) (acyclic : r.cycles = [])
    (sufficient : r.size - 1 ≤ limit) (target : FormKey) (depth : Nat) (path : NodePath) :
    ((equipped r limit builders b).bind key s).1 ≠
      .error (.referenceDepthExceeded target depth path) := by
  cases hget : r.get? key with
  | none =>
    rw [bind_missing (by exact hget)]
    intro h
    cases h
  | some form =>
    have hkey : form.key = key := Registry.key_of_get? hget
    have hroot : r.get? form.key = some form := by
      rw [hkey]
      exact hget
    -- the trail begins with the root, which is open and takes no level
    have htrail : r.Trail form.key [form.key] := .single (Registry.mem_keys_of_get? hroot)
    have hlevels : r.size ≤ limit + [form.key].length := by
      rw [List.length_singleton]
      omega
    have hsafe := bind_safe (e := equipped r limit builders b) hget withinLimit_fault .trivial
      (fun _ => .trivial)
      (fun context => buildAll_safe_of_trail acyclic limit hroot htrail hlevels context _ _)
      (s := s) trivial
    intro h
    exact hsafe.2 _ h target depth path rfl

/-- The orders of the example: one level suffices for two forms, though the address is crossed into
three times. -/
theorem bind_depth_sufficient_orders :
    Sample.orders.cycles = [] ∧ Sample.orders.size - 1 ≤ 1 ∧
    ∀ target depth path,
      ((equipped Sample.orders 1 [.inline] Sample.binder).bind Sample.orderKey ()).1 ≠
        .error (.referenceDepthExceeded target depth path) := by
  have acyclic : Sample.orders.cycles = [] := by cbv
  have sufficient : Sample.orders.size - 1 ≤ 1 := by decide
  refine ⟨acyclic, sufficient, fun target depth path => ?_⟩
  exact bind_depth_sufficient Sample.orders 1 [.inline] Sample.binder Sample.orderKey () acyclic
    sufficient target depth path

end Engine

end FormSchema
