import Mathlib.Logic.Relation
import FormSchema.Proofs.Registry.References
import FormSchema.Registry.Cycles

/-!
# Reachability between forms

One form leads to another when it holds a reference to it. This module relates the search of a
registry for what a form leads to with the transitive closure of that relation.

The search takes keys off a list of work, and puts the targets of each key it has not seen yet in front of
what is left. It ends because it never goes through a key twice. What makes it exact is not how it goes about
that, but what its result has to contain: whatever the work holds, and with a key all its successors. The
smallest such set is what can be reached, and the search finds nothing that cannot be.

* **`Registry.mem_after_iff`** — the search finds exactly what a form leads to in one or more steps.
* **`Registry.mem_cycles_iff`** — which lists are reported as cycles.
* **`Registry.cycles_eq_nil_iff`** — no cycle is reported exactly when no form leads to itself.
-/

namespace FormSchema

namespace Registry

/-! ## The search

`explore` walks a list of work, and what it has seen only grows. Three facts pin its result down:
it holds the work, it is closed under single steps, and it holds nothing that the work does not
lead to. -/

section Explore

variable {next : FormKey → List FormKey} {within seen todo : List FormKey}

theorem seen_subset_explore : seen ⊆ explore next within seen todo := by
  fun_induction explore next within seen todo with
  | case1 seen => exact List.Subset.refl _
  | case2 seen k todo _ ih => exact List.Subset.trans (List.subset_cons_self k seen) ih
  | case3 seen k todo _ ih => exact ih

theorem mem_explore_of_mem_todo {x : FormKey} (hx : x ∈ todo) (hw : x ∈ within) :
    x ∈ explore next within seen todo := by
  fun_induction explore next within seen todo with
  | case1 seen => cases hx
  | case2 seen k todo _ ih =>
    rcases List.mem_cons.mp hx with rfl | htodo
    · exact seen_subset_explore List.mem_cons_self
    · exact ih (List.mem_append_right _ htodo)
  | case3 seen k todo hk ih =>
    rcases List.mem_cons.mp hx with rfl | htodo
    · -- the key is skipped because it was seen before
      have hseen : x ∈ seen := by
        by_cases hs : x ∈ seen
        · exact hs
        · exact absurd ⟨hw, hs⟩ hk
      exact seen_subset_explore hseen
    · exact ih htodo

/-- The result is closed under single steps, but for what had been seen before the search. -/
theorem explore_closed {x y : FormKey} (hx : x ∈ explore next within seen todo) (hs : x ∉ seen)
    (hy : y ∈ next x) (hw : y ∈ within) : y ∈ explore next within seen todo := by
  fun_induction explore next within seen todo with
  | case1 seen => exact absurd hx hs
  | case2 seen k todo _ ih =>
    by_cases hk : x = k
    · -- the successors of the key are put before the rest of the work
      subst hk
      exact mem_explore_of_mem_todo (List.mem_append_left _ hy) hw
    · apply ih hx
      rw [List.mem_cons, not_or]
      exact ⟨hk, hs⟩
  | case3 seen k todo _ ih => exact ih hx hs

/-- Whatever is found was seen before or is reached from the work. -/
theorem explore_sound {x : FormKey} (hx : x ∈ explore next within seen todo) :
    x ∈ seen ∨ ∃ k ∈ todo, Relation.ReflTransGen (fun a b => b ∈ next a) k x := by
  fun_induction explore next within seen todo with
  | case1 seen => exact Or.inl hx
  | case2 seen k todo _ ih =>
    rcases ih hx with hseen | ⟨m, hm, hpath⟩
    · rcases List.mem_cons.mp hseen with rfl | hseen
      · exact Or.inr ⟨x, List.mem_cons_self, .refl⟩
      · exact Or.inl hseen
    · -- what was found from the neighbours of `k` is found from `k` by one step more
      refine Or.inr ?_
      rcases List.mem_append.mp hm with hnext | htodo
      · exact ⟨k, List.mem_cons_self, .head hnext hpath⟩
      · exact ⟨m, List.mem_cons_of_mem k htodo, hpath⟩
  | case3 seen k todo _ ih =>
    rcases ih hx with hseen | ⟨m, hm, hpath⟩
    · exact Or.inl hseen
    · exact Or.inr ⟨m, List.mem_cons_of_mem k hm, hpath⟩

end Explore

/-! ## What a form leads to

An edge leads from a form to the target of one of its references, if that target is registered. A reference
that dangles leads nowhere. The search starts with the targets of a key and not with the key itself, so the
key is found exactly if there is a way back to it. -/

/-- One form leads to another: the first one holds a reference to the second one, and both are registered. -/
def Leads (r : Registry) (a b : FormKey) : Prop := b ∈ r.targets a

variable {r : Registry} {a b key : FormKey} {set : List FormKey}

theorem mem_keys_of_get? {form : Form} (h : r.get? key = some form) : key ∈ r.keys := by
  rw [← key_of_get? h]
  exact List.mem_map_of_mem (mem_forms_of_get? h)

theorem mem_targets_iff :
    b ∈ r.targets a ↔ ∃ form, r.get? a = some form ∧
      (∃ ref ∈ form.references, ref.target = b) ∧ r.contains b = true := by
  rw [targets]
  cases r.get? a with
  | none => simp
  | some form => simp

theorem Leads.mem_keys (h : r.Leads a b) : b ∈ r.keys := by
  obtain ⟨_, _, _, hcontains⟩ := mem_targets_iff.mp h
  obtain ⟨form, hget⟩ := contains_iff.mp hcontains
  exact mem_keys_of_get? hget

/-- Whoever crosses a reference of a registered form goes to where that form leads. -/
theorem leads_of_reference {form target : Form} {ref : Reference} (hget : r.get? form.key = some form)
    (href : ref ∈ form.references) (htarget : r.get? ref.target = some target) :
    r.Leads form.key target.key := by
  rw [key_of_get? htarget]
  exact mem_targets_iff.mpr ⟨form, hget, ⟨ref, href, rfl⟩, contains_iff.mpr ⟨target, htarget⟩⟩

/-- **The search is exact.** It finds the keys to which a form leads in one or more steps. -/
theorem mem_after_iff : b ∈ r.after a ↔ Relation.TransGen r.Leads a b := by
  rw [after]
  constructor
  · intro h
    rcases explore_sound h with hseen | ⟨k, hk, hpath⟩
    · cases hseen
    · exact Relation.TransGen.head' hk hpath
  · intro h
    induction h with
    | single hstep => exact mem_explore_of_mem_todo hstep (Leads.mem_keys hstep)
    | tail _ hstep ih => exact explore_closed ih List.not_mem_nil hstep (Leads.mem_keys hstep)

/-! ## Cycles

For every registered key the keys are collected that lead to it and to which it leads. Keys on one cycle get
the same list in this way. It is reported once, for the key that comes first in it, and a key that lies on no
cycle gets a list that it is not in itself. -/

/-- What is looked up in a table of the values of a function is the value of the function. -/
theorem lookup_map_self {β : Type} {f : FormKey → β} {keys : List FormKey} (h : key ∈ keys) :
    (keys.map fun k => (k, f k)).lookup key = some (f key) := by
  induction keys with
  | nil => cases h
  | cons k keys ih =>
    rw [List.map_cons, List.lookup_cons]
    by_cases hk : key = k
    · subst hk
      simp
    · have hkeys : key ∈ keys := (List.mem_cons.mp h).resolve_left hk
      rw [beq_eq_false_iff_ne.mpr hk]
      exact ih hkeys

/-- The cycle of a registered key: the keys that lead to it and to which it leads, in order. -/
theorem cycleAt_reachability (h : key ∈ r.keys) :
    cycleAt r.reachability key =
      r.keys.filter fun m => decide (key ∈ r.after m) && decide (m ∈ r.after key) := by
  have hlookup : (r.reachability.lookup key).getD [] = r.after key := by
    rw [reachability, lookup_map_self h]
    rfl
  rw [cycleAt, hlookup, reachability, List.filter_map, List.map_map]
  simp [Function.comp_def]

theorem mem_cycleAt_iff (h : key ∈ r.keys) :
    a ∈ cycleAt r.reachability key ↔
      a ∈ r.keys ∧ Relation.TransGen r.Leads a key ∧ Relation.TransGen r.Leads key a := by
  rw [cycleAt_reachability h, List.mem_filter]
  simp only [Bool.and_eq_true, decide_eq_true_eq, mem_after_iff]

/-- Two keys on one cycle have the same cycle: the ways to one of them go on to the other, and back. -/
theorem cycleAt_eq_of_mem (h : key ∈ r.keys) (ha : a ∈ cycleAt r.reachability key) :
    cycleAt r.reachability a = cycleAt r.reachability key := by
  obtain ⟨hkeys, hto, hfrom⟩ := (mem_cycleAt_iff h).mp ha
  rw [cycleAt_reachability hkeys, cycleAt_reachability h]
  refine List.filter_congr fun m _ => ?_
  rw [Bool.eq_iff_iff]
  simp only [Bool.and_eq_true, decide_eq_true_eq, mem_after_iff]
  constructor
  · rintro ⟨hma, ham⟩
    exact ⟨hma.trans hto, hfrom.trans ham⟩
  · rintro ⟨hmk, hkm⟩
    exact ⟨hmk.trans hfrom, hto.trans hkm⟩

theorem mem_keys_of_transGen (h : Relation.TransGen r.Leads a b) : b ∈ r.keys := by
  obtain ⟨m, -, hstep⟩ := Relation.TransGen.tail'_iff.mp h
  exact Leads.mem_keys hstep

/-- **A reported list** is the cycle of its first key. -/
theorem mem_cycles_iff :
    set ∈ r.cycles ↔ ∃ k ∈ r.keys, cycleAt r.reachability k = set ∧ set.head? = some k := by
  rw [cycles, List.mem_filterMap]
  refine exists_congr fun k => and_congr_right fun _ => ?_
  rw [Option.ite_none_right_eq_some, Option.some.injEq, and_comm]
  exact and_congr_right fun heq => heq ▸ Iff.rfl

/-- The cycle of a key that lies on one is reported. -/
theorem cycleAt_mem_cycles (h : key ∈ r.keys) (hself : key ∈ cycleAt r.reachability key) :
    cycleAt r.reachability key ∈ r.cycles := by
  obtain ⟨first, rest, hcycle⟩ := List.exists_cons_of_ne_nil (List.ne_nil_of_mem hself)
  have hfirst : first ∈ cycleAt r.reachability key := hcycle ▸ List.mem_cons_self
  have hkeys : first ∈ r.keys := ((mem_cycleAt_iff h).mp hfirst).1
  exact mem_cycles_iff.mpr ⟨first, hkeys, cycleAt_eq_of_mem h hfirst, by rw [hcycle]; rfl⟩

/-- A reported list is the cycle of each of its keys. -/
theorem cycleAt_of_mem_cycles (hset : set ∈ r.cycles) (ha : a ∈ set) :
    a ∈ r.keys ∧ cycleAt r.reachability a = set := by
  obtain ⟨k, hk, rfl, -⟩ := mem_cycles_iff.mp hset
  exact ⟨((mem_cycleAt_iff hk).mp ha).1, cycleAt_eq_of_mem hk ha⟩

/-- **No cycle, no way back.** No cycle is reported exactly when no form leads to itself. -/
theorem cycles_eq_nil_iff : r.cycles = [] ↔ ∀ k, ¬ Relation.TransGen r.Leads k k := by
  constructor
  · intro h k hk
    have hkeys : k ∈ r.keys := mem_keys_of_transGen hk
    have hself : k ∈ cycleAt r.reachability k := (mem_cycleAt_iff hkeys).mpr ⟨hkeys, hk, hk⟩
    have hreported := cycleAt_mem_cycles hkeys hself
    rw [h] at hreported
    cases hreported
  · intro h
    refine List.eq_nil_iff_forall_not_mem.mpr fun set hset => ?_
    obtain ⟨k, hkeys, rfl, hhead⟩ := mem_cycles_iff.mp hset
    have hself : k ∈ cycleAt r.reachability k := List.mem_of_head? hhead
    exact h k ((mem_cycleAt_iff hkeys).mp hself).2.1

end Registry

end FormSchema
