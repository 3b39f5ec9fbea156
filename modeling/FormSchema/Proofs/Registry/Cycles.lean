import FormSchema.Proofs.Registry.KeyOrder
import FormSchema.Proofs.Registry.Reachability
import Mathlib

/-!
# Cycles of forms

Forms that lead to one another make up a cycle, and so does a form that leads to itself by an edge. What a
registry reports as its cycles are exactly these sets of keys, each of them once and in key order, and the
sets themselves are in order.

A cycle is found for each key by searching from it. It might as well be found from the strongly connected
components of the references, by leaving out those without an edge within them and sorting the others. Both
come to the same, and the reason is the order: the keys of a component have one arrangement that is strictly
in order, and so have the components. Whatever finds the components, and however it lists them, the result is
the same list.

* `Registry.Components` — the strongly connected components, however they are found and listed.
* **`Registry.exists_cycle_iff`** — the keys on one cycle are those that lead to one another.
* **`Registry.cycles_exact`** — what is reported, in which order, and how it is had from the components.
-/

namespace FormSchema

namespace Registry

variable {r : Registry} {a b key : FormKey} {set : List FormKey}

/-- Two forms lead to one another, in one or more steps each way. -/
def LeadBothWays (r : Registry) (a b : FormKey) : Prop :=
  Relation.TransGen r.Leads a b ∧ Relation.TransGen r.Leads b a

theorem LeadBothWays.symm (h : r.LeadBothWays a b) : r.LeadBothWays b a := ⟨h.2, h.1⟩

theorem LeadBothWays.trans {c : FormKey} (hab : r.LeadBothWays a b) (hbc : r.LeadBothWays b c) :
    r.LeadBothWays a c := ⟨hab.1.trans hbc.1, hbc.2.trans hab.2⟩

/-! ## Which keys are reported

Being on one cycle is symmetric and transitive, but not reflexive: a key is related to itself only if there is
a way back to it. So the reported lists do not divide up all keys, they divide up those that lie on a cycle. -/

theorem mem_cycleAt_iff_leadBothWays (h : key ∈ r.keys) :
    a ∈ cycleAt r.reachability key ↔ r.LeadBothWays key a := by
  rw [mem_cycleAt_iff h]
  exact ⟨fun ⟨_, hto, hfrom⟩ => ⟨hfrom, hto⟩, fun hboth => ⟨mem_keys_of_transGen hboth.1, hboth.symm⟩⟩

/-- **Keys on one cycle** are keys that lead to one another. -/
theorem exists_cycle_iff : (∃ set ∈ r.cycles, a ∈ set ∧ b ∈ set) ↔ r.LeadBothWays a b := by
  constructor
  · rintro ⟨set, hset, ha, hb⟩
    obtain ⟨hkeys, rfl⟩ := cycleAt_of_mem_cycles hset ha
    exact (mem_cycleAt_iff_leadBothWays hkeys).mp hb
  · intro h
    have hkeys : a ∈ r.keys := mem_keys_of_transGen h.2
    have hself : a ∈ cycleAt r.reachability a :=
      (mem_cycleAt_iff_leadBothWays hkeys).mpr (h.trans h.symm)
    exact ⟨_, cycleAt_mem_cycles hkeys hself, hself, (mem_cycleAt_iff_leadBothWays hkeys).mpr h⟩

/-- A key is reported when its form leads to itself. -/
theorem mem_flatten_cycles_iff : key ∈ r.cycles.flatten ↔ Relation.TransGen r.Leads key key := by
  rw [List.mem_flatten]
  constructor
  · rintro ⟨set, hset, hkey⟩
    exact (exists_cycle_iff.mp ⟨set, hset, hkey, hkey⟩).1
  · intro h
    obtain ⟨set, hset, hkey, -⟩ := exists_cycle_iff.mpr ⟨h, h⟩
    exact ⟨set, hset, hkey⟩

/-- Two reported lists with a key in common are the same. -/
theorem eq_of_mem_cycles {set' : List FormKey} (h : set ∈ r.cycles) (h' : set' ∈ r.cycles)
    (ha : a ∈ set) (ha' : a ∈ set') : set = set' :=
  (cycleAt_of_mem_cycles h ha).2.symm.trans (cycleAt_of_mem_cycles h' ha').2

/-! ## Order

The keys of a registry are in order, and what is filtered out of them is in order as well. Lists that have no
key in common are told apart by their first keys, which is why the lists come in the order of these. -/

/-- Lists of keys are compared key by key, and a list comes before those that go on from it. -/
def ListBefore : List FormKey → List FormKey → Prop := List.Lex fun a b => a.before b = true

theorem not_listBefore_self (set : List FormKey) : ¬ ListBefore set set := by
  induction set with
  | nil => exact nofun
  | cons k ks ih =>
    intro h
    cases h with
    | rel hbefore => exact FormKey.not_before_self k hbefore
    | cons hrest => exact ih hrest

/-- The keys of a cycle stand in key order. -/
theorem Grown.cycle_ordered (h : r.Grown) (hset : set ∈ r.cycles) :
    set.Pairwise fun a b => a.before b = true := by
  obtain ⟨k, hk, rfl, -⟩ := mem_cycles_iff.mp hset
  rw [cycleAt_reachability hk]
  exact h.keys_ordered.filter _

/-- The cycles stand in the order of their first keys. -/
theorem Grown.cycles_ordered (h : r.Grown) : r.cycles.Pairwise ListBefore := by
  rw [cycles]
  refine List.pairwise_filterMap.mpr (h.keys_ordered.imp fun hbefore set hset set' hset' => ?_)
  rw [Option.ite_none_right_eq_some] at hset hset'
  obtain ⟨hhead, rfl⟩ := hset.imp id Option.some.inj
  obtain ⟨hhead', rfl⟩ := hset'.imp id Option.some.inj
  obtain ⟨ks, hks⟩ := List.head?_eq_some_iff.mp hhead
  obtain ⟨ks', hks'⟩ := List.head?_eq_some_iff.mp hhead'
  rw [hks, hks']
  exact .rel hbefore

theorem Grown.cycles_nodup (h : r.Grown) : r.cycles.Nodup := by
  refine h.cycles_ordered.imp ?_
  rintro set _ hbefore rfl
  exact not_listBefore_self set hbefore

theorem Grown.flatten_cycles_nodup (h : r.Grown) : r.cycles.flatten.Nodup := by
  refine List.nodup_flatten.mpr ⟨fun set hset => (h.cycle_ordered hset).imp FormKey.ne_of_before, ?_⟩
  refine h.cycles_nodup.imp_of_mem fun {set set'} hset hset' hne key hkey hkey' => ?_
  exact hne (eq_of_mem_cycles hset hset' hkey hkey')

/-! ## Components

What a library that computes strongly connected components promises is collected in one structure: the
components have the registered keys and no others, and beside a key a component holds exactly the keys that it
leads to and that lead back. Nothing is said of an order, of components or of keys. -/

/-- The strongly connected components of the registered forms, in any order: every form is in one of them, none
is empty or holds a key twice, and beside a form a component holds the forms that it leads to and that lead
back to it. -/
structure Components (r : Registry) (components : List (List FormKey)) : Prop where
  covers : ∀ k, k ∈ components.flatten ↔ k ∈ r.keys
  nonempty : ∀ c ∈ components, c ≠ []
  distinct : ∀ c ∈ components, c.Nodup
  together : ∀ c ∈ components, ∀ a ∈ c, ∀ b, b ∈ c ↔ b = a ∨ r.LeadBothWays a b

/-- Whether a component is a cycle: it has several keys, or its only form refers to itself. -/
def Cyclic (r : Registry) (component : List FormKey) : Prop :=
  1 < component.length ∨ ∃ k, component = [k] ∧ r.Leads k k

variable {components : List (List FormKey)} {component : List FormKey}

/-- In a component that is a cycle every form leads to itself, and otherwise none does. -/
theorem Components.cyclic_iff (h : r.Components components) (hc : component ∈ components)
    (ha : a ∈ component) : r.Cyclic component ↔ r.LeadBothWays a a := by
  constructor
  · rintro (hlong | ⟨k, rfl, hk⟩)
    · -- there is another key, and the way to it and back
      obtain ⟨b, hb, hne⟩ : ∃ b ∈ component, b ≠ a := by
        by_contra hall
        have hsame : ∀ b ∈ component, b = a := fun b hb => by_contra fun hne => hall ⟨b, hb, hne⟩
        have hshort : component = List.replicate component.length a := List.eq_replicate_of_mem hsame
        have hnodup := h.distinct component hc
        rw [hshort, List.nodup_replicate] at hnodup
        omega
      have hboth := ((h.together component hc a ha b).mp hb).resolve_left hne
      exact hboth.trans hboth.symm
    · obtain rfl := List.mem_singleton.mp ha
      exact ⟨.single hk, .single hk⟩
  · intro hself
    match component, hc, ha with
    | [k], hc, ha =>
      obtain rfl := List.mem_singleton.mp ha
      -- the first step on the way back stays within the component
      obtain ⟨m, hstep, hback⟩ := Relation.TransGen.head'_iff.mp hself.1
      have hm : m ∈ [a] := by
        rcases Relation.reflTransGen_iff_eq_or_transGen.mp hback with rfl | hback
        · exact ha
        · exact (h.together [a] hc a ha m).mpr (Or.inr ⟨.single hstep, hback⟩)
      obtain rfl := List.mem_singleton.mp hm
      exact Or.inr ⟨m, rfl, hstep⟩
    | _ :: _ :: _, _, _ => exact Or.inl (by simp)

/-- **Cycles are the cyclic components, sorted.** It does not matter in which order components and their keys
are listed. -/
theorem Grown.mem_cycles_iff_of_components (h : r.Grown) (hc : r.Components components) :
    set ∈ r.cycles ↔ ∃ component ∈ components, r.Cyclic component ∧ set.Perm component ∧
      set.Pairwise fun a b => a.before b = true := by
  -- the cycle of a form that leads to itself has the keys of its component
  have hperm : ∀ set ∈ r.cycles, ∀ component ∈ components, ∀ k ∈ set, k ∈ component →
      set.Perm component := by
    intro set hset component hcomponent k hk hk'
    have hnodup : set.Nodup := (h.cycle_ordered hset).imp FormKey.ne_of_before
    refine (List.perm_ext_iff_of_nodup hnodup (hc.distinct component hcomponent)).mpr fun b => ?_
    obtain ⟨hkeys, rfl⟩ := cycleAt_of_mem_cycles hset hk
    rw [hc.together component hcomponent k hk' b, mem_cycleAt_iff_leadBothWays hkeys]
    refine ⟨Or.inr, ?_⟩
    rintro (rfl | hboth)
    · exact (mem_cycleAt_iff_leadBothWays hkeys).mp hk
    · exact hboth
  constructor
  · intro hset
    obtain ⟨k, hkeys, -, hhead⟩ := mem_cycles_iff.mp hset
    have hk : k ∈ set := List.mem_of_head? hhead
    obtain ⟨component, hcomponent, hk'⟩ := List.mem_flatten.mp ((hc.covers k).mpr hkeys)
    have hself : r.LeadBothWays k k := exists_cycle_iff.mp ⟨set, hset, hk, hk⟩
    exact ⟨component, hcomponent, (hc.cyclic_iff hcomponent hk').mpr hself,
      hperm set hset component hcomponent k hk hk', h.cycle_ordered hset⟩
  · rintro ⟨component, hcomponent, hcyclic, hsame, hordered⟩
    obtain ⟨k, hk⟩ := List.exists_mem_of_ne_nil component (hc.nonempty component hcomponent)
    obtain ⟨cycle, hcycle, hk', -⟩ := exists_cycle_iff.mpr ((hc.cyclic_iff hcomponent hk).mp hcyclic)
    have heq : set = cycle := FormKey.eq_of_ordered hordered (h.cycle_ordered hcycle)
      (hsame.trans (hperm cycle hcycle component hcomponent k hk' hk).symm)
    exact heq ▸ hcycle

/-! ## Cycles as they are sorted

The components are gone through one by one and what is found is sorted twice, the keys of each cycle and the
cycles. Since both orders are strict and linear, the outcome does not depend on the order in which components
and their keys are listed: it can only be the list of cycles. -/

section Sorting

variable {α : Type} {lt : α → α → Bool} (hasymm : Std.Asymm fun a b => lt a b = true)
  (htotal : Std.Trichotomous fun a b => lt a b = true) (hconn : IsOrderConnected α fun a b => lt a b = true)
  {xs ys : List α}

include hasymm hconn in
/-- In a sorted list nothing comes after what it comes before. -/
theorem pairwise_mergeSort_not (xs : List α) :
    (xs.mergeSort fun a b => !lt b a).Pairwise fun a b => ¬ lt b a = true := by
  have hsorted : (xs.mergeSort fun a b => !lt b a).Pairwise fun a b => (!lt b a) = true := by
    refine List.pairwise_mergeSort (fun a b c hab hbc => ?_) (fun a b => ?_) xs
    · rw [Bool.not_eq_true'] at hab hbc ⊢
      refine Bool.eq_false_iff.mpr fun hca => ?_
      rcases hconn.conn c b a hca with hcb | hba
      · exact Bool.eq_false_iff.mp hbc hcb
      · exact Bool.eq_false_iff.mp hab hba
    · rw [Bool.or_eq_true, Bool.not_eq_true', Bool.not_eq_true', Bool.eq_false_iff, Bool.eq_false_iff]
      exact or_iff_not_imp_left.mpr fun hba => hasymm.asymm b a (not_not.mp hba)
  refine hsorted.imp fun hle => ?_
  rwa [Bool.not_eq_true', Bool.eq_false_iff] at hle

include hasymm htotal hconn in
/-- What is distinct is in strict order when it is sorted. -/
theorem pairwise_mergeSort_of_nodup (hnodup : xs.Nodup) :
    (xs.mergeSort fun a b => !lt b a).Pairwise fun a b => lt a b = true := by
  have hdistinct := (List.mergeSort_perm xs fun a b => !lt b a).nodup_iff.mpr hnodup
  refine ((pairwise_mergeSort_not hasymm hconn xs).and hdistinct).imp ?_
  rintro a b ⟨hba, hne⟩
  exact by_contra fun hab => hne (htotal.trichotomous a b hab hba)

include hasymm htotal hconn in
/-- Sorted by a strict linear order, a list becomes the one permutation of it that is in order. -/
theorem mergeSort_eq_of_perm (hperm : xs.Perm ys) (hordered : ys.Pairwise fun a b => lt a b = true) :
    xs.mergeSort (fun a b => !lt b a) = ys := by
  refine ((List.mergeSort_perm xs _).trans hperm).eq_of_pairwise (fun a b _ _ hab hba => ?_)
    (pairwise_mergeSort_not hasymm hconn xs) (hordered.imp fun hab => hasymm.asymm _ _ hab)
  exact htotal.trichotomous a b hba hab

end Sorting

theorem before_asymm : Std.Asymm fun a b : FormKey => a.before b = true :=
  ⟨fun a _ hab hba => FormKey.not_before_self a (FormKey.before_trans hab hba)⟩

theorem before_trichotomous : Std.Trichotomous fun a b : FormKey => a.before b = true :=
  ⟨fun _ _ hab hba => by_contra fun hne => hba (FormKey.before_of_not_before hne hab)⟩

theorem before_connected : IsOrderConnected FormKey fun a b => a.before b = true := by
  refine ⟨fun a b c hac => or_iff_not_imp_left.mpr fun hab => ?_⟩
  rcases eq_or_ne a b with rfl | hne
  · exact hac
  · exact FormKey.before_trans (FormKey.before_of_not_before hne hab) hac

theorem listBefore_iff {set set' : List FormKey} : listBefore set set' = true ↔ ListBefore set set' := by
  induction set generalizing set' with
  | nil =>
    cases set' with
    | nil => exact ⟨nofun, nofun⟩
    | cons b bs => exact ⟨fun _ => .nil, fun _ => rfl⟩
  | cons a as ih =>
    cases set' with
    | nil => exact ⟨nofun, nofun⟩
    | cons b bs =>
      rw [listBefore, Bool.or_eq_true, Bool.and_eq_true, decide_eq_true_iff, ih]
      constructor
      · rintro (hbefore | ⟨rfl, hrest⟩)
        · exact .rel hbefore
        · exact .cons hrest
      · intro h
        cases h with
        | rel hbefore => exact Or.inl hbefore
        | cons hrest => exact Or.inr ⟨rfl, hrest⟩

/-- Lists of keys are in a strict linear order, because keys are. -/
theorem listBefore_linear : (Std.Asymm fun a b => listBefore a b = true) ∧
    (Std.Trichotomous fun a b => listBefore a b = true) ∧
    IsOrderConnected (List FormKey) fun a b => listBefore a b = true := by
  have hasymm := before_asymm
  have htotal := before_trichotomous
  have hconn := before_connected
  have heq : (fun a b => listBefore a b = true) = List.Lex fun a b : FormKey => a.before b = true :=
    funext₂ fun _ _ => propext listBefore_iff
  rw [heq]
  exact ⟨inferInstance, inferInstance, inferInstance⟩

/-- The pairs of keys that are listed as edges are those of which one leads to the other. -/
theorem mem_edges_iff (h : r.Grown) : (a, b) ∈ r.edges ↔ r.Leads a b := by
  rw [Leads, mem_targets_iff, edges, List.mem_flatMap]
  constructor
  · rintro ⟨f, hf, hedge⟩
    obtain ⟨ref, href, heq⟩ := List.mem_map.mp hedge
    obtain ⟨hmem, hregistered⟩ := List.mem_filter.mp href
    obtain ⟨rfl, rfl⟩ := Prod.mk.inj heq
    exact ⟨f, h.get?_eq_some_iff.mpr ⟨hf, rfl⟩, ⟨ref, hmem, rfl⟩, hregistered⟩
  · rintro ⟨f, hget, ⟨ref, href, rfl⟩, hregistered⟩
    obtain ⟨hf, rfl⟩ := h.get?_eq_some_iff.mp hget
    exact ⟨f, hf, List.mem_map.mpr ⟨ref, List.mem_filter.mpr ⟨href, hregistered⟩, rfl⟩⟩

/-- What is reported of a component: its keys in order, if it is a cycle. -/
theorem Grown.cycleOf_eq_some_iff (h : r.Grown) (hne : component ≠ []) (hnodup : component.Nodup) :
    r.cycleOf component = some set ↔ r.Cyclic component ∧ set.Perm component ∧
      set.Pairwise fun a b => a.before b = true := by
  -- a component of one key is a cycle by an edge to itself, a longer one always
  match component, hne, hnodup with
  | [k], _, _ =>
    have hlong : ¬ 1 < [k].length := Nat.lt_irrefl 1
    rw [cycleOf, if_neg hlong, Cyclic, List.head?_cons]
    dsimp only
    rw [Option.ite_none_right_eq_some, mem_edges_iff h, List.perm_singleton]
    constructor
    · rintro ⟨hself, hset⟩
      obtain rfl := Option.some.inj hset
      exact ⟨Or.inr ⟨k, rfl, hself⟩, rfl, List.pairwise_singleton _ _⟩
    · rintro ⟨hcyclic, rfl, -⟩
      obtain ⟨k', hk, hself⟩ := hcyclic.resolve_left hlong
      obtain rfl : k = k' := List.singleton_inj.mp hk
      exact ⟨hself, rfl⟩
  | k :: k' :: ks, _, hnodup =>
    have hlong : 1 < (k :: k' :: ks).length := by simp
    rw [cycleOf, if_pos hlong, Option.some.injEq]
    constructor
    · rintro rfl
      have hperm := List.mergeSort_perm (k :: k' :: ks) fun a b => !b.before a
      exact ⟨Or.inl hlong, hperm,
        pairwise_mergeSort_of_nodup before_asymm before_trichotomous before_connected hnodup⟩
    · rintro ⟨-, hperm, hordered⟩
      exact mergeSort_eq_of_perm before_asymm before_trichotomous before_connected hperm.symm hordered

/-- **The cycles are what is sorted out of the components.** -/
theorem Grown.cyclesAmong_eq (h : r.Grown) (hc : r.Components components)
    (hdistinct : components.flatten.Nodup) : r.cyclesAmong components = r.cycles := by
  obtain ⟨hasymm, htotal, hconn⟩ := listBefore_linear
  have hcycleOf : ∀ component ∈ components, ∀ set, r.cycleOf component = some set ↔
      r.Cyclic component ∧ set.Perm component ∧ set.Pairwise fun a b => a.before b = true :=
    fun component hmem set =>
      h.cycleOf_eq_some_iff (hc.nonempty component hmem) (hc.distinct component hmem)
  have hnodup : (components.filterMap r.cycleOf).Nodup := by
    refine List.pairwise_filterMap.mpr ?_
    refine (List.nodup_flatten.mp hdistinct).2.imp_of_mem ?_
    rintro component component' hmem hmem' hdisjoint set hset _ hset' rfl
    -- a key of the cycle would be in both components
    obtain ⟨-, hperm, -⟩ := (hcycleOf component hmem set).mp hset
    obtain ⟨-, hperm', -⟩ := (hcycleOf component' hmem' set).mp hset'
    obtain ⟨k, hk⟩ := List.exists_mem_of_ne_nil component (hc.nonempty component hmem)
    exact hdisjoint hk (hperm'.subset (hperm.symm.subset hk))
  refine mergeSort_eq_of_perm hasymm htotal hconn ?_ (h.cycles_ordered.imp listBefore_iff.mpr)
  refine (List.perm_ext_iff_of_nodup hnodup h.cycles_nodup).mpr fun set => ?_
  rw [List.mem_filterMap, h.mem_cycles_iff_of_components hc]
  exact exists_congr fun component => and_congr_right fun hmem => hcycleOf component hmem set

/-- **Cycles are exact.** There is an edge from a form to a registered one when it refers to it. A key is
reported when its form leads to itself by one or more edges, two keys are in the same set when their forms
lead to each other, and no key is reported twice. The keys of each set are in order, and so are the sets. They
are the components that are cycles, however these are found; and going through the components one by one and
sorting what is found comes to the very same list. -/
theorem cycles_exact (h : r.Grown) :
    (∀ a b, r.Leads a b ↔ ∃ f g, r.get? a = some f ∧ r.get? b = some g ∧
      ∃ ref ∈ f.references, ref.target = b) ∧
    (∀ k, k ∈ r.cycles.flatten ↔ Relation.TransGen r.Leads k k) ∧
    (∀ a b, (∃ set ∈ r.cycles, a ∈ set ∧ b ∈ set) ↔
      Relation.TransGen r.Leads a b ∧ Relation.TransGen r.Leads b a) ∧
    r.cycles.flatten.Nodup ∧
    (∀ set ∈ r.cycles, set.Pairwise fun a b => a.before b = true) ∧
    r.cycles.Pairwise (List.Lex fun a b => a.before b = true) ∧
    (∀ components, r.Components components → ∀ set, set ∈ r.cycles ↔
      ∃ component ∈ components, r.Cyclic component ∧ set.Perm component ∧
        set.Pairwise fun a b => a.before b = true) ∧
    ∀ components, r.Components components → components.flatten.Nodup →
      r.cyclesAmong components = r.cycles := by
  refine ⟨fun a b => ?_, fun _ => mem_flatten_cycles_iff, fun _ _ => exists_cycle_iff,
    h.flatten_cycles_nodup, fun _ hset => h.cycle_ordered hset, h.cycles_ordered,
    fun _ hc _ => h.mem_cycles_iff_of_components hc, fun _ hc => h.cyclesAmong_eq hc⟩
  -- what is left is the meaning of the edges: a reference to a form that is registered
  rw [Leads, mem_targets_iff]
  constructor
  · rintro ⟨f, hf, href, hb⟩
    obtain ⟨g, hg⟩ := contains_iff.mp hb
    exact ⟨f, g, hf, hg, href⟩
  · rintro ⟨f, g, hf, hg, href⟩
    exact ⟨f, hf, href, contains_iff.mpr ⟨g, hg⟩⟩

end Registry

/-! ## An example -/

namespace Sample

def referring (id : String) (targets : List String) : Form :=
  ⟨⟨⟨"", id⟩, "samples", .empty⟩, targets.map fun t => .leaf (.reference ⟨⟨"", t⟩, .empty⟩)⟩

/-- Two forms that refer to each other, one that refers to itself, one that leads to all of them, and a
reference to nowhere. -/
def tangle : List Form :=
  [referring "d" ["a", "nowhere"], referring "b" ["c", "a"], referring "c" ["c"], referring "a" ["b"]]

def tangled : Registry :=
  ⟨[referring "a" ["b"], referring "b" ["c", "a"], referring "c" ["c"], referring "d" ["a", "nowhere"]]⟩

/-- The strongly connected components of these forms, listed out of order. -/
def tangledComponents : List (List FormKey) := [[⟨"", "c"⟩], [⟨"", "b"⟩, ⟨"", "a"⟩], [⟨"", "d"⟩]]

end Sample

namespace Registry

/-- The two forms that refer to each other are a cycle, and so is the one that refers to itself, although the
former lead to it. Both are sorted out of the components. -/
theorem cycles_exact_tangled :
    ofForms Sample.tangle = .ok Sample.tangled ∧ Sample.tangled.Grown ∧
    Sample.tangled.cycles = [[⟨"", "a"⟩, ⟨"", "b"⟩], [⟨"", "c"⟩]] ∧
    Relation.TransGen Sample.tangled.Leads ⟨"", "b"⟩ ⟨"", "a"⟩ ∧
    Relation.TransGen Sample.tangled.Leads ⟨"", "c"⟩ ⟨"", "c"⟩ ∧
    ¬ Relation.TransGen Sample.tangled.Leads ⟨"", "d"⟩ ⟨"", "d"⟩ ∧
    Sample.tangled.Components Sample.tangledComponents ∧ Sample.tangledComponents.flatten.Nodup ∧
    Sample.tangled.cyclesAmong Sample.tangledComponents = [[⟨"", "a"⟩, ⟨"", "b"⟩], [⟨"", "c"⟩]] := by
  have hforms : ofForms Sample.tangle = .ok Sample.tangled := by cbv
  have hgrown : Sample.tangled.Grown := grown_of_ofForms hforms
  have hcycles : Sample.tangled.cycles = [[⟨"", "a"⟩, ⟨"", "b"⟩], [⟨"", "c"⟩]] := by
    cbv
  obtain ⟨-, hreported, hset, -, -, -, -, hsorted⟩ := cycles_exact hgrown
  rw [hcycles] at hreported hset hsorted
  -- that they are components follows from who reaches whom, which the theorem says
  have hcomponents : Sample.tangled.Components Sample.tangledComponents := by
    refine ⟨fun k => ?_, by decide, by decide, ?_⟩
    · have hkeys : Sample.tangled.keys = [⟨"", "a"⟩, ⟨"", "b"⟩, ⟨"", "c"⟩, ⟨"", "d"⟩] := rfl
      rw [hkeys]
      simp only [Sample.tangledComponents, List.flatten_cons, List.flatten_nil, List.cons_append,
        List.nil_append, List.mem_cons, List.not_mem_nil]
      tauto
    · intro c hc a ha b
      rw [LeadBothWays, ← hset a b]
      simp only [Sample.tangledComponents, List.mem_cons, List.not_mem_nil, or_false] at hc
      rcases hc with rfl | rfl | rfl <;>
        simp only [List.mem_cons, List.not_mem_nil, or_false] at ha ⊢ <;>
        rcases ha with rfl | rfl <;> simp <;> tauto
  have hdistinct : Sample.tangledComponents.flatten.Nodup := by decide
  refine ⟨hforms, hgrown, hcycles, ?_, (hreported _).mp (by decide), fun h => ?_, hcomponents, hdistinct,
    hsorted _ hcomponents hdistinct⟩
  · exact ((hset ⟨"", "b"⟩ ⟨"", "a"⟩).mp ⟨_, List.mem_cons_self, by decide, by decide⟩).1
  · exact absurd ((hreported _).mpr h) (by decide)

end Registry

end FormSchema
