import FormSchema.Proofs.Binding.Walk.RecordedBinders

/-!
# What a run can see of a registry

A run looks up its root form and the targets of the references that it meets, and nothing else. Since it
meets only references that the forms in question list, it never gets to a form that the root form does not
lead to. Two registries that agree on what can be reached are the same to a run, and forms that have
nothing to do with its root may come and go.

The relation here is equality of runs, which is the smallest congruence there is. It is carried
along the walk for one reachable form at a time: the references that the form lists lead to
reachable keys again, and under those the two registries hold the same forms.

* `Registry.Reachable` — the keys that a form leads to, itself included, registered or not.
* `Engine.SameRun` — runs on two registries that cannot be told apart.
* **`Engine.bind_eq_of_agree`** — runs on registries that agree on what can be reached.
* **`Engine.bind_local`** — the same for calls of the binder, and for forms that are added or removed.
-/

namespace FormSchema

variable {σ γ : Type}

/-! ## Reachable keys -/

namespace Registry

/-- The keys that a run of the form at `root` may look up: that key, and the targets of all
references that are listed by a form with such a key. A key is reachable also when no form is
registered under it, because a run may look it up and fail. -/
inductive Reachable (r : Registry) (root : FormKey) : FormKey → Prop where
  | root : Reachable r root root
  | target {key : FormKey} {form : Form} {ref : Reference} (reached : Reachable r root key)
      (registered : r.get? key = some form) (listed : ref ∈ form.references) :
      Reachable r root ref.target

/-- A form that is put among others is found under its key only. -/
theorem find?_place {f : Form} {key : FormKey} (h : f.key ≠ key) (forms : List Form) :
    ((place f forms).find? fun g => g.key = key) = forms.find? fun g => g.key = key := by
  induction forms with
  | nil => rw [place, List.find?_cons_of_neg (by simpa using h)]
  | cons g forms ih =>
    rw [place]
    split
    · rw [List.find?_cons_of_neg (by simpa using h)]
    · rw [List.find?_cons, List.find?_cons, ih]

/-- Registering a form changes what is found under its key only. -/
theorem get?_of_insert {r r' : Registry} {f : Form} (h : r.insert f = .ok r') {key : FormKey}
    (hkey : f.key ≠ key) : r'.get? key = r.get? key := by
  rw [insert] at h
  cases hget : r.get? f.key with
  | some g =>
    rw [hget] at h
    cases h
  | none =>
    rw [hget] at h
    cases h
    exact find?_place hkey r.forms

end Registry

/-! ## Runs -/

/-- Two runs that are one and the same, as a relation that respects how runs are put together. -/
def Run.identity (σ : Type) : Run.Congruence σ σ where
  Rel m m' := m = m'
  pure _ := rfl
  bind h hf := by rw [h, funext hf]
  edit _ := rfl
  attach _ _ _ := rfl
  fault _ := rfl

namespace Engine

/-- Runs on two registries that come to the same result, leave the binder in the same state and have
called it alike. -/
def SameRun (r r' : Registry) (limit : Nat) (builders : List LibraryBuilder) (b : Binder σ γ)
    (root : FormKey) (s : σ) : Prop :=
  (equipped r' limit builders b).bind root s = (equipped r limit builders b).bind root s ∧
    exchanges r' limit builders b root s = exchanges r limit builders b root s

/-- References come to the same wherever a run may meet them. -/
def EntriesAgree (r : Registry) (root : FormKey) (entry entry' : Entry σ γ) : Prop :=
  ∀ key form, r.Reachable root key → r.get? key = some form → ∀ ref ∈ form.references,
    ∀ d scope path, entry ref d scope path = entry' ref d scope path

variable {r r' : Registry} {root : FormKey} (limit : Nat) (builders : List LibraryBuilder)
  (b : Binder σ γ)

/-- At a reachable form the two engines differ at most in how its references are followed. -/
theorem linked_identity {entry entry' : Entry σ γ} (hentry : EntriesAgree r root entry entry') {key : FormKey}
    {form : Form} (reached : r.Reachable root key) (hget : r.get? key = some form) :
    Linked (Run.identity σ) (equipped r limit builders b) (equipped r' limit builders b) entry entry'
      form where
  kind := rfl
  look _ := rfl
  elements _ _ _ := rfl
  attributes _ _ _ := rfl
  follow ref href d scope path _ := hentry key form reached hget ref href d scope path

/-- The references of a reachable form are followed alike, since they lead to reachable keys. -/
theorem follow_agrees (agree : ∀ key, r.Reachable root key → r'.get? key = r.get? key) (n : Nat) :
    EntriesAgree r root ((equipped r limit builders b).follow n)
      ((equipped r' limit builders b).follow n) := by
  induction n using Nat.strongRecOn with
  | ind n ih =>
    intro key form reached hget ref href d scope path
    -- the target of a listed reference is reachable, whether or not it is registered
    have hdeeper : r.Reachable root ref.target := reached.target hget href
    cases hfound : r.get? ref.target with
    | none =>
      have hfound' : r'.get? ref.target = none := (agree _ hdeeper).trans hfound
      rw [follow_missing (by exact hfound), follow_missing (by exact hfound')]
    | some target =>
      have hfound' : r'.get? ref.target = some target := (agree _ hdeeper).trans hfound
      cases n with
      | zero =>
        rw [follow_exhausted (by exact hfound), follow_exhausted (by exact hfound')]
        rfl
      | succ n =>
        rw [follow_crossed (by exact hfound), follow_crossed (by exact hfound')]
        have hlinked : Linked (Run.identity σ) (equipped r limit builders b)
            (equipped r' limit builders b) _ _ target :=
          linked_identity limit builders b (ih n (Nat.lt_succ_self n)) hdeeper hfound
        show (Run.identity σ).Rel _ _
        refine cross_rel rfl (fun context node => ?_) d
        exact buildAll_rel hlinked (equipped_extensionsRel rfl) _ _ rfl

/-- **Agreement on what can be reached.** Registries that give the same answer for every key that can be
reached from the root form are the same to a run. -/
theorem bind_eq_of_agree (agree : ∀ key, r.Reachable root key → r'.get? key = r.get? key) (s : σ) :
    (equipped r' limit builders b).bind root s = (equipped r limit builders b).bind root s := by
  cases hget : r.get? root with
  | none =>
    have hget' : r'.get? root = none := (agree root .root).trans hget
    rw [bind_missing (by exact hget'), bind_missing (by exact hget)]
  | some form =>
    have hget' : r'.get? root = some form := (agree root .root).trans hget
    have hbody : ∀ context, (equipped r limit builders b).body form context =
        (equipped r' limit builders b).body form context := fun context =>
      buildAll_rel (linked_identity limit builders b (follow_agrees limit builders b agree limit)
        .root hget) (equipped_extensionsRel rfl) _ _ rfl
    rw [bind_eq (by exact hget'), bind_eq (by exact hget)]
    simp only [hbody]
    rfl

/-- The calls of the binder agree as well: they are the state of the recorded run, and that is a
run like any other. -/
theorem sameRun_of_agree (agree : ∀ key, r.Reachable root key → r'.get? key = r.get? key) (s : σ) :
    SameRun r r' limit builders b root s :=
  ⟨bind_eq_of_agree limit builders b agree s,
    congrArg (fun run => run.2.2) (bind_eq_of_agree limit builders b.recorded agree (s, []))⟩

/-- **A run depends only on the forms that its root leads to.** Registries that give the same answer for
every reachable key cannot be told apart. In particular a form that is not reachable, whether before or
after it is registered, makes no difference. -/
theorem bind_local (r : Registry) (root : FormKey) (limit : Nat) (builders : List LibraryBuilder)
    (b : Binder σ γ) (s : σ) :
    (∀ r', (∀ key, r.Reachable root key → r'.get? key = r.get? key) →
      SameRun r r' limit builders b root s) ∧
    ∀ f r', r.insert f = .ok r' → ¬ r.Reachable root f.key ∨ ¬ r'.Reachable root f.key →
      SameRun r r' limit builders b root s := by
  refine ⟨fun r' agree => sameRun_of_agree limit builders b agree s, fun f r' hinsert hunrelated => ?_⟩
  have hne : ∀ {r'' : Registry}, ¬ r''.Reachable root f.key →
      ∀ key, r''.Reachable root key → f.key ≠ key := by
    rintro r'' hnot key hreach rfl
    exact hnot hreach
  rcases hunrelated with hbefore | hafter
  · exact sameRun_of_agree limit builders b
      (fun key hkey => Registry.get?_of_insert hinsert (hne hbefore key hkey)) s
  · -- seen from the larger registry, the form is taken away
    obtain ⟨hbind, hcalls⟩ := sameRun_of_agree limit builders b
      (fun key hkey => (Registry.get?_of_insert hinsert (hne hafter key hkey)).symm) s
    exact ⟨hbind.symm, hcalls.symm⟩

end Engine

/-! ## An example -/

namespace Sample

/-- A form that no order leads to, although it leads to the orders. -/
def cart : Form :=
  ⟨⟨⟨"", "cart"⟩, "samples", .empty⟩, [.leaf (.reference ⟨orderKey, .empty⟩)]⟩

def ordersAndCart : Registry := ⟨[address, cart, order]⟩

/-- The orders and their addresses, listed the other way round. -/
def ordersReversed : Registry := ⟨[order, address]⟩

end Sample

namespace Engine

/-- The cart is registered beside the orders, and makes no difference to them. Nor does it matter how the
forms are listed. -/
theorem bind_local_orders :
    Sample.orders.insert Sample.cart = .ok Sample.ordersAndCart ∧
    ¬ Sample.orders.Reachable Sample.orderKey Sample.cart.key ∧
    SameRun Sample.orders Sample.ordersAndCart 1 [.inline] Sample.binder Sample.orderKey () ∧
    SameRun Sample.orders Sample.ordersReversed 1 [.inline] Sample.binder Sample.orderKey () := by
  have hinsert : Sample.orders.insert Sample.cart = .ok Sample.ordersAndCart := by cbv
  have hreach : ∀ key, Sample.orders.Reachable Sample.orderKey key → key ∈ Sample.orders.keys := by
    intro key h
    induction h with
    | root => decide
    | target _ registered listed _ =>
      have hclosed : ∀ form ∈ Sample.orders.forms, ∀ ref ∈ form.references,
          ref.target ∈ Sample.orders.keys := by decide
      exact hclosed _ (Registry.mem_forms_of_get? registered) _ listed
  have hnot : ¬ Sample.orders.Reachable Sample.orderKey Sample.cart.key :=
    fun h => absurd (hreach _ h) (by decide)
  have hagree : ∀ key, Sample.orders.Reachable Sample.orderKey key →
      Sample.ordersReversed.get? key = Sample.orders.get? key := by
    intro key h
    have hkeys : ∀ key ∈ Sample.orders.keys,
        Sample.ordersReversed.get? key = Sample.orders.get? key :=
      List.forall_mem_cons.mpr ⟨rfl, List.forall_mem_singleton.mpr rfl⟩
    exact hkeys key (hreach key h)
  obtain ⟨hsame, hunrelated⟩ := bind_local Sample.orders Sample.orderKey 1 [.inline] Sample.binder ()
  exact ⟨hinsert, hnot, hunrelated _ _ hinsert (Or.inl hnot), hsame _ hagree⟩

end Engine

end FormSchema
