import FormSchema.Proofs.Binding.Walk.RecordedBinders
import FormSchema.Proofs.Binding.Walk.SafeRuns
import Mathlib

/-!
# Raising the limit

The limit on nested references does nothing but stop runs. A run that it did not stop goes on as before
when it is raised. A run that it did stop gets as far as it did, and from there on as far as the new limit
lets it, so that the binder is first asked what it was asked before.

The relation has to say something of the run that goes on, though nothing is known of its end. It
says that what has been asked stays in the record. So when the two runs part, at a reference for
which one of them has no level, the record of the other one still begins with that of the first,
however it continues. The levels are compared at each reference, and the rest of the walk is the
same on both sides.

* `Run.Outlasts` — one run does all that another one does, and more only where that was stopped by the
  limit.
* **`Engine.follow_outlasts`** — more levels outlast fewer.
* **`Engine.bind_limit_raised`** — whole runs.
-/

namespace FormSchema

variable {σ γ α : Type}

/-- The limit stopped a run. Neither the form nor the path matters, and the limit in the error is
that of the engine. -/
def RunError.ExceedsLimit (err : RunError) : Prop :=
  ∃ target limit path, err = .referenceDepthExceeded target limit path

/-! ## Runs that get further -/

namespace Run

/-- Whatever a recorded run does, `m'` does from the same session as well. Where the run was
stopped by the limit, `m'` has begun with the same exchanges, and may come to any end. Until then
the two runs are in the same session, so that equality and not only a relation is preserved. -/
structure Outlasts (m' m : Run (σ × List (Exchange γ)) α) : Prop where
  -- what has been asked stays in the record, so that what follows `m'` cannot undo the beginning
  grows : ∀ s, s.state.2 <+: (m'.exec s).2.state.2
  follows : ∀ s, m'.exec s = m.exec s ∨
    (∃ err, (m.exec s).1 = .error err ∧ err.ExceedsLimit) ∧
      (m.exec s).2.state.2 <+: (m'.exec s).2.state.2

namespace Outlasts

variable {m : Run (σ × List (Exchange γ)) α}

/-- A run outlasts itself, as long as it only adds to the record. -/
theorem refl (h : ∀ s, s.state.2 <+: (m.exec s).2.state.2) : Outlasts m m := ⟨h, fun _ => Or.inl rfl⟩

/-- A question outlasts itself, since it is only added to the record. -/
theorem ask {action : StateM (σ × List (Exchange γ)) α} (h : ∀ st, st.2 <+: (action st).2.2) :
    Outlasts (Run.ask action) (Run.ask action) := refl fun s => h s.state

/-- Being stopped by the limit is outlasted by whatever only adds to the record. -/
theorem of_exceeded {m' : Run (σ × List (Exchange γ)) α} {err : RunError}
    (grows : ∀ s, s.state.2 <+: (m'.exec s).2.state.2) (exceeds : err.ExceedsLimit) :
    Outlasts m' (Run.stop err) :=
  ⟨grows, fun s => Or.inr ⟨⟨err, rfl, exceeds⟩, grows s⟩⟩

end Outlasts

/-- What comes second in a sequence adds to the record of what came first. -/
theorem record_prefix_bind {β : Type} (m : Run (σ × List (Exchange γ)) α)
    {f : α → Run (σ × List (Exchange γ)) β}
    (hf : ∀ a s, s.state.2 <+: ((f a).exec s).2.state.2) (s : Session (σ × List (Exchange γ))) :
    (m.exec s).2.state.2 <+: ((m >>= f).exec s).2.state.2 := by
  rw [exec_bind]
  rcases m.exec s with ⟨err | a, t⟩
  · exact List.prefix_refl _
  · exact hf a t

/-- Outlasting is respected by the way runs are put together: what comes after a part that the limit
stopped is not reached by the one run, and adds to the record of the other one. -/
def outlasting (σ γ : Type) : Run.Congruence (σ × List (Exchange γ)) (σ × List (Exchange γ)) where
  Rel m m' := Outlasts m' m
  pure _ := .refl fun _ => List.prefix_refl _
  bind := by
    intro α β m m' f f' h hf
    have hrest : ∀ s, (m'.exec s).2.state.2 <+: ((m' >>= f').exec s).2.state.2 :=
      record_prefix_bind m' fun a => (hf a).grows
    refine ⟨fun s => (h.grows s).trans (hrest s), fun s => ?_⟩
    -- the first parts are the same, and then the second ones decide; or the first part was stopped,
    -- and all that follows it is extra
    rcases h.follows s with heq | ⟨⟨err, herr, hexceeds⟩, hbegins⟩
    · rw [exec_bind, exec_bind, heq]
      rcases m.exec s with ⟨err | a, t⟩
      · exact Or.inl rfl
      · exact (hf a).follows t
    · rcases hm : m.exec s with ⟨result, t⟩
      rw [hm] at herr hbegins
      obtain rfl : result = .error err := herr
      rw [exec_bind_of_error hm]
      exact Or.inr ⟨⟨err, rfl, hexceeds⟩, hbegins.trans (hrest s)⟩
  edit _ := .refl fun _ => List.prefix_refl _
  attach _ _ _ := .refl fun _ => List.prefix_refl _
  fault _ := .refl fun _ => List.prefix_refl _

end Run

/-! ## The walk -/

namespace Engine

variable (r : Registry) (builders : List LibraryBuilder) (b : Binder σ γ)

/-- Whatever a recorded engine does, it keeps what is in the record. The induction is on the levels. -/
theorem follow_grows (limit n : Nat) (ref : Reference) (d : Definition) (scope : Scope γ)
    (path : NodePath) (s : Session (σ × List (Exchange γ))) :
    let e := equipped r limit builders b.recorded
    s.state.2 <+: ((e.follow n ref d scope path).exec s).2.state.2 := by
  intro e
  have hnoted : ∀ {α : Type} (action : StateM σ α) (note : α → Exchange γ),
      Keeps (fun st => s.state.2 <+: st.2) (noted action note) :=
    fun _ _ _ hst => hst.trans (List.prefix_append _ _)
  suffices h : Run.Safe (fun st => s.state.2 <+: st.2) (fun _ => True) (e.follow n ref d scope path)
    from (h s (List.prefix_refl _)).1
  induction n using Nat.strongRecOn generalizing ref d scope path with
  | ind n ih =>
    refine follow_safe (fun _ => trivial) (fun _ => trivial) (fun _ _ _ => trivial)
      (fun _ _ => hnoted _ _) fun target _ m hm context node => ?_
    exact buildAll_safe (fun _ => trivial) (fun _ _ => hnoted _ _) (fun _ _ => hnoted _ _)
      (fun ref _ d scope path _ => ih m (hm ▸ Nat.lt_succ_self m) ref d scope path) context node _

/-- Whatever a reference comes to, there is something it comes to that gets further. -/
def EntriesOutlast (entry' entry : Entry (σ × List (Exchange γ)) γ) : Prop :=
  ∀ ref d scope path, Run.Outlasts (entry' ref d scope path) (entry ref d scope path)

variable {limit limit' : Nat} {entry entry' : Entry (σ × List (Exchange γ)) γ}

/-- The two engines ask the same binder, and differ in how references are followed. So it is enough
that the references outlast each other. -/
theorem linked_outlasting (hentry : EntriesOutlast entry' entry) (form : Form) :
    Linked (Run.outlasting σ γ) (equipped r limit builders b.recorded)
      (equipped r limit' builders b.recorded) entry entry' form where
  kind := rfl
  look _ := .refl fun _ => List.prefix_refl _
  elements _ _ _ := .ask fun _ => List.prefix_append _ _
  attributes _ _ _ := .ask fun _ => List.prefix_append _ _
  follow ref _ d scope path _ := hentry ref d scope path

/-- **More levels outlast fewer.** Only where no level was left the limit stops the one run and not the
other, and whatever the other does from there on is added to its record. -/
theorem follow_outlasts {n n' : Nat} (hle : n ≤ n') :
    EntriesOutlast ((equipped r limit' builders b.recorded).follow n')
      ((equipped r limit builders b.recorded).follow n) := by
  induction n using Nat.strongRecOn generalizing n' with
  | ind n ih =>
    intro ref d scope path
    cases hfound : r.get? ref.target with
    | none =>
      rw [follow_missing (by exact hfound), follow_missing (by exact hfound)]
      exact .refl fun _ => List.prefix_refl _
    | some target =>
      cases n with
      -- here the run with fewer levels stops and the other goes on
      | zero =>
        rw [follow_exhausted (by exact hfound)]
        exact .of_exceeded (follow_grows r builders b limit' n' ref d scope path) ⟨_, _, _, rfl⟩
      | succ n =>
        -- both follow the reference, and each has one level less from here on
        obtain ⟨m, rfl⟩ := Nat.exists_eq_add_of_le' hle
        have hdeeper : EntriesOutlast _ _ := ih n (Nat.lt_succ_self n) (Nat.le_add_left n m)
        rw [follow_crossed (by exact hfound), ← Nat.add_assoc, follow_crossed (by exact hfound)]
        have hlinked : Linked (Run.outlasting σ γ) (equipped r limit builders b.recorded)
            (equipped r limit' builders b.recorded) _ _ target :=
          linked_outlasting r builders b hdeeper target
        show (Run.outlasting σ γ).Rel _ _
        refine cross_rel (Run.Outlasts.ask fun _ => List.prefix_append _ _) (fun context node => ?_) d
        exact buildAll_rel hlinked (equipped_extensionsRel rfl) _ _ rfl

/-- The body of a run under the new limit outlasts that under the old one. -/
theorem body_outlasts (hle : limit ≤ limit') (form : Form) (context : γ) :
    Run.Outlasts ((equipped r limit' builders b.recorded).body form context)
      ((equipped r limit builders b.recorded).body form context) :=
  buildAll_rel (linked_outlasting r builders b (follow_outlasts r builders b hle) form)
    (equipped_extensionsRel rfl) _ _ rfl

/-! ## Whole runs -/

/-- A recorded run under the new limit is the one under the old limit, unless that was stopped by
it. Then it begins with the same exchanges. What comes before the body, and the word to the binder
after it, are the same in both runs. -/
theorem bind_outlasts (hle : limit ≤ limit') (key : FormKey) (s : σ) :
    (equipped r limit' builders b.recorded).bind key (s, []) =
        (equipped r limit builders b.recorded).bind key (s, []) ∨
      (∃ err, ((equipped r limit builders b.recorded).bind key (s, [])).1 = .error err ∧
        err.ExceedsLimit) ∧
      exchanges r limit builders b key s <+: exchanges r limit' builders b key s := by
  rw [exchanges, exchanges]
  cases hget : r.get? key with
  | none =>
    rw [bind_missing (by exact hget), bind_missing (by exact hget)]
    exact Or.inl rfl
  | some form =>
    have hroot : (equipped r limit' builders b.recorded).rootContext form =
        (equipped r limit builders b.recorded).rootContext form := rfl
    rw [bind_eq (by exact hget), bind_eq (by exact hget), hroot]
    rcases (equipped r limit builders b.recorded).rootContext form (s, []) with ⟨_ | context, st⟩
    · exact Or.inl rfl
    · dsimp only
      rcases (body_outlasts r builders b hle form context).follows ⟨st, start form⟩ with
        heq | ⟨⟨err, herr, hexceeds⟩, hbegins⟩
      · rw [heq]
        exact Or.inl rfl
      · rcases hrun : ((equipped r limit builders b.recorded).body form context).exec
          ⟨st, start form⟩ with ⟨result, t⟩
        rw [hrun] at herr hbegins
        obtain rfl : result = .error err := herr
        refine Or.inr ⟨⟨err, rfl, hexceeds⟩, ?_⟩
        -- the second run may also succeed, and then the binder is told of the output
        generalize ((equipped r limit' builders b.recorded).body form context).exec
          ⟨st, start form⟩ = after at hbegins ⊢
        rcases after with ⟨_ | _, t'⟩
        · exact hbegins
        · exact hbegins.trans (List.prefix_append _ _)

/-- **Raising the limit.** A run that the limit did not stop comes to the same result under any higher
limit, leaves the binder in the same state and calls it alike. Of a run that the limit did stop, the calls
of the binder are the first ones of the run under a higher limit. -/
theorem bind_limit_raised (r : Registry) (builders : List LibraryBuilder) (b : Binder σ γ)
    (key : FormKey) (s : σ) {limit limit' : Nat} (hle : limit ≤ limit') :
    ((∀ target depth path, ((equipped r limit builders b).bind key s).1 ≠
        .error (.referenceDepthExceeded target depth path)) →
      (equipped r limit' builders b).bind key s = (equipped r limit builders b).bind key s ∧
      exchanges r limit' builders b key s = exchanges r limit builders b key s) ∧
    ((∃ target depth path, ((equipped r limit builders b).bind key s).1 =
        .error (.referenceDepthExceeded target depth path)) →
      exchanges r limit builders b key s <+: exchanges r limit' builders b key s) := by
  obtain ⟨hresult, hstate⟩ := bind_recorded r limit builders (b := b) key s []
  obtain ⟨hresult', hstate'⟩ := bind_recorded r limit' builders (b := b) key s []
  rcases bind_outlasts r builders b hle key s with heq | ⟨⟨err, herr, hexceeds⟩, hbegins⟩
  · have hcalls : exchanges r limit' builders b key s = exchanges r limit builders b key s :=
      congrArg (fun run => run.2.2) heq
    rw [heq] at hresult' hstate'
    refine ⟨fun _ => ⟨?_, hcalls⟩, fun _ => ?_⟩
    · exact Prod.ext (hresult'.symm.trans hresult) (hstate'.symm.trans hstate)
    · exact hcalls.symm ▸ List.prefix_refl _
  · refine ⟨fun hwithin => ?_, fun _ => hbegins⟩
    obtain ⟨target, depth, path, rfl⟩ := hexceeds
    exact absurd (hresult.symm.trans herr) (hwithin target depth path)

/-- The orders of the example need one level, and with more of them nothing changes. Without any level
the run stops at the address of the first line, when four calls have been made. -/
theorem bind_limit_raised_orders :
    1 ≤ 7 ∧ ((equipped Sample.orders 7 [.inline] Sample.binder).bind Sample.orderKey () =
        (equipped Sample.orders 1 [.inline] Sample.binder).bind Sample.orderKey ()) ∧
    (exchanges Sample.orders 0 [.inline] Sample.binder Sample.orderKey ()).length = 4 ∧
    exchanges Sample.orders 0 [.inline] Sample.binder Sample.orderKey () <+:
      exchanges Sample.orders 1 [.inline] Sample.binder Sample.orderKey () := by
  have hok : ((equipped Sample.orders 1 [.inline] Sample.binder).bind Sample.orderKey ()).1.isOk =
      true := by cbv
  have hwithin : ∀ target depth path,
      ((equipped Sample.orders 1 [.inline] Sample.binder).bind Sample.orderKey ()).1 ≠
        .error (.referenceDepthExceeded target depth path) := by
    intro target depth path h
    rw [h] at hok
    cases hok
  have hstopped : ((equipped Sample.orders 0 [.inline] Sample.binder).bind Sample.orderKey ()).1 =
      .error (.referenceDepthExceeded ⟨"", "address"⟩ 0
        ((NodePath.single Sample.order.label).child "element[@line]")) := by cbv
  obtain ⟨hsame, -⟩ := (bind_limit_raised Sample.orders [.inline] Sample.binder Sample.orderKey ()
    (show 1 ≤ 7 by decide)).1 hwithin
  have hbegins := (bind_limit_raised Sample.orders [.inline] Sample.binder Sample.orderKey ()
    (show 0 ≤ 1 by decide)).2 ⟨_, _, _, hstopped⟩
  exact ⟨by decide, hsame, by cbv, hbegins⟩

end Engine

end FormSchema
