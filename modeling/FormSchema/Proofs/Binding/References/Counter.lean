import FormSchema.Proofs.Binding.Walk.ObservedRuns

/-!
# Counted references

How deep references may be nested is said twice in this library. The definitions that run follow a
reference with a supply of levels: each level is handed to the definitions of the target and is gone
there. A program would rather keep one number in its state, how many references it is inside of just
now, raise it before it binds the definitions of a target and lower it again afterwards.

This module writes the second down and shows that it is the first. The invariant is one equation,

> levels left + the counter = the limit.

Crossing a reference takes a level and raises the counter, so the equation holds of the target. What
keeps it outside is that the counter comes back: `Run.deeper` lowers it however the definitions of the
target end, with an error as well. So the extension points that stand in the reference itself, which are
bound after its target, find the counter as the reference found it, and a run that fails leaves it at
zero.

* **`Engine.count`** — what references come to when they are counted.
* **`Engine.count_matches`** — where the equation holds, a counted reference comes to what a followed one
  comes to, and the counter is the same afterwards.
* **`Engine.bindCounting_eq`** — so a counted run is the run itself.
-/

namespace FormSchema

variable {σ τ γ α : Type}

/-! ## The counter

The counter lies beside the state of the binder, which does not know of it. -/

/-- A session with a counter, and the session without it. The number is fixed here. As a relation
between states it is kept by all that does not go inside a reference or outside of one. -/
def Counts (c : Nat) (s : σ) (t : σ × Nat) : Prop := t = (s, c)

/-- Runs inside one more reference, and is outside again however that ends. This is the only place
where the counter is written. -/
def Run.deeper (m : Run (σ × Nat) α) : Run (σ × Nat) α := fun s =>
  let (result, s') := m ⟨(s.state.1, s.state.2 + 1), s.output⟩
  (result, ⟨(s'.state.1, s'.state.2 - 1), s'.output⟩)

/-- What matches a run one reference further in matches it out here, once the counter is moved. -/
theorem Run.Matches.deeper {c : Nat} {m : Run σ α} {m' : Run (σ × Nat) α}
    (h : Run.Matches (Counts (c + 1)) m m') : Run.Matches (Counts c) m (Run.deeper m') := by
  rintro s t output rfl
  obtain ⟨hresult, houtput, hstate⟩ := h s (s, c + 1) output rfl
  refine ⟨hresult, houtput, ?_⟩
  show ((m'.exec ⟨(s, c + 1), output⟩).2.state.1, (m'.exec ⟨(s, c + 1), output⟩).2.state.2 - 1) = _
  rw [hstate, Nat.add_sub_cancel]

/-- The binder answers the same whatever the counter says, and leaves it alone. -/
theorem Binder.matches_counted (b : Binder σ γ) (c : Nat) : b.Matches (Counts c) b.beside := by
  apply b.matches_beside
  · rintro s _ rfl
    rfl
  · rintro s _ rfl s'
    rfl

namespace Engine

/-! ## Counting and following -/

/-- Follows references as long as the counter is below the limit. The fuel only bounds the recursion: as
much of it as the limit is never used up. -/
def count (e : Engine (σ × Nat) γ) : Nat → Entry (σ × Nat) γ
  | fuel, r, d, scope, path =>
    match e.registry.get? r.target with
    | none => Run.stop (.definitionNotFound r.target path)
    | some target => do
      let (_, depth) ← Run.state
      let refused := Run.stop (.referenceDepthExceeded r.target e.limit path)
      if e.limit ≤ depth then refused
      else match fuel with
        | 0 => refused
        | fuel + 1 =>
          e.cross (fun form scope path =>
            Run.deeper (buildAll e (count e fuel) form.children scope path)) r target d scope path

/-- Binds a root form, counting its references. -/
def bindCounting (e : Engine (σ × Nat) γ) (fuel : Nat) (key : FormKey) :
    ExceptT RunError (StateM (σ × Nat)) OutputTree :=
  e.bindBy (e.count fuel) key

section Count

variable {e : Engine (σ × Nat) γ} {r : Reference} {d : Definition} {scope : Scope γ} {path : NodePath}
  {target : Form}

/-- A reference without a target is refused before the counter is looked at. -/
theorem count_missing (h : e.registry.get? r.target = none) (fuel : Nat) :
    e.count fuel r d scope path = Run.stop (.definitionNotFound r.target path) := by
  simp only [count.eq_def, h]

/-- At the limit a reference is refused, and nothing else happens. -/
theorem exec_count_refused (h : e.registry.get? r.target = some target) (fuel : Nat)
    (t : Session (σ × Nat)) (hdepth : e.limit ≤ t.state.2) :
    (e.count fuel r d scope path).exec t =
      (.error (.referenceDepthExceeded r.target e.limit path), t) := by
  simp only [count.eq_def, h]
  show (if e.limit ≤ t.state.2 then _ else _ : Run (σ × Nat) NodeId).exec t = _
  rw [if_pos hdepth]
  rfl

/-- Below the limit it is crossed, and the definitions of its target run one reference further in. -/
theorem exec_count_crossed (h : e.registry.get? r.target = some target) (fuel : Nat)
    (t : Session (σ × Nat)) (hdepth : t.state.2 < e.limit) :
    (e.count (fuel + 1) r d scope path).exec t =
      (e.cross (fun form scope path =>
        Run.deeper (e.buildAll (e.count fuel) form.children scope path)) r target d scope
          path).exec t := by
  simp only [count.eq_def, h]
  show (if e.limit ≤ t.state.2 then _ else _ : Run (σ × Nat) NodeId).exec t = _
  rw [if_neg (Nat.not_le.mpr hdepth)]

end Count

section Levels

variable {e : Engine σ γ} {e' : Engine (σ × Nat) γ}

/-- **Counting is following.** With `n` levels left and the counter at what the limit has beyond them, a
counted reference comes to what a followed one comes to, and leaves the counter where it was. -/
theorem count_matches (h : ∀ c, Alike (Counts c) e e') (n : Nat) {c fuel : Nat}
    (hlevels : n + c = e.limit) (hfuel : n ≤ fuel) :
    EntriesMatch (Counts c) (e.follow n) (e'.count fuel) := by
  induction n using Nat.strongRecOn generalizing c fuel with
  | ind n ih =>
    intro r d scope path
    have hlimit : e'.limit = e.limit := (h c).limit
    cases hget : e.registry.get? r.target with
    | none =>
      rw [follow_missing hget, count_missing (by rw [(h c).registry, hget])]
      exact fun _ _ _ hst => ⟨rfl, rfl, hst⟩
    | some target =>
      have hget' : e'.registry.get? r.target = some target := by rw [(h c).registry, hget]
      cases n with
      | zero =>
        rintro s _ output rfl
        -- no level is left, so by the equation the counter has reached the limit
        have hdepth : e'.limit ≤ c := by omega
        rw [follow_exhausted hget, exec_count_refused hget' fuel ⟨(s, c), output⟩ hdepth, hlimit]
        exact ⟨rfl, rfl, rfl⟩
      | succ n =>
        obtain ⟨fuel, rfl⟩ : ∃ k, fuel = k + 1 := ⟨fuel - 1, by omega⟩
        have hinner : EntriesMatch (Counts (c + 1)) (e.follow n) (e'.count fuel) :=
          ih n (Nat.lt_succ_self n) (by omega) (by omega)
        have hcrossed : Run.Matches (Counts c) (e.follow (n + 1) r d scope path)
            (e'.cross (fun form scope path =>
              Run.deeper (e'.buildAll (e'.count fuel) form.children scope path)) r target d scope
                path) := by
          rw [follow_crossed hget]
          refine cross_rel (C := Run.matching (Counts c)) (.ask ((h c).binder.bindForm _ _))
            (fun context node => ?_) d
          -- the target is bound with a level less and the counter one higher
          exact .deeper (buildAll_rel (linked_matching (h (c + 1)) hinner target)
            ((h (c + 1)).extensions _ _ target) (.top target context node) _ rfl)
        rintro s _ output rfl
        have hdepth : c < e'.limit := by omega
        rw [exec_count_crossed hget' fuel ⟨(s, c), output⟩ hdepth]
        exact hcrossed s (s, c) output rfl

end Levels

/-! ## Whole runs -/

variable (registry : Registry) (limit : Nat) (contributors : List Contributor) (b : Binder σ γ)

/-- The engine that counts is like the one that does not, whatever the counter says, as long as it
does not move. That is so everywhere but at a reference. -/
theorem attended_counts (c : Nat) :
    Alike (Counts c) (attended registry limit contributors b)
      (attended registry limit contributors b.beside) where
  registry := rfl
  limit := rfl
  binder := (b.matches_counted c).toEchoes
  extensions entry entry' form := by
    intro point cs scope path _ hinside
    rw [build_extension_attended, build_extension_attended]
    exact (Run.matching (Counts c)).forM fun l _ => Contributor.contribute_rel hinside l scope point _

/-- **A counted run is the run itself.** It comes to the same result and leaves the binder in the same
state, and the counter is back at zero, whether or not the run succeeds. -/
theorem bindCounting_eq {fuel : Nat} (hfuel : limit ≤ fuel) (key : FormKey) (s : σ) :
    ((attended registry limit contributors b.beside).bindCounting fuel key (s, 0)).1 =
        ((attended registry limit contributors b).bind key s).1 ∧
      ((attended registry limit contributors b.beside).bindCounting fuel key (s, 0)).2 =
        (((attended registry limit contributors b).bind key s).2, 0) := by
  have halike := attended_counts registry limit contributors b
  have hentry := count_matches halike limit (c := 0) (Nat.add_zero limit) hfuel
  -- the last word goes to the binder, which leaves the counter where it is
  have hends := fun form output => (b.matches_counted 0).postBind form output
  obtain ⟨hresult, hstate⟩ := bindBy_alike (halike 0) hentry (S := Counts 0) (fun _ _ hrel => hrel)
    (fun form output s t hrel => (hends form output s t hrel).2) key (s := s) (t := (s, 0)) rfl
  exact ⟨hresult.symm, hstate⟩

end Engine

end FormSchema
