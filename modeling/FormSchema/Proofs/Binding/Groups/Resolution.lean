import FormSchema.Proofs.Binding.Conformance.Yields

/-!
# What resolving a group tells

A group is resolved before any of its nodes is emitted. All questions are asked at the place of the
outermost group. The winner holds the instances that were given as the answer to one of them, and a
conflict within the winner shows the path of the group it was found in.

The resolution of a group goes through its alternatives from the first to the last and remembers the
first one that is present. It is followed by induction on the alternatives that are left, and nested
groups by induction on definitions. What is told of them is what emission relies on later, when the
questions are long over.

* `Won` — a winner that the binder gave.
* **`Definition.resolve_tells`** — the winner of a group was given by the binder.
-/

namespace FormSchema

variable {σ γ : Type}

/-- What is known of a winner once the binder has answered. The path is that of the group in which
the winning alternative stands. A winner in conflict is told as well: the conflict is found while
the outer group is resolved, and reported when its winner is checked. -/
inductive Won (place : Scope γ) (asked : List (Exchange γ)) :
    Definition → NodePath → Winner γ → Prop where
  | element {i : Item} {cs : List Definition} {found : List γ} {path : NodePath}
      (present : found ≠ []) (answered : .element place ⟨i, cs⟩ found ∈ asked) :
      Won place asked (.node (.element i) cs) path (.instances found)
  | group {c : Choice} {cs : List Definition} {index : Nat} {d : Definition} {winner : Winner γ}
      {path : NodePath} (hget : cs[index]? = some d)
      (hw : Won place asked d (path.child c.label) winner) :
      Won place asked (.node (.choice c) cs) path (.group (.active index winner))
  | conflict {c : Choice} {cs : List Definition} {path : NodePath} :
      Won place asked (.node (.choice c) cs) path
        (.group (.conflict (conflictAt c.label (path.child c.label))))

/-- Whatever else is asked, a winner has been given. -/
theorem Won.mono {place : Scope γ} {asked asked' : List (Exchange γ)} {d : Definition}
    {path : NodePath} {winner : Winner γ} (h : Won place asked d path winner)
    (hsub : asked ⊆ asked') : Won place asked' d path winner := by
  induction h with
  | element present answered => exact .element present (hsub answered)
  | group hget _ ih => exact .group hget ih
  | conflict => exact .conflict

theorem AsksElements.nil {place : Scope γ} : AsksElements place [] := by
  intro x hx
  cases hx

theorem AsksElements.append {place : Scope γ} {asked asked' : List (Exchange γ)}
    (h : AsksElements place asked) (h' : AsksElements place asked') :
    AsksElements place (asked ++ asked') := by
  intro x hx
  rcases List.mem_append.mp hx with hfirst | hsecond
  · exact h x hfirst
  · exact h' x hsecond

namespace Definition

variable {b : Binder σ γ} {place : Scope γ} {label : String} {path : NodePath}

/-- The winner among a suffix of the alternatives is the one found before, or one of the suffix. -/
theorem resolve_tells_of {ds : List Definition}
    (h : ∀ d ∈ ds, Tells place (d.candidate b.recorded place path) fun candidate xs =>
      AsksElements place xs ∧ ∀ winner, candidate = some winner → Won place xs d path winner)
    (index : Nat) (found : Option (Nat × Winner γ)) :
    Tells place (resolve b.recorded place label ds index found path) fun outcome xs =>
      AsksElements place xs ∧
      (∀ k winner, outcome = .active k winner → found = some (k, winner) ∨
        ∃ j d, k = index + j ∧ ds[j]? = some d ∧ Won place xs d path winner) ∧
      ∀ error, outcome = .conflict error → error = conflictAt label path := by
  induction ds generalizing index found with
  | nil =>
    cases found with
    | none =>
      refine .pure ⟨.nil, fun k winner ho => ?_, fun error ho => ?_⟩
      · cases ho
      · cases ho
    | some first =>
      refine .pure ⟨.nil, fun k winner ho => ?_, fun error ho => ?_⟩
      · cases ho
        exact Or.inl rfl
      · cases ho
  | cons d ds ih =>
    have hds := fun c hc => h c (List.mem_cons_of_mem d hc)
    rw [resolve]
    refine .bind (h d List.mem_cons_self) fun candidate xs hcandidate => ?_
    obtain ⟨hasks, hwon⟩ := hcandidate
    -- a winner of the rest stands one place further on, and was found by fewer questions
    have hrest : ∀ {k winner ys}, (∃ j c, k = index + 1 + j ∧ ds[j]? = some c ∧
        Won place ys c path winner) →
        ∃ j c, k = index + j ∧ (d :: ds)[j]? = some c ∧ Won place (xs ++ ys) c path winner := by
      rintro k winner ys ⟨j, c, hk, hget, hw⟩
      refine ⟨j + 1, c, by omega, ?_, hw.mono (List.subset_append_right _ _)⟩
      rw [List.getElem?_cons_succ]
      exact hget
    cases candidate with
    | none =>
      refine (ih hds (index + 1) found).imp fun outcome ys hys => ?_
      refine ⟨hasks.append hys.1, fun k winner ho => ?_, hys.2.2⟩
      exact (hys.2.1 k winner ho).imp_right hrest
    | some w =>
      cases found with
      | none =>
        refine (ih hds (index + 1) (some (index, w))).imp fun outcome ys hys => ?_
        refine ⟨hasks.append hys.1, fun k winner ho => Or.inr ?_, hys.2.2⟩
        rcases hys.2.1 k winner ho with hfirst | hlater
        · cases hfirst
          exact ⟨0, d, rfl, rfl, (hwon w rfl).mono (List.subset_append_left _ _)⟩
        · exact hrest hlater
      | some first =>
        refine .pure ⟨?_, fun k winner ho => ?_, fun error ho => ?_⟩
        · rw [List.append_nil]
          exact hasks
        · cases ho
        · cases ho
          rfl

/-- What asking for one alternative tells. Only elements and groups are alternatives, and for
anything else nothing is asked. -/
theorem candidate_tells (d : Definition) (path : NodePath) :
    Tells place (d.candidate b.recorded place path) fun candidate xs =>
      AsksElements place xs ∧ ∀ winner, candidate = some winner → Won place xs d path winner := by
  induction d using Definition.induct generalizing path with
  | node head cs ih =>
    match head with
    | .element i =>
      rw [candidate]
      have hnoted : Tells place (b.recorded.bindElement place ⟨i, cs⟩) fun found xs =>
          xs = [.element place ⟨i, cs⟩ found] := .noted _ fun _ => rfl
      refine .bind hnoted fun found xs hxs => ?_
      subst hxs
      refine .pure ⟨?_, fun winner hwinner => ?_⟩
      · intro x hx
        exact ⟨⟨i, cs⟩, found, List.mem_singleton.mp hx⟩
      · cases hempty : found.isEmpty with
        | true =>
          rw [hempty] at hwinner
          cases hwinner
        | false =>
          rw [hempty] at hwinner
          cases hwinner
          refine .element ?_ List.mem_cons_self
          exact List.isEmpty_eq_false_iff.mp hempty
    | .choice c =>
      rw [candidate]
      -- a nested group is resolved by its own alternatives, at the same place
      refine .bind (resolve_tells_of (fun d hd => ih d hd _) 0 none) fun outcome xs hxs => ?_
      obtain ⟨hasks, hactive, hconflict⟩ := hxs
      cases outcome with
      | absent =>
        refine .pure ⟨?_, fun winner hwinner => ?_⟩
        · rw [List.append_nil]
          exact hasks
        · cases hwinner
      | active k w =>
        refine .pure ⟨?_, fun winner hwinner => ?_⟩
        · rw [List.append_nil]
          exact hasks
        · cases hwinner
          rw [List.append_nil]
          rcases hactive k w rfl with hnone | ⟨j, d, hk, hget, hw⟩
          · cases hnone
          · rw [Nat.zero_add] at hk
            subst hk
            exact .group hget hw
      | conflict error =>
        refine .pure ⟨?_, fun winner hwinner => ?_⟩
        · rw [List.append_nil]
          exact hasks
        · cases hwinner
          rw [hconflict error rfl]
          exact .conflict
    | .attribute _ | .reference _ | .extension _ =>
      refine .pure ⟨.nil, fun winner hwinner => ?_⟩
      cases hwinner

/-- **The winner of a group was given by the binder**, and a conflict shows the path of its group. -/
theorem resolve_tells (ds : List Definition) :
    Tells place (resolve b.recorded place label ds 0 none path) fun outcome xs =>
      AsksElements place xs ∧
      (∀ k winner, outcome = .active k winner →
        ∃ d, ds[k]? = some d ∧ Won place xs d path winner) ∧
      ∀ error, outcome = .conflict error → error = conflictAt label path := by
  refine (resolve_tells_of (fun d _ => candidate_tells d path) 0 none).imp fun outcome xs hxs => ?_
  refine ⟨hxs.1, fun k winner ho => ?_, hxs.2.2⟩
  rcases hxs.2.1 k winner ho with hnone | ⟨j, d, hk, hget, hw⟩
  · cases hnone
  · rw [Nat.zero_add] at hk
    subst hk
    exact ⟨d, hget, hw⟩

end Definition

end FormSchema
