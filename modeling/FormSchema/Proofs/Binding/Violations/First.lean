import FormSchema.Proofs.Binding.Walk.Jobs
import FormSchema.Proofs.Binding.Violations.Reports
import Mathlib

/-!
# The first violation

A run stops at the first fault it meets, and the walk of `Replies.violations` never stops. For a
binder with fixed answers the run reports the head of what the walk collects: the order in which a
run looks for faults is the order of the list, error by error and path by path.

Both the run and the walk are followed job by job. What is compared is the error of a run with the
first violation of a list, and the comparison goes through sequences: what comes later shows only
when nothing was found before. Of groups it has to be known first that resolving them, which stops
at the second alternative, finds out what the walk finds out by looking at all of them.

* **`Run.Reports`** — a run succeeds without violations, and otherwise stops with the first one.
* **`Definition.resolve_decides`** — the resolution of a group counts the alternatives present.
* **`Engine.bind_reports_first_violation`** — a run reports exactly the first violation.
-/

namespace FormSchema

variable {σ γ α β : Type}

/-! ## Runs that report violations

Only the head of the list can be seen in a run. The rest of the list is kept all the same, for it is
the head as soon as what comes before is in order. -/

/-- The error of a result, if it is one. -/
def failure? : Except RunError α → Option RunError
  | .ok _ => none
  | .error err => some err

namespace Run

/-- In every session the run succeeds when there are no violations, and otherwise it stops with the
first of them. Whether it succeeds does not depend on the session, because the answers do not. -/
def Reports (m : Run σ α) (vs : List RunError) : Prop := ∀ s, failure? (m.exec s).1 = vs.head?

namespace Reports

variable {m : Run σ α} {f : α → Run σ β} {vs ws : List RunError}

theorem pure (a : α) : Reports (pure a : Run σ α) [] := fun _ => rfl

/-- What comes later is reported only when there was nothing before. -/
theorem bind (hm : Reports m vs) (hf : ∀ a, Reports (f a) ws) : Reports (m >>= f) (vs ++ ws) := by
  intro s
  have hfirst := hm s
  rw [exec_bind, List.head?_append, ← hfirst]
  rcases m.exec s with ⟨err | a, t⟩
  · rfl
  · exact hf a t

theorem bind_quiet (hm : Reports m []) (hf : ∀ a, Reports (f a) ws) : Reports (m >>= f) ws :=
  bind hm hf

theorem bind_stopped {v : RunError} (hm : Reports m (v :: vs)) :
    Reports (m >>= f) (v :: ws) := by
  intro s
  have hfirst := hm s
  rw [List.head?_cons] at hfirst ⊢
  rw [exec_bind]
  rcases heq : m.exec s with ⟨err | a, t⟩
  · rw [heq] at hfirst
    exact hfirst
  · rw [heq] at hfirst
    cases hfirst

/-- An answer that is known decides what follows. -/
theorem ask_bind {action : StateM σ α} {P : α → Prop} (hgiven : Says action P)
    (hf : ∀ a, P a → Reports (f a) ws) : Reports (Run.ask action >>= f) ws := by
  intro s
  rw [exec_bind, exec_ask]
  exact hf _ (hgiven s.state) _

theorem stop (err : RunError) : Reports (Run.stop err : Run σ α) [err] := fun _ => rfl

theorem edit (f : OutputTree → OutputTree) : Reports (Run.edit f : Run σ Unit) [] := fun _ => rfl

theorem attach (parent : NodeId) (kind : NodeKind) (name : String) :
    Reports (Run.attach parent kind name : Run σ NodeId) [] := fun _ => rfl

theorem check (c : Cardinality) (n : Nat) (kind : DefinitionKind) (label : String)
    (path : NodePath) :
    Reports (Run.check c n kind label path : Run σ Unit) (countFaults c n kind label path) := by
  rw [countFaults]
  cases h : c.check n with
  | none =>
    rw [check_of_none h]
    exact pure ()
  | some v =>
    rw [check_of_some h]
    exact stop _

end Reports

end Run

/-! ## Resolution

Resolving a group stops at the second alternative that is present, and it gives the winner by its
index. What it comes to is fixed by the list of alternatives present. -/

/-- An alternative that is present, with what resolution says of it. The instances are those that
the binder gives, and a winner is the only alternative present. -/
inductive Elected (a : Replies γ) (spot : Spot γ) : Definition → NodePath → Winner γ → Prop where
  | element {i : Item} {cs : List Definition} {path : NodePath}
      (h : a.elements spot ⟨i, cs⟩ ≠ []) :
      Elected a spot (.node (.element i) cs) path (.instances (a.elements spot ⟨i, cs⟩))
  | group {c : Choice} {cs : List Definition} {path : NodePath} {index : Nat} {d : Definition}
      {winner : Winner γ} (hget : cs[index]? = some d) (h : a.alternatives spot cs = [d])
      (hw : Elected a spot d (path.child c.label) winner) :
      Elected a spot (.node (.choice c) cs) path (.group (.active index winner))
  | conflict {c : Choice} {cs : List Definition} {path : NodePath} {d d' : Definition}
      {rest : List Definition} (h : a.alternatives spot cs = d :: d' :: rest) :
      Elected a spot (.node (.choice c) cs) path
        (.group (.conflict (conflictAt c.label (path.child c.label))))

/-- What resolving a group with some label at some path comes to. -/
inductive Decided (a : Replies γ) (spot : Spot γ) (label : String) (path : NodePath)
    (ds : List Definition) : Outcome γ → Prop where
  | absent (h : a.alternatives spot ds = []) : Decided a spot label path ds .absent
  | active {index : Nat} {d : Definition} {winner : Winner γ} (hget : ds[index]? = some d)
      (h : a.alternatives spot ds = [d]) (hw : Elected a spot d path winner) :
      Decided a spot label path ds (.active index winner)
  | conflict {d d' : Definition} {rest : List Definition}
      (h : a.alternatives spot ds = d :: d' :: rest) :
      Decided a spot label path ds (.conflict (conflictAt label path))

/-- What asking for one alternative comes to. An alternative that is not present is passed over. -/
def Nominated (a : Replies γ) (spot : Spot γ) (d : Definition) (path : NodePath) :
    Option (Winner γ) → Prop
  | none => a.present spot d = false
  | some winner => a.present spot d = true ∧ Elected a spot d path winner

namespace Definition

variable {b : Binder σ γ} {a : Replies γ} {place : Scope γ} {label : String} {path : NodePath}

/-- After a winner the first other alternative present makes a conflict. -/
theorem resolve_after_winner {ds : List Definition}
    (h : ∀ d ∈ ds, Says (d.candidate b place path) (Nominated a place.spot d path))
    (index first : Nat) (winner : Winner γ) :
    Says (resolve b place label ds index (some (first, winner)) path) fun outcome =>
      (a.alternatives place.spot ds = [] ∧ outcome = .active first winner) ∨
      (a.alternatives place.spot ds ≠ [] ∧ outcome = .conflict (conflictAt label path)) := by
  induction ds generalizing index with
  | nil => exact .pure (Or.inl ⟨rfl, rfl⟩)
  | cons d ds ih =>
    have hds := fun c hc => h c (List.mem_cons_of_mem d hc)
    rw [resolve]
    refine .bind (h d List.mem_cons_self) fun candidate hcandidate => ?_
    cases candidate with
    | none =>
      -- not present, and so left out of the list of alternatives
      have habsent : ¬ a.present place.spot d = true := Bool.eq_false_iff.mp hcandidate
      rw [Replies.alternatives, List.filter_cons, if_neg habsent]
      exact ih hds (index + 1)
    | some second =>
      refine .pure (Or.inr ⟨?_, rfl⟩)
      rw [Replies.alternatives, List.filter_cons, if_pos hcandidate.1]
      exact List.cons_ne_nil d _

/-- The resolution of a suffix of the alternatives, when none came before. -/
theorem resolve_decides_of {ds : List Definition}
    (h : ∀ d ∈ ds, Says (d.candidate b place path) (Nominated a place.spot d path))
    (label : String) (index : Nat) :
    Says (resolve b place label ds index none path) fun outcome =>
      (a.alternatives place.spot ds = [] ∧ outcome = .absent) ∨
      (∃ k d winner, ds[k]? = some d ∧ a.alternatives place.spot ds = [d] ∧
        Elected a place.spot d path winner ∧ outcome = .active (index + k) winner) ∨
      (∃ d d' rest, a.alternatives place.spot ds = d :: d' :: rest ∧
        outcome = .conflict (conflictAt label path)) := by
  induction ds generalizing index with
  | nil => exact .pure (Or.inl ⟨rfl, rfl⟩)
  | cons d ds ih =>
    have hds := fun c hc => h c (List.mem_cons_of_mem d hc)
    rw [resolve]
    refine .bind (h d List.mem_cons_self) fun candidate hcandidate => ?_
    cases candidate with
    | none =>
      have habsent : ¬ a.present place.spot d = true := Bool.eq_false_iff.mp hcandidate
      have hsame : a.alternatives place.spot (d :: ds) = a.alternatives place.spot ds := by
        rw [Replies.alternatives, List.filter_cons, if_neg habsent]
        rfl
      rw [hsame]
      intro s
      -- the suffix starts one place further on
      rcases ih hds (index + 1) s with hnone | ⟨k, c, winner, hget, hone, hw, ho⟩ | hmore
      · exact Or.inl hnone
      · refine Or.inr (Or.inl ⟨k + 1, c, winner, ?_, hone, hw, ?_⟩)
        · rw [List.getElem?_cons_succ]
          exact hget
        · rw [ho]
          congr 1
          omega
      · exact Or.inr (Or.inr hmore)
    | some winner =>
      obtain ⟨hpresent, helected⟩ := hcandidate
      have hmore : a.alternatives place.spot (d :: ds) = d :: a.alternatives place.spot ds := by
        rw [Replies.alternatives, List.filter_cons, if_pos hpresent]
        rfl
      -- the first one that is present; what comes after it decides between a winner and a conflict
      rw [hmore]
      intro s
      rcases resolve_after_winner hds (index + 1) index winner s with ⟨hrest, ho⟩ | ⟨hrest, ho⟩
      · refine Or.inr (Or.inl ⟨0, d, winner, rfl, ?_, helected, ho⟩)
        rw [hrest]
      · obtain ⟨d', rest, hcons⟩ := List.exists_cons_of_ne_nil hrest
        rw [hcons]
        exact Or.inr (Or.inr ⟨d, d', rest, rfl, ho⟩)

/-- **Resolution counts.** It comes to the alternatives that are present: none, one, or more. -/
theorem resolve_decides {ds : List Definition}
    (h : ∀ d ∈ ds, Says (d.candidate b place path) (Nominated a place.spot d path)) :
    Says (resolve b place label ds 0 none path) (Decided a place.spot label path ds) := by
  intro s
  rcases resolve_decides_of h label 0 s with ⟨hnone, ho⟩ | hone | hmore
  · rw [ho]
    exact .absent hnone
  · obtain ⟨k, d, winner, hget, hone, hw, ho⟩ := hone
    rw [ho, Nat.zero_add]
    exact .active hget hone hw
  · obtain ⟨d, d', rest, hmore, ho⟩ := hmore
    rw [ho]
    exact .conflict hmore

/-- An alternative is found present exactly when it is, and then it is elected. -/
theorem candidate_nominates (follows : b.Follows a) (d : Definition) (path : NodePath) :
    Says (d.candidate b place path) (Nominated a place.spot d path) := by
  induction d using Definition.induct generalizing path with
  | node head cs ih =>
    match head with
    | .element i =>
      rw [candidate]
      refine .bind (follows.elements place ⟨i, cs⟩) fun found hfound => .pure ?_
      subst hfound
      cases hempty : (a.elements place.spot ⟨i, cs⟩).isEmpty with
      | true =>
        show a.present place.spot _ = false
        rw [Replies.present, hempty]
        rfl
      | false =>
        refine ⟨?_, .element ?_⟩
        · rw [Replies.present, hempty]
          rfl
        · exact List.isEmpty_eq_false_iff.mp hempty
    | .choice c =>
      rw [candidate]
      -- a group is present when one of its alternatives is
      have hpresent : a.present place.spot (.node (.choice c) cs) =
          !(a.alternatives place.spot cs).isEmpty := by
        rw [Replies.present, Replies.anyPresent_eq]
      refine .bind (resolve_decides fun d hd => ih d hd _) fun outcome hdecided => ?_
      cases hdecided with
      | absent h =>
        refine .pure ?_
        show a.present place.spot _ = false
        rw [hpresent, h]
        rfl
      | active hget h hw =>
        refine .pure ⟨?_, .group hget h hw⟩
        rw [hpresent, h]
        rfl
      | conflict h =>
        refine .pure ⟨?_, .conflict h⟩
        rw [hpresent, h]
        rfl
    | .attribute _ | .reference _ | .extension _ =>
      refine .pure ?_
      show a.present place.spot _ = false
      rw [Replies.present]

end Definition

/-! ## The walk -/

namespace Job

/-- The violations of a job: those of definitions, and those beneath instances and winners. -/
def faults (a : Replies γ) (registry : Registry) (limit : Nat) (way : Way γ) :
    Job γ → Spot γ → NodePath → List RunError
  | .one d, spot, path => a.faults registry limit way d spot path
  | .all ds, spot, path => a.faultsAll registry limit way ds spot path
  | .shown d found, spot, path =>
    found.flatMap fun x =>
      a.faultsAll registry limit way d.children (spot.descend x)
        (path.child ((a.entry x).getD d.label))
  | .won d _, spot, path => a.faultsBeneath registry limit way d spot path

/-- The winner of a job is the one that the answers elect. -/
def Chosen (a : Replies γ) (spot : Spot γ) (path : NodePath) : Job γ → Prop
  | .won d winner => Elected a spot d path winner
  | _ => True

end Job

namespace Engine

theorem emit_reports (scope : Scope γ) (kind : NodeKind) (name : String) (d : Definition) :
    Run.Reports (emit scope kind name d : Run σ NodeId) [] := by
  refine .bind_quiet (.attach _ _ _) fun node => ?_
  refine .bind_quiet (.edit _) fun _ => ?_
  exact .bind_quiet (.edit _) fun _ => .pure node

theorem showText_reports (node : NodeId) (text : Option String) :
    Run.Reports (showText node text : Run σ Unit) [] := by
  cases text with
  | none => exact .pure ()
  | some text =>
    rw [showText]
    exact .edit _

/-- The node of an instance breaks nothing, and its path entry is the one that is given for the instance. -/
theorem emitFound_reports {e : Engine σ γ} {a : Replies γ} (follows : e.binder.Follows a)
    {kind : NodeKind} {name : String} {d : Definition} {scope : Scope γ} {found : γ}
    {f : NodeId × String → Run σ Unit} {vs : List RunError}
    (hf : ∀ node, Run.Reports (f (node, (a.entry found).getD d.label)) vs) :
    Run.Reports (e.emitFound kind name d scope found >>= f) vs := by
  rw [emitFound]
  simp only [bind_assoc, pure_bind]
  refine .bind_quiet (emit_reports _ _ _ _) fun node => ?_
  intro s
  rw [Run.exec_bind, exec_look, follows.entry]
  exact Run.Reports.bind_quiet (showText_reports _ _) (fun _ => hf node) s

variable {registry : Registry} {limit n : Nat} {b : Binder σ γ} {a : Replies γ}

/-- What is wrong with the winner of a group is found when the winner is checked. -/
theorem checkWinner_reports {spot : Spot γ} {d : Definition} {path : NodePath} {winner : Winner γ}
    (h : Elected a spot d path winner) :
    Run.Reports (checkWinner path (some d) winner : Run σ Unit) (a.winnerFaults spot path d) := by
  cases h with
  | element h =>
    rw [checkWinner, Replies.winnerFaults]
    exact .check _ _ _ _ _
  | group hget h hw =>
    rw [Replies.winnerFaults, h]
    exact .check _ _ _ _ _
  | conflict h =>
    rw [Replies.winnerFaults, h]
    exact .stop _

/-- A job reports its violations wherever it may be done. -/
def Reporting (registry : Registry) (limit : Nat) (b : Binder σ γ) (a : Replies γ) (n : Nat)
    (job : Job γ) : Prop :=
  ∀ (scope : Scope γ) path, job.Chosen a scope.spot path →
    Run.Reports
      ((equipped registry limit [] b).perform ((equipped registry limit [] b).follow n) job scope path)
      (job.faults a registry limit (a.ways registry limit n) scope.spot path)

/-- What is wrong with a group, and if nothing is, what is wrong beneath its winner. The walk lists
both, but a run does not get to the second when the first has stopped it. -/
theorem choice_reports (follows : b.Follows a) {g : Choice} {cs : List Definition}
    (h : ∀ index winner,
      Reporting registry limit b a n (.won (.node (.choice g) cs) (.group (.active index winner)))) :
    Reporting registry limit b a n (.one (.node (.choice g) cs)) := by
  intro scope path _
  rw [perform_choice, Job.faults, Replies.faults]
  have hresolve : Says (Definition.resolve b scope g.label cs 0 none (path.child g.label))
      (Decided a scope.spot g.label (path.child g.label) cs) :=
    Definition.resolve_decides fun d _ => Definition.candidate_nominates follows d _
  refine .ask_bind hresolve fun outcome hdecided => ?_
  cases hdecided with
  | absent hnone =>
    rw [Replies.groupFaults, hnone, List.append_nil]
    exact .check _ _ _ _ _
  | conflict hmore =>
    rw [Replies.groupFaults, hmore]
    exact .stop _
  | active hget hone hw =>
    rw [Replies.groupFaults, hone]
    dsimp only
    have hown : Run.Reports (Run.check g.cardinality 1 .choice g.label path : Run σ Unit)
        (countFaults g.cardinality 1 .choice g.label path) := .check _ _ _ _ _
    have hwon := h _ _ scope path (.group hget hone hw)
    rw [Job.faults, Replies.faultsBeneath, hone] at hwon
    cases hcount : countFaults g.cardinality 1 .choice g.label path with
    | nil =>
      rw [hcount] at hown
      exact .bind_quiet hown fun _ => hwon
    | cons err rest =>
      -- the own cardinality is broken, and nothing after it shows
      rw [hcount] at hown
      exact .bind_stopped hown

/-- A group reports what is wrong with its winner, and then what is beneath the winner. -/
theorem group_reports {g : Choice} {cs : List Definition} {index : Nat} {winner : Winner γ}
    (h : ∀ d, cs[index]? = some d → Reporting registry limit b a n (.won d winner)) :
    Reporting registry limit b a n (.won (.node (.choice g) cs) (.group (.active index winner))) := by
  intro scope path hchosen
  cases hchosen with
  | @group _ _ _ _ d _ hget hone hw =>
    rw [perform_group, hget, Job.faults, Replies.faultsBeneath, hone]
    simp only [perform_extensions_bare]
    refine .bind (checkWinner_reports hw) fun _ => .bind_quiet (emit_reports _ _ _ _) fun node => ?_
    -- of all alternatives only the winner has anything beneath it
    rw [Replies.faultsBeneathAll_eq_flatMap, hone, List.flatMap_singleton,
      ← List.append_nil (a.faultsBeneath _ _ _ _ _ _)]
    exact .bind (h d hget (scope.withParent node) (path.child g.label) hw) fun _ => .pure ()

/-- A reference reports that its target is missing, else that no level is left, else what is beneath the
target. Nothing comes after the target, because there are no builders. -/
theorem reference_reports (follows : b.Follows a) {r : Reference} {cs : List Definition}
    (deeper : ∀ m < n, ∀ ds, Reporting registry limit b a m (.all ds)) :
    Reporting registry limit b a n (.one (.node (.reference r) cs)) := by
  intro scope path _
  rw [Job.faults, Replies.faults]
  cases hget : registry.get? r.target with
  | none =>
    rw [perform_missing (by exact hget)]
    simp only [Replies.crossFaults, hget]
    exact .stop _
  | some target =>
    cases n with
    | zero =>
      rw [perform_exhausted (by exact hget)]
      simp only [Replies.crossFaults, hget]
      exact .stop _
    | succ m =>
      rw [perform_entered (by exact hget)]
      -- without builders nothing is left to do at the extension points of the reference
      simp only [Replies.crossFaults, hget, Replies.ways, perform_extensions_bare]
      refine .bind_quiet (emit_reports _ _ _ _) fun node => ?_
      refine .ask_bind (follows.forms _ _) fun bound hbound => ?_
      subst hbound
      rw [← List.append_nil (a.faultsAll _ _ _ _ _ _)]
      exact .bind (deeper m (Nat.lt_succ_self m) target.children _ _ trivial) fun _ => .pure ()

/-- **Every job reports its violations**, at every level. What is reported for a job is the first
violation of the exhaustive walk over it, by induction along the job. -/
theorem perform_reports (follows : b.Follows a) (n : Nat) (job : Job γ) :
    Reporting registry limit b a n job := by
  induction n, job using Job.induct_levels with
  | nil n =>
    intro scope path _
    rw [perform_nil]
    exact .pure ()
  | cons n d ds hd hds =>
    intro scope path _
    rw [perform_cons, Job.faults, Replies.faultsAll]
    exact .bind (hd scope path trivial) fun _ => hds scope path trivial
  | attributes n i cs ih =>
    intro scope path _
    rw [perform_attribute, Job.faults, Replies.faults]
    -- the answer is the one that the exhaustive walk counts on
    refine .ask_bind (follows.attributes _ _) fun found hfound => ?_
    subst hfound
    exact .bind (.check _ _ _ _ _) fun _ => ih _ scope path trivial
  | elements n i cs ih =>
    intro scope path _
    rw [perform_element, Job.faults, Replies.faults]
    refine .ask_bind (follows.elements _ _) fun found hfound => ?_
    subst hfound
    exact .bind (.check _ _ _ _ _) fun _ => ih _ scope path trivial
  | choice n g cs ih => exact choice_reports follows ih
  | reference n r cs deeper _ => exact reference_reports follows deeper
  | extension n x cs _ =>
    intro scope path _
    rw [perform_extension_bare, Job.faults, Replies.faults]
    exact .pure ()
  | shownNil n d =>
    intro scope path _
    rw [perform_shown_nil]
    exact .pure ()
  | shownCons n d c rest hinside hothers =>
    intro scope path _
    -- faults beneath one instance come before those beneath the next
    rw [perform_shown_cons, Job.faults, List.flatMap_cons]
    refine emitFound_reports follows fun node => ?_
    exact .bind (hinside (scope.descend c node) _ trivial) fun _ => hothers scope path trivial
  | wonElement n i cs found ih =>
    intro scope path hchosen
    cases hchosen with
    | element present =>
      rw [perform_won_element, Job.faults, Replies.faultsBeneath]
      exact ih scope path trivial
  | wonGroup n g cs index winner hwinner _ => exact group_reports hwinner
  | idle n d winner hidle =>
    intro scope path hchosen
    rw [perform_idle hidle]
    cases hchosen with
    | element present => cases hidle
    | group hget hone hw => cases hidle
    | conflict hmore =>
      rw [Job.faults, Replies.faultsBeneath, hmore]
      exact .pure ()

/-- The body of a run reports the violations of its form. -/
theorem body_reports (follows : b.Follows a) (form : Form) (context : γ) :
    Run.Reports ((equipped registry limit [] b).body form context)
      (a.violations registry limit form context) := by
  rw [body, Replies.violations]
  exact perform_reports follows limit (.all form.children) _ _ trivial

/-- A run that binds its root form fails with the head of the violations, if there is one. -/
theorem failure_bind (follows : b.Follows a) (source : b.hasSource = true) {key : FormKey}
    {form : Form} (known : registry.get? key = some form) {context : γ}
    (bound : a.forms none form = some context) (s : σ) :
    failure? ((equipped registry limit [] b).bind key s).1 =
      (a.violations registry limit form context).head? := by
  -- the root form is bound as the answers say
  have hroot : ((equipped registry limit [] b).rootContext form s).1 = some context := by
    rw [rootContext, equipped_binder, source, ← bound]
    exact follows.forms none _ _
  have hends := bind_ends (e := equipped registry limit [] b) known s
  generalize ((equipped registry limit [] b).bind key s).1 = result at hends ⊢
  generalize ((equipped registry limit [] b).bind key s).2 = state at hends
  cases hends with
  | absent h =>
    rw [hroot] at h
    cases h
  | stopped h hbody =>
    rw [hroot] at h
    cases h
    rw [← body_reports follows form context, hbody]
    rfl
  | finished h hbody =>
    rw [hroot] at h
    cases h
    rw [← body_reports follows form context, hbody]
    rfl

/-- **A run reports exactly the first violation.** For a binder with fixed answers that binds the
root form, a run succeeds exactly when there are no violations at all, and otherwise the error is the
first of them. -/
theorem bind_reports_first_violation (r : Registry) (limit : Nat) (b : Binder σ γ) (a : Replies γ)
    (follows : b.Follows a) (source : b.hasSource = true) {key : FormKey} {form : Form}
    (known : r.get? key = some form) {context : γ}
    (bound : a.forms none form = some context) (s : σ) :
    ((∃ tree, ((equipped r limit [] b).bind key s).1 = .ok tree) ↔
      a.violations r limit form context = []) ∧
    ∀ err, ((equipped r limit [] b).bind key s).1 = .error err ↔
      (a.violations r limit form context).head? = some err := by
  have hfailure : failure? ((equipped r limit [] b).bind key s).1 =
      (a.violations r limit form context).head? := failure_bind follows source known bound s
  have hnil : a.violations r limit form context = [] ↔
      (a.violations r limit form context).head? = none := List.head?_eq_none_iff.symm
  rw [hnil, ← hfailure]
  cases ((equipped r limit [] b).bind key s).1 with
  | ok tree => simp [failure?]
  | error err => simp [failure?]

/-- An order with two ways of payment, and without articles and a city: there are four violations,
and a run reports that the first line has no article. -/
theorem bind_reports_first_violation_orders :
    (Sample.faulty.binder fun _ s => s : Binder Unit String).Follows Sample.faulty.replies ∧
    Sample.faulty.hasSource = true ∧ Sample.orders.get? Sample.orderKey = some Sample.order ∧
    Sample.faulty.replies.forms none Sample.order = some "order" ∧
    (Sample.faulty.replies.violations Sample.orders 1 Sample.order "order").length = 4 ∧
    ((equipped Sample.orders 1 [] (Sample.faulty.binder fun _ s => s)).bind Sample.orderKey ()).1 =
      .error (.binding ⟨.count (.missing .required) .attribute,
        (NodePath.single Sample.order.label).child "element[@line]", some "attribute[@sku]"⟩) := by
  have follows : (Sample.faulty.binder fun _ s => s : Binder Unit String).Follows
      Sample.faulty.replies := Sample.faulty.binder_follows _
  have known : Sample.orders.get? Sample.orderKey = some Sample.order := by rfl
  have bound : Sample.faulty.replies.forms none Sample.order = some "order" := by cbv
  refine ⟨follows, rfl, known, bound, by cbv, ?_⟩
  have hfirst := bind_reports_first_violation Sample.orders 1 _ _ follows rfl known bound ()
  exact (hfirst.2 _).mpr (by cbv)

end Engine

end FormSchema
