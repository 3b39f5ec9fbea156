import FormSchema.Proofs.Binding.Course.Runs
import FormSchema.Proofs.Binding.Builders.Histories
import Mathlib

/-!
# Dispatching extension points

Every part of a run that keeps a log has a history that the rules allow. What a part of a run does is told
by the steps it adds to the log, so that the parts can be put together as the rules are.

The log is kept by the binder, so the calls of builders and the questions stand in it in the order
in which they happened. What is shown of a part of a run is that the steps it adds are a history. As
all of this goes by what is added to the log, nothing need be known of the output; nodes that are
emitted are parts of a run without steps.

* `Tells.resolve_logged` — what resolving a group puts into the log.
* **`Run.Takes`** — what a part of a run does is told by steps.
* **`Engine.dispatch_history`** — one extension point.
* **`Engine.perform_history`** — the walk, by induction over jobs.
* **`Engine.bind_dispatches`** — whole runs.
-/

namespace FormSchema

variable {σ γ α : Type}

/-! ## What resolving a group puts into the log

A group is resolved by a recorded binder and by one that keeps a log in the same way, so what is told of the
record can be told of the log. -/

/-- A record and a log since two moments, from which on they hold the same exchanges. -/
def Retold (record : List (Exchange γ)) (log : List (Step γ)) (s : σ × List (Exchange γ))
    (t : σ × List (Step γ)) : Prop :=
  s.1 = t.1 ∧ ∃ xs, s.2 = record ++ xs ∧ t.2 = log ++ xs.map .asked

/-- A question that is noted by one binder and logged by the other is the same exchange for both. -/
theorem logging_retold (record : List (Exchange γ)) (log : List (Step γ)) (action : StateM σ α)
    (note : α → Exchange γ) :
    Answers (Retold record log) (noted action note) (logging action note) := by
  rintro ⟨s, _⟩ ⟨t, _⟩ ⟨heq, xs, hrecord, hlog⟩
  obtain rfl : s = t := heq
  obtain rfl := hrecord
  obtain rfl := hlog
  have hxs : (xs ++ [note (action s).1]).map Step.asked =
      xs.map .asked ++ [.asked (note (action s).1)] := List.map_append
  refine ⟨rfl, rfl, xs ++ [note (action s).1], List.append_assoc _ _ _, ?_⟩
  rw [hxs]
  exact List.append_assoc _ _ _

/-- A logged action adds exchanges to the log, and its answer is related to them. -/
def TellsLog (action : StateM (σ × List (Step γ)) α) (Q : α → List (Exchange γ) → Prop) : Prop :=
  ∀ s, ∃ xs, (action s).2.2 = s.2 ++ xs.map .asked ∧ Q (action s).1 xs

theorem TellsLog.logging (action : StateM σ α) (note : α → Exchange γ) :
    TellsLog (logging action note) fun a xs => xs = [note a] := fun _ => ⟨_, rfl, rfl⟩

/-- What a group's resolution tells of the record it tells of the log. -/
theorem Tells.resolve_logged {b : Binder σ γ} {place : Scope γ} {label : String}
    {cs : List Definition} {path : NodePath} {Q : Outcome γ → List (Exchange γ) → Prop}
    (h : Tells place (Definition.resolve b.recorded place label cs 0 none path) Q) :
    TellsLog (Definition.resolve b.logged place label cs 0 none path) Q := by
  intro t
  obtain ⟨xs, hxs, -, hQ⟩ := h (t.1, [])
  have hcandidates : ∀ d ∈ cs, ∀ path, (Run.matching (Retold [] t.2)).Rel
      (Run.ask (d.candidate b.recorded place path)) (Run.ask (d.candidate b.logged place path)) :=
    fun d _ => Definition.candidate_rel (fun item => Run.Matches.ask (logging_retold [] t.2 _ _)) d
  have hstart : Retold [] t.2 (t.1, []) t := ⟨rfl, [], rfl, (List.append_nil _).symm⟩
  obtain ⟨hanswer, -, -, ys, hys, hlog⟩ :=
    Definition.resolve_rel_of hcandidates label 0 none path (t.1, []) t ⟨#[]⟩ hstart
  obtain rfl : ys = xs := hys.symm.trans hxs
  refine ⟨ys, hlog, ?_⟩
  rw [← Except.ok.inj hanswer]
  exact hQ

/-! ## Runs that take steps

The combinators follow the sequence of a run: one part after the other, questions, calls, checks,
and parts that take no steps. -/

/-- From any session a part of a logged run takes some steps and comes to an end. -/
def Run.Takes (m : Run (σ × List (Step γ)) Unit) (P : List (Step γ) → Option RunError → Prop) : Prop :=
  ∀ s, ∃ xs fin, (m.exec s).1 = ending fin ∧ (m.exec s).2.state.2 = s.state.2 ++ xs ∧ P xs fin

/-- A part of a run that always succeeds and takes no steps. What it gives back is of a kind. -/
def Run.Silent (m : Run σ α) (A : α → Prop) : Prop :=
  ∀ s, ∃ a t, m.exec s = (.ok a, t) ∧ t.state = s.state ∧ A a

namespace Run.Silent

variable {β : Type} {A : α → Prop} {B : β → Prop}

theorem pure {a : α} (h : A a) : Silent (Pure.pure a : Run σ α) A := fun s => ⟨a, s, rfl, rfl, h⟩

/-- One silent part after the other. -/
theorem bind {m : Run σ α} {f : α → Run σ β} (h : Silent m A) (hf : ∀ a, A a → Silent (f a) B) :
    Silent (m >>= f) B := by
  intro s
  obtain ⟨a, t, hm, hstate, ha⟩ := h s
  obtain ⟨b, t', hrun, hstate', hb⟩ := hf a ha t
  exact ⟨b, t', by rw [exec_bind, hm]; exact hrun, hstate'.trans hstate, hb⟩

end Run.Silent

namespace Run.Takes

variable {m m' : Run (σ × List (Step γ)) Unit} {P Q : List (Step γ) → Option RunError → Prop}

theorem done (h : P [] none) : Takes (pure () : Run (σ × List (Step γ)) Unit) P :=
  fun _ => ⟨[], none, rfl, (List.append_nil _).symm, h⟩

theorem stop {err : RunError} (h : P [] (some err)) :
    Takes (Run.stop err : Run (σ × List (Step γ)) Unit) P :=
  fun _ => ⟨[], some err, rfl, (List.append_nil _).symm, h⟩

theorem stop_bind {err : RunError} {f : α → Run (σ × List (Step γ)) Unit} (h : P [] (some err)) :
    Takes (Run.stop err >>= f) P := by
  intro s
  rw [exec_bind_of_error (exec_stop err s)]
  exact ⟨[], some err, rfl, (List.append_nil _).symm, h⟩

theorem imp (h : Takes m P) (himp : ∀ xs fin, P xs fin → Q xs fin) : Takes m Q := by
  intro s
  obtain ⟨xs, fin, hfin, hlog, hP⟩ := h s
  exact ⟨xs, fin, hfin, hlog, himp xs fin hP⟩

/-- One part after the other. -/
theorem seq (h : Takes m P) (herr : ∀ xs err, P xs (some err) → Q xs (some err))
    (h' : ∀ xs, P xs none → Takes m' fun ys fin => Q (xs ++ ys) fin) :
    Takes (m >>= fun _ => m') Q := by
  intro s
  obtain ⟨xs, fin, hfin, hlog, hP⟩ := h s
  rw [exec_bind]
  rcases hm : m.exec s with ⟨r, t⟩
  rw [hm] at hfin hlog
  -- the first part stops the run, or the second one starts from what it has left
  cases fin with
  | some err =>
    obtain rfl : r = .error err := hfin
    exact ⟨xs, some err, rfl, hlog, herr xs err hP⟩
  | none =>
    obtain rfl : r = .ok () := hfin
    obtain ⟨ys, fin', hfin', hlog', hQ⟩ := h' xs hP t
    refine ⟨xs ++ ys, fin', hfin', ?_, hQ⟩
    rw [hlog', hlog, List.append_assoc]

theorem ask {action : StateM (σ × List (Step γ)) α} {A : α → List (Exchange γ) → Prop}
    {f : α → Run (σ × List (Step γ)) Unit} (h : TellsLog action A)
    (hf : ∀ a asked, A a asked → Takes (f a) fun ys fin => Q (asked.map .asked ++ ys) fin) :
    Takes (Run.ask action >>= f) Q := by
  intro s
  obtain ⟨asked, hlog, hA⟩ := h s.state
  obtain ⟨ys, fin, hfin, hlog', hQ⟩ := hf _ asked hA ⟨(action s.state).2, s.output⟩
  rw [exec_bind, exec_ask]
  refine ⟨asked.map .asked ++ ys, fin, hfin, ?_, hQ⟩
  rw [hlog', hlog, List.append_assoc]

/-- What follows the call of a builder comes after the call. -/
theorem call {step : Step γ} (h : Takes m fun ys fin => Q (step :: ys) fin) :
    Takes (Run.log step >>= fun _ => m) Q := by
  intro s
  obtain ⟨ys, fin, hfin, hlog, hQ⟩ := h ⟨(s.state.1, s.state.2 ++ [step]), s.output⟩
  refine ⟨step :: ys, fin, hfin, ?_, hQ⟩
  rw [Run.log, exec_bind, exec_ask]
  dsimp only
  rw [hlog, List.append_assoc]
  rfl

theorem check {c : Cardinality} {count : Nat} {kind : DefinitionKind} {label : String}
    {path : NodePath} (herr : ∀ v, Q [] (some (.binding ⟨.count v kind, path, some label⟩)))
    (h : Takes m Q) : Takes (Run.check c count kind label path >>= fun _ => m) Q := by
  cases hcount : c.check count with
  | none =>
    rw [check_of_none hcount, pure_bind]
    exact h
  | some v =>
    rw [check_of_some hcount]
    exact stop_bind (herr v)

/-- What follows a part without steps. -/
theorem after {x : Run (σ × List (Step γ)) α} {A : α → Prop}
    {f : α → Run (σ × List (Step γ)) Unit} (hx : Run.Silent x A) (hf : ∀ a, A a → Takes (f a) Q) :
    Takes (x >>= f) Q := by
  intro s
  obtain ⟨a, t, hrun, hstate, hA⟩ := hx s
  obtain ⟨ys, fin, hfin, hlog, hQ⟩ := hf a hA t
  rw [exec_bind, hrun]
  refine ⟨ys, fin, hfin, ?_, hQ⟩
  rw [hlog, hstate]

end Run.Takes

namespace Engine

theorem emit_silent (scope : Scope γ) (kind : NodeKind) (name : String) (d : Definition) :
    Run.Silent (emit scope kind name d : Run σ NodeId) fun _ => True :=
  fun _ => ⟨_, _, rfl, rfl, trivial⟩

/-- What the binder says of an instance is not logged, for it is asked with the state left as it
is. -/
theorem look_silent (e : Engine σ γ) (found : γ) :
    Run.Silent (e.look found) fun said =>
      ∃ st, said = (e.binder.value st found, e.binder.describe st found) :=
  fun s => ⟨_, _, e.exec_look found s, rfl, s.state, rfl⟩

/-- A text is given to a node without a step. -/
theorem showText_silent (node : NodeId) (text : Option String) :
    Run.Silent (showText node text : Run σ Unit) fun _ => True := by
  intro s
  cases text with
  | none => exact ⟨_, _, rfl, rfl, trivial⟩
  | some text => exact ⟨_, _, rfl, rfl, trivial⟩

/-- The node of an instance. Its path entry is what the binder says of the instance, or else the label of the
definition. -/
theorem emitFound_silent (e : Engine σ γ) (kind : NodeKind) (name : String) (d : Definition)
    (scope : Scope γ) (found : γ) :
    Run.Silent (e.emitFound kind name d scope found) fun shown =>
      ∃ st, shown.2 = (e.binder.describe st found).getD d.label := by
  refine (emit_silent _ _ _ _).bind fun node _ => ?_
  refine (look_silent e found).bind fun said hsaid => ?_
  obtain ⟨st, rfl⟩ := hsaid
  exact (showText_silent _ _).bind fun _ _ => .pure ⟨st, rfl⟩

theorem leaveComment_silent (scope : Scope γ) (point : Extension) (d : Definition) :
    Run.Silent (LibraryBuilder.leaveComment scope point d : Run σ Unit) fun _ => True :=
  fun _ => ⟨_, _, rfl, rfl, trivial⟩

/-! ## The walk

An extension point is the case that matters. The others put the histories of their parts together,
as the rules are laid down. -/

/-- The engine of a task that keeps a log, with builders and their numbers. -/
abbrev keeper (k : Task σ γ) (numbered : List (Contributor × Nat)) : Engine (σ × List (Step γ)) γ :=
  logged k.registry k.limit numbered k.binder

variable {k : Task σ γ} {numbered callees : List (Contributor × Nat)} {n : Nat} {d : Definition}
  {scope : Scope γ} {path : NodePath}

/-- A job has a history at every position where it may be done. -/
def Recorded (k : Task σ γ) (numbered callees : List (Contributor × Nat)) (n : Nat) (job : Job γ) : Prop :=
  ∀ (scope : Scope γ) path, job.Given path →
    Run.Takes ((keeper k numbered).perform ((keeper k numbered).follow n) job scope path)
      (k.History callees n job scope path)

/-- What a builder does when it is called: it binds what is wrapped, or takes no steps. -/
theorem contribute_takes {inside : Run (σ × List (Step γ)) Unit}
    {P : List (Step γ) → Option RunError → Prop} (h : Run.Takes inside P) (c : Contributor)
    (point : Extension) :
    Run.Takes (c.contribute scope point d inside) fun xs fin =>
      (c = .library .inline → P xs fin) ∧ (c ≠ .library .inline → xs = [] ∧ fin = none) := by
  -- comments and observers take no steps; the only builder that binds anything is the one that
  -- inlines
  match c with
  | .library .inline => exact h.imp fun xs fin hP => ⟨fun _ => hP, fun hne => absurd rfl hne⟩
  | .library (.comment kinds) =>
    have hdone : Run.Takes (pure () : Run (σ × List (Step γ)) Unit) fun xs fin => xs = [] ∧ fin = none :=
      .done ⟨rfl, rfl⟩
    have hcomment := Run.Takes.after (leaveComment_silent scope point d) fun _ _ => hdone
    rw [bind_pure] at hcomment
    exact hcomment.imp fun xs fin hnone => ⟨nofun, fun _ => hnone⟩
  | .observer kinds => exact .done ⟨nofun, fun _ => ⟨rfl, rfl⟩⟩

/-- **One extension point.** The builders that are still to be called come after those that have been. The
induction is on the former, and the latter have not stopped the run. -/
theorem dispatch_history {inside : Run (σ × List (Step γ)) Unit} {x : Extension} {cs : List Definition}
    (h : Run.Takes inside (k.History callees n (.all cs) scope path))
    {called : List ((Contributor × Nat) × List (Step γ))} {waiting : List (Contributor × Nat)}
    (everyone : called.map Prod.fst ++ waiting = callees)
    (inlined : ∀ p ∈ called, p.1.1 = .library .inline →
      k.History callees n (.all cs) scope path p.2 none)
    (others : ∀ p ∈ called, p.1.1 ≠ .library .inline → p.2 = []) :
    Run.Takes
      (waiting.forM fun c =>
        Run.log (.called c.2 (.node (.extension x) cs) scope path) >>= fun _ =>
          c.1.contribute scope x (.node (.extension x) cs) inside)
      fun ys fin => k.History callees n (.one (.node (.extension x) cs)) scope path
        (Step.calls (.node (.extension x) cs) scope path called ++ ys) fin := by
  induction waiting generalizing called with
  | nil =>
    -- nobody is left to be called, which is how a dispatch ends well
    rw [List.append_nil] at everyone
    refine .done ?_
    rw [List.append_nil]
    exact .dispatched everyone inlined others
  | cons c waiting ih =>
    obtain ⟨contributor, number⟩ := c
    rw [List.forM_eq_forM, List.forM_cons, bind_assoc]
    refine .call (.seq (contribute_takes h contributor x) (fun xs err hstop => ?_) fun xs hdone => ?_)
    · -- only a builder that inlines stops the run
      by_cases hinline : contributor = .library .inline
      · subst hinline
        exact .interrupted everyone inlined others (hstop.1 rfl)
      · cases (hstop.2 hinline).2
    · -- the call and its steps come to the end of those before
      have hcalls : ∀ ys, Step.calls (.node (.extension x) cs) scope path called ++
          .called number (.node (.extension x) cs) scope path :: (xs ++ ys) =
          Step.calls (.node (.extension x) cs) scope path
            (called ++ [((contributor, number), xs)]) ++ ys := by
        intro ys
        simp [Step.calls]
      have heveryone : (called ++ [((contributor, number), xs)]).map Prod.fst ++ waiting = callees := by
        rw [← everyone, List.map_append, List.append_assoc]
        rfl
      -- what was known of those called before holds of the last one too
      refine (ih heveryone (fun p hp hinline => ?_) fun p hp hother => ?_).imp fun ys fin hys => ?_
      · rcases List.mem_append.mp hp with hbefore | hlast
        · exact inlined p hbefore hinline
        · obtain rfl := List.mem_singleton.mp hlast
          exact hdone.1 hinline
      · rcases List.mem_append.mp hp with hbefore | hlast
        · exact others p hbefore hother
        · obtain rfl := List.mem_singleton.mp hlast
          exact (hdone.2 hother).1
      · rw [hcalls]
        exact hys

/-- The instances of an attribute, when their count is allowed. -/
theorem attribute_history {i : Item} {cs : List Definition}
    (h : ∀ found, Recorded k numbered callees n (.shown (.node (.attribute i) cs) found)) :
    Recorded k numbered callees n (.one (.node (.attribute i) cs)) := by
  intro scope path _
  rw [perform_attribute]
  refine .ask (.logging _ _) fun found asked hasked => ?_
  subst hasked
  have hasks : (Definition.node (.attribute i) cs).AskedIn k.registry scope
      [.attribute scope ⟨i, cs⟩ found] := .single (.attributes found)
  refine .check (fun v => .fault hasks (.count (Or.inl rfl))) ?_
  exact (h _ scope path (Or.inr rfl)).imp fun xs fin => .attributes

/-- The instances of an element, when their count is allowed. -/
theorem element_history {i : Item} {cs : List Definition}
    (h : ∀ found, Recorded k numbered callees n (.shown (.node (.element i) cs) found)) :
    Recorded k numbered callees n (.one (.node (.element i) cs)) := by
  intro scope path _
  rw [perform_element]
  refine .ask (.logging _ _) fun found asked hasked => ?_
  subst hasked
  have hasks : (Definition.node (.element i) cs).AskedIn k.registry scope
      [.element scope ⟨i, cs⟩ found] := .single (.elements found)
  refine .check (fun v => .fault hasks (.count (Or.inr (Or.inl rfl)))) ?_
  exact (h found scope path (Or.inl rfl)).imp fun xs fin => .elements

/-- A group that is resolved goes on with its winner, if there is one. -/
theorem choice_history {g : Choice} {cs : List Definition}
    (h : ∀ index winner,
      Recorded k numbered callees n (.won (.node (.choice g) cs) (.group (.active index winner)))) :
    Recorded k numbered callees n (.one (.node (.choice g) cs)) := by
  intro scope path _
  rw [perform_choice]
  have hresolve : Tells scope (Definition.resolve k.binder.recorded scope g.label cs 0
      none (path.child g.label)) _ := Definition.resolve_resolved (r := k.registry) g cs
  refine .ask hresolve.resolve_logged fun outcome asked hanswer => ?_
  obtain ⟨hasks, hresolved⟩ := hanswer
  have hfault : ∀ {err}, k.FailsAt n (.node (.choice g) cs) path err → k.History callees n
      (.one (.node (.choice g) cs)) scope path (asked.map .asked ++ []) (some err) := by
    intro err hfails
    rw [List.append_nil]
    exact .fault ⟨hasks, fun hne => absurd rfl hne⟩ hfails
  -- a group fails by the count of its winner, whether there is none or one
  have hcount : ∀ v, k.FailsAt n (.node (.choice g) cs) path
      (.binding ⟨.count v .choice, path, some g.label⟩) := fun v => .count (Or.inr (Or.inr rfl))
  cases hresolved with
  | absent nothing =>
    rw [← bind_pure (Run.check _ _ _ _ _)]
    refine .check (fun v => hfault (hcount v)) (.done ?_)
    rw [List.append_nil]
    exact .absent hasks nothing
  | conflict => exact .stop (hfault .conflict)
  | @active index winner given all =>
    refine .check (fun v => hfault (hcount v)) ?_
    have hwon := h index winner scope path ⟨⟨_, _, given⟩, fun _ h => nomatch h⟩
    exact hwon.imp fun xs fin => .group hasks given

/-- A group with a winner that the binder gave, and then the extension points of the group. -/
theorem group_history {g : Choice} {cs : List Definition} {index : Nat} {winner : Winner γ}
    (h : ∀ d, cs[index]? = some d → Recorded k numbered callees n (.won d winner))
    (hextensions : Recorded k numbered callees n (.all (Definition.extensions cs))) :
    Recorded k numbered callees n (.won (.node (.choice g) cs) (.group (.active index winner))) := by
  rintro scope path ⟨⟨place, asked, hgiven⟩, -⟩
  cases hgiven with
  | @group _ _ _ d _ _ hget hwon =>
    have hd : d ∈ cs := List.mem_of_getElem? hget
    have hnode : (∀ error, winner ≠ .group (.conflict error)) → Run.Takes
        (emit scope .choice (g.id.getD "choice") (.node (.choice g) cs) >>= fun node =>
          (keeper k numbered).perform ((keeper k numbered).follow n) (.won d winner)
              (scope.withParent node) (path.child g.label) >>= fun _ =>
            (keeper k numbered).perform ((keeper k numbered).follow n)
              (.all (Definition.extensions cs)) (scope.withParent node) (path.child g.label))
        (k.History callees n (.won (.node (.choice g) cs) (.group (.active index winner))) scope
          path) := by
      intro hclear
      refine .after (emit_silent _ _ _ _) fun node _ => ?_
      have hinside := h d hget (scope.withParent node) (path.child g.label)
        ⟨⟨place, asked, hwon⟩, hclear⟩
      refine .seq hinside (fun xs err hstop => .wonHalt hget hstop) fun xs hxs => ?_
      exact (hextensions _ _ trivial).imp fun ys fin hys => .wonGroup hget hxs hys
    rw [perform_group, hget]
    -- the winner is checked before the node of the group is emitted
    cases hwon with
    | element present answered =>
      refine .check (fun v => .wonFault (.winner hd (Or.inl rfl) ?_)) (hnode fun _ h => nomatch h)
      exact .count (Or.inr (Or.inl rfl))
    | group hget' hw =>
      refine .check (fun v => .wonFault (.winner hd (Or.inr rfl) ?_)) (hnode fun _ h => nomatch h)
      exact .count (Or.inr (Or.inr rfl))
    | conflict =>
      exact .stop_bind (.wonFault (.winner hd (Or.inr rfl) .conflict))

/-- A reference is followed by its own extension points. -/
theorem reference_history {r : Reference} {cs : List Definition}
    (deeper : ∀ m < n, ∀ ds, Recorded k numbered callees m (.all ds))
    (hextensions : Recorded k numbered callees n (.all (Definition.extensions cs))) :
    Recorded k numbered callees n (.one (.node (.reference r) cs)) := by
  intro scope path _
  -- nothing is asked for a reference before it is crossed, so a reference that fails leaves no step
  have hnothing : (Definition.node (.reference r) cs).AskedIn k.registry scope [] :=
    ⟨fun x hx => (nomatch hx), fun _ => Nat.zero_le 1⟩
  have hfault : ∀ {err}, k.FailsAt n (.node (.reference r) cs) path err →
      k.History callees n (.one (.node (.reference r) cs)) scope path [] (some err) :=
    fun hfails => .fault hnothing hfails
  cases hget : k.registry.get? r.target with
  | none =>
    rw [perform_missing (by exact hget)]
    exact .stop (hfault (.missing hget))
  | some target =>
    cases n with
    | zero =>
      rw [perform_exhausted (by exact hget)]
      exact .stop (hfault (.exceeded hget))
    | succ n =>
      rw [perform_entered (by exact hget)]
      refine .after (emit_silent _ _ _ _) fun node _ => ?_
      refine .ask (.logging _ _) fun answer asked hasked => ?_
      subst hasked
      have hinside := deeper n (Nat.lt_succ_self n) target.children
        (.top target (answer.getD scope.context) node) (path.child r.label) trivial
      refine .seq hinside (fun xs err hstop => .referenceHalt hget hstop) fun xs hxs => ?_
      refine (hextensions _ _ trivial).imp fun ys fin hys => ?_
      have hreference := Task.History.reference hget hxs hys
      exact hreference

/-- **Every job has a history**, at every level. The callees are the builders that apply. -/
theorem perform_history
    (hcallees : (numbered.filter fun c => c.1.appliesTo k.binder.kind) = callees) (n : Nat)
    (job : Job γ) : Recorded k numbered callees n job := by
  induction n, job using Job.induct_levels with
  | nil n =>
    intro scope path _
    rw [perform_nil]
    exact .done .nil
  | cons n d ds hd hds =>
    intro scope path _
    rw [perform_cons]
    refine .seq (hd scope path trivial) (fun xs err hfirst => .halt hfirst) fun xs hfirst => ?_
    exact (hds scope path trivial).imp fun ys fin hrest => .cons hfirst hrest
  | attributes n i cs ih => exact attribute_history ih
  | elements n i cs ih => exact element_history ih
  | choice n g cs ih => exact choice_history ih
  | reference n r cs deeper hextensions => exact reference_history deeper hextensions
  | extension n x cs ih =>
    intro scope path _
    have hnone : ([] : List ((Contributor × Nat) × List (Step γ))).map Prod.fst ++ callees = callees :=
      rfl
    -- nobody has been called yet, and all that apply are waiting
    rw [perform, build_extension_logged, hcallees]
    exact dispatch_history (ih scope path trivial) hnone (List.forall_mem_nil _) (List.forall_mem_nil _)
  | shownNil n d =>
    intro scope path _
    rw [perform_shown_nil]
    exact .done .shownNil
  | shownCons n d c rest hinside hothers =>
    intro scope path hkind
    rw [perform_shown_cons]
    refine .after (emitFound_silent _ _ _ _ _ _) fun shown hshown => ?_
    obtain ⟨st, hentry⟩ := hshown
    have hbeneath := hinside (scope.descend c shown.1) (path.child shown.2) trivial
    rw [hentry] at hbeneath ⊢
    refine .seq hbeneath (fun xs err hstop => .shownHalt hstop) fun xs hdone => ?_
    exact (hothers scope path hkind).imp fun ys fin hothers => .shownCons hdone hothers
  | wonElement n i cs found ih =>
    intro scope path _
    rw [perform_won_element]
    exact (ih scope path (Or.inl rfl)).imp fun xs fin => .wonElement
  | wonGroup n g cs index winner hwinner hextensions => exact group_history hwinner hextensions
  | idle n d winner hidle =>
    -- a winner that the binder gave is emitted, unless it is in conflict
    rintro scope path ⟨⟨place, asked, hwon⟩, hclear⟩
    cases hwon with
    | element present answered => cases hidle
    | group hget hw => cases hidle
    | conflict => exact absurd rfl (hclear _)

end Engine

/-! ## Whole runs -/

namespace Engine

/-- How a run may go, told by its log: its result, and the steps it takes. -/
inductive Unfolds (r : Registry) (limit : Nat) (b : Binder σ γ) (s : σ)
    (callees : List (Contributor × Nat)) (key : FormKey) :
    Except RunError OutputTree → List (Step γ) → Prop where
  | missing (unknown : r.get? key = none) :
      Unfolds r limit b s callees key (.error (.definitionNotFound key .root)) []
  | absent {form : Form} {asked : List (Exchange γ)} (known : r.get? key = some form)
      (root : asked = if b.hasSource then [.bound none form none] else []) :
      Unfolds r limit b s callees key
        (.error (.binding ⟨.formAbsent, .single form.label, some form.label⟩))
        (.asked (.started form) :: asked.map .asked)
  | stopped {form : Form} {context : γ} {xs : List (Step γ)} {err : RunError}
      (known : r.get? key = some form)
      (history : (Task.mk r limit b s form).History callees limit (.all form.children)
        (.top form context OutputTree.root) (.single form.label) xs (some err)) :
      Unfolds r limit b s callees key (.error err) (.asked (.started form) ::
        .asked (.bound none form (some context)) :: xs)
  | finished {form : Form} {context : γ} {t : OutputTree} {xs : List (Step γ)}
      (known : r.get? key = some form)
      (history : (Task.mk r limit b s form).History callees limit (.all form.children)
        (.top form context OutputTree.root) (.single form.label) xs none) :
      Unfolds r limit b s callees key (.ok t) (.asked (.started form) ::
        .asked (.bound none form (some context)) ::
          (xs ++ [.asked (.finished form t)]))

/-- The builders that a log names are those that apply. -/
theorem Unfolds.numbers_subset {r : Registry} {limit : Nat} {b : Binder σ γ} {s : σ}
    {callees : List (Contributor × Nat)} {key : FormKey} {result : Except RunError OutputTree}
    {steps : List (Step γ)} (h : Unfolds r limit b s callees key result steps) :
    Step.numbers steps ⊆ callees.map Prod.snd := by
  cases h with
  | missing unknown => exact List.nil_subset _
  | absent known root =>
    rw [Step.numbers_asked, Step.numbers_map_asked]
    exact List.nil_subset _
  | stopped known history => exact history.numbers_subset
  | finished known history =>
    rw [Step.numbers_asked, Step.numbers_asked, Step.numbers_append]
    exact List.append_subset.mpr ⟨history.numbers_subset, List.nil_subset _⟩

variable (r : Registry) (limit : Nat) (b : Binder σ γ)

/-- What is put into the log before the first definition. -/
theorem rootContext_logged (numbered : List (Contributor × Nat)) (form : Form) (s : σ) :
    let root := (logged r limit numbered b).rootContext form (s, [])
    root.2.2 = .asked (.started form) ::
      (if b.hasSource then [.bound none form root.1] else []).map .asked := by
  have hsource : (logged r limit numbered b).binder.hasSource = b.hasSource := rfl
  simp only [rootContext, hsource]
  cases b.hasSource <;> rfl

/-- A form is bound to something only where there is a source. -/
theorem hasSource_of_rootContext {e : Engine σ γ} {form : Form} {s : σ} {context : γ}
    (h : (e.rootContext form s).1 = some context) : e.binder.hasSource = true := by
  cases hsource : e.binder.hasSource with
  | true => rfl
  | false =>
    simp only [rootContext, hsource] at h
    cases h

/-- A run that keeps a log unfolds as the rules say. -/
theorem bind_unfolds {numbered callees : List (Contributor × Nat)}
    (hcallees : (numbered.filter fun c => c.1.appliesTo b.kind) = callees) (key : FormKey) (s : σ) :
    Unfolds r limit b s callees key ((logged r limit numbered b).bind key (s, [])).1
      (steps r limit numbered b key s) := by
  rw [steps]
  cases hget : r.get? key with
  | none =>
    rw [bind_missing (by exact hget)]
    exact .missing hget
  | some form =>
    have hlog := rootContext_logged r limit b numbered form s
    rw [bind_eq (by exact hget)]
    rcases hroot : (logged r limit numbered b).rootContext form (s, []) with ⟨_ | context, st⟩
    · rw [hroot] at hlog
      dsimp only at hlog ⊢
      rw [hlog]
      exact .absent hget rfl
    · -- a root form that was bound was asked for, so there is a source
      have hsource : b.hasSource = true :=
        hasSource_of_rootContext (e := logged r limit numbered b) (congrArg Prod.fst hroot)
      rw [hroot] at hlog
      dsimp only at hlog ⊢
      rw [if_pos hsource] at hlog
      have hhistory := perform_history (k := Task.mk r limit b s form) hcallees limit
        (.all form.children) (.top form context OutputTree.root) (.single form.label) trivial
      obtain ⟨xs, fin, hfin, hsteps, hxs⟩ := hhistory ⟨st, start form⟩
      change (((logged r limit numbered b).body form context).exec _).1 = _ at hfin
      change (((logged r limit numbered b).body form context).exec _).2.state.2 = _ at hsteps
      rcases hbody : ((logged r limit numbered b).body form context).exec ⟨st, start form⟩ with
        ⟨result, t⟩
      rw [hbody] at hfin hsteps
      dsimp only at hfin hsteps ⊢
      cases fin with
      | some err =>
        obtain rfl : result = .error err := hfin
        dsimp only
        rw [hsteps, hlog]
        exact .stopped hget hxs
      | none =>
        obtain rfl : result = .ok () := hfin
        -- the last entry of the log is the word to the binder that the output is complete
        show Unfolds r limit b s callees key (.ok t.output)
          (t.state.2 ++ [.asked (.finished form t.output)])
        rw [hsteps, hlog]
        exact .finished hget hxs

/-- **Dispatching extension points.** Beside its result a run has a log that the rules allow, in which every
builder that applies is called once at each extension point, in the order of registration, unless the run
is stopped by one that inlines. Builders that do not apply are never called, and taking them away changes
neither the run nor its log. -/
theorem bind_dispatches (contributors : List Contributor) (key : FormKey) (s : σ) :
    let numbered := contributors.zipIdx
    let callees := numbered.filter fun c => c.1.appliesTo b.kind
    Unfolds r limit b s callees key ((attended r limit contributors b).bind key s).1
        (steps r limit numbered b key s) ∧
      (∀ number ∈ Step.numbers (steps r limit numbered b key s),
        ∃ c, contributors[number]? = some c ∧ c.appliesTo b.kind = true) ∧
      (attended r limit (contributors.filter fun c => c.appliesTo b.kind) b).bind key s =
        (attended r limit contributors b).bind key s ∧
      steps r limit callees b key s = steps r limit numbered b key s := by
  intro numbered callees
  have hresult := (bind_logged r limit b numbered key s).1
  have hnames : numbered.map Prod.fst = contributors := List.zipIdx_map_fst 0 contributors
  rw [hnames] at hresult
  have hcallees : (numbered.filter fun c => c.1.appliesTo b.kind) = callees := rfl
  have hunfolds := bind_unfolds r limit b hcallees key s
  refine ⟨?_, fun number hnumber => ?_, bind_compatible r limit b contributors key s,
    steps_compatible r limit b numbered key s⟩
  · rw [← hresult]
    exact hunfolds
  · obtain ⟨c, hc, rfl⟩ := List.mem_map.mp (hunfolds.numbers_subset hnumber)
    obtain ⟨hmem, happlies⟩ := List.mem_filter.mp hc
    -- the number of a builder is its place in the order of registration
    exact ⟨c.1, List.mem_zipIdx_iff_getElem?.mp hmem, happlies⟩

/-- The extension point in each of the two lines of the orders is met by an observer and by the builder that
inlines. Comments are for other binders only. -/
theorem bind_dispatches_orders :
    let contributors : List Contributor :=
      [.library (.comment ["other"]), .observer [], .library .inline]
    Step.numbers (steps Sample.orders 1 contributors.zipIdx Sample.binder Sample.orderKey ()) =
        [1, 2, 1, 2] ∧
      (attended Sample.orders 1 [.observer [], .library .inline] Sample.binder).bind Sample.orderKey () =
        (attended Sample.orders 1 contributors Sample.binder).bind Sample.orderKey () := by
  intro contributors
  obtain ⟨-, -, hsame, -⟩ := bind_dispatches Sample.orders 1 Sample.binder contributors Sample.orderKey ()
  exact ⟨by cbv, hsame⟩

end Engine

/-! ## A run that is stopped at an extension point -/

namespace Sample

/-- An extension point that wraps an element nobody has. -/
def gap : Definition := .node (.extension ⟨"w", .empty⟩) [.leaf (.element (item "x" .required))]

def gapped : Form :=
  ⟨⟨⟨"", "f"⟩, "test", .empty⟩, [.node (.element (item "item" .required)) [gap]]⟩

def gappedBinder : Binder Unit String :=
  Script.binder ⟨"scripted", true, [], [("item", .count 1)], [], none, []⟩ fun _ s => s

end Sample

namespace Engine

/-- The builder that inlines stops the run, because the wrapped element is missing. The observer after it is
not called any more, although it applies as well. -/
theorem dispatch_gap_interrupted :
    let contributors : List Contributor := [.library .inline, .observer []]
    let log := steps ⟨[Sample.gapped]⟩ 1 contributors.zipIdx Sample.gappedBinder Sample.gapped.key ()
    (∀ c ∈ contributors, c.appliesTo Sample.gappedBinder.kind = true) ∧
      (∃ place path, .called 0 Sample.gap place path ∈ log) ∧
      ∀ place path, .called 1 Sample.gap place path ∉ log := by
  intro contributors log
  have hcalled : ∃ place path, log[3]? = some (.called 0 Sample.gap place path) := ⟨_, _, rfl⟩
  have hnumbers : Step.numbers log = [0] := by cbv
  refine ⟨by decide, ?_, fun place path hmem => ?_⟩
  · obtain ⟨place, path, hget⟩ := hcalled
    exact ⟨place, path, List.mem_of_getElem? hget⟩
  · have hsecond : 1 ∈ Step.numbers log := List.mem_filterMap.mpr ⟨_, hmem, rfl⟩
    rw [hnumbers] at hsecond
    cases hsecond with
    | tail _ h => cases h

end Engine

end FormSchema
