import FormSchema.Proofs.Binding.Course.Rules
import FormSchema.Proofs.Binding.Groups.Resolution
import FormSchema.Proofs.Binding.Walk.SafeRuns

/-!
# Runs take a course

Every part of a recorded run without builders takes one of the courses that the rules allow. What is
asked is found at the end of the record, and what is emitted at the end of the tree.

A course tells the questions and the nodes of a run as one list of events, in the order in which
they happened. To say that a part of a run takes a course is to say what it appends to the record
and to the tree, for any record before it; what the binder answers depends on that record alone, as
the state of a recorded binder can be replayed from it.

* `OutputTree.bare` — the nodes of a tree in the order in which they were attached.
* **`Definition.resolve_given`** — the winner of a group stands for all that was given.
* **`Definition.resolve_resolved`** — what a group comes to, with what was asked for it.
* **`Run.Recounts`** — what a part of a run does is told by a list of events.
* **`Engine.perform_course`** — every job takes a course.
* **`Engine.bind_course`** — whole runs.
-/

namespace FormSchema

variable {σ γ α : Type}

/-! ## Nodes in order

A node gets its children after it was emitted. Without them it is what it was, so the nodes of a
tree in their order tell how it was emitted. -/

/-- A node without its links to the nodes beneath it. -/
def OutputNode.bare (n : OutputNode) : OutputNode := { n with children := #[] }

/-- The nodes of a tree in the order in which they were attached. -/
def OutputTree.bare (t : OutputTree) : List OutputNode := t.nodes.toList.map OutputNode.bare

namespace OutputTree

variable {t t' : OutputTree} {n : OutputNode}

/-- There are as many nodes without their links as there are nodes. -/
@[simp] theorem length_bare (t : OutputTree) : t.bare.length = t.size := by
  rw [bare, List.length_map, Array.length_toList, size]

/-- A node without its links is found at its own number. -/
theorem getElem?_bare (t : OutputTree) (id : NodeId) :
    t.bare[id]? = (t.node? id).map OutputNode.bare := by
  rw [bare, List.getElem?_map, Array.getElem?_toList, node?]

theorem Grafted.bare (h : Grafted t t' n) : t'.bare = t.bare ++ [n.bare] := by
  apply List.ext_getElem?
  intro id
  rw [getElem?_bare]
  -- an older node may have got a child, which `bare` leaves out
  rcases Nat.lt_trichotomy id t.size with hlt | rfl | hgt
  · obtain ⟨m, hm⟩ : ∃ m, t.node? id = some m := ⟨_, Array.getElem?_eq_getElem hlt⟩
    obtain ⟨cs, hcs⟩ := h.extended.node hm
    have hlen : id < t.bare.length := by rwa [length_bare]
    rw [hcs, List.getElem?_append_left hlen, getElem?_bare, hm]
    rfl
  · rw [h.node, Option.map_some, ← length_bare, List.getElem?_concat_length]
  · have hnone : t'.node? id = none := by
      rw [node?, Array.getElem?_eq_none_iff]
      show t'.size ≤ id
      rw [h.size]
      exact hgt
    rw [hnone, Option.map_none, eq_comm, List.getElem?_eq_none_iff, List.length_append, length_bare]
    exact hgt

end OutputTree

/-! ## What resolving a group gives

How much was given for a group can be read off its winner. That counts where nodes are counted by
what was given: an alternative that loses was given nothing, or there would be a conflict. -/

namespace Definition

variable {b : Binder σ γ} {r : Registry} {place : Scope γ} {label : String} {path : NodePath}

/-- What is told of the answers that an alternative was given. -/
structure CandidateGiven (r : Registry) (place : Scope γ) (d : Definition)
    (candidate : Option (Winner γ)) (xs : List (Exchange γ)) : Prop where
  asks : ∀ x ∈ xs, d.isAlternative = true ∧ d.Asks r place x
  absent : candidate = none → givenIn xs = []
  present : ∀ winner found, candidate = some winner → winner.shown? = some found → givenIn xs = found

/-- What is told of the answers that a list of alternatives was given, `first` being what was found
before them. -/
structure OutcomeGiven (r : Registry) (place : Scope γ) (ds : List Definition)
    (first : Option (Nat × Winner γ)) (outcome : Outcome γ) (xs : List (Exchange γ)) : Prop where
  asks : ∀ x ∈ xs, ∃ d ∈ ds, d.isAlternative = true ∧ d.Asks r place x
  absent : outcome = .absent → first = none ∧ givenIn xs = []
  kept : ∀ k winner w, outcome = .active k winner → first = some w → w = (k, winner) ∧ givenIn xs = []
  active : ∀ k winner found, outcome = .active k winner → first = none →
    winner.shown? = some found → givenIn xs = found

theorem resolve_given_of {ds : List Definition}
    (h : ∀ d ∈ ds, Tells place (d.candidate b.recorded place path) (CandidateGiven r place d))
    (index : Nat) (first : Option (Nat × Winner γ)) :
    Tells place (resolve b.recorded place label ds index first path)
      (OutcomeGiven r place ds first) := by
  induction ds generalizing index first with
  | nil =>
    cases first with
    | none =>
      refine .pure ⟨?_, fun _ => ⟨rfl, rfl⟩, fun _ _ _ ho => (by cases ho),
        fun _ _ _ ho => (by cases ho)⟩
      intro x hx
      cases hx
    | some w =>
      refine .pure ⟨?_, fun ho => (by cases ho), ?_, fun _ _ _ _ hf => (by cases hf)⟩
      · intro x hx
        cases hx
      · intro k winner w' ho hf
        cases ho
        cases hf
        exact ⟨rfl, rfl⟩
  | cons d ds ih =>
    have hds := fun c hc => h c (List.mem_cons_of_mem d hc)
    rw [resolve]
    refine .bind (h d List.mem_cons_self) fun candidate xs hcandidate => ?_
    obtain ⟨hasks, hnone, hsome⟩ := hcandidate
    -- what the rest asks for is asked for alternatives, too
    have hall : ∀ ys : List (Exchange γ),
        (∀ y ∈ ys, ∃ c ∈ ds, c.isAlternative = true ∧ c.Asks r place y) →
        ∀ y ∈ xs ++ ys, ∃ c ∈ d :: ds, c.isAlternative = true ∧ c.Asks r place y := by
      intro ys hys y hy
      rcases List.mem_append.mp hy with hx | hrest
      · exact ⟨d, List.mem_cons_self, hasks y hx⟩
      · obtain ⟨c, hc, hcasks⟩ := hys y hrest
        exact ⟨c, List.mem_cons_of_mem d hc, hcasks⟩
    cases candidate with
    | none =>
      -- nothing was given for this one, so everything is as for the rest
      refine (ih hds (index + 1) first).imp fun outcome ys hys => ?_
      have heq : givenIn (xs ++ ys) = givenIn ys := by
        rw [givenIn_append, hnone rfl, List.nil_append]
      refine ⟨hall ys hys.asks, fun ho => ?_, fun k winner w ho hf => ?_,
        fun k winner found ho hf hshown => ?_⟩
      · rw [heq]
        exact hys.absent ho
      · rw [heq]
        exact hys.kept k winner w ho hf
      · rw [heq]
        exact hys.active k winner found ho hf hshown
    | some w =>
      cases first with
      | none =>
        -- this one is the winner unless another one is found, and nothing is given for the others
        refine (ih hds (index + 1) (some (index, w))).imp fun outcome ys hys => ?_
        refine ⟨hall ys hys.asks, fun ho => ?_, fun _ _ _ _ hf => (by cases hf), ?_⟩
        · cases (hys.absent ho).1
        · intro k winner found ho _ hshown
          obtain ⟨heq, hys⟩ := hys.kept k winner (index, w) ho rfl
          cases heq
          rw [givenIn_append, hys, List.append_nil]
          exact hsome w found rfl hshown
      | some other =>
        exact .pure ⟨hall [] (fun y hy => (by cases hy)), fun ho => (by cases ho),
          fun _ _ _ ho => (by cases ho), fun _ _ _ ho => (by cases ho)⟩

/-- An element is a candidate with what was given for it. -/
theorem candidate_element_given (i : Item) (cs : List Definition) (path : NodePath) :
    Tells place ((Definition.node (.element i) cs).candidate b.recorded place path)
      (CandidateGiven r place (.node (.element i) cs)) := by
  rw [candidate]
  have hnoted : Tells place (b.recorded.bindElement place ⟨i, cs⟩) fun found xs =>
      xs = [.element place ⟨i, cs⟩ found] := .noted _ fun _ => rfl
  refine .bind hnoted fun found xs hxs => ?_
  subst hxs
  have hgiven : givenIn [Exchange.element place ⟨i, cs⟩ found] = found := givenIn_singleton _
  refine .pure ⟨?_, fun hnone => ?_, fun winner shown hsome hshown => ?_⟩
  · intro x hx
    rw [List.append_nil, List.mem_singleton] at hx
    subst hx
    exact ⟨rfl, .elements found⟩
  · -- there is a winner just when something was found, and it shows what was found
    rw [List.append_nil, hgiven]
    cases found with
    | nil => rfl
    | cons c rest => cases hnone
  · rw [List.append_nil, hgiven]
    cases found with
    | nil => cases hsome
    | cons c rest =>
      cases hsome
      exact Option.some.inj hshown

/-- A group is a candidate with what its own alternatives were given. -/
theorem candidate_group_given {g : Choice} {cs : List Definition}
    (h : ∀ d ∈ cs, Tells place (d.candidate b.recorded place (path.child g.label))
      (CandidateGiven r place d)) :
    Tells place ((Definition.node (.choice g) cs).candidate b.recorded place path)
      (CandidateGiven r place (.node (.choice g) cs)) := by
  rw [candidate]
  refine .bind (resolve_given_of h 0 none) fun outcome xs hxs => ?_
  -- what was asked for the alternatives was asked for the group
  have hasks : ∀ x ∈ xs, (Definition.node (.choice g) cs).isAlternative = true ∧
      (Definition.node (.choice g) cs).Asks r place x := by
    intro x hx
    obtain ⟨d, hd, halternative, hdasks⟩ := hxs.asks x hx
    exact ⟨rfl, .alternative hd halternative hdasks⟩
  rw [← List.append_nil xs] at hasks
  cases outcome with
  | absent =>
    refine .pure ⟨hasks, fun _ => ?_, fun _ _ hsome => (by cases hsome)⟩
    rw [List.append_nil]
    exact (hxs.absent rfl).2
  | active k w =>
    refine .pure ⟨hasks, fun hnone => (by cases hnone), fun winner found hsome hshown => ?_⟩
    cases hsome
    rw [List.append_nil]
    exact hxs.active k w found rfl rfl hshown
  | conflict error =>
    refine .pure ⟨hasks, fun hnone => (by cases hnone), fun winner found hsome hshown => ?_⟩
    cases hsome
    cases hshown

/-- What is told of the answers that a definition was given as an alternative. -/
theorem candidate_given (d : Definition) (path : NodePath) :
    Tells place (d.candidate b.recorded place path) (CandidateGiven r place d) := by
  induction d using Definition.induct generalizing path with
  | node head cs ih =>
    match head with
    | .element i => exact candidate_element_given i cs path
    | .choice g => exact candidate_group_given fun d hd => ih d hd _
    | .attribute _ | .reference _ | .extension _ =>
      refine .pure ⟨?_, fun _ => rfl, fun _ _ hsome => (nomatch hsome)⟩
      intro x hx
      cases hx

/-- **The winner of a group stands for all that was given** when the group was resolved. -/
theorem resolve_given (ds : List Definition) :
    Tells place (resolve b.recorded place label ds 0 none path) (OutcomeGiven r place ds none) :=
  resolve_given_of (fun d _ => candidate_given d path) 0 none

/-- What a group at a position comes to once it is resolved. Its winner was given by the binder, and stands
for all that was given. -/
inductive Resolved (place : Scope γ) (g : Choice) (cs : List Definition) (path : NodePath)
    (asked : List (Exchange γ)) : Outcome γ → Prop where
  | absent (nothing : givenIn asked = []) : Resolved place g cs path asked .absent
  | active {index : Nat} {winner : Winner γ}
      (given : Won place asked (.node (.choice g) cs) path (.group (.active index winner)))
      (all : ∀ found, winner.shown? = some found → givenIn asked = found) :
      Resolved place g cs path asked (.active index winner)
  | conflict : Resolved place g cs path asked (.conflict (conflictAt g.label (path.child g.label)))

/-- **A group is resolved by what is asked for its alternatives.** -/
theorem resolve_resolved (g : Choice) (cs : List Definition) :
    Tells place (resolve b.recorded place g.label cs 0 none (path.child g.label)) fun outcome asked =>
      (∀ x ∈ asked, (Definition.node (.choice g) cs).Asks r place x) ∧
        Resolved place g cs path asked outcome := by
  refine ((resolve_tells cs).and (resolve_given (r := r) cs)).imp fun outcome asked htold => ?_
  obtain ⟨⟨-, hactive, hconflict⟩, hgiven⟩ := htold
  refine ⟨fun x hx => ?_, ?_⟩
  · obtain ⟨c, hc, halternative, hcasks⟩ := hgiven.asks x hx
    exact .alternative hc halternative hcasks
  · cases outcome with
    | absent => exact .absent (hgiven.absent rfl).2
    | conflict error =>
      rw [hconflict error rfl]
      exact .conflict
    | active index winner =>
      obtain ⟨d, hget, hwon⟩ := hactive index winner rfl
      exact .active (.group hget hwon) fun found => hgiven.active index winner found rfl rfl

end Definition

/-! ## Recounting runs -/

/-- How a part of a run comes to an end. -/
def ending : Option RunError → Except RunError Unit
  | none => .ok ()
  | some err => .error err

namespace Task

/-- A recorded binder after some exchanges: in the state that they leave it in. -/
def reached (k : Task σ γ) (record : List (Exchange γ)) : σ × List (Exchange γ) :=
  (k.binder.replay k.state record, record)

/-- The state of a recorded binder is the one that the record leaves it in. -/
def Replayed (k : Task σ γ) (o : σ × List (Exchange γ)) : Prop := o = k.reached o.2

theorem noted_replayed {k : Task σ γ} {action : StateM σ α} {note : α → Exchange γ}
    (h : ∀ st, (note (action st).1).after k.binder st = (action st).2) :
    Keeps k.Replayed (noted action note) := by
  rintro o ho
  have hstate : o.1 = k.binder.replay k.state o.2 := congrArg Prod.fst ho
  refine Prod.ext ?_ rfl
  show (action o.1).2 = k.binder.replay k.state (o.2 ++ [note (action o.1).1])
  rw [Binder.replay_concat, ← hstate, h]

end Task

/-- From any session whose next node is `z`, when the binder has been asked what `before` says, a part of a
recorded run does what some events tell, and comes to an end in the same way. -/
def Run.Recounts (k : Task σ γ) (z : NodeId) (before : List (Exchange γ))
    (m : Run (σ × List (Exchange γ)) Unit) (P : List (Event γ) → Option RunError → Prop) : Prop :=
  ∀ s, s.output.size = z → s.state = k.reached before → ∃ xs fin, (m.exec s).1 = ending fin ∧
    (m.exec s).2.state = k.reached (before ++ Event.calls xs) ∧
    (m.exec s).2.output.bare = s.output.bare ++ Event.nodes xs ∧ P xs fin

namespace Run.Recounts

variable {k : Task σ γ} {z : NodeId} {before : List (Exchange γ)}
  {m m' : Run (σ × List (Exchange γ)) Unit} {P Q : List (Event γ) → Option RunError → Prop}
  {scope : Scope γ} {d : Definition}

theorem done (h : P [] none) :
    Recounts k z before (pure () : Run (σ × List (Exchange γ)) Unit) P := by
  intro s _ hstate
  refine ⟨[], none, rfl, ?_, (List.append_nil _).symm, h⟩
  rw [Event.calls_nil, List.append_nil]
  exact hstate

theorem stop_bind {err : RunError} {f : α → Run (σ × List (Exchange γ)) Unit}
    (h : P [] (some err)) : Recounts k z before (Run.stop err >>= f) P := by
  intro s _ hstate
  rw [exec_bind_of_error (exec_stop err s)]
  refine ⟨[], some err, rfl, ?_, (List.append_nil _).symm, h⟩
  rw [Event.calls_nil, List.append_nil]
  exact hstate

theorem stop {err : RunError} (h : P [] (some err)) :
    Recounts k z before (Run.stop err : Run (σ × List (Exchange γ)) Unit) P := by
  rw [← bind_pure (Run.stop err)]
  exact stop_bind h

theorem imp (h : Recounts k z before m P) (himp : ∀ xs fin, P xs fin → Q xs fin) :
    Recounts k z before m Q := by
  intro s hs hstate
  obtain ⟨xs, fin, hfin, hrecord, hnodes, hP⟩ := h s hs hstate
  exact ⟨xs, fin, hfin, hrecord, hnodes, himp xs fin hP⟩

/-- One part after the other. The second one starts after the events of the first. -/
theorem seq (h : Recounts k z before m P) (herr : ∀ xs err, P xs (some err) → Q xs (some err))
    (h' : ∀ xs, P xs none → Recounts k (z + (Event.nodes xs).length) (before ++ Event.calls xs) m'
      fun ys fin => Q (xs ++ ys) fin) :
    Recounts k z before (m >>= fun _ => m') Q := by
  intro s hs hstate
  obtain ⟨xs, fin, hfin, hrecord, hnodes, hP⟩ := h s hs hstate
  rw [exec_bind]
  rcases hm : m.exec s with ⟨r, t⟩
  rw [hm] at hfin hrecord hnodes
  cases fin with
  | some err =>
    obtain rfl : r = .error err := hfin
    exact ⟨xs, some err, rfl, hrecord, hnodes, herr xs err hP⟩
  | none =>
    obtain rfl : r = .ok () := hfin
    -- the second part finds as many nodes as the first one has emitted, and goes on from there
    have hsize : t.output.size = z + (Event.nodes xs).length := by
      rw [← OutputTree.length_bare, hnodes, List.length_append, OutputTree.length_bare, hs]
    obtain ⟨ys, fin', hfin', hrecord', hnodes', hQ⟩ := h' xs hP t hsize hrecord
    refine ⟨xs ++ ys, fin', hfin', ?_, ?_, hQ⟩
    · rw [hrecord', Event.calls_append, List.append_assoc]
    · rw [hnodes', hnodes, Event.nodes_append, List.append_assoc]

/-- What follows a question comes after the exchanges of the question. -/
theorem ask {place : Scope γ} {action : StateM (σ × List (Exchange γ)) α}
    {A : α → List (Exchange γ) → Prop} {f : α → Run (σ × List (Exchange γ)) Unit}
    (h : Tells place action A) (hkeeps : Keeps k.Replayed action)
    (hf : ∀ a asked, A a asked →
      Recounts k z (before ++ asked) (f a) fun ys fin => Q (asked.map .asked ++ ys) fin) :
    Recounts k z before (Run.ask action >>= f) Q := by
  intro s hs hstate
  obtain ⟨asked, hrecord, -, hA⟩ := h s.state
  have hreached : (action s.state).2 = k.reached (before ++ asked) := by
    have hreplayed := hkeeps s.state (by rw [hstate]; rfl)
    rw [Task.Replayed, hrecord, hstate] at hreplayed
    rw [hstate]
    exact hreplayed
  obtain ⟨ys, fin, hfin, hrecord', hnodes, hQ⟩ :=
    hf _ asked hA ⟨(action s.state).2, s.output⟩ hs hreached
  rw [exec_bind, exec_ask]
  refine ⟨asked.map .asked ++ ys, fin, hfin, ?_, ?_, hQ⟩
  · rw [hrecord', Event.calls_append, Event.calls_map_asked, List.append_assoc]
  · rw [hnodes, Event.nodes_append, Event.nodes_map_asked, List.nil_append]

theorem check {c : Cardinality} {count : Nat} {kind : DefinitionKind} {label : String}
    {path : NodePath} (herr : ∀ v, Q [] (some (.binding ⟨.count v kind, path, some label⟩)))
    (h : Recounts k z before m Q) :
    Recounts k z before (Run.check c count kind label path >>= fun _ => m) Q := by
  cases hcount : c.check count with
  | none =>
    rw [check_of_none hcount, pure_bind]
    exact h
  | some v =>
    rw [check_of_some hcount]
    exact stop_bind (herr v)

/-- What follows a new node comes after it. -/
theorem grafted {β : Type} {x : Run (σ × List (Exchange γ)) β}
    {f : β → Run (σ × List (Exchange γ)) Unit}
    (hx : ∀ s, s.output.size = z → s.state = k.reached before →
      ∃ t n a, x.exec s = (.ok a, { s with output := t }) ∧ OutputTree.Grafted s.output t n ∧
        Recounts k (z + 1) before (f a) fun ys fin => Q (.emitted n.bare :: ys) fin) :
    Recounts k z before (x >>= f) Q := by
  intro s hs hstate
  obtain ⟨t, n, a, hrun, hgrafted, hf⟩ := hx s hs hstate
  have hsize : t.size = z + 1 := by rw [hgrafted.size, hs]
  obtain ⟨ys, fin, hfin, hrecord, hnodes, hQ⟩ := hf ⟨s.state, t⟩ hsize hstate
  rw [exec_bind, hrun]
  refine ⟨.emitted n.bare :: ys, fin, hfin, hrecord, ?_, hQ⟩
  rw [hnodes, hgrafted.bare, Event.nodes_emitted, List.append_assoc]
  rfl

/-- What follows the node of a definition. -/
theorem emit {f : NodeId → Run (σ × List (Exchange γ)) Unit} {name : String}
    (hname : name = d.nodeName) (hp : scope.parent < z)
    (hf : ∀ node : OutputNode, node.EmittedFor d scope →
      Recounts k (z + 1) before (f z) fun ys fin => Q (.emitted node :: ys) fin) :
    Recounts k z before (Engine.emit scope d.kind.nodeKind name d >>= f) Q := by
  apply grafted
  rintro s rfl -
  obtain ⟨t, n, hemit, hbuds, hkind, hblank, horigin, hnamed, hattributes⟩ :=
    Engine.emit_buds scope d.kind.nodeKind name d hp
  exact ⟨t, n, _, hemit, hbuds.grafted,
    hf n.bare ⟨hkind, hbuds.parent, horigin, hnamed.trans hname, hattributes, fun _ => hblank⟩⟩

/-- What follows the node of an instance. -/
theorem emitFound {e : Engine (σ × List (Exchange γ)) γ} {found : γ}
    {f : NodeId × String → Run (σ × List (Exchange γ)) Unit} {name : String}
    (hkind : d.kind = .element ∨ d.kind = .attribute) (hname : name = d.nodeName)
    (hp : scope.parent < z)
    (hf : ∀ node : OutputNode, node.EmittedFor d scope →
      node.value = e.binder.value (k.reached before) found →
      Recounts k (z + 1) before (f (z, (e.binder.describe (k.reached before) found).getD d.label))
        fun ys fin => Q (.emitted node :: ys) fin) :
    Recounts k z before (e.emitFound d.kind.nodeKind name d scope found >>= f) Q := by
  apply grafted
  rintro s rfl hstate
  obtain ⟨t, n, hemit, hbuds, hnodeKind, hvalue, horigin, hnamed, hattributes⟩ :=
    e.emitFound_buds d.kind.nodeKind name d scope found hp
  refine ⟨t, n, _, hemit, hbuds.grafted, ?_⟩
  rw [hstate] at hvalue ⊢
  exact hf n.bare
    ⟨hnodeKind, hbuds.parent, horigin, hnamed.trans hname, hattributes, fun h => absurd hkind h⟩ hvalue

end Run.Recounts

/-! ## The walk -/

/-- The engine of a task without builders, with all exchanges noted. -/
abbrev Task.plain (k : Task σ γ) : Engine (σ × List (Exchange γ)) γ :=
  Engine.equipped k.registry k.limit [] k.binder.recorded

/-- Whatever was asked before, a part of a run does a job at a position. -/
def Task.Does (k : Task σ γ) (n : Nat) (job : Job γ) (scope : Scope γ) (path : NodePath) (z : NodeId)
    (m : Run (σ × List (Exchange γ)) Unit) : Prop :=
  ∀ before, Run.Recounts k z before m (k.Course n job scope path z before)

/-- What is known of a job when a run gets to it: instances are those of elements or attributes, and a winner
was given by the binder and is not in conflict. -/
def Job.Given (path : NodePath) : Job γ → Prop
  | .one _ | .all _ => True
  | .shown d _ => d.kind = .element ∨ d.kind = .attribute
  | .won d winner => (∃ place asked, Won place asked d path winner) ∧
      ∀ error, winner ≠ .group (.conflict error)

namespace Engine

variable {k : Task σ γ} {n : Nat} {d : Definition} {scope : Scope γ} {path : NodePath}
  {z : NodeId}

/-- Whatever was asked before, a job takes a course at every position where it may be done. -/
def OnCourse (k : Task σ γ) (n : Nat) (job : Job γ) : Prop :=
  ∀ (scope : Scope γ) path z, scope.parent < z → job.Given path →
    k.Does n job scope path z (k.plain.perform (k.plain.follow n) job scope path)

/-- The instances of an attribute, when their count is allowed. -/
theorem attribute_course {i : Item} {cs : List Definition}
    (h : ∀ found, OnCourse k n (.shown (.node (.attribute i) cs) found)) :
    OnCourse k n (.one (.node (.attribute i) cs)) := by
  intro scope path z hp _ before
  have hasked : Tells scope (k.binder.recorded.bindAttribute scope ⟨i, cs⟩)
      fun found xs => xs = [.attribute scope ⟨i, cs⟩ found] := .noted _ fun _ => rfl
  rw [perform_attribute]
  refine .ask hasked (Task.noted_replayed fun _ => rfl) fun found asked hanswer => ?_
  subst hanswer
  have hasks : (Definition.node (.attribute i) cs).AskedIn k.registry scope
      [.attribute scope ⟨i, cs⟩ found] := .single (.attributes found)
  refine .check (fun v => .fault hasks (.count (Or.inl rfl))) ?_
  exact (h _ scope path z hp (Or.inr rfl) _).imp fun xs fin => .attributes

/-- The instances of an element, when their count is allowed. -/
theorem element_course {i : Item} {cs : List Definition}
    (h : ∀ found, OnCourse k n (.shown (.node (.element i) cs) found)) :
    OnCourse k n (.one (.node (.element i) cs)) := by
  intro scope path z hp _ before
  have hasked : Tells scope (k.binder.recorded.bindElement scope ⟨i, cs⟩)
      fun found xs => xs = [.element scope ⟨i, cs⟩ found] := .noted _ fun _ => rfl
  rw [perform_element]
  refine .ask hasked (Task.noted_replayed fun _ => rfl) fun found asked hanswer => ?_
  subst hanswer
  have hasks : (Definition.node (.element i) cs).AskedIn k.registry scope
      [.element scope ⟨i, cs⟩ found] := .single (.elements found)
  refine .check (fun v => .fault hasks (.count (Or.inr (Or.inl rfl)))) ?_
  exact (h _ scope path z hp (Or.inl rfl) _).imp fun xs fin => .elements

/-- A group that is resolved takes the course of its winner. -/
theorem choice_course {g : Choice} {cs : List Definition}
    (h : ∀ index winner, OnCourse k n (.won (.node (.choice g) cs) (.group (.active index winner)))) :
    OnCourse k n (.one (.node (.choice g) cs)) := by
  intro scope path z hp _ before
  rw [perform_choice]
  -- while the group is resolved the state stays the one that the record leads to
  have hkeeps : Keeps k.Replayed (Definition.resolve k.binder.recorded scope g.label
      cs 0 none (path.child g.label)) :=
    Definition.resolve_keeps (fun _ => Task.noted_replayed fun _ => rfl) _ _ _
  refine .ask (Definition.resolve_resolved (r := k.registry) g cs) hkeeps fun outcome asked hanswer => ?_
  obtain ⟨hasks, hresolved⟩ := hanswer
  have hfault : ∀ {err}, k.FailsAt n (.node (.choice g) cs) path err →
      k.Course n (.one (.node (.choice g) cs)) scope path z before (asked.map .asked ++ [])
        (some err) := by
    intro err hfails
    rw [List.append_nil]
    exact .fault ⟨hasks, fun hne => absurd rfl hne⟩ hfails
  have hcount : ∀ v, k.FailsAt n (.node (.choice g) cs) path
      (.binding ⟨.count v .choice, path, some g.label⟩) := fun v => .count (Or.inr (Or.inr rfl))
  cases hresolved with
  | absent nothing =>
    rw [← bind_pure (Run.check _ _ _ _ _)]
    refine .check (fun v => hfault (hcount v)) (.done ?_)
    rw [List.append_nil]
    exact .absent hasks nothing
  | conflict => exact .stop (hfault .conflict)
  | @active index winner given all =>
    refine .check (fun v => hfault (hcount v)) ?_
    have hwon := h index winner scope path z hp ⟨⟨_, _, given⟩, fun _ h => nomatch h⟩ (before ++ asked)
    exact hwon.imp fun xs fin => .group hasks all

/-- A group with a winner that the binder gave. The winner is checked before the node of the group is
emitted, so that a conflict within it leaves no trace. -/
theorem group_course {g : Choice} {cs : List Definition} {index : Nat} {winner : Winner γ}
    (h : ∀ d, cs[index]? = some d → OnCourse k n (.won d winner)) :
    OnCourse k n (.won (.node (.choice g) cs) (.group (.active index winner))) := by
  rintro scope path z hp ⟨⟨place, asked, hgiven⟩, -⟩ before
  cases hgiven with
  | @group _ _ _ d _ _ hget hwon =>
    have hd : d ∈ cs := List.mem_of_getElem? hget
    have hnode : (∀ error, winner ≠ .group (.conflict error)) → Run.Recounts k z before
        (emit scope .choice (g.id.getD "choice") (.node (.choice g) cs) >>= fun node =>
          k.plain.perform (k.plain.follow n) (.won d winner) (scope.withParent node)
            (path.child g.label) >>= fun _ => pure ())
        (k.Course n (.won (.node (.choice g) cs) (.group (.active index winner))) scope path z
          before) := by
      intro hclear
      -- the winner is in order, and the node of the group is emitted
      refine .emit (d := .node (.choice g) cs) rfl hp fun node hemitted => ?_
      have hwinner := h d hget (scope.withParent z) (path.child g.label) (z + 1) (Nat.lt_succ_self z)
        ⟨⟨place, asked, hwon⟩, hclear⟩ before
      refine Run.Recounts.imp (.seq hwinner (fun _ _ h => h) fun xs hxs => ?_)
        fun xs fin hinside => .wonGroup hget hemitted hinside
      exact .done (by rwa [List.append_nil])
    rw [perform_group, hget]
    simp only [perform_extensions_bare]
    cases hwon with
    | element present answered =>
      refine .check (fun v => .wonFault (.winner hd (Or.inl rfl) ?_)) (hnode fun _ h => nomatch h)
      exact .count (Or.inr (Or.inl rfl))
    | group hget' hw =>
      refine .check (fun v => .wonFault (.winner hd (Or.inr rfl) ?_)) (hnode fun _ h => nomatch h)
      exact .count (Or.inr (Or.inr rfl))
    | conflict =>
      exact .stop_bind (.wonFault (.winner hd (Or.inr rfl) .conflict))

/-- A reference, when there is a level left. -/
theorem reference_course {r : Reference} {cs : List Definition}
    (deeper : ∀ m < n, ∀ ds, OnCourse k m (.all ds)) :
    OnCourse k n (.one (.node (.reference r) cs)) := by
  intro scope path z hp _ before
  have hnothing : (Definition.node (.reference r) cs).AskedIn k.registry scope [] :=
    ⟨fun x hx => (nomatch hx), fun _ => Nat.zero_le 1⟩
  -- nothing was asked yet where a reference fails
  have hfault : ∀ {err}, k.FailsAt n (.node (.reference r) cs) path err →
      k.Course n (.one (.node (.reference r) cs)) scope path z before [] (some err) :=
    fun hfails => .fault hnothing hfails
  cases hget : k.registry.get? r.target with
  | none =>
    rw [perform_missing (by exact hget)]
    exact .stop (hfault (.missing hget))
  | some target =>
    cases n with
    | zero =>
      rw [perform_exhausted (by exact hget)]
      exact .stop (hfault (.exceeded hget))
    | succ n =>
      rw [perform_entered (by exact hget)]
      simp only [perform_extensions_bare]
      refine .emit (d := .node (.reference r) cs) rfl hp fun node hemitted => ?_
      have hasked : Tells scope
          (k.binder.recorded.bindForm (some scope) target) fun answer xs =>
            xs = [.bound (some scope) target answer] := .noted _ fun _ => rfl
      refine .ask hasked (Task.noted_replayed fun _ => rfl) fun answer asked hanswer => ?_
      subst hanswer
      have hinside := deeper n (Nat.lt_succ_self n) target.children
        (.top target (answer.getD scope.context) z) (path.child r.label) (z + 1) (Nat.lt_succ_self z)
        trivial (before ++ [.bound (some scope) target answer])
      -- inside the target the record goes on from the question for it
      refine Run.Recounts.imp (.seq hinside (fun _ _ h => h) fun xs hxs => ?_)
        fun xs fin hxs => .reference hget hemitted hxs
      exact .done (by rwa [List.append_nil])

/-- **Every job takes a course**, at every level. The rules of courses have one premise for each
part of a job, and the parts are what the induction speaks of. -/
theorem perform_course (n : Nat) (job : Job γ) : OnCourse k n job := by
  induction n, job using Job.induct_levels with
  | nil n =>
    intro scope path z hp _ before
    rw [perform_nil]
    exact .done .nil
  | cons n d ds hd hds =>
    intro scope path z hp _ before
    rw [perform_cons]
    refine .seq (hd scope path z hp trivial before) (fun xs err hfirst => .halt hfirst)
      fun xs hfirst => ?_
    refine (hds scope path _ (Nat.lt_add_right _ hp) trivial _).imp fun ys fin hrest => ?_
    exact .cons hfirst hrest
  | attributes n i cs ih => exact attribute_course ih
  | elements n i cs ih => exact element_course ih
  | choice n g cs ih => exact choice_course ih
  | reference n r cs deeper _ => exact reference_course deeper
  | extension n x cs _ =>
    intro scope path z hp _ before
    rw [perform_extension_bare]
    exact .done .extension
  | shownNil n d =>
    intro scope path z hp _ before
    rw [perform_shown_nil]
    exact .done .shownNil
  | shownCons n d c rest hinside hothers =>
    intro scope path z hp hkind before
    rw [perform_shown_cons]
    refine .emitFound hkind rfl hp fun node hemitted hvalue => ?_
    have hsaid : node.value = k.binder.value (k.binder.replay k.state before) c := hvalue
    refine .seq (hinside (scope.descend c z) _ (z + 1) (Nat.lt_succ_self z) trivial before)
      (fun xs err hstop => .shownHalt hemitted hsaid hstop) fun xs hdone => ?_
    refine (hothers scope path _ (Nat.lt_add_right _ (Nat.lt_succ_of_lt hp)) hkind _).imp
      fun ys fin hothers => ?_
    exact .shownCons hemitted hsaid hdone hothers
  | wonElement n i cs found ih =>
    intro scope path z hp _ before
    rw [perform_won_element]
    exact (ih scope path z hp (Or.inl rfl) before).imp fun xs fin => .wonElement
  | wonGroup n g cs index winner hwinner _ => exact group_course hwinner
  | idle n d winner hidle =>
    -- a winner that the binder gave is emitted, unless it is in conflict
    rintro scope path z hp ⟨⟨place, asked, hwon⟩, hclear⟩ before
    cases hwon with
    | element present answered => cases hidle
    | group hget hw => cases hidle
    | conflict => exact absurd rfl (hclear _)

end Engine

/-! ## Whole runs -/

/-- What is asked before the first definition of a root form that is bound. -/
def Task.prelude (k : Task σ γ) (context : γ) : List (Exchange γ) :=
  [.started k.root, .bound none k.root (some context)]

/-- How a run of a registered form may go: its result, the tree it builds and what it asks. -/
inductive Task.Goes (k : Task σ γ) :
    Except RunError OutputTree → OutputTree → List (Exchange γ) → Prop where
  | absent {asked : List (Exchange γ)}
      (root : asked = if k.binder.hasSource then [.bound none k.root none] else []) :
      Goes k (.error (.binding ⟨.formAbsent, .single k.root.label, some k.root.label⟩))
        (Engine.start k.root) (.started k.root :: asked)
  | stopped {context : γ} {t : OutputTree} {xs : List (Event γ)} {err : RunError}
      (source : k.binder.hasSource = true)
      (course : k.Course k.limit (.all k.root.children) (.top k.root context OutputTree.root)
        (.single k.root.label) 1 (k.prelude context) xs (some err))
      (nodes : t.bare = (Engine.start k.root).bare ++ Event.nodes xs) :
      Goes k (.error err) t (k.prelude context ++ Event.calls xs)
  | finished {context : γ} {t : OutputTree} {xs : List (Event γ)}
      (source : k.binder.hasSource = true)
      (course : k.Course k.limit (.all k.root.children) (.top k.root context OutputTree.root)
        (.single k.root.label) 1 (k.prelude context) xs none)
      (nodes : t.bare = (Engine.start k.root).bare ++ Event.nodes xs) :
      Goes k (.ok t) t
        (k.prelude context ++ (Event.calls xs ++ [.finished k.root t]))

namespace Engine

/-- **Whole runs.** After the root form is bound a run takes a course, and then it is over. -/
theorem bind_course (k : Task σ γ) {key : FormKey} (hget : k.registry.get? key = some k.root) :
    k.Goes ((equipped k.registry k.limit [] k.binder).bind key k.state).1
      ((equipped k.registry k.limit [] k.binder).built key k.state)
      (exchanges k.registry k.limit [] k.binder key k.state) := by
  rw [exchanges, ← (bind_recorded k.registry k.limit [] key k.state []).1,
    ← built_recorded _ _ _ _ _ []]
  have hrecord := rootContext_record (e := k.plain) rfl k.root k.state
  rw [bind_eq (by exact hget), built, equipped_registry, hget]
  dsimp only
  rcases hroot : k.plain.rootContext k.root (k.state, []) with ⟨_ | context, st⟩
  · rw [hroot] at hrecord
    dsimp only at hrecord ⊢
    rw [hrecord]
    exact .absent rfl
  · rw [hroot] at hrecord
    dsimp only at hrecord ⊢
    have hsource : k.binder.hasSource = true := by
      cases hnone : k.binder.hasSource with
      | true => rfl
      | false =>
        have hcontext := congrArg Prod.fst hroot
        simp only [rootContext, equipped_binder, Binder.recorded, hnone] at hcontext
        cases hcontext
    rw [if_pos hsource] at hrecord
    have hstart : (start k.root).size = 1 := (start_node k.root).1
    have hcourse : k.Does k.limit (.all k.root.children) (.top k.root context OutputTree.root)
        (.single k.root.label) 1 (k.plain.body k.root context) :=
      perform_course k.limit (.all k.root.children) _ _ 1 Nat.one_pos trivial
    -- the state of the binder is the one that the record leads to
    have hreached : st = k.reached (k.prelude context) := by
      have hkeeps : Keeps k.Replayed (k.plain.rootContext k.root) :=
        rootContext_keeps (Task.noted_replayed fun _ => rfl) (Task.noted_replayed fun _ => rfl)
      have hreplayed := hkeeps (k.state, []) rfl
      rw [hroot, Task.Replayed, hrecord] at hreplayed
      exact hreplayed
    obtain ⟨xs, fin, hfin, hasked, hnodes, hxs⟩ :=
      hcourse (k.prelude context) ⟨st, start k.root⟩ hstart hreached
    rcases hbody : (k.plain.body k.root context).exec ⟨st, start k.root⟩ with ⟨result, t⟩
    rw [hbody] at hfin hasked hnodes
    dsimp only at hfin hasked hnodes ⊢
    cases fin with
    | some err =>
      obtain rfl : result = .error err := hfin
      dsimp only
      rw [hasked]
      exact .stopped hsource hxs hnodes
    | none =>
      obtain rfl : result = .ok () := hfin
      show k.Goes (.ok t.output) t.output (t.state.2 ++ [.finished k.root t.output])
      rw [hasked]
      show k.Goes (.ok t.output) t.output
        (k.prelude context ++ Event.calls xs ++ [.finished k.root t.output])
      rw [List.append_assoc]
      exact .finished hsource hxs hnodes

end Engine

end FormSchema
