import FormSchema.Proofs.Binding.Course.Scopes

/-!
# Where runs break off

A run without builders that fails stops at one definition, and so does everything above it: on the way
from the root down to that definition, nothing has been asked at any node for the definitions that come
later there, and nothing has been emitted after the node that the way goes on beneath. What lies
elsewhere comes earlier, depth first.

* `Task.Descends` — how the way goes on from a definition to one of its nodes.
* `Task.BreaksOff` — the way down to the definition that fails.
* `Task.Reveals` — what a job tells wherever it is done, with one lemma for each rule that goes on.
* **`Task.Course.discloses`** — a course that ends with an error breaks off in this way.
-/

namespace FormSchema

variable {σ γ : Type}

/-! ## The way down -/

/-- What is directly beneath a node: the nodes of instances that it hosts, and the references attached
to it. -/
def OutputTree.beneath (t : OutputTree) (q : NodeId) : List NodeId :=
  (List.range t.size).filter fun id => t.isHosted q id || t.isCrossing q id

/-- What was asked at a node is split in the order of its definitions, from the first one on. -/
def AskedFor (r : Registry) (place : Scope γ) (ds : List Definition) (asked : List (Exchange γ)) :
    Prop :=
  ∃ blocks, List.Forall₂ (Definition.AskedIn r place) ds blocks ∧ blocks.flatten = asked

namespace Task

section

variable (k : Task σ γ) (t : OutputTree) (record : List (Exchange γ)) (err : RunError)

/-- From a definition at a path the way goes on beneath the node `id`: that of one of its instances, or
the node of a reference, which takes a level. From a group it goes on from one of its alternatives. -/
inductive Descends : Nat → Definition → NodePath → Nat → NodePath → NodeId → Prop where
  | shown {n : Nat} {d : Definition} {path : NodePath} {form : Form} {id : NodeId} {node : OutputNode}
      {st : σ} {found : γ} (kind : d.kind = .element ∨ d.kind = .attribute)
      (emitted : t.Emitted d.kind.nodeKind form d id) (produced : t.ProducedBy k.binder record id found)
      (here : t.node? id = some node) (value : node.value = k.binder.value st found) :
      Descends n d path n (path.child ((k.binder.describe st found).getD d.label)) id
  | entered {n : Nat} {ref : Reference} {cs : List Definition} {path : NodePath} {form : Form}
      {id : NodeId} (emitted : t.Emitted .reference form (.node (.reference ref) cs) id) :
      Descends (n + 1) (.node (.reference ref) cs) path n (path.child ref.label) id
  | alternative {n n' : Nat} {g : Choice} {cs : List Definition} {d : Definition}
      {path path' : NodePath} {id : NodeId} (child : d ∈ cs) (alternative : d.isAlternative = true)
      (descends : Descends n d (path.child g.label) n' path' id) :
      Descends n (.node (.choice g) cs) path n' path' id

/-- A run breaks off beneath a node, with `n` levels left there. Among the definitions that are
bound at the node one fails, or the way goes on from one of them beneath the last node that was
emitted. Nothing was asked at the node for the definitions after it. Since everything before it was
completed, the way down is always that of the last thing that happened. -/
inductive BreaksOff : Nat → NodePath → NodeId → Prop where
  | here {n : Nat} {path : NodePath} {id : NodeId} {place : Scope γ} {w : Nat} {d : Definition}
      (definition : (t.definitionsAt k.registry id)[w]? = some d)
      (asked : AskedFor k.registry place ((t.definitionsAt k.registry id).take (w + 1))
        (askedAt record id))
      (fails : k.FailsAt n d path err) : BreaksOff n path id
  | further {n n' : Nat} {path path' : NodePath} {id id' : NodeId} {place : Scope γ} {w : Nat}
      {d : Definition} (definition : (t.definitionsAt k.registry id)[w]? = some d)
      (asked : AskedFor k.registry place ((t.definitionsAt k.registry id).take (w + 1))
        (askedAt record id))
      (descends : k.Descends t record n d path n' path' id')
      (last : (t.beneath id).getLast? = some id') (inside : BreaksOff n' path' id') :
      BreaksOff n path id

/-- A run breaks off at a definition that is bound at the node `h`, or on the way on from it. -/
def BreaksAt (n : Nat) (d : Definition) (path : NodePath) (h : NodeId) : Prop :=
  k.FailsAt n d path err ∨ ∃ n' path' id, k.Descends t record n d path n' path' id ∧
    (t.beneath h).getLast? = some id ∧ k.BreaksOff t record err n' path' id

/-- What is told of a job that is done beneath the node `h`. When it fails, `final` says that
nothing happens afterwards. For instances and winners nothing is asked at `h` itself, since the
questions for them came before. -/
def Discloses (n : Nat) (path : NodePath) (place : Scope γ) (h : NodeId) (xs : List (Event γ))
    (fin : Option RunError) (final : Prop) : Job γ → Prop
  | .one d => d.AskedIn k.registry place (askedAt (Event.calls xs) h) ∧
    ∀ err, fin = some err → final → k.BreaksAt t record err n d path h
  | .all ds => ∃ m, AskedFor k.registry place (ds.take m) (askedAt (Event.calls xs) h) ∧
    ∀ err, fin = some err → final → ∃ w d, m = w + 1 ∧ ds[w]? = some d ∧
      k.BreaksAt t record err n d path h
  | .shown d _ | .won d _ => askedAt (Event.calls xs) h = [] ∧
    ∀ err, fin = some err → final → k.BreaksAt t record err n d path h

end

end Task

/-! ## Courses that fail -/

section Course

variable {k : Task σ γ} {context : γ} {t : OutputTree} {record : List (Exchange γ)}
  {pre xs post : List (Event γ)} {node : OutputNode} {h : NodeId}

theorem AskedFor.nil {r : Registry} {place : Scope γ} : AskedFor r place [] [] := ⟨[], .nil, rfl⟩

/-- The questions for the first definition come before those for the others. -/
theorem AskedFor.cons {r : Registry} {place : Scope γ} {d : Definition} {ds : List Definition}
    {asked asked' : List (Exchange γ)} (hd : d.AskedIn r place asked)
    (hds : AskedFor r place ds asked') : AskedFor r place (d :: ds) (asked ++ asked') := by
  obtain ⟨blocks, hblocks, rfl⟩ := hds
  exact ⟨asked :: blocks, .cons hd hblocks, rfl⟩

/-- Where nothing more is asked at the node, what was asked there is what was asked for the definition. -/
theorem Definition.AskedIn.of_calls {r : Registry} {d : Definition} {scope : Scope γ}
    {asked : List (Exchange γ)} (hasked : d.AskedIn r scope asked)
    (hgroup : t.isGroup scope.parent = false)
    (hsilent : askedAt (Event.calls xs) (t.host scope.parent) = []) :
    d.AskedIn r scope (askedAt (Event.calls (asked.map .asked ++ xs)) (t.host scope.parent)) := by
  have hat : ∀ x ∈ asked, x.isAt scope.parent = true := fun x hx =>
    Exchange.isAt_of_place? (hasked.asks x hx).place?
  rw [Event.calls_append, askedAt_append, hsilent, List.append_nil, Event.calls_map_asked,
    OutputTree.host_of_not_group hgroup, askedAt_all hat]
  exact hasked

/-- All that is asked at a new node is asked beneath it. -/
theorem Written.askedAt_new {ys : List (Event γ)}
    (hw : Written k context t record (pre ++ ys ++ (xs ++ []))) (hpast : Past t pre)
    (hys : askedAt (Event.calls ys) (Event.next pre) = []) :
    askedAt record (Event.next pre) = askedAt (Event.calls xs) (Event.next pre) := by
  rw [hw.asked, List.append_nil, Event.calls_append, Event.calls_append, askedAt_append,
    askedAt_append, askedAt_calls_eq_nil hpast.asked, hys, List.nil_append, List.nil_append]

/-- A node beneath which everything else happens is the last one. The counting is that of the
accounts: no later node is hosted by `h` or attached to it as a reference. -/
theorem Written.last_beneath {ys : List (Event γ)}
    (hw : Written k context t record (pre ++ ys ++ (xs ++ [])))
    (hys : Event.next pre + 1 = Event.next (pre ++ ys)) (hlater : Untouched t (pre ++ ys) xs h)
    (hat : (t.isHosted h (Event.next pre) || t.isCrossing h (Event.next pre)) = true) :
    (t.beneath h).getLast? = some (Event.next pre) := by
  rw [List.append_nil] at hw
  have hnone : ∀ id, Event.next pre + 1 ≤ id → id < t.size →
      (t.isHosted h id || t.isCrossing h id) = false := by
    intro id hlo hhi
    rw [hys] at hlo
    rw [hw.size] at hhi
    rw [hlater.hosted id hlo hhi, hlater.crossing id hlo hhi]
    rfl
  have hle : Event.next pre + 1 ≤ t.size := by
    rw [hys, hw.size]
    exact Event.next_le_append
  rw [OutputTree.beneath, range_filter_eq hle hnone, List.range_succ, List.filter_append,
    List.filter_singleton, hat, cond_true, List.getLast?_concat]

namespace Task

variable {n : Nat} {d : Definition} {path : NodePath} {place : Scope γ} {err : RunError} {job : Job γ}
  {scope : Scope γ} {z : NodeId} {before : List (Exchange γ)} {fin : Option RunError}

/-- Definitions that break off are bound at their node. -/
theorem breaksOff_of_discloses {ds : List Definition}
    (hds : t.definitionsAt k.registry h = ds)
    (hasked : askedAt record h = askedAt (Event.calls xs) h) {final : Prop} (hfinal : final)
    (hinside : k.Discloses t record n path place h xs (some err) final (.all ds)) :
    k.BreaksOff t record err n path h := by
  obtain ⟨m, hturns, herr⟩ := hinside
  obtain ⟨w, d, rfl, hget, hbreaks⟩ := herr err rfl hfinal
  rw [← hds] at hturns hget
  rw [← hasked] at hturns
  rcases hbreaks with hfails | ⟨n', path', id, hdescends, hlast, hinside⟩
  · exact .here hget hturns hfails
  · exact .further hget hturns hdescends hlast hinside

/-- Winners are alternatives. -/
theorem Course.isAlternative {winner : Winner γ}
    (hc : k.Course n (.won d winner) scope path z before xs fin) : d.isAlternative = true := by
  cases hc <;> rfl

/-- What the events of a job tell wherever in a run they happen. It is shown along with
`Task.Keeps`, from which it takes what happens beneath the nodes that are left behind. -/
def Reveals (k : Task σ γ) (context : γ) (t : OutputTree) (record : List (Exchange γ)) (n : Nat)
    (job : Job γ) (scope : Scope γ) (path : NodePath) (z : NodeId) (before : List (Exchange γ))
    (xs : List (Event γ)) (fin : Option RunError) : Prop :=
  ∀ pre post, Written k context t record (pre ++ (xs ++ post)) → k.Reaches context pre z before →
    Starts k t record pre scope → job.Ready k.registry t pre scope →
    k.Discloses t record n path scope (t.host scope.parent) xs fin (post = []) job

section Rules

variable {ys : List (Event γ)}

/-- A definition that was done is passed over, and the way goes on from one of the others. -/
theorem Reveals.cons {ds : List Definition}
    (hfirst : k.Reveals context t record n (.one d) scope path z before xs none)
    (hmoves : k.Keeps context t record (.one d) scope z before xs none)
    (hrest : k.Reveals context t record n (.all ds) scope path (z + (Event.nodes xs).length)
      (before ++ Event.calls xs) ys fin) :
    k.Reveals context t record n (.all (d :: ds)) scope path z before (xs ++ ys) fin := by
  rintro pre post hw ⟨rfl, rfl⟩ hstarts ⟨hgroup, hds, heven⟩
  have hhost := OutputTree.host_of_not_group hgroup
  have hready : (Job.one d).Ready k.registry t pre scope := ⟨hgroup, hds List.mem_cons_self, heven⟩
  rw [List.append_assoc] at hw
  obtain ⟨hasked, -⟩ := hfirst pre (ys ++ post) hw ⟨rfl, rfl⟩ hstarts hready
  obtain ⟨hmoves, hdone⟩ := hmoves pre (ys ++ post) hw ⟨rfl, rfl⟩ hstarts hready
  rw [← List.append_assoc] at hw
  obtain ⟨m, hturns, herr⟩ := hrest (pre ++ xs) post hw .append
    (hstarts.mono hmoves.past)
    ⟨hgroup, fun c hc => hds (List.mem_cons_of_mem d hc), hhost ▸ hdone rfl⟩
  -- one definition more has had its turn, and the failing one is counted from further on
  refine ⟨m + 1, ?_, fun err hfin hfinal => ?_⟩
  · rw [Event.calls_append, askedAt_append, List.take_succ_cons]
    exact .cons hasked hturns
  · obtain ⟨w, c, rfl, hget, hbreaks⟩ := herr err hfin hfinal
    exact ⟨w + 1, c, rfl, hget, hbreaks⟩

/-- The first definition fails, and none of the others has been asked for. -/
theorem Reveals.halt {ds : List Definition}
    (hfirst : k.Reveals context t record n (.one d) scope path z before xs (some err)) :
    k.Reveals context t record n (.all (d :: ds)) scope path z before xs (some err) := by
  rintro pre post hw hz hstarts ⟨hgroup, hds, heven⟩
  obtain ⟨hasked, herr⟩ := hfirst pre post hw hz hstarts ⟨hgroup, hds List.mem_cons_self, heven⟩
  refine ⟨1, ?_, fun err' hfin hfinal => ⟨0, d, rfl, rfl, herr err' hfin hfinal⟩⟩
  rw [List.take_succ_cons, List.take_zero, ← List.append_nil (askedAt _ _)]
  exact .cons hasked .nil

/-- After the questions for a definition comes a job that tells of the same definition. -/
theorem Reveals.asked {asked : List (Exchange γ)}
    (hrest : k.Reveals context t record n job scope path z (before ++ asked) xs fin)
    (hasked : d.AskedIn k.registry scope asked) (hkind : d.kind ≠ .reference)
    (hready : ∀ pre, Balanced t pre (t.host scope.parent) (givenIn asked) →
      job.Ready k.registry t pre scope)
    (hsame : ∀ final, k.Discloses t record n path scope (t.host scope.parent) xs fin final job →
      askedAt (Event.calls xs) (t.host scope.parent) = [] ∧ ∀ err, fin = some err → final →
        k.BreaksAt t record err n d path (t.host scope.parent)) :
    k.Reveals context t record n (.one d) scope path z before (asked.map .asked ++ xs) fin := by
  rintro pre post hw ⟨rfl, rfl⟩ hstarts hone
  obtain ⟨-, hnow, heven⟩ := hstarts.asking hone hasked.asks hkind
  rw [List.append_assoc, ← List.append_assoc] at hw
  obtain ⟨hsilent, herr⟩ :=
    hsame _ (hrest _ post hw (.questions asked) hnow (hready _ heven))
  exact ⟨hasked.of_calls hone.1 hsilent, herr⟩

/-- From a reference the way goes on beneath its node, which is the last one. -/
theorem Reveals.reference {ref : Reference} {cs : List Definition} {target : Form} {node : OutputNode}
    {answer : Option γ} (known : k.registry.get? ref.target = some target)
    (emitted : node.EmittedFor (.node (.reference ref) cs) scope)
    (hinside : k.Reveals context t record n (.all target.children)
      (.top target (answer.getD scope.context) z) (path.child ref.label) (z + 1)
      (before ++ [.bound (some scope) target answer]) xs fin)
    (hmoves : k.Keeps context t record (.all target.children)
      (.top target (answer.getD scope.context) z) (z + 1)
      (before ++ [.bound (some scope) target answer]) xs fin) :
    k.Reveals context t record (n + 1) (.one (.node (.reference ref) cs)) scope path z before
      (.emitted node :: .asked (.bound (some scope) target answer) :: xs)
      fin := by
  rintro pre post hw ⟨rfl, rfl⟩ hstarts hready
  rw [List.cons_append, List.cons_append] at hw
  obtain ⟨-, hinner, hjob, -, hhost⟩ := hstarts.crossing hready emitted known hw
  obtain ⟨m, he⟩ := hw.newNode emitted hstarts.known
  have hevents : ∀ later : List (Event γ), pre ++ .emitted node ::
      .asked (.bound (some scope) target answer) :: later =
      pre ++ [.emitted node, .asked (.bound (some scope) target answer)] ++
        later := by simp
  rw [hevents] at hw
  have hnext : Event.next pre + 1 = Event.next (pre ++
      [.emitted node, .asked (.bound (some scope) target answer)]) := by
    rw [Event.next_append]
    rfl
  have hbeneath := hinside _ post hw (.crossed _) hinner hjob
  -- beneath the reference nothing is asked at the node above, so the binding of the form is all
  -- there is
  have hold := (hmoves _ post hw (.crossed _) hinner hjob).1.untouched_old hhost hstarts.host_lt
  refine ⟨(Definition.AskedIn.single (.reference known answer)).of_calls hready.1 hold.asked,
    fun err hfin hfinal => Or.inr ⟨n, _, Event.next pre, .entered he.emitted, ?_, ?_⟩⟩
  · subst hfinal
    refine hw.last_beneath hnext hold ?_
    rw [OutputTree.host_of_not_group hready.1, he.isCrossing_reference, Bool.or_true]
  · subst hfin hfinal
    have hat : ∀ x ∈ [Exchange.bound (some scope) target answer],
        x.isAt scope.parent = true := by
      intro x hx
      rw [List.mem_singleton.mp hx]
      exact isAt_bound scope _ answer
    have hnew := hw.askedAt_new hstarts.past (askedAt_other hat (Nat.ne_of_gt he.below))
    exact breaksOff_of_discloses (he.definitionsAt_reference known) hnew rfl (hhost ▸ hbeneath)

theorem Reveals.shown {found : γ} {rest : List γ} {node : OutputNode}
    (emitted : node.EmittedFor d scope)
    (value : node.value = k.binder.value (k.binder.replay k.state before) found)
    (hinside : k.Keeps context t record (.all d.children) (scope.descend found z) (z + 1) before xs
      none)
    (hothers : k.Reveals context t record n (.shown d rest) scope path
      (z + 1 + (Event.nodes xs).length) (before ++ Event.calls xs) ys fin) :
    k.Reveals context t record n (.shown d (found :: rest)) scope path z before
      (.emitted node :: xs ++ ys) fin := by
  rintro pre post hw ⟨rfl, rfl⟩ hstarts hready
  rw [List.cons_append, List.cons_append, List.append_assoc] at hw
  obtain ⟨hmoves, hinner, hjob, heven, hhost⟩ := hstarts.showing hready emitted value hw
  rw [List.append_cons] at hw
  obtain ⟨hbeneath, -⟩ := hinside _ (ys ++ post) hw .emitted hinner hjob
  have hold := hbeneath.untouched_old hhost hstarts.host_lt
  rw [← List.append_assoc] at hw
  obtain ⟨hsilent, herr⟩ := hothers _ post hw .beneath
    ((hstarts.mono hmoves.past).mono hbeneath.past) ⟨hready.1, heven.untouched hold⟩
  refine ⟨?_, herr⟩
  rw [Event.calls_append, Event.calls_emitted, askedAt_append, hold.asked, hsilent]
  rfl

theorem Reveals.shownHalt {found : γ} {rest : List γ} {node : OutputNode}
    (emitted : node.EmittedFor d scope)
    (value : node.value = k.binder.value (k.binder.replay k.state before) found)
    (hinside : k.Reveals context t record n (.all d.children) (scope.descend found z)
      (path.child ((k.binder.describe (k.binder.replay k.state before) found).getD d.label)) (z + 1)
      before xs (some err))
    (hmoves : k.Keeps context t record (.all d.children) (scope.descend found z) (z + 1) before xs
      (some err)) :
    k.Reveals context t record n (.shown d (found :: rest)) scope path z before (.emitted node :: xs)
      (some err) := by
  rintro pre post hw ⟨rfl, rfl⟩ hstarts hready
  rw [List.cons_append] at hw
  obtain ⟨-, hinner, hjob, -, hhost⟩ := hstarts.showing hready emitted value hw
  obtain ⟨hkind, heven⟩ := hready
  obtain ⟨m, he⟩ := hw.newNode emitted hstarts.known
  have hproduced := (he.portrays hkind hw hstarts.past heven value).producedBy
  have hvalue := (congrArg OutputNode.value he.bare).trans value
  rw [List.append_cons] at hw
  have hbeneath := hinside _ post hw .emitted hinner hjob
  -- what is beneath the new node neither asks nor counts at the nodes above
  have hold := (hmoves _ post hw .emitted hinner hjob).1.untouched_old hhost hstarts.host_lt
  refine ⟨hold.asked, fun err' hfin hfinal => Or.inr ⟨n, _, Event.next pre,
    .shown hkind he.emitted hproduced he.here hvalue, ?_, ?_⟩⟩
  · subst hfinal
    refine hw.last_beneath Event.next_concat_emitted.symm hold ?_
    rw [he.isHosted_instance hkind, Bool.true_or]
  · subst hfinal
    cases hfin
    exact breaksOff_of_discloses (he.definitionsAt_instance hkind) (hw.askedAt_new hstarts.past rfl)
      rfl (hhost ▸ hbeneath)

theorem Reveals.group {g : Choice} {cs : List Definition} {index : Nat} {winner : Winner γ}
    {node : OutputNode} (hd : d ∈ cs) (hkind : d.isAlternative = true)
    (emitted : node.EmittedFor (.node (.choice g) cs) scope)
    (hinside : k.Reveals context t record n (.won d winner) (scope.withParent z) (path.child g.label)
      (z + 1) before xs fin) :
    k.Reveals context t record n (.won (.node (.choice g) cs) (.group (.active index winner))) scope
      path z before (.emitted node :: xs) fin := by
  rintro pre post hw ⟨rfl, rfl⟩ hstarts hready
  rw [List.cons_append] at hw
  obtain ⟨m, he⟩ := hw.newNode emitted hstarts.known
  have hhost := he.host_group rfl
  rw [List.append_cons] at hw
  obtain ⟨hsilent, herr⟩ := hinside _ post hw .emitted (hstarts.grouped he rfl)
    fun found hfound => (by
      show Balanced t _ (t.host (Event.next pre)) found
      rw [hhost]
      exact (hready found hfound).untouched (he.untouched_group rfl _))
  rw [Scope.withParent_parent, hhost] at hsilent herr
  -- whatever the winner tells is told of the group
  refine ⟨hsilent, fun err hfin hfinal => ?_⟩
  rcases herr err hfin hfinal with hfails | ⟨n', path', id, hdescends, hlast, hbreaks⟩
  · exact Or.inl (.winner hd (of_decide_eq_true hkind) hfails)
  · exact Or.inr ⟨n', path', id, .alternative hd hkind hdescends, hlast, hbreaks⟩

end Rules

/-- **A course that fails breaks off.** Its last definition fails by itself, or the course goes on
beneath the last node that was emitted for it, and so on down. -/
theorem Course.discloses (hc : k.Course n job scope path z before xs fin) :
    k.Reveals context t record n job scope path z before xs fin := by
  induction hc with
  | nil =>
    rintro pre post - - - -
    -- no definition was asked for, and nothing failed
    exact ⟨0, .nil, fun err hfin => nomatch hfin⟩
  | cons first _ ihfirst ihrest => exact ihfirst.cons first.moves ihrest
  | halt _ ih => exact ih.halt
  | attributes _ ih =>
    exact ih.asked (.single (.attributes _)) nofun
      (fun _ heven => ⟨Or.inr rfl, by rwa [givenIn_singleton] at heven⟩) fun _ h => h
  | elements _ ih =>
    exact ih.asked (.single (.elements _)) nofun
      (fun _ heven => ⟨Or.inl rfl, by rwa [givenIn_singleton] at heven⟩) fun _ h => h
  | absent asks _ =>
    rintro pre post - - - hready
    rw [← List.append_nil (List.map Event.asked _)]
    exact ⟨Definition.AskedIn.of_calls ⟨asks, fun hne => absurd rfl hne⟩ hready.1 rfl,
      fun err hfin => nomatch hfin⟩
  | group asks given _ ih =>
    exact ih.asked ⟨asks, fun hne => absurd rfl hne⟩ nofun
      (fun _ heven found hfound => given found hfound ▸ heven) fun _ h => h
  | reference known emitted inside ih => exact ih.reference known emitted inside.moves
  | extension =>
    rintro pre post - - - -
    exact ⟨⟨fun x hx => (nomatch hx), fun _ => Nat.zero_le 1⟩, fun err hfin => nomatch hfin⟩
  | fault asks fails =>
    rintro pre post - - - hready
    rw [← List.append_nil (List.map Event.asked _)]
    refine ⟨asks.of_calls hready.1 rfl, fun err' hfin _ => ?_⟩
    cases hfin
    exact Or.inl fails
  | shownNil =>
    rintro pre post - - - -
    exact ⟨rfl, fun err hfin => nomatch hfin⟩
  | shownCons emitted value inside _ _ ihothers => exact .shown emitted value inside.moves ihothers
  | shownHalt emitted value inside ih => exact ih.shownHalt emitted value inside.moves
  | wonElement _ ih =>
    intro pre post hw hz hstarts hready
    exact ih pre post hw hz hstarts ⟨Or.inl rfl, hready _ rfl⟩
  | wonGroup alternative emitted inside ih =>
    exact ih.group (List.mem_of_getElem? alternative) inside.isAlternative emitted
  | wonFault fails =>
    rintro pre post - - - -
    refine ⟨rfl, fun err' hfin _ => ?_⟩
    cases hfin
    -- this is where the way down ends
    exact Or.inl fails

end Task

/-- A body that fails breaks off beneath the root. -/
theorem Task.Course.breaksOff {err : RunError}
    (hc : k.Course k.limit (.all k.root.children) (.top k.root context OutputTree.root)
      (.single k.root.label) 1 (k.prelude context) xs (some err))
    (hw : Written k context t record xs) :
    k.BreaksOff t record err k.limit (.single k.root.label) OutputTree.root := by
  obtain ⟨hstarts, hready⟩ := Task.starts_top hw
  have hhost : t.host OutputTree.root = OutputTree.root := OutputTree.host_of_not_group hready.1
  have hjournal : Written k context t record ([] ++ (xs ++ [])) := by
    rwa [List.nil_append, List.append_nil]
  have hall := hc.discloses [] [] hjournal ⟨rfl, (List.append_nil _).symm⟩ hstarts hready
  exact Task.breaksOff_of_discloses (hw.definitionsAt_root _) (hw.asked _) rfl (hhost ▸ hall)

end Course

end FormSchema
