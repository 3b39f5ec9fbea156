import FormSchema.Proofs.Binding.Course.Accounts

/-!
# Scopes in runs

The scope of a run carries a form, what the form was bound to, the innermost instance and a node. Every
question that a run without builders asks shows a scope that agrees with the surroundings of its node.

The proof is one induction over courses, with an invariant that has a part for each kind of job:
what must hold before the job starts, which is `Job.Ready`, and what it does and leaves behind,
which is `Task.Keeps`. Each rule that goes on to another job gets a lemma of its own, in which the
invariant of the smaller jobs is put together to that of the larger one. The accounts of the
preceding module do the counting.

* **`Starts.asking`**, **`Starts.showing`**, **`Starts.crossing`** — how jobs begin.
* `Task.Keeps` — what a job does wherever it is done, with one lemma for each rule that goes on.
* **`Task.Course.moves`** — every course does so.
* **`Engine.bind_scopes`** — every question of a run is asked in the right scope.
-/

namespace FormSchema

variable {σ γ : Type} {t : OutputTree} {pre xs ys : List (Event γ)} {q : NodeId}

/-! ## Courses -/

section Course

variable {k : Task σ γ} {context : γ} {record : List (Exchange γ)} {n : Nat} {job : Job γ}
  {scope : Scope γ} {path : NodePath} {z : NodeId} {before : List (Exchange γ)}
  {fin : Option RunError} {post : List (Event γ)}

/-- What must hold for a job to be done at a scope. Definitions are bound where they belong and
where everything is even; the instances to be shown are those that are pending. For a winner it is
asked only where it stands for instances at all. -/
def Job.Ready (r : Registry) (t : OutputTree) (pre : List (Event γ)) (scope : Scope γ) : Job γ → Prop
  | .one d => t.isGroup scope.parent = false ∧ d ∈ t.definitionsAt r scope.parent ∧
    Balanced t pre scope.parent []
  | .all ds => t.isGroup scope.parent = false ∧ ds ⊆ t.definitionsAt r scope.parent ∧
    Balanced t pre scope.parent []
  | .shown d found => (d.kind = .element ∨ d.kind = .attribute) ∧
    Balanced t pre (t.host scope.parent) found
  | .won _ winner => ∀ found, winner.shown? = some found → Balanced t pre (t.host scope.parent) found

/-- A scope stays good when more has happened elsewhere, as long as all of that is past. -/
theorem Starts.mono (h : Starts k t record pre scope) (hpast : Past t (pre ++ xs)) :
    Starts k t record (pre ++ xs) scope where
  known := Nat.lt_of_lt_of_le h.known Event.next_le_append
  past := hpast
  form := h.form
  surrounds := h.surrounds

/-- The host of a scope is there already. -/
theorem Starts.host_lt (h : Starts k t record pre scope) : t.host scope.parent < Event.next pre :=
  Nat.lt_of_le_of_lt (t.host_le _) h.known

/-- What works beneath a new node touches no older one. -/
theorem Moves.untouched_old (h : Moves k t record (pre ++ ys) xs (t.host z))
    (hhost : t.host z = Event.next pre) (hq : q < Event.next pre) : Untouched t (pre ++ ys) xs q :=
  h.untouched q (Nat.lt_of_lt_of_le hq Event.next_le_append)
    (Nat.ne_of_lt (Nat.lt_of_lt_of_eq hq hhost.symm))

section Jobs

variable {d : Definition} {node : OutputNode}

/-- Questions for a definition come first, and what was given is pending then. -/
theorem Starts.asking (hstarts : Starts k t record pre scope)
    (hready : (Job.one d).Ready k.registry t pre scope) {asked : List (Exchange γ)}
    (hasks : ∀ x ∈ asked, d.Asks k.registry scope x) (hkind : d.kind ≠ .reference) :
    Moves k t record pre (asked.map .asked) (t.host scope.parent) ∧
      Starts k t record (pre ++ asked.map .asked) scope ∧
      Balanced t (pre ++ asked.map .asked) (t.host scope.parent) (givenIn asked) := by
  obtain ⟨hgroup, hd, heven⟩ := hready
  have hmoves := hstarts.ask hgroup hd hasks
  have hat : ∀ x ∈ asked, x.isAt scope.parent = true := fun x hx =>
    Exchange.isAt_of_place? (hasks x hx).place?
  rw [OutputTree.host_of_not_group hgroup]
  exact ⟨hmoves, hstarts.mono hmoves.past, heven.ask hat (filterMap_binding?_asks hasks hkind)⟩

/-- The node of an instance comes first, and what is beneath it is ready to be bound. -/
theorem Starts.showing {found : γ} {rest : List γ} (hstarts : Starts k t record pre scope)
    (hready : (Job.shown d (found :: rest)).Ready k.registry t pre scope)
    (emitted : node.EmittedFor d scope)
    (hvalue : node.value =
      k.binder.value (k.binder.replay k.state (k.prelude context ++ Event.calls pre)) found)
    (hw : Written k context t record (pre ++ .emitted node :: post)) :
    Moves k t record pre [.emitted node] (t.host scope.parent) ∧
      Starts k t record (pre ++ [.emitted node]) (scope.descend found (Event.next pre)) ∧
      (Job.all d.children).Ready k.registry t (pre ++ [.emitted node])
        (scope.descend found (Event.next pre)) ∧
      Balanced t (pre ++ [.emitted node]) (t.host scope.parent) rest ∧
      t.host (Event.next pre) = Event.next pre := by
  obtain ⟨hkind, heven⟩ := hready
  obtain ⟨n, he⟩ := hw.newNode emitted hstarts.known
  have hgroup : t.isGroup (Event.next pre) = false := by
    rw [he.isGroup]
    rcases hkind with hkind | hkind <;> rw [hkind] <;> rfl
  -- the next instance that is pending is the one that the node shows
  have hportrays := he.portrays hkind hw hstarts.past heven hvalue
  have hmoves : Moves k t record pre [.emitted node] (t.host scope.parent) :=
    ⟨fun x hx => (nomatch hx), he.records hstarts.form fun _ => ⟨found, hportrays⟩,
      he.past hstarts.past, fun q _ => he.untouched_instance hkind⟩
  refine ⟨hmoves, hstarts.within he hkind hportrays.producedBy, ⟨hgroup, ?_, ?_⟩,
    heven.shown he hkind, he.host_instance hkind⟩
  · show d.children ⊆ t.definitionsAt k.registry (Event.next pre)
    rw [he.definitionsAt_instance hkind]
    exact List.Subset.refl _
  · exact he.even hstarts.past

/-- The node of a reference comes first, then its target is bound, and what is beneath is ready to be
bound. -/
theorem Starts.crossing {ref : Reference} {cs : List Definition} {target : Form} {answer : Option γ}
    (hstarts : Starts k t record pre scope)
    (hready : (Job.one (.node (.reference ref) cs)).Ready k.registry t pre scope)
    (emitted : node.EmittedFor (.node (.reference ref) cs) scope)
    (known : k.registry.get? ref.target = some target)
    (hw : Written k context t record (pre ++ .emitted node ::
      .asked (.bound (some scope) target answer) :: post)) :
    let events := [.emitted node, .asked (.bound (some scope) target answer)]
    let inner := Scope.top target (answer.getD scope.context) (Event.next pre)
    Moves k t record pre events (t.host scope.parent) ∧
      Starts k t record (pre ++ events) inner ∧
      (Job.all target.children).Ready k.registry t (pre ++ events) inner ∧
      Balanced t (pre ++ events) (t.host scope.parent) [] ∧
      t.host (Event.next pre) = Event.next pre := by
  intro events inner
  obtain ⟨hgroup, hd, heven⟩ := hready
  obtain ⟨n, he⟩ := hw.newNode emitted hstarts.known
  rw [OutputTree.host_of_not_group hgroup]
  -- first the node, and then the question, which is asked at the parent and not at the new node
  have hnode : Moves k t record pre [.emitted node] scope.parent :=
    ⟨fun x hx => (nomatch hx),
      he.records hstarts.form fun h => (by rcases h with h | h <;> cases h),
      he.past hstarts.past, fun q _ => he.untouched_reference⟩
  have hasks : ∀ x ∈ [Exchange.bound (some scope) target answer],
      (Definition.node (.reference ref) cs).Asks k.registry scope x :=
    (Definition.AskedIn.single (.reference known answer)).asks
  have hmoves : Moves k t record pre events scope.parent :=
    hnode.append ((hstarts.mono hnode.past).ask hgroup hd hasks) (Or.inl rfl)
  have hentered := he.enteredBy hw heven
  refine ⟨hmoves, .entered he known hentered hmoves.past, ⟨?_, ?_, ?_⟩, heven.crossed he _,
    he.host_reference⟩
  · show t.isGroup (Event.next pre) = false
    rw [he.isGroup]
    rfl
  · show target.children ⊆ t.definitionsAt k.registry (Event.next pre)
    rw [he.definitionsAt_reference known]
    exact List.Subset.refl _
  · -- the target was bound at the parent, which says nothing about the new node
    have hevents : pre ++ events = pre ++ [.emitted node] ++
      [.asked (.bound (some scope) target answer)] := by
      rw [List.append_assoc]
      rfl
    have hsilent : Untouched t (pre ++ [.emitted node])
        [.asked (.bound (some scope) target answer)] (Event.next pre) :=
      ((hstarts.mono hnode.past).ask hgroup hd hasks).untouched _
        (by rw [Event.next_concat_emitted]; exact Nat.lt_succ_self _) (Nat.ne_of_gt he.below)
    rw [hevents]
    exact (he.even hstarts.past).untouched hsilent

end Jobs

/-! ## The rules -/

namespace Task

/-- What the events of a job do wherever in a run they happen: a job that is ready is done in the
right scopes, and everything is even again when it is done. The events before and after are
arbitrary, so that the same statement serves wherever the job comes up. Only a job that ends well
has to leave everything even. -/
def Keeps (k : Task σ γ) (context : γ) (t : OutputTree) (record : List (Exchange γ)) (job : Job γ)
    (scope : Scope γ) (z : NodeId) (before : List (Exchange γ)) (xs : List (Event γ))
    (fin : Option RunError) : Prop :=
  ∀ pre post, Written k context t record (pre ++ (xs ++ post)) → k.Reaches context pre z before →
    Starts k t record pre scope → job.Ready k.registry t pre scope →
    Moves k t record pre xs (t.host scope.parent) ∧
    (fin = none → Balanced t (pre ++ xs) (t.host scope.parent) [])

variable {d : Definition} {node : OutputNode}

/-- One definition is done, and then the rest of them at the same node. -/
theorem Keeps.cons {ds : List Definition}
    (first : k.Keeps context t record (.one d) scope z before xs none)
    (rest : k.Keeps context t record (.all ds) scope (z + (Event.nodes xs).length)
      (before ++ Event.calls xs) ys fin) :
    k.Keeps context t record (.all (d :: ds)) scope z before (xs ++ ys) fin := by
  rintro pre post hw ⟨rfl, rfl⟩ hstarts ⟨hgroup, hds, heven⟩
  rw [List.append_assoc] at hw
  obtain ⟨hmoves, hdone⟩ := first pre (ys ++ post) hw ⟨rfl, rfl⟩ hstarts
    ⟨hgroup, hds List.mem_cons_self, heven⟩
  rw [← List.append_assoc] at hw
  have hhost := OutputTree.host_of_not_group hgroup
  obtain ⟨hmoves', hdone'⟩ := rest (pre ++ xs) post hw .append
    (hstarts.mono hmoves.past)
    ⟨hgroup, fun c hc => hds (List.mem_cons_of_mem d hc), by rw [← hhost]; exact hdone rfl⟩
  rw [← List.append_assoc]
  exact ⟨hmoves.append hmoves' (Or.inl rfl), hdone'⟩

/-- After the questions for a definition comes a job that what was given makes ready. -/
theorem Keeps.asked {asked : List (Exchange γ)}
    (rest : k.Keeps context t record job scope z (before ++ asked) xs fin)
    (hasks : ∀ x ∈ asked, d.Asks k.registry scope x) (hkind : d.kind ≠ .reference)
    (hready : ∀ pre, Balanced t pre (t.host scope.parent) (givenIn asked) →
      job.Ready k.registry t pre scope) :
    k.Keeps context t record (.one d) scope z before (asked.map .asked ++ xs) fin := by
  rintro pre post hw ⟨rfl, rfl⟩ hstarts hone
  obtain ⟨hmoves, hnow, heven⟩ := hstarts.asking hone hasks hkind
  rw [List.append_assoc, ← List.append_assoc] at hw
  rw [← List.append_assoc]
  obtain ⟨hmoves', hdone⟩ := rest _ post hw (.questions asked) hnow (hready _ heven)
  exact ⟨hmoves.append hmoves' (Or.inl rfl), hdone⟩

/-- The form of a reference is bound, and then the children of its target beneath the new node.
What happens there does not touch the node above. -/
theorem Keeps.reference {ref : Reference} {cs : List Definition} {target : Form} {answer : Option γ}
    (known : k.registry.get? ref.target = some target)
    (emitted : node.EmittedFor (.node (.reference ref) cs) scope)
    (inside : k.Keeps context t record (.all target.children)
      (.top target (answer.getD scope.context) z) (z + 1)
      (before ++ [.bound (some scope) target answer]) xs fin) :
    k.Keeps context t record (.one (.node (.reference ref) cs)) scope z before
      (.emitted node :: .asked (.bound (some scope) target answer) :: xs)
      fin := by
  rintro pre post hw ⟨rfl, rfl⟩ hstarts hready
  rw [List.cons_append, List.cons_append] at hw
  obtain ⟨hmoves, hinner, hjob, heven, hhost⟩ := hstarts.crossing hready emitted known hw
  have hevents : ∀ later : List (Event γ), pre ++ .emitted node ::
      .asked (.bound (some scope) target answer) :: later =
      pre ++ [.emitted node, .asked (.bound (some scope) target answer)] ++
        later := by simp
  rw [hevents] at hw ⊢
  obtain ⟨hmoves', -⟩ := inside _ post hw (.crossed _) hinner hjob
  have hnew : t.host (Event.next pre) = t.host scope.parent ∨
      Event.next pre ≤ t.host (Event.next pre) := Or.inr (Nat.le_of_eq hhost.symm)
  exact ⟨hmoves.append hmoves' hnew,
    fun _ => heven.untouched (hmoves'.untouched_old hhost hstarts.host_lt)⟩

/-- One instance is shown with all that is beneath it, and then the others. -/
theorem Keeps.shown {found : γ} {rest : List γ} (emitted : node.EmittedFor d scope)
    (value : node.value = k.binder.value (k.binder.replay k.state before) found)
    (inside : k.Keeps context t record (.all d.children) (scope.descend found z) (z + 1) before xs
      none)
    (others : k.Keeps context t record (.shown d rest) scope (z + 1 + (Event.nodes xs).length)
      (before ++ Event.calls xs) ys fin) :
    k.Keeps context t record (.shown d (found :: rest)) scope z before (.emitted node :: xs ++ ys)
      fin := by
  rintro pre post hw ⟨rfl, rfl⟩ hstarts hready
  rw [List.cons_append, List.cons_append, List.append_assoc] at hw
  obtain ⟨hmoves, hinner, hjob, heven, hhost⟩ := hstarts.showing hready emitted value hw
  rw [List.append_cons] at hw
  obtain ⟨hinside, -⟩ := inside _ (ys ++ post) hw .emitted hinner hjob
  -- what is beneath the new node leaves the host of the instances even
  have hbeneath := heven.untouched (hinside.untouched_old hhost hstarts.host_lt)
  have hnode := hmoves.append hinside (Or.inr (Nat.le_of_eq hhost.symm))
  rw [← List.append_assoc] at hw
  obtain ⟨hothers, hdone⟩ := others _ post hw .beneath
    ((hstarts.mono hmoves.past).mono hinside.past) ⟨hready.1, hbeneath⟩
  rw [List.append_assoc] at hothers
  rw [List.cons_append, List.append_cons, ← List.append_assoc]
  exact ⟨hnode.append hothers (Or.inl rfl), hdone⟩

/-- The node of a group is emitted, and its winner is shown beneath it. The instances of the winner
count for the host of the group, which is the same node as before. -/
theorem Keeps.group {g : Choice} {cs : List Definition} {index : Nat} {winner : Winner γ}
    (emitted : node.EmittedFor (.node (.choice g) cs) scope)
    (inside : k.Keeps context t record (.won d winner) (scope.withParent z) (z + 1) before xs fin) :
    k.Keeps context t record (.won (.node (.choice g) cs) (.group (.active index winner))) scope z
      before (.emitted node :: xs) fin := by
  rintro pre post hw ⟨rfl, rfl⟩ hstarts hready
  obtain ⟨n, he⟩ := Written.newNode hw emitted hstarts.known
  have hhost := he.host_group rfl
  have hmoves : Moves k t record pre [.emitted node] (t.host scope.parent) :=
    ⟨fun x hx => (nomatch hx),
      he.records hstarts.form fun h => (by rcases h with h | h <;> cases h),
      he.past hstarts.past, fun q _ _ => he.untouched_group rfl q⟩
  -- what is done beneath the group counts for its host, which `hhost` says is the old one
  rw [List.cons_append, List.append_cons] at hw
  rw [List.append_cons]
  obtain ⟨hinside, hdone⟩ := inside _ post hw .emitted (hstarts.grouped he rfl)
    fun found hfound => (by
      show Balanced t _ (t.host (Event.next pre)) found
      rw [hhost]
      exact (hready found hfound).untouched (he.untouched_group rfl _))
  have hinside' : Moves k t record (pre ++ [.emitted node]) xs (t.host scope.parent) :=
    hhost ▸ hinside
  exact ⟨hmoves.append hinside' (Or.inl rfl), fun hfin => hhost ▸ hdone hfin⟩

/-- **The rules of courses.** A job that is ready is done in the right scopes, and everything is even
again when it is done. -/
theorem Course.moves (hc : k.Course n job scope path z before xs fin) :
    k.Keeps context t record job scope z before xs fin := by
  induction hc with
  | nil =>
    rintro pre post - - hstarts ⟨hgroup, -, heven⟩
    rw [List.append_nil, OutputTree.host_of_not_group hgroup]
    exact ⟨.nil hstarts.past, fun _ => heven⟩
  | cons _ _ ihfirst ihrest => exact ihfirst.cons ihrest
  -- a course that breaks off leaves nothing to be even at its end
  | halt _ ih =>
    rintro pre post hw hz hstarts ⟨hgroup, hds, heven⟩
    obtain ⟨hmoves, -⟩ := ih pre post hw hz hstarts ⟨hgroup, hds List.mem_cons_self, heven⟩
    exact ⟨hmoves, fun hnone => nomatch hnone⟩
  | attributes _ ih =>
    exact ih.asked (Definition.AskedIn.single (.attributes _)).asks nofun
      fun _ heven => ⟨Or.inr rfl, by rwa [givenIn_singleton] at heven⟩
  | elements _ ih =>
    exact ih.asked (Definition.AskedIn.single (.elements _)).asks nofun
      fun _ heven => ⟨Or.inl rfl, by rwa [givenIn_singleton] at heven⟩
  | absent asks nothing =>
    rintro pre post - - hstarts hready
    obtain ⟨hmoves, -, heven⟩ := hstarts.asking hready asks nofun
    rw [nothing] at heven
    exact ⟨hmoves, fun _ => heven⟩
  | group asks given _ ih =>
    exact ih.asked asks nofun fun _ heven found hfound => given found hfound ▸ heven
  | reference known emitted _ ih => exact ih.reference known emitted
  | extension =>
    rintro pre post - - hstarts ⟨hgroup, -, heven⟩
    rw [List.append_nil, OutputTree.host_of_not_group hgroup]
    exact ⟨.nil hstarts.past, fun _ => heven⟩
  | fault asks _ =>
    rintro pre post - - hstarts ⟨hgroup, hd, -⟩
    rw [OutputTree.host_of_not_group hgroup]
    exact ⟨hstarts.ask hgroup hd asks.asks, fun hnone => nomatch hnone⟩
  | shownNil =>
    rintro pre post - - hstarts ⟨-, heven⟩
    rw [List.append_nil]
    exact ⟨.nil hstarts.past, fun _ => heven⟩
  | shownCons emitted value _ _ ihinside ihothers => exact .shown emitted value ihinside ihothers
  | shownHalt emitted value _ ih =>
    rintro pre post hw ⟨rfl, rfl⟩ hstarts hready
    obtain ⟨hmoves, hinner, hjob, -, hhost⟩ := hstarts.showing hready emitted value hw
    rw [List.cons_append, List.append_cons] at hw
    obtain ⟨hinside, -⟩ := ih _ post hw .emitted hinner hjob
    exact ⟨hmoves.append hinside (Or.inr (Nat.le_of_eq hhost.symm)), fun hnone => nomatch hnone⟩
  -- the questions for a winner were asked by its group
  | wonElement _ ih =>
    intro pre post hw hz hstarts hready
    exact ih pre post hw hz hstarts ⟨Or.inl rfl, hready _ rfl⟩
  | wonGroup _ emitted _ ih => exact ih.group emitted
  | wonFault _ =>
    rintro pre post - - hstarts -
    exact ⟨.nil hstarts.past, fun hnone => nomatch hnone⟩

end Task

end Course

/-! ## Whole runs -/

namespace Task

variable {k : Task σ γ} {record : List (Exchange γ)} {context : γ} {fin : Option RunError}

/-- Before the first definition the scope is that of the root form. The root is neither a group nor
a reference nor an instance, and nothing has been asked or emitted yet. -/
theorem starts_top (hw : Written k context t record xs) :
    Starts k t record [] (.top k.root context OutputTree.root) ∧
      (Job.all k.root.children).Ready k.registry t [] (.top k.root context OutputTree.root) := by
  -- the line up from the root is the root alone, so what is found on it is found there
  obtain ⟨n, hn, hkind, hparent, -⟩ := hw.node?_root
  have horphan : t.parent? OutputTree.root = none := by
    rw [OutputTree.parent?, hn, Option.bind_some, hparent]
  have hup : t.upward OutputTree.root = [OutputTree.root] := by
    rw [OutputTree.upward, OutputTree.line_of_orphan horphan]
    rfl
  have hreference : t.isReference OutputTree.root = false := by
    rw [OutputTree.isReference_of_kind hn, hkind]
    rfl
  have hinstance : t.isInstance OutputTree.root = false := by
    rw [OutputTree.isInstance_of_kind hn, hkind]
    rfl
  have hgroup : t.isGroup OutputTree.root = false := by
    rw [OutputTree.isGroup_of_kind hn, hkind]
    rfl
  have hpast : Past t ([] : List (Event γ)) := by
    refine ⟨fun x hx => (by cases hx), fun id hid p hp => ?_⟩
    obtain rfl : id = OutputTree.root := Nat.lt_one_iff.mp hid
    rw [horphan] at hp
    cases hp
  refine ⟨⟨Nat.one_pos, hpast, hw.formAt?_root _, ⟨?_, ?_⟩⟩, hgroup, ?_, ?_⟩
  · show FormAt _ _ _ _ (t.entrance? OutputTree.root) _ _
    rw [OutputTree.entrance?, hup, List.find?_singleton, hreference]
    exact .root hw.bound
  · show InstanceAt _ _ _ _ (t.instance? OutputTree.root) _
    rw [OutputTree.instance?, hup, List.takeWhile_cons_of_pos (by rw [hreference]; rfl),
      List.takeWhile_nil, List.find?_singleton, hinstance]
    exact .top
  · show k.root.children ⊆ t.definitionsAt k.registry OutputTree.root
    rw [hw.definitionsAt_root]
    exact List.Subset.refl _
  · exact .latest hpast (fun x hx => (by cases hx)) rfl

/-- A body keeps to the right scopes, and its nodes record what they were emitted for. -/
theorem Course.moves_top (hc : k.Course k.limit (.all k.root.children)
      (.top k.root context OutputTree.root) (.single k.root.label) 1 (k.prelude context) xs fin)
    (hw : Written k context t record xs) :
    Moves k t record [] xs (t.host OutputTree.root) := by
  obtain ⟨hstarts, hready⟩ := starts_top hw
  refine (hc.moves [] [] ?_ ⟨rfl, (List.append_nil _).symm⟩ hstarts hready).1
  rwa [List.nil_append, List.append_nil]

/-- What comes after the course of a body is asked outside forms. -/
theorem written_around (after : List (Exchange γ))
    (hnodes : t.bare = (Engine.start k.root).bare ++ Event.nodes xs)
    (hafter : ∀ x ∈ after, x.place? = none) :
    Written k context t (k.prelude context ++ (Event.calls xs ++ after)) xs where
  nodes := hnodes
  calls := by
    rw [← List.append_assoc]
    exact List.prefix_append _ _
  asked q := by
    rw [askedAt_append, askedAt_append, askedAt_nowhere (k.prelude_nowhere context),
      askedAt_nowhere hafter, List.nil_append, List.append_nil]

/-- Whatever is asked besides, outside of forms, the questions of a body are in the right scopes. -/
theorem Course.fits_around (after : List (Exchange γ)) (hc : k.Course k.limit (.all k.root.children)
      (.top k.root context OutputTree.root) (.single k.root.label) 1 (k.prelude context) xs fin)
    (hnodes : t.bare = (Engine.start k.root).bare ++ Event.nodes xs)
    (hafter : ∀ x ∈ after, x.place? = none) :
    ∀ x ∈ k.prelude context ++ (Event.calls xs ++ after),
      x.Fits k t (k.prelude context ++ (Event.calls xs ++ after)) := by
  intro x hx place hplace
  rcases List.mem_append.mp hx with hfirst | hrest
  · rw [k.prelude_nowhere context x hfirst] at hplace
    cases hplace
  · rcases List.mem_append.mp hrest with hcall | hlast
    · exact (hc.moves_top (written_around after hnodes hafter)).fits x hcall place hplace
    · rw [hafter x hlast] at hplace
      cases hplace

/-- However a run goes, every question is asked in the right scope. -/
theorem Goes.fits {result : Except RunError OutputTree} (h : k.Goes result t record) :
    ∀ x ∈ record, x.Fits k t record := by
  cases h with
  | @absent asked root =>
    intro x hx place hplace
    -- without anything to bind, the binder is told of the form and asked for nothing within it
    have hnowhere : ∀ x ∈ .started k.root :: asked, x.place? = none := by
      rw [root]
      refine List.forall_mem_cons.mpr ⟨rfl, fun x hx => ?_⟩
      split at hx
      · rw [List.mem_singleton.mp hx]
        rfl
      · cases hx
    rw [hnowhere x hx] at hplace
    cases hplace
  | stopped source course nodes =>
    have hall := course.fits_around [] nodes nofun
    rwa [List.append_nil] at hall
  | finished source course nodes =>
    refine course.fits_around _ nodes fun x hx => ?_
    rw [List.mem_singleton.mp hx]
    rfl

/-- The tree that is returned is the one that was built. -/
theorem Goes.eq_built {tree : OutputTree} (h : k.Goes (.ok tree) t record) : t = tree := by
  cases h
  rfl

end Task

namespace Engine

/-- **Every question is asked in the right scope.** In a run without builders, each question for an
element, an attribute or a referenced form is asked at a place that agrees with the surroundings of its
node: the form that was entered at the nearest reference, what that form was bound to, and the innermost
instance. The node is never that of a group, and the question is asked for a definition that is bound at
the node; for the alternatives of a group, at any nesting, that is the outermost group. -/
theorem bind_scopes (r : Registry) (limit : Nat) (b : Binder σ γ) (key : FormKey) (s : σ) :
    (∀ tree, ((equipped r limit [] b).bind key s).1 = .ok tree →
      (equipped r limit [] b).built key s = tree) ∧
    ∀ x ∈ exchanges r limit [] b key s, ∀ place, x.place? = some place →
      ∃ form, r.get? key = some form ∧
        Surrounds r b form ((equipped r limit [] b).built key s) (exchanges r limit [] b key s) place ∧
        ((equipped r limit [] b).built key s).isGroup place.parent = false ∧
        ∃ d ∈ ((equipped r limit [] b).built key s).definitionsAt r place.parent, d.Asks r place x := by
  cases hget : r.get? key with
  | none =>
    have hnothing : exchanges r limit [] b key s = [] := by
      rw [exchanges, bind_missing (by exact hget)]
    rw [bind_missing (by exact hget), hnothing]
    exact ⟨fun tree htree => (by cases htree), fun x hx => (by cases hx)⟩
  | some form =>
    have hgoes := bind_course ⟨r, limit, b, s, form⟩ hget
    refine ⟨fun tree htree => ?_, fun x hx place hplace => ⟨form, rfl, hgoes.fits x hx place hplace⟩⟩
    rw [htree] at hgoes
    exact hgoes.eq_built

end Engine

namespace Sample

/-- Parcels with boxes, each of which refers to an address. The binder has no address of its own. -/
def parcel : Form := ⟨⟨⟨"", "parcel"⟩, "samples", .empty⟩,
  [.node (.element (item "box" .optionalMultiple)) [shipTo]]⟩

def parcels : Registry := ⟨[address, parcel]⟩

def boxes : Binder Unit String :=
  (Script.mk "script" true [(":address", none)] [("box", .list ["small", "large"]),
    ("city", .list ["Paris"])] [] none []).binder fun _ s => s

end Sample

namespace Engine

/-- The city of the second box is asked for in the address form, which is bound to that box. -/
theorem bind_scopes_parcels :
    ∃ x ∈ exchanges Sample.parcels 1 [] Sample.boxes ⟨"", "parcel"⟩ (),
      x.place? = some ⟨Sample.address, "large", "large", 5⟩ ∧
      Surrounds Sample.parcels Sample.boxes Sample.parcel
        ((equipped Sample.parcels 1 [] Sample.boxes).built ⟨"", "parcel"⟩ ())
        (exchanges Sample.parcels 1 [] Sample.boxes ⟨"", "parcel"⟩ ())
        ⟨Sample.address, "large", "large", 5⟩ := by
  have hplaces : (exchanges Sample.parcels 1 [] Sample.boxes ⟨"", "parcel"⟩ ()).filterMap
      Exchange.place? = [⟨Sample.parcel, "parcel", "parcel", 0⟩,
        ⟨Sample.parcel, "parcel", "small", 1⟩,
        ⟨Sample.address, "small", "small", 2⟩,
        ⟨Sample.parcel, "parcel", "large", 4⟩,
        ⟨Sample.address, "large", "large", 5⟩] := by cbv
  have hlast : (⟨Sample.address, "large", "large", 5⟩ : Scope String) ∈
      (exchanges Sample.parcels 1 [] Sample.boxes ⟨"", "parcel"⟩ ()).filterMap Exchange.place? := by
    rw [hplaces]
    exact List.mem_of_getElem? (i := 4) rfl
  obtain ⟨x, hx, hplace⟩ := List.mem_filterMap.mp hlast
  obtain ⟨form, hform, hsurrounds, -⟩ :=
    (bind_scopes Sample.parcels 1 Sample.boxes ⟨"", "parcel"⟩ ()).2 x hx _ hplace
  have hget : Sample.parcels.get? ⟨"", "parcel"⟩ = some Sample.parcel := rfl
  rw [hget] at hform
  cases hform
  exact ⟨x, hx, hplace, hsurrounds⟩

end Engine

end FormSchema
