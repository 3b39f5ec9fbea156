import FormSchema.Proofs.Binding.Course.BreakingOff
import FormSchema.Proofs.Definition.Insertions

/-!
# Calls of a binder

In what order a run without builders calls its binder, and how often. The run is announced first, then
the root form is bound, and after everything else the binder is told of the tree. In between, every
occurrence of a reference has its form bound, and every instance of an element has its attributes asked
for.

The counting is done once, for any kind of question. What is counted is compared with what is due,
which is a number for every node and a number for every definition that is still to be bound. Where
a node is emitted, what was due to its definition becomes due to the node. Bindings of forms and
questions for attributes are two instances of this, with different numbers.

* **`Task.Course.tally`** — what is counted among the questions of a course is due to its nodes.
* **`Engine.bind_calls`** — the calls of a whole run.
-/

namespace FormSchema

variable {σ γ : Type}

/-! ## Tallies -/

/-- The number of attributes that are asked for beneath a node: those of its definition at the node
of an element, and none elsewhere. At the node of an attribute nothing is due, because nothing but
extension points may stand beneath it. -/
def OutputNode.attributesDue (n : OutputNode) : Nat :=
  match n.kind, n.origin.map Origin.producer with
  | .element, some (.definition d) => d.children.countP fun c => c.kind = .attribute
  | _, _ => 0

namespace Exchange

/-- Whether a form is bound in an exchange, be it the root form or one that is referred to. -/
def isBinding : Exchange γ → Bool
  | .bound _ _ _ => true
  | .started _ | .element _ _ _ | .attribute _ _ _ | .finished _ _ => false

/-- Whether an attribute is asked for in an exchange. -/
def isAttribute : Exchange γ → Bool
  | .attribute _ _ _ => true
  | .started _ | .element _ _ _ | .bound _ _ _ | .finished _ _ => false

end Exchange

/-- Questions that are counted, and how many of them are due to definitions and to nodes. Whatever
is due to the definitions that are bound at a node is due to the node. The property `A` is one that
definitions pass on to their children, for counts that are right in admitted forms only. -/
structure Tally (r : Registry) (A : Definition → Prop) (counts : Exchange γ → Bool)
    (due : Definition → Nat) (weight : OutputNode → Nat) : Prop where
  child : ∀ {d}, A d → ∀ c ∈ d.children, A c
  target : ∀ {key target}, r.get? key = some target → ∀ c ∈ target.children, A c
  elements : ∀ place item found, counts (.element place item found) = false
  attributes : ∀ i cs place found,
    due (.node (.attribute i) cs) = if counts (.attribute place ⟨i, cs⟩ found) then 1 else 0
  others : ∀ d, d.kind = .element ∨ d.kind = .choice ∨ d.kind = .extension → due d = 0
  instances : ∀ {d node} {scope : Scope γ}, A d → d.kind = .element ∨ d.kind = .attribute →
    node.EmittedFor d scope → weight node = (d.children.map due).sum
  groups : ∀ {g cs node} {scope : Scope γ}, node.EmittedFor (.node (.choice g) cs) scope →
    weight node = 0
  references : ∀ {ref cs node target} {scope : Scope γ}, r.get? ref.target = some target →
    node.EmittedFor (.node (.reference ref) cs) scope → ∀ place answer,
    weight node + due (.node (.reference ref) cs) =
      (if counts (.bound (some place) target answer) then 1 else 0) +
        (target.children.map due).sum

namespace Job

/-- What is due to a job, besides what is due to its nodes. -/
def due (due : Definition → Nat) : Job γ → Nat
  | .one d => due d
  | .all ds => (ds.map due).sum
  | .shown _ _ | .won _ _ => 0

section Due

variable (due : Definition → Nat) (d : Definition)

@[simp] theorem due_one : (Job.one d : Job γ).due due = due d := rfl

@[simp] theorem due_all (ds : List Definition) : (Job.all ds : Job γ).due due = (ds.map due).sum := rfl

@[simp] theorem due_shown (found : List γ) : (Job.shown d found).due due = 0 := rfl

@[simp] theorem due_won (winner : Winner γ) : (Job.won d winner).due due = 0 := rfl

end Due

end Job

/-- For the alternatives of a group only elements are asked for. -/
theorem Definition.Asks.exists_element {r : Registry} {place : Scope γ} {d : Definition}
    {x : Exchange γ} (h : d.Asks r place x) (hd : d.kind = .element ∨ d.kind = .choice) :
    ∃ item found, x = .element place item found := by
  induction h with
  | attributes found => rcases hd with hd | hd <;> cases hd
  | elements found => exact ⟨_, found, rfl⟩
  | reference known answer => rcases hd with hd | hd <;> cases hd
  | alternative child alternative asks ih => exact ih (of_decide_eq_true alternative)

section Tally

variable {k : Task σ γ} {A : Definition → Prop} {counts : Exchange γ → Bool} {due : Definition → Nat}
  {weight : OutputNode → Nat}

/-- Nothing is counted among the questions for a group. -/
theorem Tally.group {r : Registry} (ht : Tally r A counts due weight) {g : Choice}
    {cs : List Definition} {place : Scope γ} {asked : List (Exchange γ)}
    (hasks : ∀ x ∈ asked, (Definition.node (.choice g) cs).Asks r place x) :
    asked.countP counts = 0 := by
  apply List.countP_eq_zero.mpr
  intro x hx
  obtain ⟨item, found, rfl⟩ := (hasks x hx).exists_element (Or.inr rfl)
  rw [ht.elements]
  exact Bool.false_ne_true

/-- **Tallies of courses.** When a job is done, what is counted among its questions is what is due to the
job and to the nodes that were emitted for it. -/
theorem Task.Course.tally (ht : Tally k.registry A counts due weight) {n : Nat} {job : Job γ}
    {scope : Scope γ} {path : NodePath} {z : NodeId} {before : List (Exchange γ)}
    {xs : List (Event γ)} {fin : Option RunError}
    (hc : k.Course n job scope path z before xs fin) : fin = none → job.Within A →
      (Event.calls xs).countP counts = job.due due + ((Event.nodes xs).map weight).sum := by
  induction hc with
  | nil => exact fun _ _ => rfl
  | @cons n d ds scope path z before xs ys fin first rest ihfirst ihrest =>
    intro hfin hA
    rw [Event.calls_append, List.countP_append, ihfirst rfl (hA d List.mem_cons_self),
      ihrest hfin fun c hc => hA c (List.mem_cons_of_mem d hc), Event.nodes_append, List.map_append,
      List.sum_append, Job.due_all, Job.due_one, Job.due_all, List.map_cons, List.sum_cons]
    exact Nat.add_add_add_comm _ _ _ _
  | @attributes n i cs scope path z before found xs fin instances ih =>
    intro hfin hA
    rw [Event.calls_asked, List.countP_cons, ih hfin ⟨hA, Or.inr rfl⟩, Event.nodes_asked,
      Job.due_one, Job.due_shown, ht.attributes i cs scope found, Nat.zero_add, Nat.add_comm]
  | @elements n i cs scope path z before found xs fin instances ih =>
    intro hfin hA
    rw [Event.calls_asked, List.countP_cons, ht.elements, ih hfin ⟨hA, Or.inl rfl⟩, Event.nodes_asked,
      Job.due_one, Job.due_shown, ht.others _ (Or.inl rfl)]
    rfl
  | @absent n g cs scope path z before asked asks nothing =>
    intro _ _
    rw [Event.calls_map_asked, Event.nodes_map_asked, ht.group asks, Job.due_one,
      ht.others _ (Or.inr (Or.inl rfl))]
    rfl
  | @group n g cs scope path z before asked index winner xs fin asks given emission ih =>
    intro hfin hA
    rw [Event.calls_append, List.countP_append, Event.calls_map_asked, ht.group asks, ih hfin hA,
      Event.nodes_append, Event.nodes_map_asked, Job.due_one, Job.due_won,
      ht.others _ (Or.inr (Or.inl rfl)), Nat.zero_add, List.nil_append]
  | @reference n ref cs target scope path z before node answer xs fin known emitted inside ih =>
    intro hfin hA
    have hdue := ht.references known emitted scope answer
    rw [Event.calls_emitted, Event.calls_asked, List.countP_cons, ih hfin (ht.target known),
      Event.nodes_emitted, Event.nodes_asked, List.map_cons, List.sum_cons, Job.due_one, Job.due_all]
    omega
  | extension =>
    intro _ _
    rw [Job.due_one, ht.others _ (Or.inr (Or.inr rfl))]
    rfl
  | halt first | fault asks fails => exact fun hfin => nomatch hfin
  | shownNil => exact fun _ _ => rfl
  | @shownCons n d found rest scope path z before node xs ys fin emitted value inside others ihinside
      ihothers =>
    rintro hfin ⟨hA, hkind⟩
    -- what was due to the children of the definition is due to the node from now on
    have hdue := ht.instances hA hkind emitted
    have hchildren : ∀ c ∈ d.children, A c := ht.child hA
    rw [List.cons_append, Event.calls_emitted, Event.nodes_emitted, Event.calls_append,
      Event.nodes_append, List.countP_append, ihinside rfl hchildren, ihothers hfin ⟨hA, hkind⟩,
      List.map_cons, List.sum_cons, List.map_append, List.sum_append, hdue, Job.due_all, Job.due_shown,
      Job.due_shown]
    omega
  | shownHalt emitted value inside => exact fun hfin => nomatch hfin
  | @wonElement n i cs found scope path z before xs fin instances ih =>
    exact fun hfin hA => ih hfin ⟨hA, Or.inl rfl⟩
  | @wonGroup n g cs index d winner scope path z before node xs fin alternative emitted inside ih =>
    intro hfin hA
    rw [Event.calls_emitted, Event.nodes_emitted, List.map_cons, List.sum_cons, ht.groups emitted,
      ih hfin (ht.child hA d (List.mem_of_getElem? alternative)), Job.due_won, Job.due_won, Nat.zero_add,
      Nat.zero_add]
  | wonFault fails => exact fun hfin => nomatch hfin

end Tally

/-! ### Forms and attributes -/

/-- What is counted one by one is what there is to count. -/
theorem sum_map_ite {α : Type} (p : α → Prop) [DecidablePred p] (l : List α) :
    (l.map fun a => if p a then 1 else 0).sum = l.countP fun a => p a := by
  induction l with
  | nil => rfl
  | cons a l ih =>
    rw [List.map_cons, List.sum_cons, ih, List.countP_cons, Nat.add_comm]
    simp only [decide_eq_true_eq]

/-- One form is bound for every node of a reference. -/
theorem tally_bindings (r : Registry) :
    Tally r (fun _ => True) (Exchange.isBinding (γ := γ)) (fun _ => 0)
      (fun n => if n.kind = .reference then 1 else 0) where
  child _ _ _ := trivial
  target _ _ _ := trivial
  elements _ _ _ := rfl
  attributes _ _ _ _ := rfl
  others _ _ := rfl
  instances {d node scope} _ hkind hnode := by
    have hne : node.kind ≠ .reference := by
      rw [hnode.kind]
      rcases hkind with hkind | hkind <;> rw [hkind] <;> decide
    rw [if_neg hne, List.map_const', List.sum_replicate]
    rfl
  groups hnode := by
    rw [hnode.kind]
    rfl
  references known hnode place answer := by
    rw [hnode.kind, List.map_const', List.sum_replicate]
    rfl

theorem sum_due_no_attributes {ds : List Definition} (h : ∀ d ∈ ds, d.kind ≠ .attribute) :
    (ds.map fun d => if d.kind = .attribute then 1 else 0).sum = 0 := by
  rw [sum_map_ite, List.countP_eq_zero]
  intro d hd
  rw [decide_eq_true_iff]
  exact h d hd

/-- In admitted forms, attributes are asked for beneath the nodes of elements only. -/
theorem tally_attributes {r : Registry} (hr : r.Admitted) :
    Tally r Definition.Admitted (Exchange.isAttribute (γ := γ))
      (fun d => if d.kind = .attribute then 1 else 0) OutputNode.attributesDue where
  child := by
    rintro d ⟨permitted, children⟩
    exact children
  target known c hc := (hr _ (Registry.mem_forms_of_get? known) c hc).2
  elements _ _ _ := rfl
  attributes _ _ _ _ := rfl
  others d hd := by
    apply if_neg
    rcases hd with hd | hd | hd <;> rw [hd] <;> decide
  instances {d node scope} hA hkind hnode := by
    rw [OutputNode.attributesDue, hnode.kind, hnode.origin]
    rcases hkind with hkind | hkind
    · rw [hkind]
      exact (sum_map_ite _ d.children).symm
    · -- beneath an attribute nothing but extension points may stand
      rw [hkind, sum_due_no_attributes (hA.no_attributes hkind)]
      rfl
  groups hnode := by
    rw [OutputNode.attributesDue, hnode.kind]
    rfl
  references known hnode place answer := by
    rw [OutputNode.attributesDue, hnode.kind,
      sum_due_no_attributes (hr.no_attributes (Registry.mem_forms_of_get? known))]
    rfl

/-! ## Whole runs -/

namespace Exchange

/-- Whether a form is bound without a place, as the root form is. -/
def isRootBinding : Exchange γ → Bool
  | .bound none _ _ => true
  | .bound (some _) _ _ | .started _ | .element _ _ _ | .attribute _ _ _ | .finished _ _ => false

def isStarted : Exchange γ → Bool
  | .started _ => true
  | .bound _ _ _ | .element _ _ _ | .attribute _ _ _ | .finished _ _ => false

def isFinished : Exchange γ → Bool
  | .finished _ _ => true
  | .bound _ _ _ | .element _ _ _ | .attribute _ _ _ | .started _ => false

end Exchange

/-- The calls of a binder in a run of the form `k.root`, which comes to `result`: the run builds the tree
`t` and asks what is in the record. -/
structure Task.Calls (k : Task σ γ) (result : Except RunError OutputTree) (t : OutputTree)
    (record : List (Exchange γ)) : Prop where
  -- the run is announced first, and once
  started : record.head? = some (.started k.root) ∧ record.countP Exchange.isStarted = 1
  -- next the root form is bound if there is a source, and never again
  root : k.binder.hasSource = true ↔
    ∃ answer, record[1]? = some (.bound none k.root answer)
  rootOnce : record.countP Exchange.isRootBinding ≤ 1
  -- the binder is told of a tree that is returned: last, once, and of that very tree
  finished : ∀ tree, result = .ok tree → ∃ before,
    record = before ++ [.finished k.root tree] ∧ before.countP Exchange.isFinished = 0
  unfinished : ∀ err, result = .error err → record.countP Exchange.isFinished = 0
  -- a form is bound for the root and for every node of a reference
  bindings : ∀ tree, result = .ok tree → record.countP Exchange.isBinding =
    (tree.nodes.toList.countP fun n => n.kind = .reference) + 1
  -- the attributes of an element are asked for at each of its nodes
  attributes : k.registry.Admitted → ∀ tree, result = .ok tree →
    record.countP Exchange.isAttribute = (tree.nodes.toList.map OutputNode.attributesDue).sum
  -- a run that fails breaks off, unless the root form is absent
  failed : ∀ err, result = .error err →
    (err = .binding ⟨.formAbsent, .single k.root.label, some k.root.label⟩ ∧
      ∀ x ∈ record, x.place? = none) ∨
    k.BreaksOff t record err k.limit (.single k.root.label) OutputTree.root

/-- A tree starts with one node, that of the root form. -/
theorem Engine.start_bare (form : Form) : ∃ n, (start form).bare = [n] ∧ n.kind = .form := by
  obtain ⟨hsize, n, hn, hkind, -⟩ := start_node form
  have hlength : (start form).bare.length = 1 := by rw [OutputTree.length_bare, hsize]
  obtain ⟨m, hm⟩ := List.length_eq_one_iff.mp hlength
  have hget : (start form).bare[OutputTree.root]? = some n.bare := by
    rw [OutputTree.getElem?_bare, hn]
    rfl
  rw [hm] at hget
  cases hget
  exact ⟨_, hm, hkind⟩

namespace Task

variable {k : Task σ γ} {n : Nat} {job : Job γ} {scope : Scope γ} {path : NodePath} {z : NodeId}
  {before : List (Exchange γ)} {xs : List (Event γ)} {fin : Option RunError} {t : OutputTree}
  {record : List (Exchange γ)} {context : γ}

/-- All questions of a course are asked within a form, those for the targets of references
included. -/
theorem Course.within (hc : k.Course n job scope path z before xs fin) :
    ∀ x ∈ Event.calls xs, ∃ place, x.place? = some place := by
  -- the questions that a definition asks are asked within the form it stands in
  have hasked : ∀ {d place} {asked : List (Exchange γ)},
      (∀ x ∈ asked, Definition.Asks k.registry place d x) →
      ∀ x ∈ Event.calls (asked.map .asked), ∃ place, x.place? = some place := by
    intro d place asked hasks x hx
    rw [Event.calls_map_asked] at hx
    exact ⟨place, (hasks x hx).place?⟩
  induction hc with
  | nil | extension | shownNil | wonFault fails => exact nofun
  | cons first rest ihfirst ihrest =>
    rw [Event.calls_append]
    exact List.forall_mem_append.mpr ⟨ihfirst, ihrest⟩
  | halt first ih => exact ih
  | attributes instances ih => exact List.forall_mem_cons.mpr ⟨⟨_, rfl⟩, ih⟩
  | elements instances ih => exact List.forall_mem_cons.mpr ⟨⟨_, rfl⟩, ih⟩
  | absent asks nothing => exact hasked asks
  | group asks given emission ih =>
    rw [Event.calls_append]
    exact List.forall_mem_append.mpr ⟨hasked asks, ih⟩
  | reference known emitted inside ih => exact List.forall_mem_cons.mpr ⟨⟨_, rfl⟩, ih⟩
  | fault asks fails => exact hasked asks.asks
  | shownCons emitted value inside others ihinside ihothers =>
    rw [Event.calls_append]
    exact List.forall_mem_append.mpr ⟨ihinside, ihothers⟩
  | shownHalt emitted value inside ih => exact ih
  | wonElement instances ih => exact ih
  | wonGroup alternative emitted inside ih => exact ih

/-- What is counted outside forms only is not counted in a course. -/
theorem Course.countP_eq_zero (hc : k.Course n job scope path z before xs fin) {p : Exchange γ → Bool}
    (hp : ∀ x place, x.place? = some place → p x = false) : (Event.calls xs).countP p = 0 := by
  apply List.countP_eq_zero.mpr
  intro x hx
  obtain ⟨place, hplace⟩ := hc.within x hx
  rw [hp x place hplace]
  exact Bool.false_ne_true

section Count

variable {p : Exchange γ → Bool} {err : RunError}

theorem not_isStarted {x : Exchange γ} {place : Scope γ} (h : x.place? = some place) :
    x.isStarted = false := by
  cases x with
  | started form => cases h
  | _ => rfl

theorem not_isFinished {x : Exchange γ} {place : Scope γ} (h : x.place? = some place) :
    x.isFinished = false := by
  cases x with
  | finished form tree => cases h
  | _ => rfl

theorem not_isRootBinding {x : Exchange γ} {place : Scope γ} (h : x.place? = some place) :
    x.isRootBinding = false := by
  cases x with
  | bound other form answer =>
    cases h
    rfl
  | _ => rfl

end Count

/-- The nodes of references in a tree are those among the events, for the root is none. -/
theorem countP_references (hnodes : t.bare = (Engine.start k.root).bare ++ Event.nodes xs) :
    (t.nodes.toList.countP fun n => n.kind = .reference) =
      (Event.nodes xs).countP fun n => n.kind = .reference := by
  obtain ⟨n, hstart, hkind⟩ := Engine.start_bare k.root
  have hbare : (t.nodes.toList.countP fun n => n.kind = .reference) =
      t.bare.countP fun n => n.kind = .reference := by
    rw [OutputTree.bare, List.countP_map]
    rfl
  rw [hbare, hnodes, hstart, List.singleton_append, List.countP_cons, hkind]
  rfl

theorem sum_attributesDue (hnodes : t.bare = (Engine.start k.root).bare ++ Event.nodes xs) :
    (t.nodes.toList.map OutputNode.attributesDue).sum =
      ((Event.nodes xs).map OutputNode.attributesDue).sum := by
  obtain ⟨n, hstart, hkind⟩ := Engine.start_bare k.root
  have hbare : t.nodes.toList.map OutputNode.attributesDue =
      t.bare.map OutputNode.attributesDue := by
    rw [OutputTree.bare, List.map_map]
    rfl
  rw [hbare, hnodes, hstart, List.singleton_append, List.map_cons, List.sum_cons,
    OutputNode.attributesDue, hkind, Nat.zero_add]

/-- The calls of a run whose root form is absent. -/
theorem calls_absent {asked : List (Exchange γ)}
    (root : asked = if k.binder.hasSource then [.bound none k.root none] else []) :
    k.Calls (.error (.binding ⟨.formAbsent, .single k.root.label, some k.root.label⟩))
      (Engine.start k.root) (.started k.root :: asked) := by
  have hasked : ∀ x ∈ asked, x = .bound none k.root none := by
    intro x hx
    rw [root] at hx
    split at hx
    · exact List.mem_singleton.mp hx
    · cases hx
  -- apart from the announcement there is at most the question for the root form
  have hquiet : ∀ {p : Exchange γ → Bool}, p (.bound none k.root none) = false →
      asked.countP p = 0 := by
    intro p hp
    apply List.countP_eq_zero.mpr
    intro x hx
    rw [hasked x hx, hp]
    exact Bool.false_ne_true
  have hlength : asked.length ≤ 1 := by
    rw [root]
    split
    · exact Nat.le_refl 1
    · exact Nat.zero_le 1
  exact {
    started := ⟨rfl, by rw [List.countP_cons, hquiet rfl]; rfl⟩
    root := by
      rw [List.getElem?_cons_succ, root]
      cases k.binder.hasSource with
      | true => exact ⟨fun _ => ⟨none, rfl⟩, fun _ => rfl⟩
      | false => exact ⟨nofun, nofun⟩
    rootOnce := by
      rw [List.countP_cons]
      exact Nat.le_trans List.countP_le_length hlength
    finished := fun tree htree => nomatch htree
    unfinished := fun err herr => hquiet rfl
    bindings := fun tree htree => nomatch htree
    attributes := fun _ tree htree => nomatch htree
    failed := by
      intro err herr
      cases herr
      refine Or.inl ⟨rfl, List.forall_mem_cons.mpr ⟨rfl, fun x hx => ?_⟩⟩
      rw [hasked x hx]
      rfl }

/-- The run is announced once before the first definition. -/
theorem countP_isStarted_prelude : (k.prelude context).countP Exchange.isStarted = 1 :=
  rfl

/-- The root form is bound once before the first definition. -/
theorem countP_isRootBinding_prelude : (k.prelude context).countP Exchange.isRootBinding = 1 :=
  rfl

/-- The end of a run is not announced before the first definition. -/
theorem countP_isFinished_prelude : (k.prelude context).countP Exchange.isFinished = 0 :=
  rfl

/-- The calls of a run that stops at a definition. -/
theorem calls_stopped {err : RunError} (source : k.binder.hasSource = true)
    (course : k.Course k.limit (.all k.root.children) (.top k.root context OutputTree.root)
      (.single k.root.label) 1 (k.prelude context) xs (some err))
    (nodes : t.bare = (Engine.start k.root).bare ++ Event.nodes xs) :
    k.Calls (.error err) t (k.prelude context ++ Event.calls xs) := by
  have hstarted := course.countP_eq_zero fun x place => not_isStarted
  have hfinished := course.countP_eq_zero fun x place => not_isFinished
  have hbound := course.countP_eq_zero fun x place => not_isRootBinding
  -- what was written is the course itself, since the run made no other call after it
  have hw : Written k context t (k.prelude context ++ (Event.calls xs ++ [])) xs :=
    written_around [] nodes nofun
  rw [List.append_nil] at hw
  exact {
    started := ⟨rfl, by rw [List.countP_append, countP_isStarted_prelude, hstarted]⟩
    root := ⟨fun _ => ⟨_, rfl⟩, fun _ => source⟩
    rootOnce := by rw [List.countP_append, countP_isRootBinding_prelude, hbound]
    finished := fun tree htree => nomatch htree
    unfinished := fun _ _ => by rw [List.countP_append, countP_isFinished_prelude, hfinished]
    bindings := fun tree htree => nomatch htree
    attributes := fun _ tree htree => nomatch htree
    failed := by
      intro err' herr
      cases herr
      exact Or.inr (course.breaksOff hw) }

/-- The calls of a run that succeeds. -/
theorem calls_finished (hroot : k.root ∈ k.registry.forms) (source : k.binder.hasSource = true)
    (course : k.Course k.limit (.all k.root.children) (.top k.root context OutputTree.root)
      (.single k.root.label) 1 (k.prelude context) xs none)
    (nodes : t.bare = (Engine.start k.root).bare ++ Event.nodes xs) :
    k.Calls (.ok t) t
      (k.prelude context ++ (Event.calls xs ++ [.finished k.root t])) := by
  have hstarted := course.countP_eq_zero fun x place => not_isStarted
  have hfinished := course.countP_eq_zero fun x place => not_isFinished
  have hbound := course.countP_eq_zero fun x place => not_isRootBinding
  exact {
    started := ⟨rfl, by
      rw [List.countP_append, List.countP_append, countP_isStarted_prelude, hstarted]
      rfl⟩
    root := ⟨fun _ => ⟨_, rfl⟩, fun _ => source⟩
    rootOnce := by
      rw [List.countP_append, List.countP_append, countP_isRootBinding_prelude, hbound]
      exact Nat.le_refl 1
    finished := by
      intro tree htree
      cases htree
      refine ⟨k.prelude context ++ Event.calls xs, (List.append_assoc ..).symm, ?_⟩
      rw [List.countP_append, countP_isFinished_prelude, hfinished]
    unfinished := fun err herr => nomatch herr
    bindings := by
      intro tree htree
      cases htree
      -- no definition is due a binding, so all that are counted are due to nodes of references
      have htally := course.tally (tally_bindings k.registry) rfl fun c _ => trivial
      rw [Job.due_all, List.map_const', List.sum_replicate, smul_zero, Nat.zero_add, sum_map_ite]
        at htally
      rw [List.countP_append, List.countP_append, htally, countP_references nodes, Nat.add_comm]
      rfl
    attributes := by
      intro hadmitted tree htree
      cases htree
      -- no attribute may stand directly beneath a form, so all that are counted are due to nodes of
      -- elements
      have htally := course.tally (tally_attributes hadmitted) rfl
        fun c hc => (hadmitted k.root hroot c hc).2
      rw [Job.due_all, sum_due_no_attributes (hadmitted.no_attributes hroot), Nat.zero_add] at htally
      rw [List.countP_append, List.countP_append, htally, sum_attributesDue nodes]
      exact Nat.zero_add _
    failed := fun err herr => nomatch herr }

/-- **However a run goes, its calls are in order.** -/
theorem Goes.calls {result : Except RunError OutputTree} (hroot : k.root ∈ k.registry.forms)
    (h : k.Goes result t record) : k.Calls result t record := by
  cases h with
  | absent root => exact calls_absent root
  | stopped source course nodes => exact calls_stopped source course nodes
  | finished source course nodes => exact calls_finished hroot source course nodes

end Task

namespace Engine

/-- **The calls of a run.** When the form is unknown the binder is not called at all, and otherwise it is
called in order, as `Task.Calls` says. -/
theorem bind_calls (r : Registry) (limit : Nat) (b : Binder σ γ) (key : FormKey) (s : σ) :
    (r.get? key = none → exchanges r limit [] b key s = []) ∧
    ∀ form, r.get? key = some form →
      Task.Calls ⟨r, limit, b, s, form⟩ ((equipped r limit [] b).bind key s).1
        ((equipped r limit [] b).built key s) (exchanges r limit [] b key s) := by
  refine ⟨fun hget => ?_, fun form hget => ?_⟩
  · rw [exchanges, bind_missing (by exact hget)]
  · exact (bind_course ⟨r, limit, b, s, form⟩ hget).calls (Registry.mem_forms_of_get? hget)

end Engine

namespace Sample

/-- The forms of an order and of its address can be had by inserting one definition after another. -/
theorem orders_obtainable : ∀ form ∈ orders.forms, form.Obtainable := by
  have hitem : ∀ id c, (Definition.leaf (.element (item id c))).Built [] [] :=
    fun id c => .fresh (.element (some id) c)
  have hshipTo : shipTo.Built [] [] := .fresh (.reference ⟨"", "address"⟩)
  have hsku : (Definition.leaf (.attribute (item "sku" .required))).Built [] [] :=
    .fresh (.attribute (some "sku") .required)
  have hline : line.Built [] line.children :=
    .child (.child (.fresh (.element (some "line") .optionalMultiple)) hsku rfl)
      (.child (.fresh (.extension "ship")) hshipTo rfl) rfl
  have hpayment : payment.Built [] payment.children :=
    .child (.child (.fresh (.choice (some "payment") .required)) (hitem "card" .optional) rfl)
      (.child (.fresh (.choice (some "transfer") .optional)) (hitem "iban" .required) rfl) rfl
  have haddress : address.Built [] address.children :=
    .child (.empty ⟨"", "address"⟩ "samples") (hitem "city" .required) rfl
  have horder : order.Built [] order.children :=
    .child (.child (.child (.empty ⟨"", "order"⟩ "samples") hline rfl) hpayment rfl) hshipTo rfl
  exact List.forall_mem_cons.mpr ⟨Or.inl ⟨_, _, haddress⟩,
    List.forall_mem_singleton.mpr (Or.inl ⟨_, _, horder⟩)⟩

end Sample

namespace Engine

/-- Of an order with two lines and an address two forms are bound and two attributes are asked for, and
the last call tells of the tree. -/
theorem bind_calls_orders :
    Sample.orders.get? Sample.orderKey = some Sample.order ∧ Sample.orders.Admitted ∧
    ∃ tree, ((equipped Sample.orders 1 [] Sample.binder).bind Sample.orderKey ()).1 = .ok tree ∧
      (exchanges Sample.orders 1 [] Sample.binder Sample.orderKey ()).getLast? =
        some (.finished Sample.order tree) ∧
      (tree.nodes.toList.countP fun n => n.kind = .reference) + 1 = 2 ∧
      (tree.nodes.toList.map OutputNode.attributesDue).sum = 2 := by
  have hget : Sample.orders.get? Sample.orderKey = some Sample.order := rfl
  have hok : ((equipped Sample.orders 1 [] Sample.binder).bind Sample.orderKey ()).1.isOk = true := by
    cbv
  have hbindings : (exchanges Sample.orders 1 [] Sample.binder Sample.orderKey ()).countP
      Exchange.isBinding = 2 := by cbv
  have hattributes : (exchanges Sample.orders 1 [] Sample.binder Sample.orderKey ()).countP
      Exchange.isAttribute = 2 := by cbv
  have hcalls := (bind_calls Sample.orders 1 Sample.binder Sample.orderKey ()).2 _ hget
  cases hrun : ((equipped Sample.orders 1 [] Sample.binder).bind Sample.orderKey ()).1 with
  | error err =>
    rw [hrun] at hok
    cases hok
  | ok tree =>
    obtain ⟨before, hrecord, -⟩ := hcalls.finished tree hrun
    have hadmitted := Registry.admitted_of_obtainable Sample.orders_obtainable
    refine ⟨hget, hadmitted, tree, rfl, ?_, ?_, ?_⟩
    · rw [hrecord, List.getLast?_concat]
    · rw [← hcalls.bindings tree hrun, hbindings]
    · rw [← hcalls.attributes hadmitted tree hrun, hattributes]

end Engine

end FormSchema
