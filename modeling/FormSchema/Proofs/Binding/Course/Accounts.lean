import FormSchema.Proofs.Binding.Course.Surroundings

/-!
# Accounts of a course

A course is a list of events, and the tree and the record of a run hold what all of them tell. Going
through the events one keeps account, for every node, of the instances that were given there and of the
nodes that were emitted for them, of the references and of the forms that were bound for them. The two
sides are even whenever a definition is done.

The statements to be proved are about a finished tree and a finished record, and a course is
followed from its beginning. So every lemma here speaks of a part of a course between the events
before it and those after it, all of which are written to the same tree and record in the end. The
nodes of that part are then the numbers between two counts of emitted nodes, and what is said of a
node holds of the finished tree at once.

* `Written` — a tree and a record that hold what some events tell.
* `Balanced` — the answers at a node and the nodes that come from them are even, but for some instances that
  are still to be shown.
* `Moves` — what a part of a course does besides that; **`Moves.append`** — parts in sequence.
* `Starts` — where a part of a course starts; **`Starts.within`**, **`Starts.grouped`**,
  **`Starts.entered`** — one node further down.
-/

namespace FormSchema

variable {σ γ : Type}

/-! ## Events and what they are written to -/

/-- The node that is emitted next after some events. Node 0 is the root. -/
def Event.next (pre : List (Event γ)) : NodeId := 1 + (Event.nodes pre).length

namespace Event

variable {pre xs ys : List (Event γ)} {x : Exchange γ} {node : OutputNode}

/-- More events move the next node on by the nodes among them. -/
theorem next_append : next (pre ++ xs) = next pre + (nodes xs).length := by
  rw [next, next, nodes_append, List.length_append, Nat.add_assoc]

theorem next_le_append : next pre ≤ next (pre ++ xs) := by
  rw [next_append]
  exact Nat.le_add_right _ _

theorem next_concat_emitted : next (pre ++ [.emitted node]) = next pre + 1 := next_append

theorem next_append_asked (asked : List (Exchange γ)) :
    next (pre ++ asked.map .asked) = next pre := by
  rw [next_append, nodes_map_asked]
  rfl

end Event

/-- A tree and a record hold what some events tell, which took place after the root form was bound.
The three conditions are what later proofs use; that the tree of a run does hold what its course
tells is shown where courses are found. -/
structure Written (k : Task σ γ) (context : γ) (t : OutputTree) (record : List (Exchange γ))
    (journal : List (Event γ)) : Prop where
  nodes : t.bare = (Engine.start k.root).bare ++ Event.nodes journal
  calls : k.prelude context ++ Event.calls journal <+: record
  asked : ∀ q, askedAt record q = askedAt (Event.calls journal) q

namespace Written

variable {k : Task σ γ} {context : γ} {t : OutputTree} {record : List (Exchange γ)}
  {journal pre post : List (Event γ)} {node : OutputNode}

/-- The number of nodes is the number of the next one. -/
theorem size (h : Written k context t record journal) : t.size = Event.next journal := by
  rw [← OutputTree.length_bare, h.nodes, List.length_append, OutputTree.length_bare,
    (Engine.start_node k.root).1, Event.next]

theorem node?_next (h : Written k context t record (pre ++ .emitted node :: post)) :
    ∃ n, t.node? (Event.next pre) = some n ∧ n.bare = node := by
  have hroot : (Engine.start k.root).bare.length = 1 := by
    rw [OutputTree.length_bare, (Engine.start_node k.root).1]
  have hget : t.bare[Event.next pre]? = some node := by
    rw [h.nodes, Event.next, ← hroot, List.getElem?_append_right (Nat.le_add_right _ _),
      Nat.add_sub_cancel_left, Event.nodes_append, Event.nodes_emitted,
      List.getElem?_append_right (Nat.le_refl _), Nat.sub_self, List.getElem?_cons_zero]
  rw [OutputTree.getElem?_bare] at hget
  exact Option.map_eq_some_iff.mp hget

/-- The node that a run starts with stays the first one. -/
theorem node?_start {m : OutputNode} (h : Written k context t record journal)
    (hm : (Engine.start k.root).node? OutputTree.root = some m) :
    ∃ n, t.node? OutputTree.root = some n ∧ n.bare = m.bare := by
  have hlen : OutputTree.root < (Engine.start k.root).bare.length := by
    rw [OutputTree.length_bare, (Engine.start_node k.root).1]
    exact Nat.one_pos
  have hget : t.bare[OutputTree.root]? = some m.bare := by
    rw [h.nodes, List.getElem?_append_left hlen, OutputTree.getElem?_bare, hm]
    rfl
  rw [OutputTree.getElem?_bare] at hget
  exact Option.map_eq_some_iff.mp hget

/-- The node of the root form comes before all others. -/
theorem node?_root (h : Written k context t record journal) :
    ∃ n, t.node? OutputTree.root = some n ∧ n.kind = .form ∧ n.parent = none ∧
      n.origin = some ⟨k.root, .form k.root⟩ := by
  obtain ⟨-, m, hm, hkind, -, hparent, horigin⟩ := Engine.start_node k.root
  obtain ⟨n, hn, hbare⟩ := h.node?_start hm
  exact ⟨n, hn, (congrArg OutputNode.kind hbare).trans hkind,
    (congrArg OutputNode.parent hbare).trans hparent,
    (congrArg OutputNode.origin hbare).trans horigin⟩

/-- Every other node was emitted. -/
theorem bare_mem_nodes {n : OutputNode} {id : NodeId} (h : Written k context t record journal)
    (hn : t.node? id = some n) (hroot : id ≠ OutputTree.root) : n.bare ∈ Event.nodes journal := by
  have hget : t.bare[id]? = some n.bare := by
    rw [OutputTree.getElem?_bare, hn]
    rfl
  have hlen : (Engine.start k.root).bare.length ≤ id := by
    rw [OutputTree.length_bare, (Engine.start_node k.root).1]
    exact Nat.pos_of_ne_zero hroot
  rw [h.nodes, List.getElem?_append_right hlen] at hget
  exact List.mem_of_getElem? hget

theorem definitionsAt_root (h : Written k context t record journal) (r : Registry) :
    t.definitionsAt r OutputTree.root = k.root.children := by
  obtain ⟨n, hn, -, -, horigin⟩ := h.node?_root
  rw [OutputTree.definitionsAt, hn, Option.bind_some, horigin]
  rfl

theorem formAt?_root (h : Written k context t record journal) (r : Registry) :
    t.formAt? r OutputTree.root = some k.root := by
  obtain ⟨n, hn, -, -, horigin⟩ := h.node?_root
  rw [OutputTree.formAt?, hn, Option.bind_some, horigin]

/-- The root form was bound before everything else. -/
theorem bound (h : Written k context t record journal) :
    .bound none k.root (some context) ∈ record :=
  h.calls.subset (List.mem_append_left _ (List.mem_cons_of_mem _ List.mem_cons_self))

/-- What was asked by some event was asked first. -/
theorem calls_before {later : List (Event γ)} (h : Written k context t record (pre ++ later)) :
    k.prelude context ++ Event.calls pre <+: record := by
  refine List.IsPrefix.trans ?_ h.calls
  rw [Event.calls_append, ← List.append_assoc]
  exact List.prefix_append _ _

end Written

/-- The exchanges before the first definition are within no form. -/
theorem Task.prelude_nowhere (k : Task σ γ) (context : γ) :
    ∀ x ∈ k.prelude context, x.place? = none := by
  intro x hx
  rcases List.mem_pair.mp hx with rfl | rfl <;> rfl

/-- Before the first definition nothing is asked at any node. -/
theorem Task.askedAt_prelude (k : Task σ γ) (context : γ) (pre : List (Event γ)) (q : NodeId) :
    askedAt (k.prelude context ++ Event.calls pre) q = askedAt (Event.calls pre) q := by
  rw [askedAt_append, askedAt_nowhere (k.prelude_nowhere context), List.nil_append]

/-- After some events the next node is `z`, and `before` is what was asked until then. -/
structure Task.Reaches (k : Task σ γ) (context : γ) (pre : List (Event γ)) (z : NodeId)
    (before : List (Exchange γ)) : Prop where
  next : z = Event.next pre
  asked : before = k.prelude context ++ Event.calls pre

namespace Task.Reaches

variable {k : Task σ γ} {context : γ} {pre xs : List (Event γ)} {node : OutputNode}

theorem append : k.Reaches context (pre ++ xs) (Event.next pre + (Event.nodes xs).length)
    (k.prelude context ++ Event.calls pre ++ Event.calls xs) where
  next := Event.next_append.symm
  asked := by rw [Event.calls_append, List.append_assoc]

theorem emitted : k.Reaches context (pre ++ [.emitted node]) (Event.next pre + 1)
    (k.prelude context ++ Event.calls pre) where
  next := Event.next_concat_emitted.symm
  asked := by simp

theorem questions (asked : List (Exchange γ)) : k.Reaches context (pre ++ asked.map .asked)
    (Event.next pre) (k.prelude context ++ Event.calls pre ++ asked) where
  next := (Event.next_append_asked asked).symm
  asked := by simp

theorem crossed (x : Exchange γ) : k.Reaches context (pre ++ [.emitted node, .asked x])
    (Event.next pre + 1) (k.prelude context ++ Event.calls pre ++ [x]) where
  next := by simp [Event.next_append]
  asked := by simp

theorem beneath : k.Reaches context (pre ++ [.emitted node] ++ xs)
    (Event.next pre + 1 + (Event.nodes xs).length)
    (k.prelude context ++ Event.calls pre ++ Event.calls xs) where
  next := by rw [Event.next_append, Event.next_concat_emitted]
  asked := by simp

end Task.Reaches

/-! ## What is balanced -/

section Accounts

variable (t : OutputTree)

/-- After some events, as many nodes are hosted by a node as instances were given there, but for
the pending ones, which were given last. Of references there are as many as bindings. Two lists are
compared by length only, for the order within them is known: instances are shown in the order in
which they were given. -/
structure Balanced (pre : List (Event γ)) (q : NodeId) (pending : List γ) : Prop where
  instances : ∃ shown, givenIn (askedAt (Event.calls pre) q) = shown ++ pending ∧
    shown.length = ((List.range (Event.next pre)).filter (t.isHosted q)).length
  crossings : ((askedAt (Event.calls pre) q).filterMap Exchange.binding?).length =
    ((List.range (Event.next pre)).filter (t.isCrossing q)).length

/-- After some events, others ask nothing at a node, and no instance is hosted by it because of them. -/
structure Untouched (pre xs : List (Event γ)) (q : NodeId) : Prop where
  asked : askedAt (Event.calls xs) q = []
  hosted : ∀ id, Event.next pre ≤ id → id < Event.next (pre ++ xs) → t.isHosted q id = false
  crossing : ∀ id, Event.next pre ≤ id → id < Event.next (pre ++ xs) → t.isCrossing q id = false

/-- All questions were asked at nodes that had been emitted, and parents are emitted before their
children. So a node is never asked about before it is there, and what was asked at it can be found
among the later events. -/
structure Past (pre : List (Event γ)) : Prop where
  asked : ∀ x ∈ Event.calls pre, ∀ place, x.place? = some place → place.parent < Event.next pre
  parents : ∀ id < Event.next pre, ∀ p, t.parent? id = some p → p < id

end Accounts

section Lists

variable {α : Type}

/-- What is counted up to a number is what is counted up to a smaller one, when nothing is counted in
between. -/
theorem range_filter_eq {f : Nat → Bool} {m n : Nat} (hle : m ≤ n)
    (h : ∀ id, m ≤ id → id < n → f id = false) :
    (List.range n).filter f = (List.range m).filter f := by
  obtain ⟨k, rfl⟩ := Nat.exists_eq_add_of_le hle
  have hnone : ((List.range k).map (m + ·)).filter f = [] := by
    apply List.filter_eq_nil_iff.mpr
    intro id hid
    obtain ⟨j, hj, rfl⟩ := List.mem_map.mp hid
    rw [h (m + j) (Nat.le_add_right _ _) (Nat.add_lt_add_left (List.mem_range.mp hj) m)]
    exact Bool.false_ne_true
  rw [List.range_add, List.filter_append, hnone, List.append_nil]

/-- The next number that is counted comes after those before it. -/
theorem range_filter_split {f : Nat → Bool} {m n : Nat} (hlt : m < n) (h : f m = true) :
    ∃ rest, (List.range n).filter f = (List.range m).filter f ++ m :: rest := by
  obtain ⟨k, rfl⟩ := Nat.exists_eq_add_of_lt hlt
  refine ⟨((List.range k).map (m + 1 + ·)).filter f, ?_⟩
  rw [Nat.add_right_comm m k 1, List.range_add, List.filter_append, List.range_succ,
    List.filter_append, List.filter_singleton, h, cond_true, List.append_assoc]
  rfl

/-- Pairs stay pairs when the second list gets longer. -/
theorem mem_zip_append_right {β : Type} {as : List α} {bs bs' : List β} {a : α} {b : β}
    (h : (a, b) ∈ as.zip bs) : (a, b) ∈ as.zip (bs ++ bs') := by
  obtain ⟨i, hi, heq⟩ := List.mem_iff_getElem.mp h
  rw [List.getElem_zip] at heq
  rw [List.length_zip] at hi
  have hlt : i < bs.length := Nat.lt_of_lt_of_le hi (Nat.min_le_right _ _)
  refine List.mem_iff_getElem.mpr ⟨i, ?_, ?_⟩
  · rw [List.length_zip, List.length_append]
    omega
  · rw [List.getElem_zip, List.getElem_append_left hlt]
    exact heq

/-- Two lists whose beginnings are of the same length pair the elements that follow these. -/
theorem mem_zip_split {β : Type} {as as' : List α} {bs bs' : List β} {a : α} {b : β}
    (h : as.length = bs.length) : (a, b) ∈ (as ++ a :: as').zip (bs ++ b :: bs') := by
  rw [List.zip_append h]
  exact List.mem_append_right _ List.mem_cons_self

end Lists

variable {t : OutputTree} {pre xs ys : List (Event γ)} {q : NodeId} {pending : List γ}

/-- What two parts leave alone, one after the other, the whole leaves alone. -/
theorem Untouched.append (h : Untouched t pre xs q) (h' : Untouched t (pre ++ xs) ys q) :
    Untouched t pre (xs ++ ys) q where
  asked := by
    rw [Event.calls_append, askedAt_append, h.asked, h'.asked]
    rfl
  hosted id hlo hhi := by
    rcases Nat.lt_or_ge id (Event.next (pre ++ xs)) with hlt | hge
    · exact h.hosted id hlo hlt
    · exact h'.hosted id hge (by rwa [List.append_assoc])
  crossing id hlo hhi := by
    rcases Nat.lt_or_ge id (Event.next (pre ++ xs)) with hlt | hge
    · exact h.crossing id hlo hlt
    · exact h'.crossing id hge (by rwa [List.append_assoc])

/-- What is even stays even where nothing is touched. -/
theorem Balanced.untouched (h : Balanced t pre q pending) (hxs : Untouched t pre xs q) :
    Balanced t (pre ++ xs) q pending where
  instances := by
    rw [Event.calls_append, askedAt_append, hxs.asked, List.append_nil,
      range_filter_eq Event.next_le_append hxs.hosted]
    exact h.instances
  crossings := by
    rw [Event.calls_append, askedAt_append, hxs.asked, List.append_nil,
      range_filter_eq Event.next_le_append hxs.crossing]
    exact h.crossings

/-- Nothing is asked at a node before it is there. -/
theorem askedAt_calls_eq_nil
    (hasked : ∀ x ∈ Event.calls pre, ∀ place, x.place? = some place → place.parent < q) :
    askedAt (Event.calls pre) q = [] := by
  apply List.filter_eq_nil_iff.mpr
  intro x hx hat
  rw [Exchange.isAt] at hat
  cases hplace : x.place? with
  | none =>
    rw [hplace] at hat
    cases hat
  | some place =>
    rw [hplace, Option.any_some, decide_eq_true_iff] at hat
    exact absurd hat (Nat.ne_of_lt (hasked x hx place hplace))

/-- At the last node everything is even: nothing was asked there, and nothing is attached to it. -/
theorem Balanced.latest (hpast : Past t pre)
    (hasked : ∀ x ∈ Event.calls pre, ∀ place, x.place? = some place → place.parent < q)
    (hq : Event.next pre = q + 1) : Balanced t pre q [] := by
  have hsilent : askedAt (Event.calls pre) q = [] := askedAt_calls_eq_nil hasked
  -- whatever was emitted before it was attached to an earlier node
  have habove : ∀ id < Event.next pre, ∀ p, t.parent? id = some p → p < q := by
    intro id hid p hp
    exact Nat.lt_of_lt_of_le (hpast.parents id hid p hp) (Nat.le_of_lt_succ (Nat.lt_of_lt_of_eq hid hq))
  have hhosted : (List.range (Event.next pre)).filter (t.isHosted q) = [] := by
    apply List.filter_eq_nil_iff.mpr
    intro id hid hat
    rw [OutputTree.isHosted, Bool.and_eq_true, Option.any_eq_true] at hat
    obtain ⟨-, p, hp, hhost⟩ := hat
    have heq : t.host p = q := of_decide_eq_true hhost
    have hlt := habove id (List.mem_range.mp hid) p hp
    exact Nat.lt_irrefl q (Nat.lt_of_le_of_lt (heq ▸ t.host_le p) hlt)
  have hcrossing : (List.range (Event.next pre)).filter (t.isCrossing q) = [] := by
    apply List.filter_eq_nil_iff.mpr
    intro id hid hat
    rw [OutputTree.isCrossing, Bool.and_eq_true, decide_eq_true_iff] at hat
    exact Nat.lt_irrefl q (habove id (List.mem_range.mp hid) q hat.2)
  refine ⟨⟨[], ?_, ?_⟩, ?_⟩
  · rw [hsilent]
    rfl
  · rw [hhosted]
    rfl
  · rw [hsilent, hcrossing]
    rfl

/-! ## Steps -/

section Steps

variable (k : Task σ γ) (t : OutputTree) (record : List (Exchange γ))

/-- A question within a form is asked in the right scope: its place agrees with the surroundings of its
node, which is not the node of a group, and it is asked for a definition that is bound there. -/
def Exchange.Fits (x : Exchange γ) : Prop :=
  ∀ place, x.place? = some place → Surrounds k.registry k.binder k.root t record place ∧
    t.isGroup place.parent = false ∧
    ∃ d ∈ t.definitionsAt k.registry place.parent, d.Asks k.registry place x

/-- A node portrays an instance. It has the same place among the nodes hosted by its host as the instance
has among those given there, and its text is what the binder said of the instance when that had been given
and nothing had been asked at the node. -/
def Task.Portrays (id : NodeId) (found : γ) : Prop :=
  ∃ n p known, t.node? id = some n ∧ n.parent = some p ∧ known <+: record ∧
    (id, found) ∈ (t.hosted (t.host p)).zip (givenIn (askedAt known (t.host p))) ∧
    askedAt known id = [] ∧ n.value = k.binder.value (k.binder.replay k.state known) found

/-- A node records what it was emitted for: a definition of the form that definitions beneath its
parent belong to and, where the definition has instances, one of these. The form is said of the node
above, so that it can be read off the tree. -/
def Task.Records (id : NodeId) : Prop :=
  ∃ n d, ∃ scope : Scope γ, t.node? id = some n ∧ n.EmittedFor d scope ∧
    t.formAt? k.registry scope.parent = some scope.form ∧
    (d.kind = .element ∨ d.kind = .attribute → ∃ found, k.Portrays t record id found)

/-- What a part of a course does that works beneath a node hosted by `h`: its questions are asked
in the right scope, its nodes record what they were emitted for, and no other node from before is
touched. The host is the exception because the nodes of its instances are emitted in that part. -/
structure Moves (pre xs : List (Event γ)) (h : NodeId) : Prop where
  fits : ∀ x ∈ Event.calls xs, x.Fits k t record
  records : ∀ id, Event.next pre ≤ id → id < Event.next (pre ++ xs) → k.Records t record id
  past : Past t (pre ++ xs)
  untouched : ∀ q < Event.next pre, q ≠ h → Untouched t pre xs q

end Steps

namespace Moves

variable {k : Task σ γ} {record : List (Exchange γ)} {h h' : NodeId}

/-- A part without events does nothing to anybody. -/
theorem nil (hpast : Past t pre) : Moves k t record pre [] h where
  fits x hx := nomatch hx
  records id hlo hhi := by
    rw [List.append_nil] at hhi
    exact absurd hhi (Nat.not_lt.mpr hlo)
  past := by rwa [List.append_nil]
  untouched q _ _ := by
    refine ⟨rfl, fun id hlo hhi => ?_, fun id hlo hhi => ?_⟩
    · rw [List.append_nil] at hhi
      exact absurd hhi (Nat.not_lt.mpr hlo)
    · rw [List.append_nil] at hhi
      exact absurd hhi (Nat.not_lt.mpr hlo)

/-- Parts come one after the other: beneath the same node, or beneath one that is new by then. -/
theorem append (hxs : Moves k t record pre xs h) (hys : Moves k t record (pre ++ xs) ys h')
    (hh : h' = h ∨ Event.next pre ≤ h') : Moves k t record pre (xs ++ ys) h where
  fits x hx := by
    rw [Event.calls_append] at hx
    rcases List.mem_append.mp hx with hfirst | hsecond
    · exact hxs.fits x hfirst
    · exact hys.fits x hsecond
  records id hlo hhi := by
    rcases Nat.lt_or_ge id (Event.next (pre ++ xs)) with hlt | hge
    · exact hxs.records id hlo hlt
    · exact hys.records id hge (by rwa [List.append_assoc])
  past := by
    rw [← List.append_assoc]
    exact hys.past
  untouched q hq hne := by
    -- an older node is not the one that is new by then
    refine (hxs.untouched q hq hne).append
      (hys.untouched q (Nat.lt_of_lt_of_le hq Event.next_le_append) ?_)
    rcases hh with rfl | hnew
    · exact hne
    · exact Nat.ne_of_lt (Nat.lt_of_lt_of_le hq hnew)

end Moves

/-- Where a part of a course starts. All that came before is past, and the scope is in its right
surroundings. -/
structure Starts (k : Task σ γ) (t : OutputTree) (record : List (Exchange γ)) (pre : List (Event γ))
    (scope : Scope γ) : Prop where
  known : scope.parent < Event.next pre
  past : Past t pre
  form : t.formAt? k.registry scope.parent = some scope.form
  surrounds : Surrounds k.registry k.binder k.root t record scope

section Step

variable {k : Task σ γ} {context : γ} {r : Registry} {record : List (Exchange γ)}
  {post : List (Event γ)} {scope : Scope γ} {d : Definition}

/-- Questions are asked for a definition that is bound at the node of the scope. -/
theorem Starts.ask (h : Starts k t record pre scope) (hgroup : t.isGroup scope.parent = false)
    (hd : d ∈ t.definitionsAt k.registry scope.parent) {asked : List (Exchange γ)}
    (hasks : ∀ x ∈ asked, d.Asks k.registry scope x) :
    Moves k t record pre (asked.map .asked) scope.parent := by
  -- nothing is emitted, so all that is said of new nodes says nothing; the questions are the point
  refine ⟨fun x hx place hplace => ?_, fun id hlo hhi => ?_,
    ⟨fun x hx place hplace => ?_, fun id hid => ?_⟩,
    fun q hq hne => ⟨?_, fun id hlo hhi => ?_, fun id hlo hhi => ?_⟩⟩
  · rw [Event.calls_map_asked] at hx
    have hsame := (hasks x hx).place?.symm.trans hplace
    cases hsame
    exact ⟨h.surrounds, hgroup, d, hd, hasks x hx⟩
  · rw [Event.next_append_asked] at hhi
    exact absurd hhi (Nat.not_lt.mpr hlo)
  · rw [Event.next_append_asked]
    rw [Event.calls_append, Event.calls_map_asked] at hx
    rcases List.mem_append.mp hx with hbefore | hnow
    · exact h.past.asked x hbefore place hplace
    · have hsame := (hasks x hnow).place?.symm.trans hplace
      cases hsame
      exact h.known
  · rw [Event.next_append_asked] at hid
    exact h.past.parents id hid
  · rw [Event.calls_map_asked]
    exact askedAt_other (fun x hx => Exchange.isAt_of_place? (hasks x hx).place?) hne
  · rw [Event.next_append_asked] at hhi
    exact absurd hhi (Nat.not_lt.mpr hlo)
  · rw [Event.next_append_asked] at hhi
    exact absurd hhi (Nat.not_lt.mpr hlo)

/-- The instances that were just given are pending. Everything before was shown, so the new ones
are next in their order. -/
theorem Balanced.ask (h : Balanced t pre q []) {asked : List (Exchange γ)}
    (hat : ∀ x ∈ asked, x.isAt q = true) (hbinding : asked.filterMap Exchange.binding? = []) :
    Balanced t (pre ++ asked.map .asked) q (givenIn asked) where
  instances := by
    obtain ⟨shown, hshown, hlength⟩ := h.instances
    rw [List.append_nil] at hshown
    refine ⟨shown, ?_, ?_⟩
    · rw [Event.calls_append, Event.calls_map_asked, askedAt_append, askedAt_all hat, givenIn_append,
        hshown]
    · rw [Event.next_append_asked, hlength]
  crossings := by
    rw [Event.calls_append, Event.calls_map_asked, askedAt_append, askedAt_all hat,
      List.filterMap_append, hbinding, List.append_nil, Event.next_append_asked]
    exact h.crossings

theorem Definition.Asks.binding? {place : Scope γ} {x : Exchange γ} (h : d.Asks r place x)
    (hkind : d.kind ≠ .reference) : x.binding? = none := by
  induction h with
  | attributes found => rfl
  | elements found => rfl
  | reference known answer => exact absurd rfl hkind
  | alternative child alternative asks ih =>
    apply ih
    intro hreference
    rw [Definition.isAlternative, hreference] at alternative
    cases alternative

theorem filterMap_binding?_asks {place : Scope γ} {asked : List (Exchange γ)}
    (hasks : ∀ x ∈ asked, d.Asks r place x) (hkind : d.kind ≠ .reference) :
    asked.filterMap Exchange.binding? = [] :=
  List.filterMap_eq_nil_iff.mpr fun x hx => (hasks x hx).binding? hkind

/-! ### New nodes -/

variable {node n : OutputNode}

theorem OutputNode.EmittedFor.of_bare (h : n.bare.EmittedFor d scope) : n.EmittedFor d scope :=
  ⟨h.kind, h.parent, h.origin, h.name, h.attributes, h.silent⟩

/-- What is known of a node that has just been emitted. -/
structure NewNode (t : OutputTree) (pre : List (Event γ)) (node : OutputNode) (d : Definition)
    (scope : Scope γ) (n : OutputNode) : Prop extends n.EmittedFor d scope where
  here : t.node? (Event.next pre) = some n
  bare : n.bare = node
  below : scope.parent < Event.next pre

theorem Written.newNode (hw : Written k context t record (pre ++ .emitted node :: post))
    (h : node.EmittedFor d scope) (hlt : scope.parent < Event.next pre) :
    ∃ n, NewNode t pre node d scope n := by
  obtain ⟨n, hn, rfl⟩ := hw.node?_next
  exact ⟨n, h.of_bare, hn, rfl, hlt⟩

/-- Where a new node is neither hosted nor attached as a reference, nothing is touched. -/
theorem Untouched.emitted (hhosted : t.isHosted q (Event.next pre) = false)
    (hcrossing : t.isCrossing q (Event.next pre) = false) :
    Untouched t pre [.emitted node] q := by
  have hlast : ∀ id, Event.next pre ≤ id → id < Event.next (pre ++ [.emitted node]) →
      id = Event.next pre := by
    intro id hlo hhi
    rw [Event.next_concat_emitted] at hhi
    exact Nat.le_antisymm (Nat.le_of_lt_succ hhi) hlo
  refine ⟨rfl, fun id hlo hhi => ?_, fun id hlo hhi => ?_⟩
  · rw [hlast id hlo hhi]
    exact hhosted
  · rw [hlast id hlo hhi]
    exact hcrossing

namespace NewNode

variable (he : NewNode t pre node d scope n)

include he

theorem parent? : t.parent? (Event.next pre) = some scope.parent :=
  OutputTree.parent?_of_node? he.here he.parent

theorem emitted : t.Emitted d.kind.nodeKind scope.form d (Event.next pre) :=
  ⟨n, he.here, he.kind, he.origin⟩

theorem past (h : Past t pre) : Past t (pre ++ [.emitted node]) where
  asked x hx place hplace := by
    rw [Event.calls_append, Event.calls_emitted, Event.calls_nil, List.append_nil] at hx
    exact Nat.lt_of_lt_of_le (h.asked x hx place hplace) Event.next_le_append
  parents id hid p hp := by
    rw [Event.next_concat_emitted] at hid
    rcases Nat.lt_succ_iff_lt_or_eq.mp hid with hlt | rfl
    · exact h.parents id hlt p hp
    · rw [he.parent?] at hp
      cases hp
      exact he.below

theorem isInstance :
    t.isInstance (Event.next pre) = decide (d.kind = .element ∨ d.kind = .attribute) := by
  rw [OutputTree.isInstance_of_kind he.here, he.kind]
  cases d.kind <;> rfl

theorem isReference : t.isReference (Event.next pre) = decide (d.kind = .reference) := by
  rw [OutputTree.isReference_of_kind he.here, he.kind]
  cases d.kind <;> rfl

theorem isGroup : t.isGroup (Event.next pre) = decide (d.kind = .choice) := by
  rw [OutputTree.isGroup_of_kind he.here, he.kind]
  cases d.kind <;> rfl

/-- A new node counts for the host of its parent, if it shows an instance. -/
theorem isHosted : t.isHosted q (Event.next pre) =
    (decide (d.kind = .element ∨ d.kind = .attribute) && decide (t.host scope.parent = q)) := by
  rw [OutputTree.isHosted, he.isInstance, he.parent?, Option.any_some]

/-- A new node counts for its parent, if it is that of a reference. -/
theorem isCrossing : t.isCrossing q (Event.next pre) =
    (decide (d.kind = .reference) && decide (scope.parent = q)) := by
  rw [OutputTree.isCrossing, he.isReference, he.parent?]
  simp only [Option.some.injEq]

/-- Beneath every node but that of a reference, definitions belong to the same form as above it. -/
theorem formAt? (hkind : d.kind ≠ .reference) :
    t.formAt? r (Event.next pre) = some scope.form := by
  rw [OutputTree.formAt?, he.here, Option.bind_some, he.origin]
  obtain ⟨head, cs⟩ := d
  cases head with
  | reference ref => exact absurd rfl hkind
  | _ => rfl

/-- A new node records what it is emitted for. -/
theorem records (hform : t.formAt? k.registry scope.parent = some scope.form)
    (hportrays : d.kind = .element ∨ d.kind = .attribute →
      ∃ found, k.Portrays t record (Event.next pre) found) :
    ∀ id, Event.next pre ≤ id → id < Event.next (pre ++ [.emitted node]) →
      k.Records t record id := by
  intro id hlo hhi
  rw [Event.next_concat_emitted] at hhi
  obtain rfl : id = Event.next pre := Nat.le_antisymm (Nat.le_of_lt_succ hhi) hlo
  exact ⟨n, d, scope, he.here, he.toEmittedFor, hform, hportrays⟩

/-- What is beneath a node that hosts for itself starts even. -/
theorem even (hpast : Past t pre) : Balanced t (pre ++ [.emitted node]) (Event.next pre) [] := by
  refine .latest (he.past hpast) (fun x hx place hplace => ?_) Event.next_concat_emitted
  rw [Event.calls_append, Event.calls_emitted, Event.calls_nil, List.append_nil] at hx
  exact hpast.asked x hx place hplace

end NewNode

/-! ### Nodes of groups -/

section Group

variable (he : NewNode t pre node d scope n) (hkind : d.kind = .choice)

include he hkind

/-- A group adds neither an instance nor a reference to any node. -/
theorem NewNode.untouched_group (q : NodeId) : Untouched t pre [.emitted node] q := by
  apply Untouched.emitted
  · rw [he.isHosted, hkind]
    rfl
  · rw [he.isCrossing, hkind]
    rfl

/-- The node of a group leaves the counting to the node above. -/
theorem NewNode.host_group : t.host (Event.next pre) = t.host scope.parent :=
  OutputTree.host_group he.here he.parent he.below (by rw [he.kind, hkind]; rfl)

/-- One node further down, at the node of a group: neither the form nor the innermost instance
changes. -/
theorem Starts.grouped (h : Starts k t record pre scope) :
    Starts k t record (pre ++ [.emitted node]) (scope.withParent (Event.next pre)) where
  known := by
    rw [Event.next_concat_emitted]
    exact Nat.lt_succ_self _
  past := he.past h.past
  form := he.formAt? (by rw [hkind]; decide)
  surrounds := by
    have hnode : n.kind = .choice := by rw [he.kind, hkind]; rfl
    have hne : n.kind ≠ .reference := by rw [hnode]; decide
    -- a group is passed on the way up, to the form and to the instance of its parent
    refine ⟨?_, ?_⟩
    · show FormAt k.registry k.root t record (t.entrance? (Event.next pre)) _ _
      rw [OutputTree.entrance?_other he.here he.parent he.below hne]
      exact h.surrounds.form
    · show InstanceAt k.binder t record _ (t.instance? (Event.next pre)) _
      rw [OutputTree.instance?_group he.here he.parent he.below hnode]
      exact h.surrounds.context

end Group

/-! ### Nodes of instances -/

/-- What a node portrays it was produced by. -/
theorem Task.Portrays.producedBy {id : NodeId} {found : γ} (h : k.Portrays t record id found) :
    t.ProducedBy k.binder record id found := by
  obtain ⟨n, p, known, hn, -, hknown, horder, -, hvalue⟩ := h
  obtain ⟨later, rfl⟩ := hknown
  refine ⟨⟨t.host p, ?_⟩, n, _, hn, hvalue⟩
  rw [askedAt_append, givenIn_append]
  exact mem_zip_append_right horder

section Instance

variable (he : NewNode t pre node d scope n) (hkind : d.kind = .element ∨ d.kind = .attribute)

include he hkind

/-- The node of an instance is counted at the host of its parent, and nowhere else. -/
theorem NewNode.untouched_instance (hne : q ≠ t.host scope.parent) :
    Untouched t pre [.emitted node] q := by
  apply Untouched.emitted
  · rw [he.isHosted, decide_eq_false (Ne.symm hne), Bool.and_false]
  · rw [he.isCrossing]
    rcases hkind with hkind | hkind <;> rw [hkind] <;> rfl

theorem NewNode.host_instance : t.host (Event.next pre) = Event.next pre := by
  apply OutputTree.host_of_not_group
  rw [he.isGroup]
  rcases hkind with hkind | hkind <;> rw [hkind] <;> rfl

theorem NewNode.isHosted_instance : t.isHosted (t.host scope.parent) (Event.next pre) = true := by
  rw [he.isHosted, decide_eq_true hkind, decide_eq_true rfl]
  rfl

variable {found : γ} {rest : List γ}

/-- The first of the pending instances is shown. -/
theorem Balanced.shown (h : Balanced t pre (t.host scope.parent) (found :: rest)) :
    Balanced t (pre ++ [.emitted node]) (t.host scope.parent) rest where
  instances := by
    obtain ⟨shown, hshown, hlength⟩ := h.instances
    -- nothing was asked in between; one node more is hosted, and it is the one for `found`
    refine ⟨shown ++ [found], ?_, ?_⟩
    · rw [Event.calls_append, Event.calls_emitted, Event.calls_nil, List.append_nil, hshown,
        List.append_assoc]
      rfl
    · rw [Event.next_concat_emitted, List.range_succ, List.filter_append, List.filter_singleton,
        he.isHosted_instance hkind, cond_true, List.length_append, List.length_append, hlength]
      rfl
  crossings := by
    have hcrossing : t.isCrossing (t.host scope.parent) (Event.next pre) = false := by
      rw [he.isCrossing]
      rcases hkind with hkind | hkind <;> rw [hkind] <;> rfl
    rw [Event.calls_append, Event.calls_emitted, Event.calls_nil, List.append_nil,
      Event.next_concat_emitted, List.range_succ, List.filter_append, List.filter_singleton, hcrossing,
      cond_false, List.append_nil]
    exact h.crossings

/-- The new node portrays the first of the pending instances. -/
theorem NewNode.portrays (hw : Written k context t record (pre ++ .emitted node :: post))
    (hpast : Past t pre) (h : Balanced t pre (t.host scope.parent) (found :: rest))
    (hvalue : node.value =
      k.binder.value (k.binder.replay k.state (k.prelude context ++ Event.calls pre)) found) :
    k.Portrays t record (Event.next pre) found := by
  obtain ⟨shown, hshown, hlength⟩ := h.instances
  have hsize : Event.next pre < t.size := by
    rw [hw.size, Event.next_append, Event.nodes_emitted, List.length_cons]
    exact Nat.lt_add_of_pos_right (Nat.succ_pos _)
  -- the new node follows upon as many hosted ones as there are instances before the first pending
  -- one
  obtain ⟨later, hlater⟩ := range_filter_split hsize (he.isHosted_instance hkind)
  refine ⟨n, scope.parent, _, he.here, he.parent, hw.calls_before, ?_, ?_, ?_⟩
  · rw [OutputTree.hosted, hlater, k.askedAt_prelude, hshown]
    exact mem_zip_split hlength.symm
  · -- nothing is asked at a node before it is there
    rw [k.askedAt_prelude, askedAt_calls_eq_nil hpast.asked]
  · rw [← hvalue, ← he.bare]
    rfl

/-- One node further down, at the node of an instance: that instance becomes the innermost one, and
the form stays the same. -/
theorem Starts.within (h : Starts k t record pre scope)
    (hproduced : t.ProducedBy k.binder record (Event.next pre) found) :
    Starts k t record (pre ++ [.emitted node]) (scope.descend found (Event.next pre)) where
  known := by
    rw [Event.next_concat_emitted]
    exact Nat.lt_succ_self _
  past := he.past h.past
  form := he.formAt? (by rcases hkind with hkind | hkind <;> rw [hkind] <;> decide)
  surrounds := by
    have hnode : n.kind = .element ∨ n.kind = .attribute := by
      rw [he.kind]
      rcases hkind with hkind | hkind <;> rw [hkind]
      · exact Or.inl rfl
      · exact Or.inr rfl
    have hne : n.kind ≠ .reference := by
      rcases hnode with hnode | hnode <;> rw [hnode] <;> decide
    -- on the way up to the form an instance is passed; the innermost instance is the node itself
    refine ⟨?_, ?_⟩
    · show FormAt k.registry k.root t record (t.entrance? (Event.next pre)) _ _
      rw [OutputTree.entrance?_other he.here he.parent he.below hne]
      exact h.surrounds.form
    · show InstanceAt k.binder t record _ (t.instance? (Event.next pre)) _
      rw [OutputTree.instance?_instance he.here he.parent he.below hnode]
      exact .within hproduced

/-- At the node of an instance the children of its definition are bound. -/
theorem NewNode.definitionsAt_instance : t.definitionsAt r (Event.next pre) = d.children := by
  rw [OutputTree.definitionsAt, he.here, Option.bind_some, he.origin, Option.map_some]
  obtain ⟨head, cs⟩ := d
  match head with
  | .attribute i | .element i => rfl
  | .choice g | .reference ref | .extension x => rcases hkind with hkind | hkind <;> cases hkind

end Instance

/-! ### Nodes of references -/

theorem isAt_bound (scope : Scope γ) (form : Form) (answer : Option γ) :
    (Exchange.bound (some scope) form answer).isAt scope.parent = true :=
  decide_eq_true rfl

theorem askedAt_cons {x : Exchange γ} {record : List (Exchange γ)} (h : x.isAt q = true) :
    askedAt (x :: record) q = x :: askedAt record q :=
  List.filter_cons_of_pos h

section Crossing

variable {ref : Reference} {cs : List Definition} {target : Form} {answer : Option γ}
  (he : NewNode t pre node (.node (.reference ref) cs) scope n)

include he

theorem NewNode.untouched_reference (hne : q ≠ scope.parent) : Untouched t pre [.emitted node] q := by
  apply Untouched.emitted
  · rw [he.isHosted]
    rfl
  · rw [he.isCrossing, decide_eq_false (Ne.symm hne), Bool.and_false]

theorem NewNode.host_reference : t.host (Event.next pre) = Event.next pre := by
  apply OutputTree.host_of_not_group
  rw [he.isGroup]
  rfl

theorem NewNode.isCrossing_reference : t.isCrossing scope.parent (Event.next pre) = true := by
  rw [he.isCrossing, decide_eq_true rfl]
  rfl

/-- A reference has its node, and its target is bound. -/
theorem Balanced.crossed (h : Balanced t pre scope.parent []) (form : Form) :
    Balanced t (pre ++ [.emitted node, .asked (.bound (some scope) form answer)]) scope.parent [] where
  instances := by
    obtain ⟨shown, hshown, hlength⟩ := h.instances
    -- the question is asked at the parent, but what it gives is not an instance of an element there
    have hat := isAt_bound scope form answer
    have hhosted : t.isHosted scope.parent (Event.next pre) = false := by
      rw [he.isHosted]
      rfl
    refine ⟨shown, ?_, ?_⟩
    · rw [Event.calls_append, Event.calls_emitted, Event.calls_asked, Event.calls_nil, askedAt_append,
        askedAt_cons hat, givenIn_append, hshown, List.append_assoc]
      rfl
    · rw [Event.next_append, Event.nodes_emitted, Event.nodes_asked, Event.nodes_nil,
        List.length_singleton, List.range_succ, List.filter_append, List.filter_singleton, hhosted,
        cond_false, List.append_nil, hlength]
  crossings := by
    have hat := isAt_bound scope form answer
    rw [Event.calls_append, Event.calls_emitted, Event.calls_asked, Event.calls_nil, askedAt_append,
      askedAt_cons hat, List.filterMap_append, Event.next_append, Event.nodes_emitted,
      Event.nodes_asked, Event.nodes_nil, List.length_singleton, List.range_succ, List.filter_append,
      List.filter_singleton, he.isCrossing_reference, cond_true, List.length_append,
      List.length_append, h.crossings]
    rfl

/-- The form of a reference was bound for the new node: as many references were attached before as
there were bindings, so that the two go together. -/
theorem NewNode.enteredBy {form : Form} (hw : Written k context t record
      (pre ++ .emitted node :: .asked (.bound (some scope) form answer) :: post))
    (h : Balanced t pre scope.parent []) :
    t.EnteredBy record (Event.next pre) scope form answer := by
  have hsize : Event.next pre < t.size := by
    rw [hw.size, Event.next_append, Event.nodes_emitted, List.length_cons]
    exact Nat.lt_add_of_pos_right (Nat.succ_pos _)
  have hat := isAt_bound scope form answer
  obtain ⟨later, hlater⟩ := range_filter_split hsize he.isCrossing_reference
  show (_, _) ∈ (t.crossingsAt scope.parent).zip
    ((askedAt record scope.parent).filterMap Exchange.binding?)
  rw [OutputTree.crossingsAt, hlater, hw.asked, Event.calls_append, Event.calls_emitted,
    Event.calls_asked, askedAt_append, askedAt_cons hat, List.filterMap_append]
  exact mem_zip_split h.crossings.symm

/-- A form is entered at the node of a reference. -/
theorem Starts.entered (known : k.registry.get? ref.target = some target)
    (hentered : t.EnteredBy record (Event.next pre) scope target answer)
    (hpast : Past t (pre ++ [.emitted node, .asked (.bound (some scope) target
      answer)])) :
    Starts k t record
      (pre ++ [.emitted node, .asked (.bound (some scope) target answer)])
      (.top target (answer.getD scope.context) (Event.next pre)) where
  known := by
    rw [Event.next_append]
    exact Nat.lt_succ_self _
  past := hpast
  form := by
    show t.formAt? k.registry (Event.next pre) = some target
    rw [OutputTree.formAt?, he.here, Option.bind_some, he.origin]
    exact known
  surrounds := by
    have hleads : t.LeadsTo k.registry (Event.next pre) target := ⟨scope.form, ref, cs, he.emitted, known⟩
    -- a reference is where the target is entered, and no instance lies between
    refine ⟨?_, ?_⟩
    · show FormAt k.registry k.root t record (t.entrance? (Event.next pre)) _ _
      rw [OutputTree.entrance?_reference he.here he.parent he.below he.kind]
      exact .entered hleads hentered
    · show InstanceAt k.binder t record _ (t.instance? (Event.next pre)) _
      rw [OutputTree.instance?_reference he.here he.parent he.below he.kind]
      exact .top

/-- At the node of a reference the children of its target are bound. -/
theorem NewNode.definitionsAt_reference (known : r.get? ref.target = some target) :
    t.definitionsAt r (Event.next pre) = target.children := by
  rw [OutputTree.definitionsAt, he.here, Option.bind_some, he.origin, Option.map_some]
  simp only [known, Option.map_some, Option.getD_some]

end Crossing

end Step

end FormSchema
