import FormSchema.Proofs.Binding.Builders.Histories
import FormSchema.Proofs.Output.Preorder
import FormSchema.Proofs.Binding.Groups.Questions
import FormSchema.Proofs.Binding.Walk.Jobs

/-!
# Growing at one node

Whatever is bound at a position, the output grows at the node of the position and nowhere else: the node gets
children at the end, and all that is beneath a child is attached before the next one is. This holds of the
binding of any definition, with any builders of the library, and whether or not it succeeds.

What is asked meanwhile is told apart by its place. At the node of the position it is asked for the
definitions that are bound there; all else is asked at new nodes, and at the node of a group only for what
the extension points of the group wrap.

A part of a run is described by what it adds: the numbers of the new children, the questions, and
what is known of both in every later tree that keeps the new nodes. Nodes that are complete are kept
by all that follows, so what is found out about a part remains true until the end of the run, and
parts can be put together in any number.

* `Run.Grows` — a part of a run grows a node and asks; **`Run.Grows.seq`**, **`Run.Grows.bud`** put parts
  together.
* `Presented` — the nodes that stand for the only active alternative of a group.
* `Engine.settle`, **`Engine.build_choice_settled`** — what is left to do for a group once it is resolved.
* **`Engine.perform_grows`** — every job grows the node of its position, by induction over jobs.
-/

namespace FormSchema

variable {σ γ α : Type}

/-! ## Definitions bound at a place -/

/-- Where the definition `e` is bound, `d` may be: it is `e`, or `e` is an extension point and `d`
is bound in place of a definition that it wraps. Builders that inline bind what is wrapped at the
position of the extension point, and extension points may wrap one another. -/
inductive Definition.InPlaceOf (d : Definition) : Definition → Prop where
  | self : InPlaceOf d d
  | wrapped {x : Extension} {cs : List Definition} {c : Definition} (child : c ∈ cs)
      (inner : InPlaceOf d c) : InPlaceOf d (.node (.extension x) cs)

/-- A question is asked for one of the definitions that are bound at a place. -/
def Definition.AskedFor (r : Registry) (place : Scope γ) (ds : List Definition) (x : Exchange γ) : Prop :=
  ∃ e ∈ ds, ∃ d : Definition, d.InPlaceOf e ∧ d.Asks r place x

/-- A node is emitted for one of the definitions that are bound at a place. -/
def OutputTree.EmittedFrom (tree : OutputTree) (form : Form) (ds : List Definition) (id : NodeId) : Prop :=
  ∃ e ∈ ds, ∃ d : Definition, d.InPlaceOf e ∧ tree.Emitted d.kind.nodeKind form d id

namespace Definition

variable {r : Registry} {place : Scope γ} {ds ds' : List Definition} {d : Definition} {x : Exchange γ}

/-- What is asked for definitions is asked at the place where they are bound. -/
theorem AskedFor.place? (h : AskedFor r place ds x) : x.place? = some place := by
  obtain ⟨e, -, d, -, hasks⟩ := h
  exact hasks.place?

theorem AskedFor.mono (h : AskedFor r place ds x) (hsub : ds ⊆ ds') : AskedFor r place ds' x := by
  obtain ⟨e, he, hd⟩ := h
  exact ⟨e, hsub he, hd⟩

/-- What is asked for what an extension point wraps is asked for the extension point. -/
theorem AskedFor.wrapped {point : Extension} (h : AskedFor r place ds x) :
    AskedFor r place [.node (.extension point) ds] x := by
  obtain ⟨e, he, d, hd, hasks⟩ := h
  exact ⟨_, List.mem_singleton.mpr rfl, d, .wrapped he hd, hasks⟩

/-- What a definition asks is asked for it. -/
theorem Asks.askedFor (h : d.Asks r place x) : AskedFor r place [d] x :=
  ⟨d, List.mem_singleton.mpr rfl, d, .self, h⟩

end Definition

namespace OutputTree

variable {r : Registry} {t t' tree : OutputTree} {form : Form} {ds ds' : List Definition} {d : Definition}
  {p id lo lo' : NodeId} {ids : List NodeId} {x : Exchange γ}

theorem EmittedFrom.mono (h : tree.EmittedFrom form ds id) (hsub : ds ⊆ ds') :
    tree.EmittedFrom form ds' id := by
  obtain ⟨e, he, hd⟩ := h
  exact ⟨e, hsub he, hd⟩

/-- What is emitted for what an extension point wraps is emitted for the extension point. -/
theorem EmittedFrom.wrapped {point : Extension} (h : tree.EmittedFrom form ds id) :
    tree.EmittedFrom form [.node (.extension point) ds] id := by
  obtain ⟨e, he, d, hd, hemitted⟩ := h
  exact ⟨_, List.mem_singleton.mpr rfl, d, .wrapped he hd, hemitted⟩

/-- A node of a definition is emitted for it. -/
theorem Emitted.emittedFrom (h : tree.Emitted d.kind.nodeKind form d id) : tree.EmittedFrom form [d] id :=
  ⟨d, List.mem_singleton.mpr rfl, d, .self, h⟩

/-- A question is asked at one of the nodes from `lo` on. If that is the node of a group, it is
asked for what the extension points of the group wrap. Nothing else is asked at the node of a group,
since its alternatives have been asked for at the place of the outermost group. -/
def AskedBeneath (r : Registry) (tree : OutputTree) (lo : NodeId) (x : Exchange γ) : Prop :=
  ∃ place, x.place? = some place ∧ lo ≤ place.parent ∧
    ∀ form d, tree.Emitted .choice form d place.parent →
      Definition.AskedFor r place (Definition.extensions d.children) x

theorem AskedBeneath.mono (h : tree.AskedBeneath r lo' x) (hle : lo ≤ lo') : tree.AskedBeneath r lo x := by
  obtain ⟨place, hplace, hlo, hgroup⟩ := h
  exact ⟨place, hplace, Nat.le_trans hle hlo, hgroup⟩

/-- From the node `lo` on, a later tree has the nodes of a tree as they were. Older nodes may have
changed: they may have got children. -/
def KeptIn (t : OutputTree) (lo : NodeId) (tree : OutputTree) : Prop :=
  ∀ id, lo ≤ id → id < t.size → tree.node? id = t.node? id

theorem KeptIn.mono (h : t.KeptIn lo tree) (hle : lo ≤ lo') : t.KeptIn lo' tree :=
  fun id hid => h id (Nat.le_trans hle hid)

/-- What grows at an older node changes none of them. -/
theorem KeptIn.of_sprouts (h : t'.KeptIn lo tree) (hs : t.Sprouts p t' ids) (hp : p < lo) :
    t.KeptIn lo tree := by
  intro id hlo hid
  rw [h id hlo (Nat.lt_of_lt_of_le hid hs.size),
    hs.others id hid (Nat.ne_of_gt (Nat.lt_of_lt_of_le hp hlo))]

end OutputTree

/-! ## Parts of runs

A ledger says which questions a binder keeps a record of. With the one that keeps none the
statements are about all binders, and with the one that keeps all of them they tell what was asked. -/

section Grows

variable (r : Registry) (L : Ledger σ γ)

/-- From any session, a part of a run grows the node `p`, whatever it comes to. What is asked is admitted by
`A`, or it is asked at new nodes. If the run succeeds, the new children are as `Q` says, in every later tree
that keeps the new nodes. -/
def Run.Grows (p : NodeId) (A : Exchange γ → Prop) (Q : OutputTree → List NodeId → Prop)
    (m : Run σ Unit) : Prop :=
  ∀ s result s', m.exec s = (result, s') → p < s.output.size →
    ∃ (ids : List NodeId) (xs : List (Exchange γ)), s.output.Sprouts p s'.output ids ∧
      L.read s'.state = L.read s.state ++ xs.filter L.notes ∧
      ∀ tree, s'.output.KeptIn s.output.size tree →
        (∀ x ∈ xs, A x ∨ tree.AskedBeneath r s.output.size x) ∧ (result = .ok () → Q tree ids)

end Grows

namespace Run.Grows

variable {r : Registry} {L : Ledger σ γ} {p : NodeId} {A A' : Exchange γ → Prop}
  {P P' Q Q' : OutputTree → List NodeId → Prop} {m m' : Run σ Unit}

theorem imp (h : Grows r L p A Q m) (hA : ∀ x, A x → A' x) (hQ : ∀ tree ids, Q tree ids → Q' tree ids) :
    Grows r L p A' Q' m := by
  intro s result s' hrun hp
  obtain ⟨ids, xs, hsprouts, hread, hlater⟩ := h s result s' hrun hp
  refine ⟨ids, xs, hsprouts, hread, fun tree hkept => ?_⟩
  obtain ⟨hasked, hdone⟩ := hlater tree hkept
  exact ⟨fun x hx => (hasked x hx).imp_left (hA x), fun hok => hQ tree ids (hdone hok)⟩

theorem pure (h : ∀ tree, Q tree []) : Grows r L p A Q (pure ()) := by
  intro s result s' hrun _
  rw [exec_pure] at hrun
  cases hrun
  exact ⟨[], [], .refl _ _, (List.append_nil _).symm, fun tree _ => ⟨nofun, fun _ => h tree⟩⟩

/-- A run that stops has grown nothing, and nothing is claimed of what it would have given. -/
theorem stop (err : RunError) : Grows r L p A Q (Run.stop err) := by
  intro s result s' hrun _
  rw [exec_stop] at hrun
  cases hrun
  exact ⟨[], [], .refl _ _, (List.append_nil _).symm, fun tree _ => ⟨nofun, nofun⟩⟩

theorem stop_bind (err : RunError) (f : α → Run σ Unit) :
    Grows r L p A Q (Run.stop err >>= f) :=
  stop err

/-- **One part after the other**, at the same node. -/
theorem seq (h : Grows r L p A P m) (h' : Grows r L p A P' m')
    (hQ : ∀ tree ids ids', P tree ids → P' tree ids' → Q tree (ids ++ ids')) :
    Grows r L p A Q (m >>= fun _ => m') := by
  intro s result s'' hrun hp
  rw [exec_bind] at hrun
  rcases hfirst : m.exec s with ⟨err | ⟨⟨⟩⟩, s'⟩
  · rw [hfirst] at hrun
    cases hrun
    obtain ⟨ids, xs, hsprouts, hread, hlater⟩ := h s _ _ hfirst hp
    exact ⟨ids, xs, hsprouts, hread, fun tree hkept => ⟨(hlater tree hkept).1, nofun⟩⟩
  · rw [hfirst] at hrun
    obtain ⟨ids, xs, hsprouts, hread, hlater⟩ := h s _ _ hfirst hp
    obtain ⟨ids', xs', hsprouts', hread', hlater'⟩ :=
      h' s' result s'' hrun (Nat.lt_of_lt_of_le hp hsprouts.size)
    -- the second part only grows the same older node, so that the nodes of the first are kept
    refine ⟨ids ++ ids', xs ++ xs', hsprouts.trans hsprouts' hp, ?_, fun tree hkept => ?_⟩
    · rw [hread', hread, List.filter_append, List.append_assoc]
    · obtain ⟨hasked, hdone⟩ := hlater tree (hkept.of_sprouts hsprouts' hp)
      obtain ⟨hasked', hdone'⟩ := hlater' tree (hkept.mono hsprouts.size)
      refine ⟨fun x hx => ?_, fun hok => hQ tree ids ids' (hdone rfl) (hdone' hok)⟩
      rcases List.mem_append.mp hx with hx | hx
      · exact hasked x hx
      · exact (hasked' x hx).imp_right (·.mono hsprouts.size)

/-- Questions that are admitted come first. -/
theorem ask {action : StateM σ α} {f : α → Run σ Unit}
    (h : ∀ s, ∃ xs : List (Exchange γ),
      L.read (action s).2 = L.read s ++ xs.filter L.notes ∧ ∀ x ∈ xs, A x)
    (hf : ∀ a, Grows r L p A Q (f a)) : Grows r L p A Q (Run.ask action >>= f) := by
  intro s result s' hrun hp
  rw [exec_bind, exec_ask] at hrun
  obtain ⟨xs, hread, hadmitted⟩ := h s.state
  obtain ⟨ids, ys, hsprouts, hread', hlater⟩ := hf _ _ result s' hrun hp
  refine ⟨ids, xs ++ ys, hsprouts, ?_, fun tree hkept => ?_⟩
  · rw [hread', hread, List.filter_append, List.append_assoc]
  · obtain ⟨hasked, hdone⟩ := hlater tree hkept
    refine ⟨fun x hx => ?_, hdone⟩
    rcases List.mem_append.mp hx with hx | hx
    · exact Or.inl (hadmitted x hx)
    · exact hasked x hx

theorem check_bind {c : Cardinality} {n : Nat} {kind : DefinitionKind} {label : String}
    {path : NodePath} {f : Unit → Run σ Unit} (h : Grows r L p A Q (f ())) :
    Grows r L p A Q (Run.check c n kind label path >>= f) := by
  rw [Run.check]
  cases c.check n with
  | none => exact h
  | some v => exact stop_bind _ f

theorem check {c : Cardinality} {n : Nat} {kind : DefinitionKind} {label : String} {path : NodePath}
    (h : ∀ tree, Q tree []) : Grows r L p A Q (Run.check c n kind label path) := by
  rw [← bind_pure_unit (x := Run.check c n kind label path)]
  exact check_bind (pure h)

/-- A loop that attaches nodes of the same sort. -/
theorem forM {ι : Type} {S : OutputTree → NodeId → Prop} {xs : List ι} {f : ι → Run σ Unit}
    (h : ∀ x ∈ xs, Grows r L p A (fun tree ids => ∀ id ∈ ids, S tree id) (f x)) :
    Grows r L p A (fun tree ids => ∀ id ∈ ids, S tree id) (xs.forM f) := by
  induction xs with
  | nil => exact pure fun _ => nofun
  | cons x xs ih =>
    obtain ⟨hx, hxs⟩ := List.forall_mem_cons.mp h
    refine seq hx (ih hxs) fun tree ids ids' hids hids' id hid => ?_
    exact (List.mem_append.mp hid).elim (hids id) (hids' id)

/-- **A new node, and what grows at it.** Whatever is asked at the new node is asked beneath the older one. -/
theorem bud {m : Run σ α} {f : α → Run σ Unit} {R : α → NodeId → Prop} {N : OutputNode → Prop}
    {B : NodeId → Exchange γ → Prop}
    (hm : ∀ s : Session σ, p < s.output.size → ∃ a t n, m.exec s = (.ok a, { s with output := t }) ∧
      s.output.Buds p t n ∧ N n ∧ R a s.output.size)
    (hf : ∀ a q, R a q → Grows r L q (fun x => A x ∨ B q x) P (f a))
    (hB : ∀ q x, B q x → ∃ place, x.place? = some place ∧ place.parent = q ∧
      ∀ n form d, N n → n.kind = .choice → n.origin = some ⟨form, .definition d⟩ →
        Definition.AskedFor r place (Definition.extensions d.children) x)
    (hQ : ∀ tree q n ids, N n → tree.node? q = some { n with children := ids.toArray } → P tree ids →
      Q tree [q]) :
    Grows r L p A Q (m >>= f) := by
  intro s result s' hrun hp
  obtain ⟨a, t, n, hexec, hbuds, hn, ha⟩ := hm s hp
  rw [exec_bind, hexec] at hrun
  have hnew : s.output.size < t.size := by
    rw [hbuds.size]
    exact Nat.lt_succ_self _
  obtain ⟨ids, xs, hsprouts, hread, hlater⟩ := hf a _ ha _ result s' hrun hnew
  refine ⟨[s.output.size], xs, hbuds.sprouts hp hsprouts, hread, fun tree hkept => ?_⟩
  have hnode : tree.node? s.output.size = some { n with children := ids.toArray } := by
    rw [hkept _ (Nat.le_refl _) (Nat.lt_of_lt_of_le hnew hsprouts.size), hsprouts.node n hbuds.node,
      hbuds.bare, Array.empty_append]
  obtain ⟨hasked, hdone⟩ := hlater tree (hkept.mono (Nat.le_of_lt hnew))
  refine ⟨fun x hx => ?_, fun hok => hQ tree _ n ids hn hnode (hdone hok)⟩
  -- what is asked at the new node is asked beneath the older one, and the rest further down
  rcases hasked x hx with (hadmitted | hat) | hbeneath
  · exact Or.inl hadmitted
  · obtain ⟨place, hplace, hparent, hgroup⟩ := hB _ x hat
    refine Or.inr ⟨place, hplace, Nat.le_of_eq hparent.symm, ?_⟩
    rintro form d ⟨n', hn', hkind, horigin⟩
    rw [hparent, hnode] at hn'
    cases hn'
    exact hgroup n form d hn hkind horigin
  · exact Or.inr (hbeneath.mono (Nat.le_of_lt hnew))

end Run.Grows

/-! ## Instances and groups

What is found for the elements of a group is called an assignment. It is all that emission depends
on: it decides which alternative is active, what the group is checked for, and which nodes there
are. -/

/-- A node was emitted for an instance of a definition, and shows what the binder says of the
instance. The binder may be in any state by then, since what it says of an instance may depend on
what it was asked before. -/
def OutputTree.Shows (b : Binder σ γ) (tree : OutputTree) (kind : NodeKind) (form : Form) (d : Definition)
    (found : γ) (id : NodeId) : Prop :=
  ∃ n st, tree.node? id = some n ∧ n.kind = kind ∧ n.origin = some ⟨form, .definition d⟩ ∧
    n.value = b.value st found

/-- The nodes that stand for the only active alternative of a group: one for every instance of an element, in
the order in which the instances were found, or that of a nested group. The node of a group has the nodes of
its own alternative as its first children, and after them those of its extension points. -/
inductive Presented (b : Binder σ γ) (tree : OutputTree) (form : Form) :
    Definition → Assignment γ → List NodeId → Prop where
  | element {i : Item} {cs : List Definition} {A : Assignment γ} {ids : List NodeId}
      (instances : List.Forall₂ (tree.Shows b .element form (.node (.element i) cs)) A.here ids) :
      Presented b tree form (.node (.element i) cs) A ids
  | group {c : Choice} {cs : List Definition} {A : Assignment γ} {d : Definition} {k : Nat} {id : NodeId}
      {winners others : List NodeId} (one : A.actives cs = [(d, k)])
      (emitted : tree.Emitted .choice form (.node (.choice c) cs) id)
      (children : tree.children id = winners ++ others)
      (winner : Presented b tree form d (A.within k) winners)
      (extensions : ∀ o ∈ others, tree.EmittedFrom form (Definition.extensions cs) o) :
      Presented b tree form (.node (.choice c) cs) A [id]

/-- Of an alternative exactly one thing is to be emitted: the instances of an element, or a group
of which one alternative is active. Then there is a winner, and it is not in conflict. -/
def Assignment.Decided (A : Assignment γ) : Definition → Prop
  | .node (.element _) _ => True
  | .node (.choice _) cs => ∃ x, A.actives cs = [x]
  | .node (.attribute _) _ | .node (.reference _) _ | .node (.extension _) _ => False

/-- The verdict on an active alternative stops the run, or it is decided. So whatever comes after
the verdict may rely on it. -/
theorem Run.Grows.verdict_bind {r : Registry} {L : Ledger σ γ} {p : NodeId} {K : Exchange γ → Prop}
    {Q : OutputTree → List NodeId → Prop} {m : Run σ Unit} {A : Assignment γ} {d : Definition}
    {path : NodePath} (hactive : Assignment.active d A = true)
    (h : A.Decided d → Run.Grows r L p K Q m) :
    Run.Grows r L p K Q (A.verdict path d >>= fun _ => m) := by
  match d with
  | .node (.element i) cs => exact check_bind (h trivial)
  | .node (.choice c) cs =>
    rw [Assignment.verdict]
    split
    · exact stop_bind _ _
    · next hone =>
      refine check_bind (h ?_)
      -- neither none, since the group is active, nor two, which would have stopped the run
      rw [Assignment.active_choice] at hactive
      rcases hactives : A.actives cs with _ | ⟨x, _ | ⟨y, rest⟩⟩
      · rw [hactives] at hactive
        cases hactive
      · exact ⟨x, hactives⟩
      · rw [hactives] at hone
        exact absurd (by simp) hone
  | .node (.attribute _) _ | .node (.reference _) _ | .node (.extension _) _ => cases hactive

namespace Engine

/-- What is left to do for a group once it is known what is found for its elements. It is what the
walk does with the outcome, told by the assignment and without the winner that the walk carries
along. -/
def settle (e : Engine σ γ) (entry : Entry σ γ) (c : Choice) (cs : List Definition) (A : Assignment γ)
    (scope : Scope γ) (path : NodePath) : Run σ Unit :=
  match A.actives cs with
  | [] => Run.check c.cardinality 0 .choice c.label path
  | [_] => do
    Run.check c.cardinality 1 .choice c.label path
    e.present entry (.node (.choice c) cs) A scope path
  | _ :: _ :: _ => Run.stop (.binding (conflictAt c.label (path.child c.label)))

/-- **A group is resolved first.** All that is left to do starts with the output as it was. -/
theorem build_choice_settled (e : Engine σ γ) (entry : Entry σ γ) (c : Choice) (cs : List Definition)
    {A : Assignment γ} (scope : Scope γ) (path : NodePath) {s : Session σ} {t : σ}
    (given : e.binder.AssignsGroup scope cs A s.state t) :
    (e.build entry (.node (.choice c) cs) scope path).exec s =
      (e.settle entry c cs A scope path).exec ⟨t, s.output⟩ := by
  obtain ⟨outcome, hresolve, hsettles⟩ : ∃ outcome, Definition.resolve e.binder scope c.label cs 0 none
      (path.child c.label) s.state = (outcome, t) ∧
        Settles A c.label (path.child c.label) (A.actives cs) outcome :=
    Definition.resolve_assigned given
  rw [build, Run.exec_bind, Run.exec_ask, hresolve, settle]
  generalize hactives : A.actives cs = actives at hsettles
  -- the three outcomes are those that the number of active alternatives allows
  cases hsettles with
  | absent => rfl
  | conflict => rfl
  | @active d k w crowned =>
    have hget : cs[k]? = some d := Assignment.getElem?_of_mem_actives (hactives ▸ List.mem_singleton.mpr rfl)
    dsimp only
    rw [present_choice hactives, emitGroup]
    simp only [Definition.children, hget, checkWinner_crowned crowned, emitAlternative_eq,
      emitWinner_crowned crowned]

variable {r : Registry} {limit : Nat} {builders : List LibraryBuilder} {b : Binder σ γ} {L : Ledger σ γ}
  {entry : Entry σ γ} {scope : Scope γ} {path : NodePath} {d : Definition} {cs : List Definition}
  {K : Exchange γ → Prop}

/-- The node of a definition, and what grows at it. What is asked at a new node is asked beneath
the older one. -/
theorem emit_grows {kind : NodeKind} {name : String} {f : NodeId → Run σ Unit}
    {B : NodeId → Exchange γ → Prop} {P Q : OutputTree → List NodeId → Prop}
    (hf : ∀ q, Run.Grows r L q (fun x => K x ∨ B q x) P (f q))
    (hB : ∀ q x, B q x → ∃ place, x.place? = some place ∧ place.parent = q ∧
      (kind = .choice → Definition.AskedFor r place (Definition.extensions d.children) x))
    (hQ : ∀ tree q, tree.Emitted kind scope.form d q → P tree (tree.children q) → Q tree [q]) :
    Run.Grows r L scope.parent K Q (emit scope kind name d >>= f) := by
  refine Run.Grows.bud (R := fun a q => a = q) (B := B) (P := P)
    (N := fun n => n.kind = kind ∧ n.origin = some ⟨scope.form, .definition d⟩) ?_ ?_ ?_ ?_
  · intro s hp
    obtain ⟨t, n, hemit, hbuds, hkind, -, horigin, -⟩ := emit_buds scope kind name d hp
    exact ⟨_, t, n, hemit, hbuds, ⟨hkind, horigin⟩, rfl⟩
  · rintro a q rfl
    exact hf a
  · -- the new node has this definition for its origin, so that its questions are those of its children
    intro q x hx
    obtain ⟨place, hplace, hparent, hgroup⟩ := hB q x hx
    refine ⟨place, hplace, hparent, ?_⟩
    rintro n form d' ⟨hkind, horigin⟩ hchoice horigin'
    rw [horigin] at horigin'
    cases horigin'
    exact hgroup (hkind.symm.trans hchoice)
  · rintro tree q n ids ⟨hkind, horigin⟩ hnode hP
    refine hQ tree q ⟨_, hnode, hkind, horigin⟩ ?_
    rwa [OutputTree.children_of_node? hnode]

theorem leaveComment_grows (point : Extension) :
    Run.Grows r L scope.parent K
      (fun tree ids => ∀ id ∈ ids, tree.EmittedFrom scope.form [.node (.extension point) cs] id)
      (LibraryBuilder.leaveComment scope point (.node (.extension point) cs)) := by
  rw [← bind_pure_unit (x := LibraryBuilder.leaveComment scope point (.node (.extension point) cs))]
  refine Run.Grows.bud (R := fun _ _ => True) (B := fun _ _ => False) (P := fun _ _ => True)
    (N := fun n => n.kind = .comment ∧
      n.origin = some ⟨scope.form, .definition (.node (.extension point) cs)⟩) ?_ ?_ ?_ ?_
  · intro s hp
    obtain ⟨t, n, hrun, hbuds, hkind, horigin⟩ :=
      leaveComment_buds scope point (.node (.extension point) cs) hp
    exact ⟨_, t, n, hrun, hbuds, ⟨hkind, horigin⟩, True.intro⟩
  · exact fun _ _ _ => .pure fun _ => True.intro
  · exact fun _ _ hx => hx.elim
  · rintro tree q n ids ⟨hkind, horigin⟩ hnode - id hid
    obtain rfl := List.mem_singleton.mp hid
    exact OutputTree.Emitted.emittedFrom ⟨_, hnode, hkind, horigin⟩

/-! ## The walk

The cases of the induction over jobs. A winner is judged together with an assignment that crowns it,
because the job alone does not tell which alternative was active. -/

/-- What a job grows at the node of its position, when `n` levels are left. Definitions are asked for, and nodes
are emitted for them. Of instances and winners nothing is asked. -/
def Growing (r : Registry) (limit : Nat) (builders : List LibraryBuilder) (b : Binder σ γ) (L : Ledger σ γ)
    (n : Nat) : Job γ → Prop
  | .one d => ∀ scope path, Run.Grows r L scope.parent (Definition.AskedFor r scope [d])
      (fun tree ids => ∀ id ∈ ids, tree.EmittedFrom scope.form [d] id)
      ((equipped r limit builders b).perform ((equipped r limit builders b).follow n) (.one d) scope path)
  | .all ds => ∀ scope path, Run.Grows r L scope.parent (Definition.AskedFor r scope ds)
      (fun tree ids => ∀ id ∈ ids, tree.EmittedFrom scope.form ds id)
      ((equipped r limit builders b).perform ((equipped r limit builders b).follow n) (.all ds) scope path)
  | .shown d found => d.kind = .element ∨ d.kind = .attribute →
      ∀ scope path, Run.Grows r L scope.parent (fun _ => False)
        (fun tree ids => List.Forall₂ (tree.Shows b d.kind.nodeKind scope.form d) found ids)
        ((equipped r limit builders b).perform ((equipped r limit builders b).follow n) (.shown d found)
          scope path)
  | .won d winner => ∀ A scope path, Crowned A d path winner → A.Decided d →
      Run.Grows r L scope.parent (fun _ => False) (fun tree ids => Presented b tree scope.form d A ids)
        ((equipped r limit builders b).perform ((equipped r limit builders b).follow n) (.won d winner)
          scope path)

variable {n : Nat}

/-- The node of an instance, and what grows at it. -/
theorem instance_grows (hkind : d.kind = .element ∨ d.kind = .attribute)
    (h : Growing r limit builders b L n (.all d.children)) (name : String) (scope : Scope γ)
    (path : NodePath) (found : γ) :
    Run.Grows r L scope.parent K
      (fun tree ids => ∃ q, ids = [q] ∧ tree.Shows b d.kind.nodeKind scope.form d found q)
      ((equipped r limit builders b).emitFound d.kind.nodeKind name d scope found >>= fun shown =>
        (equipped r limit builders b).perform ((equipped r limit builders b).follow n) (.all d.children)
          (scope.descend found shown.1) (path.child shown.2)) := by
  -- the node is no group, so questions at it are for definitions that are its own
  have hgroup : d.kind.nodeKind ≠ .choice := by
    rcases hkind with hkind | hkind <;> rw [hkind] <;> decide
  refine Run.Grows.bud (R := fun a q => a.1 = q) (P := fun _ _ => True)
    (B := fun q => Definition.AskedFor r (scope.descend found q) d.children)
    (N := fun n => n.kind = d.kind.nodeKind ∧ n.origin = some ⟨scope.form, .definition d⟩ ∧
      ∃ st, n.value = b.value st found) ?_ ?_ ?_ ?_
  · intro s hp
    obtain ⟨t, n, hemit, hbuds, hkind, hvalue, horigin, -⟩ :=
      emitFound_buds (equipped r limit builders b) d.kind.nodeKind name d scope found hp
    exact ⟨_, t, n, hemit, hbuds, ⟨hkind, horigin, s.state, hvalue⟩, rfl⟩
  · rintro ⟨q, entry⟩ _ rfl
    exact (h (scope.descend found q) _).imp (fun _ => Or.inr) fun _ _ _ => True.intro
  · intro q x hx
    refine ⟨_, hx.place?, rfl, fun n form d hn hchoice => absurd (hn.1.symm.trans hchoice) hgroup⟩
  · rintro tree q n ids ⟨hkind, horigin, st, hvalue⟩ hnode -
    exact ⟨q, rfl, _, st, hnode, hkind, horigin, hvalue⟩

/-- Nodes that stand for instances are emitted for their definition. -/
theorem emittedFrom_of_shows {tree : OutputTree} {form : Form} {found : List γ} {ids : List NodeId}
    (h : List.Forall₂ (tree.Shows b d.kind.nodeKind form d) found ids) :
    ∀ id ∈ ids, tree.EmittedFrom form [d] id := by
  induction h with
  | nil => exact fun _ hid => absurd hid List.not_mem_nil
  | cons hshows _ ih =>
    obtain ⟨n, st, hn, hkind, horigin, -⟩ := hshows
    exact List.forall_mem_cons.mpr ⟨OutputTree.Emitted.emittedFrom ⟨n, hn, hkind, horigin⟩, ih⟩

/-- A group that has a winner: the winner is checked, and then the node of the group is emitted. -/
theorem group_grows {c : Choice} {index : Nat} {winner : Winner γ}
    (h : ∀ d, cs[index]? = some d → Growing r limit builders b L n (.won d winner))
    (hextensions : Growing r limit builders b L n (.all (Definition.extensions cs))) :
    Growing r limit builders b L n (.won (.node (.choice c) cs) (.group (.active index winner))) := by
  intro A scope path hcrowned _
  cases hcrowned with
  | @group _ _ _ _ d _ _ one inner =>
    -- the winner is the only active alternative
    have hmem : (d, index) ∈ A.actives cs := one ▸ List.mem_singleton.mpr rfl
    have hget : cs[index]? = some d := Assignment.getElem?_of_mem_actives hmem
    rw [perform_group, hget, checkWinner_crowned inner]
    refine .verdict_bind (List.mem_filter.mp hmem).2 fun hdecided => ?_
    refine emit_grows (P := fun tree ids => ∃ winners others, ids = winners ++ others ∧
        Presented b tree scope.form d (A.within index) winners ∧
        ∀ o ∈ others, tree.EmittedFrom scope.form (Definition.extensions cs) o)
      (B := fun q => Definition.AskedFor r (scope.withParent q) (Definition.extensions cs)) ?_ ?_ ?_
    · intro q
      have hfirst := h d hget (A.within index) (scope.withParent q) (path.child c.label) inner hdecided
      have hrest := hextensions (scope.withParent q) (path.child c.label)
      refine .seq (hfirst.imp (fun _ => False.elim) fun _ _ => id)
        (hrest.imp (fun _ => Or.inr) fun _ _ => id) ?_
      exact fun tree ids ids' hids hids' => ⟨ids, ids', rfl, hids, hids'⟩
    · exact fun q x hx => ⟨_, hx.place?, rfl, fun _ => hx⟩
    · rintro tree q hemitted ⟨winners, others, hchildren, hwinners, hothers⟩
      exact .group one hemitted hchildren hwinners hothers

/-- Once it is known what is found for a group, nothing is asked for its alternatives. -/
theorem settled_grows {c : Choice}
    (h : ∀ index winner,
      Growing r limit builders b L n (.won (.node (.choice c) cs) (.group (.active index winner))))
    {A : Assignment γ} {s : Session σ} {t : σ} (given : b.AssignsGroup scope cs A s.state t)
    {result : Except RunError Unit} {s' : Session σ}
    (hrun : ((equipped r limit builders b).perform ((equipped r limit builders b).follow n)
      (.one (.node (.choice c) cs)) scope path).exec s = (result, s'))
    (hp : scope.parent < s.output.size) :
    ∃ (ids : List NodeId) (xs : List (Exchange γ)), s.output.Sprouts scope.parent s'.output ids ∧
      L.read s'.state = L.read t ++ xs.filter L.notes ∧
      ∀ tree, s'.output.KeptIn s.output.size tree →
        (∀ x ∈ xs, tree.AskedBeneath r s.output.size x) ∧
        (result = .ok () → A.actives cs = [] ∧ ids = [] ∨
          Presented b tree scope.form (.node (.choice c) cs) A ids) := by
  -- all questions of the group are asked here, and the output is still what it was
  obtain ⟨outcome, hresolve, hsettles⟩ : ∃ outcome, Definition.resolve b scope c.label cs 0 none
      (path.child c.label) s.state = (outcome, t) ∧
        Settles A c.label (path.child c.label) (A.actives cs) outcome :=
    Definition.resolve_assigned given
  rw [perform_choice, Run.exec_bind, Run.exec_ask, equipped_binder, hresolve] at hrun
  -- what is left to do depends on the outcome
  obtain ⟨m, hgrows, hrun⟩ : ∃ m : Run σ Unit, Run.Grows r L scope.parent (fun _ => False)
      (fun tree ids => A.actives cs = [] ∧ ids = [] ∨
        Presented b tree scope.form (.node (.choice c) cs) A ids) m ∧
      m.exec ⟨t, s.output⟩ = (result, s') := by
    generalize hactives : A.actives cs = actives at hsettles ⊢
    cases hsettles with
    | absent => exact ⟨_, .check fun _ => Or.inl ⟨rfl, rfl⟩, hrun⟩
    | conflict => exact ⟨_, .stop _, hrun⟩
    | @active d k w crowned =>
      have hwon := h k w A scope path (.group hactives crowned) ⟨_, hactives⟩
      exact ⟨_, .check_bind (hwon.imp (fun _ => id) fun _ _ => Or.inr), hrun⟩
  obtain ⟨ids, xs, hsprouts, hread, hlater⟩ := hgrows ⟨t, s.output⟩ result s' hrun hp
  refine ⟨ids, xs, hsprouts, hread, fun tree hkept => ?_⟩
  obtain ⟨hasked, hdone⟩ := hlater tree hkept
  exact ⟨fun x hx => (hasked x hx).resolve_left id, hdone⟩

/-- A group that is bound asks for its elements, and then for nothing at the same place. -/
theorem choice_grows (hb : b.Notes L) {c : Choice}
    (h : ∀ index winner,
      Growing r limit builders b L n (.won (.node (.choice c) cs) (.group (.active index winner)))) :
    Growing r limit builders b L n (.one (.node (.choice c) cs)) := by
  intro scope path s result s' hrun hp
  -- any binder assigns something to the elements of a group
  obtain ⟨A, t, given⟩ := b.exists_assigned scope cs s.state
  have hnoted : L.read t = L.read s.state ++
      ((Assignment.asked (.node (.choice c) cs) A).map (A.question scope)).filter L.notes :=
    Binder.Assigns.noted hb (d := .node (.choice c) cs) given
  obtain ⟨ids, xs, hsprouts, hread, hlater⟩ := settled_grows h given hrun hp
  refine ⟨ids, (Assignment.asked (.node (.choice c) cs) A).map (A.question scope) ++ xs, hsprouts, ?_,
    fun tree hkept => ?_⟩
  · rw [hread, hnoted, List.append_assoc, ← List.filter_append]
  · obtain ⟨hasked, hdone⟩ := hlater tree hkept
    refine ⟨fun x hx => ?_, fun hok id hid => ?_⟩
    · rcases List.mem_append.mp hx with hx | hx
      · obtain ⟨y, hy, rfl⟩ := List.mem_map.mp hx
        have hcontender := (Assignment.asked_sublist _ A).subset hy
        exact Or.inl (Definition.asks_of_mem_contenders hcontender).2.askedFor
      · exact Or.inr (hasked x hx)
    · rcases hdone hok with ⟨-, rfl⟩ | hpresented
      · cases hid
      · cases hpresented with
        | group _ emitted _ _ _ =>
          obtain rfl := List.mem_singleton.mp hid
          exact OutputTree.Emitted.emittedFrom emitted

/-- A reference grows the node of the position by a node of its own, at which the target is bound, and then
what the extension points of the reference wrap. -/
theorem reference_grows (hb : b.Notes L) {ref : Reference}
    (deeper : ∀ m < n, ∀ ds, Growing r limit builders b L m (.all ds))
    (hextensions : Growing r limit builders b L n (.all (Definition.extensions cs))) :
    Growing r limit builders b L n (.one (.node (.reference ref) cs)) := by
  intro scope path
  cases hget : r.get? ref.target with
  | none =>
    rw [perform_missing (by exact hget)]
    exact .stop _
  | some target =>
    cases n with
    | zero =>
      rw [perform_exhausted (by exact hget)]
      exact .stop _
    | succ m =>
      rw [perform_entered (by exact hget)]
      refine emit_grows (P := fun _ _ => True) (B := fun q x =>
        (∃ context, Definition.AskedFor r (Scope.top target context q) target.children x) ∨
          Definition.AskedFor r (scope.withParent q) (Definition.extensions cs) x) ?_ ?_ ?_
      · intro q
        refine .ask (fun s => ⟨_, hb.forms _ _ s, fun x hx => Or.inl ?_⟩) fun bound => ?_
        · obtain rfl := List.mem_singleton.mp hx
          exact Definition.Asks.askedFor (.reference hget _)
        · -- first the target beneath the new node, then the extension points of the reference at the same
          -- node
          have hinside := deeper m (Nat.lt_succ_self m) target.children
            (.top target (bound.getD scope.context) q) (path.child ref.label)
          have hrest := hextensions (scope.withParent q) (path.child ref.label)
          exact .seq (hinside.imp (fun x hx => Or.inr (Or.inl ⟨_, hx⟩)) fun _ _ _ => True.intro)
            (hrest.imp (fun x hx => Or.inr (Or.inr hx)) fun _ _ _ => True.intro) fun _ _ _ _ => id
      · rintro q x (⟨context, hx⟩ | hx)
        · exact ⟨_, hx.place?, rfl, fun h => nomatch h⟩
        · exact ⟨_, hx.place?, rfl, fun h => nomatch h⟩
      · rintro tree q hemitted - id hid
        obtain rfl := List.mem_singleton.mp hid
        exact hemitted.emittedFrom

/-- At an extension point comments are left, and what is wrapped is bound in its place. -/
theorem extension_grows {point : Extension} (h : Growing r limit builders b L n (.all cs)) :
    Growing r limit builders b L n (.one (.node (.extension point) cs)) := by
  intro scope path
  rw [perform, build_extension_equipped]
  refine .forM fun l _ => ?_
  cases l with
  | comment kinds => exact leaveComment_grows point
  | inline =>
    refine (h scope path).imp (fun x hx => hx.wrapped) fun tree ids hids id hid => ?_
    exact (hids id hid).wrapped

/-- **Every job grows the node of its position**, at every level, and whether or not it succeeds. -/
theorem perform_grows (hb : b.Notes L) (n : Nat) (job : Job γ) :
    Growing r limit builders b L n job := by
  induction n, job using Job.induct_levels with
  | nil n =>
    intro scope path
    rw [perform_nil]
    exact .pure fun _ _ hid => absurd hid List.not_mem_nil
  | cons n d ds hd hds =>
    intro scope path
    rw [perform_cons]
    have hfirst : [d] ⊆ d :: ds := List.cons_subset.mpr ⟨List.mem_cons_self, List.nil_subset _⟩
    have hrest : ds ⊆ d :: ds := List.subset_cons_self d ds
    refine .seq ((hd scope path).imp (fun x hx => hx.mono hfirst) fun _ _ => id)
      ((hds scope path).imp (fun x hx => hx.mono hrest) fun _ _ => id) ?_
    intro tree ids ids' hids hids' id hid
    rcases List.mem_append.mp hid with hid | hid
    · exact (hids id hid).mono hfirst
    · exact (hids' id hid).mono hrest
  | attributes n i cs ih =>
    intro scope path
    rw [perform_attribute]
    refine .ask (fun s => ⟨_, hb.attributes _ _ s, fun x hx => ?_⟩) fun found => .check_bind ?_
    · obtain rfl := List.mem_singleton.mp hx
      exact Definition.Asks.askedFor (.attributes _)
    · exact (ih _ (Or.inr rfl) scope path).imp (fun _ => False.elim) fun _ _ => emittedFrom_of_shows
  | elements n i cs ih =>
    intro scope path
    rw [perform_element]
    refine .ask (fun s => ⟨_, hb.elements _ _ s, fun x hx => ?_⟩) fun found => .check_bind ?_
    · obtain rfl := List.mem_singleton.mp hx
      exact Definition.Asks.askedFor (.elements _)
    · exact (ih _ (Or.inl rfl) scope path).imp (fun _ => False.elim) fun _ _ => emittedFrom_of_shows
  | choice n g cs ih => exact choice_grows hb ih
  | reference n ref cs deeper hextensions => exact reference_grows hb deeper hextensions
  | extension n point cs ih => exact extension_grows ih
  | shownNil n d =>
    intro hkind scope path
    rw [perform_shown_nil]
    exact .pure fun _ => .nil
  | shownCons n d c rest hinside hothers =>
    intro hkind scope path
    have hfirst := instance_grows (K := fun _ => False) hkind hinside d.nodeName scope path c
    have hsequence := Run.Grows.seq hfirst (hothers hkind scope path)
      (Q := fun tree ids =>
        List.Forall₂ (tree.Shows b d.kind.nodeKind scope.form d) (c :: rest) ids) ?_
    · rw [bind_assoc] at hsequence
      rw [perform_shown_cons]
      exact hsequence
    · rintro tree ids ids' ⟨q, rfl, hq⟩ hrest
      exact .cons hq hrest
  | wonElement n i cs found ih =>
    intro A scope path hcrowned _
    cases hcrowned with
    | element =>
      rw [perform_won_element]
      exact (ih (Or.inl rfl) scope path).imp (fun _ => id) fun _ _ => .element
  | wonGroup n g cs index winner hwinner hextensions => exact group_grows hwinner hextensions
  | idle n d winner hidle =>
    -- where exactly one thing is to be emitted, it is emitted
    rintro A scope path hcrowned hdecided
    cases hcrowned with
    | element => cases hidle
    | group one inner => cases hidle
    | conflict many =>
      obtain ⟨x, one⟩ := hdecided
      rw [one] at many
      exact absurd many (by simp)

end Engine

end FormSchema
