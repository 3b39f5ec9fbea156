import FormSchema.Proofs.Binding.Groups.Resolution
import FormSchema.Proofs.Binding.Walk.Jobs
import Mathlib

/-!
# Successful runs conform

Every run that succeeds produces a tree that conforms to the forms, whatever the binder answers and
however its answers depend on its state. The walk is followed definition by definition: binding one
yields its block, and emitting one as the winner of a group yields the children of the group's node.

A job leaves nodes behind at the node of its position, and a record of what was asked there. What
these have to be is laid down for every kind of job, and it is shown by induction over jobs that
they are. The nodes are judged in later trees as well: as soon as a node is complete nothing changes
it any more, so what is true of it then is true of it in the tree that is returned.

* `Fits` — what emission relies on when a group has a winner.
* **`Engine.perform_yields`** — every job leaves behind what it should, by induction over jobs.
* **`Engine.bind_conforms`** — all nodes of the tree of a successful run conform.
-/

namespace FormSchema

variable {σ γ : Type}

/-! ## Resolution

A group is resolved before any of its nodes is emitted, and the winner holds the instances that were
given as the answer to one of the questions. -/

/-- What resolution says of a winner, as far as emission relies on it. In contrast to a winner that
the binder gave, nothing is said of the path at which a conflict is reported, since emission does
not look at it. -/
inductive Fits (place : Scope γ) (asked : List (Exchange γ)) : Definition → Winner γ → Prop where
  | element {i : Item} {cs : List Definition} {found : List γ} (present : found ≠ [])
      (answered : .element place ⟨i, cs⟩ found ∈ asked) :
      Fits place asked (.node (.element i) cs) (.instances found)
  | group {c : Choice} {cs : List Definition} {index : Nat} {d : Definition} {winner : Winner γ}
      (hget : cs[index]? = some d) (hw : Fits place asked d winner) :
      Fits place asked (.node (.choice c) cs) (.group (.active index winner))
  | conflict {c : Choice} {cs : List Definition} {error : BindingError} :
      Fits place asked (.node (.choice c) cs) (.group (.conflict error))

/-- A winner that the binder gave is fit to be emitted. Its path is forgotten. -/
theorem Won.fits {place : Scope γ} {asked : List (Exchange γ)} {d : Definition} {path : NodePath}
    {winner : Winner γ} (h : Won place asked d path winner) : Fits place asked d winner := by
  induction h with
  | element present answered => exact .element present answered
  | group hget _ ih => exact .group hget ih
  | conflict => exact .conflict

/-! ## The walk -/

/-- What emitting the winner of a group leaves behind. For an element these are the nodes of its
instances, for a group the node of the group, and for a conflict nothing at all. -/
inductive Emits (b : Binder σ γ) (tree : OutputTree) (record : List (Exchange γ)) (form : Form)
    (place : Scope γ) (asked : List (Exchange γ)) : Definition → Winner γ → List NodeId → Prop where
  | instances {i : Item} {cs : List Definition} {found : List γ} {ids : List NodeId}
      (h : List.Forall₂ (StandsFor b tree record .element form (.node (.element i) cs)) found ids) :
      Emits b tree record form place asked (.node (.element i) cs) (.instances found) ids
  | group {c : Choice} {cs : List Definition} {index : Nat} {winner : Winner γ} {id : NodeId}
      (h : GroupNode b tree record form place asked (.node (.choice c) cs) id) :
      Emits b tree record form place asked (.node (.choice c) cs) (.group (.active index winner)) [id]
  | conflict {c : Choice} {cs : List Definition} {error : BindingError} :
      Emits b tree record form place asked (.node (.choice c) cs) (.group (.conflict error)) []

namespace Job

/-- What a job at a scope leaves behind: nodes, and what was asked for them at their parent. The
winner of a group was given when `asked` was asked at `place`. The nodes of a winner are not judged
at the scope of the group alone, because its instances were found at the place where the outermost
group was resolved. -/
def Leaves (r : Registry) (b : Binder σ γ) (place : Scope γ) (asked : List (Exchange γ)) (scope : Scope γ)
    (tree : OutputTree) (record : List (Exchange γ)) :
    Job γ → List NodeId → List (Exchange γ) → Prop
  | .one d, ids, xs => Block r b tree record scope.form scope d ids xs
  | .all ds, ids, xs => Blocks r b tree record scope.form scope ds ids xs
  | .shown d found, ids, xs => xs = [] ∧
    List.Forall₂ (StandsFor b tree record d.kind.nodeKind scope.form d) found ids
  | .won d winner, ids, xs => xs = [] ∧ Emits b tree record scope.form place asked d winner ids

/-- What is known of a job when a run gets to it: instances are those of elements or attributes, and a winner
was given. -/
def Fit (place : Scope γ) (asked : List (Exchange γ)) : Job γ → Prop
  | .one _ | .all _ => True
  | .shown d _ => d.kind = .element ∨ d.kind = .attribute
  | .won d winner => Fits place asked d winner

end Job

namespace Engine

variable {r : Registry} {limit n : Nat} {b : Binder σ γ} {known : List (Exchange γ)}

/-- A job leaves behind what it should at every scope where it may be done. It is enough that
`known` has been asked by then, somewhere in the run. -/
def Yielding (r : Registry) (limit : Nat) (b : Binder σ γ) (n : Nat) (job : Job γ) : Prop :=
  ∀ place known (scope : Scope γ) path, job.Fit place known →
    Run.Yields r b known (fun tree record => job.Leaves r b place known scope tree record)
      ((equipped r limit [] b.recorded).perform ((equipped r limit [] b.recorded).follow n) job scope
        path) scope.parent

/-- Giving a node its text changes the node that was planted, and neither its kind nor its origin. -/
theorem showText_planted {p q : NodeId} {s s' s'' : Session (σ × List (Exchange γ))}
    {n : OutputNode} {xs : List (Exchange γ)} {text : Option String}
    (h : Planted p s s' q n xs) (hvalue : n.value = none)
    (hrun : (showText q text).exec s' = (.ok (), s'')) :
    ∃ n', Planted p s s'' q n' xs ∧ n'.kind = n.kind ∧ n'.value = text ∧ n'.origin = n.origin := by
  cases text with
  | none =>
    rw [showText, Run.exec_pure] at hrun
    cases hrun
    exact ⟨n, h, rfl, hvalue, rfl⟩
  | some text =>
    rw [showText] at hrun
    exact ⟨_, h.edit (OutputTree.setValue_rewrites q text) rfl hrun, rfl, rfl, rfl⟩

/-- The node of an instance, with what the binder says of the instance. -/
theorem emitFound_planted {e : Engine (σ × List (Exchange γ)) γ} {kind : NodeKind} {name : String}
    {d : Definition} {scope : Scope γ} {found : γ} {s s' : Session (σ × List (Exchange γ))}
    {shown : NodeId × String}
    (hrun : (e.emitFound kind name d scope found).exec s = (.ok shown, s'))
    (hp : scope.parent < s.output.size) (hf : Fresh s) :
    ∃ n st, Planted scope.parent s s' shown.1 n [] ∧ n.kind = kind ∧ n.value = e.binder.value st found ∧
      n.origin = some ⟨scope.form, .definition d⟩ := by
  rw [emitFound] at hrun
  obtain ⟨q, t, hemit, hrun⟩ := Run.exec_bind_eq_ok_iff.mp hrun
  rw [Run.exec_bind, exec_look] at hrun
  obtain ⟨⟨⟩, t', htext, hrun⟩ := Run.exec_bind_eq_ok_iff.mp hrun
  rw [Run.exec_pure] at hrun
  cases hrun
  obtain ⟨n, hplanted, hkind, hvalue, horigin⟩ := emit_planted hemit hp hf
  obtain ⟨n', hplanted', hkind', hvalue', horigin'⟩ := showText_planted hplanted hvalue htext
  exact ⟨n', t.state, hplanted', hkind'.trans hkind, hvalue', horigin'.trans horigin⟩

/-- Elements and attributes may have beneath them whatever their children ask for. -/
theorem licensed_of_beneath {tree : OutputTree} {record : List (Exchange γ)} {id : NodeId} {form : Form}
    {d : Definition} (hkind : d.kind = .element ∨ d.kind = .attribute)
    (h : Beneath r b tree record form d.children id) :
    Licensed r b tree record id form (.definition d) := by
  obtain ⟨head, cs⟩ := d
  match head with
  | .element i | .attribute i => exact h
  | .choice _ | .reference _ | .extension _ => rcases hkind with hkind | hkind <;> cases hkind

/-- An instance gets a node that stands for it. -/
theorem instance_yields {d : Definition} (hkind : d.kind = .element ∨ d.kind = .attribute)
    (hchildren : Yielding r limit b n (.all d.children)) (name : String) (scope : Scope γ)
    (path : NodePath) (found : γ) :
    Run.Yields r b known
      (fun tree record ids ys => ys = [] ∧ ∃ q, ids = [q] ∧
        StandsFor b tree record d.kind.nodeKind scope.form d found q)
      ((equipped r limit [] b.recorded).emitFound d.kind.nodeKind name d scope found >>= fun shown =>
        (equipped r limit [] b.recorded).perform ((equipped r limit [] b.recorded).follow n)
          (.all d.children) (scope.descend found shown.1) (path.child shown.2)) scope.parent := by
  intro s s' hrun hp hf _
  obtain ⟨⟨q, entry⟩, t, hemit, hrun⟩ := Run.exec_bind_eq_ok_iff.mp hrun
  obtain ⟨n, st, hplanted, hnodeKind, hvalue, horigin⟩ := emitFound_planted hemit hp hf
  -- from here on only what is beneath the node changes
  have hgrown := hplanted.yields hf (List.nil_subset _)
    (hchildren scope [] (scope.descend found q) (path.child entry) trivial) hrun
    (S := fun tree record => StandsFor b tree record d.kind.nodeKind scope.form d found q) ?_
  · obtain ⟨hgrown, hlater⟩ := hgrown
    refine ⟨[q], [], hgrown, fun tree record hsettled => ?_⟩
    obtain ⟨hstands, hnodes⟩ := hlater tree record hsettled
    exact ⟨⟨rfl, q, rfl, hstands⟩, hnodes⟩
  · intro tree record ids _ hnode hblocks
    have hids : tree.children q = ids := OutputTree.children_of_node? hnode
    have hunder : Beneath r b tree record scope.form d.children q := by
      refine ⟨(scope.descend found q), rfl, rfl, ?_⟩
      rw [hids]
      exact hblocks
    refine ⟨⟨_, _, hnode, horigin, licensed_of_beneath hkind hunder⟩, ?_⟩
    -- the node stands for the instance: its children were asked for with the instance as their
    -- context
    exact {
      emitted := ⟨_, hnode, hnodeKind, horigin⟩
      value := ⟨_, st.1, hnode, hvalue⟩
      within := by
        intro x hx
        rw [hblocks.place? x hx]
        rfl }

/-- The node of a group, with the winner beneath it. -/
theorem groupNode_yields {c : Choice} {cs : List Definition} {name : String} {scope place : Scope γ}
    {inside : NodeId → Run (σ × List (Exchange γ)) Unit}
    {P : OutputTree → List (Exchange γ) → List NodeId → Prop}
    (hwinner : ∀ node, Run.Yields r b known (fun tree record ids ys => ys = [] ∧ P tree record ids)
      (inside node) node)
    (hnode : ∀ tree record id, tree.Emitted .choice scope.form (.node (.choice c) cs) id →
      P tree record (tree.children id) →
      GroupNode b tree record scope.form place known (.node (.choice c) cs) id) :
    Run.Yields r b known
      (fun tree record ids ys => ys = [] ∧ ∃ q, ids = [q] ∧
        GroupNode b tree record scope.form place known (.node (.choice c) cs) q)
      (emit scope .choice name (.node (.choice c) cs) >>= inside) scope.parent := by
  intro s s' hrun hp hf hk
  obtain ⟨q, t, hemit, hrun⟩ := Run.exec_bind_eq_ok_iff.mp hrun
  obtain ⟨n, hplanted, hkind, -, horigin⟩ := emit_planted hemit hp hf
  have hgrown := hplanted.yields hf (List.Subset.trans hk hplanted.grown.record.subset) (hwinner q) hrun
    (S := fun tree record =>
      GroupNode b tree record scope.form place known (.node (.choice c) cs) q) ?_
  · obtain ⟨hgrown, hlater⟩ := hgrown
    refine ⟨[q], [], hgrown, fun tree record hsettled => ?_⟩
    obtain ⟨hgroup, hnodes⟩ := hlater tree record hsettled
    exact ⟨⟨rfl, q, rfl, hgroup⟩, hnodes⟩
  · intro tree record ids hknown hself hP
    -- the new node was bare, so that its children are those that the rest has attached
    have hchildren : tree.children q = ids := OutputTree.children_of_node? hself
    have hgroup : GroupNode b tree record scope.form place known (.node (.choice c) cs) q := by
      refine hnode tree record q ⟨_, hself, hkind, horigin⟩ ?_
      rw [hchildren]
      exact hP.2
    exact ⟨⟨_, _, hself, horigin, place, known, hknown, hgroup⟩, hgroup⟩

/-- A group whose winner was given by the binder gets a node that holds this winner. -/
theorem group_yields {c : Choice} {cs : List Definition} {index : Nat} {winner : Winner γ}
    (h : ∀ d, cs[index]? = some d → Yielding r limit b n (.won d winner)) :
    Yielding r limit b n (.won (.node (.choice c) cs) (.group (.active index winner))) := by
  intro place known scope path hfit
  cases hfit with
  | @group _ _ _ d _ hget hfits =>
    have hmem : d ∈ cs := List.mem_of_getElem? hget
    have hwinner : ∀ node, Run.Yields r b known
        (fun tree record ids ys => ys = [] ∧ Emits b tree record scope.form place known d winner ids)
        ((equipped r limit [] b.recorded).perform ((equipped r limit [] b.recorded).follow n)
          (.won d winner) (scope.withParent node) (path.child c.label)) node :=
      fun node => h d hget place known (scope.withParent node) (path.child c.label) hfits
    have hgroup : Run.Yields r b known
        (fun tree record ids ys => ys = [] ∧ ∃ q, ids = [q] ∧
          GroupNode b tree record scope.form place known (.node (.choice c) cs) q)
        ((equipped r limit [] b.recorded).perform ((equipped r limit [] b.recorded).follow n)
          (.won (.node (.choice c) cs) (.group (.active index winner))) scope path) scope.parent := by
      rw [perform_group, hget]
      simp only [perform_extensions_bare, bind_pure_unit]
      -- what the winner is checked for is what the node of the group will be judged by
      cases hfits with
      | element present answered =>
        refine .check_bind fun hcount => groupNode_yields hwinner fun tree record id hemitted hP => ?_
        cases hP with
        | instances hinstances =>
          refine .element hemitted hmem present answered hinstances ?_
          rw [← hinstances.length_eq]
          exact hcount
      | group hget' hw =>
        refine .check_bind fun hcount => groupNode_yields hwinner fun tree record id hemitted hP => ?_
        generalize hids : tree.children id = ids at hP
        cases hP with
        | group hnested => exact .group hemitted hmem hids hnested hcount
      | conflict => exact .stop_bind _ _
    refine hgroup.imp ?_
    rintro tree record ids ys ⟨rfl, q, rfl, hnode⟩
    exact ⟨rfl, .group hnode⟩

/-- A group is absent, or it is present with its winner. -/
theorem choice_yields {g : Choice} {cs : List Definition}
    (h : ∀ index winner,
      Yielding r limit b n (.won (.node (.choice g) cs) (.group (.active index winner)))) :
    Yielding r limit b n (.one (.node (.choice g) cs)) := by
  intro place known scope path _
  rw [perform_choice]
  refine .ask (Definition.resolve_tells cs) fun outcome xs hxs => ?_
  obtain ⟨hasks, hactive, -⟩ := hxs
  cases outcome with
  | absent =>
    refine .check fun hcount tree record => ?_
    rw [List.append_nil]
    exact .absent hasks hcount
  | conflict error => exact .stop _
  | active index winner =>
    -- the outcome names an alternative, and its winner is one that the answers justify
    obtain ⟨d, hget, hwon⟩ := hactive index winner rfl
    refine .check_bind fun hcount => ?_
    refine (h index winner scope xs scope path (.group hget hwon.fits)).imp ?_
    rintro tree record ids ys ⟨rfl, hemits⟩
    cases hemits with
    | group hnode =>
      rw [List.append_nil]
      exact .present hasks hcount hnode

/-- A reference gets one node, which holds the blocks of its target. -/
theorem reference_yields {ref : Reference} {cs : List Definition}
    (deeper : ∀ m < n, ∀ ds, Yielding r limit b m (.all ds)) :
    Yielding r limit b n (.one (.node (.reference ref) cs)) := by
  intro place known scope path _
  cases hget : r.get? ref.target with
  | none =>
    rw [perform_missing (by exact hget)]
    exact .stop _
  | some target =>
    cases n with
    | zero =>
      rw [perform_exhausted (by exact hget)]
      exact .stop _
    | succ m =>
      rw [perform_entered (by exact hget)]
      simp only [perform_extensions_bare, bind_pure_unit]
      intro s s' hrun hp hf _
      obtain ⟨q, t, hemit, hrun⟩ := Run.exec_bind_eq_ok_iff.mp hrun
      obtain ⟨n, hplanted, hkind, -, horigin⟩ := emit_planted hemit hp hf
      -- the target is asked for at the parent, when the node of the reference is there already
      rw [Run.exec_bind, Run.exec_ask] at hrun
      have hanswer : Tells scope (b.recorded.bindForm (some scope) target) fun bound xs =>
          xs = [.bound (some scope) target bound] := .noted _ fun _ => rfl
      obtain ⟨xs, hrecord, hplace, rfl⟩ := hanswer t.state
      have hat := fun x hx => Exchange.isAt_of_place? (hplace x hx)
      have hasked : Planted scope.parent s
          ⟨(b.recorded.bindForm (some scope) target t.state).2, t.output⟩ q n _ :=
        hplanted.asked rfl hrecord hat
      have htarget := deeper m (Nat.lt_succ_self m) target.children scope []
        (.top target ((b.recorded.bindForm (some scope) target t.state).1.getD scope.context) q)
        (path.child ref.label) trivial
      -- everything else grows beneath the node of the reference
      have hgrown := hasked.yields hf (List.nil_subset _) htarget hrun
        (S := fun tree _ => tree.Emitted .reference scope.form (.node (.reference ref) cs) q) ?_
      · obtain ⟨hgrown, hlater⟩ := hgrown
        refine ⟨[q], _, hgrown, fun tree record hsettled => ?_⟩
        obtain ⟨hemitted, hnodes⟩ := hlater tree record hsettled
        exact ⟨.reference hget hemitted, hnodes⟩
      · intro tree record ids _ hnode hblocks
        have hids : tree.children q = ids := OutputTree.children_of_node? hnode
        have hunder : Beneath r b tree record target target.children q := by
          rw [Beneath, hids]
          exact ⟨_, rfl, rfl, hblocks⟩
        exact ⟨⟨_, _, hnode, horigin, target, hget, hunder⟩, ⟨_, hnode, hkind, horigin⟩⟩

/-- **Every job leaves behind what it should**, at every level: a definition its block, instances one node
each in their order, and the winner of a group the children of the group's node. -/
theorem perform_yields (n : Nat) (job : Job γ) : Yielding r limit b n job := by
  induction n, job using Job.induct_levels with
  | nil n =>
    intro place known scope path _
    rw [perform_nil]
    exact .pure fun _ _ => .nil
  | cons n d ds hd hds =>
    intro place known scope path _
    rw [perform_cons]
    refine .seq (hd place known scope path trivial) (hds place known scope path trivial) ?_
    intro tree record ids xs ids' xs' hblock hrest
    exact .cons hblock hrest
  | attributes n i cs ih =>
    intro place known scope path _
    rw [perform_attribute]
    have hanswer : Tells scope (b.recorded.bindAttribute scope ⟨i, cs⟩)
        fun found xs => xs = [.attribute scope ⟨i, cs⟩ found] := .noted _ fun _ => rfl
    refine .ask hanswer fun found xs hxs => .check_bind fun hcount => ?_
    subst hxs
    refine (ih found.toList place _ scope path (Or.inr rfl)).imp ?_
    rintro tree record ids ys ⟨rfl, hinstances⟩
    refine .attributes hinstances ?_
    rw [← hinstances.length_eq]
    exact hcount
  | elements n i cs ih =>
    intro place known scope path _
    rw [perform_element]
    have hanswer : Tells scope (b.recorded.bindElement scope ⟨i, cs⟩)
        fun found xs => xs = [.element scope ⟨i, cs⟩ found] := .noted _ fun _ => rfl
    refine .ask hanswer fun found xs hxs => .check_bind fun hcount => ?_
    subst hxs
    refine (ih found place _ scope path (Or.inl rfl)).imp ?_
    rintro tree record ids ys ⟨rfl, hinstances⟩
    refine .elements hinstances ?_
    rw [← hinstances.length_eq]
    exact hcount
  | choice n g cs ih => exact choice_yields ih
  | reference n r cs deeper _ => exact reference_yields deeper
  | extension n x cs _ =>
    intro place known scope path _
    rw [perform_extension_bare]
    exact .pure fun _ _ => .extension
  | shownNil n d =>
    intro place known scope path _
    rw [perform_shown_nil]
    exact .pure fun _ _ => ⟨rfl, .nil⟩
  | shownCons n d c rest hinside hothers =>
    intro place known scope path hkind
    rw [perform_shown_cons]
    -- one node for the first instance, and those of the others after it
    have hinstance : Run.Yields r b known _ _ scope.parent :=
      instance_yields hkind hinside d.nodeName scope path c
    have hsequence := hinstance.seq (hothers place known scope path hkind)
      (W := fun tree record => (Job.shown d (c :: rest)).Leaves r b place known scope tree record) ?_
    · rw [bind_assoc] at hsequence
      exact hsequence
    · rintro tree record ids ys ids' ys' ⟨rfl, q, rfl, hq⟩ ⟨rfl, hrest⟩
      exact ⟨rfl, .cons hq hrest⟩
  | wonElement n i cs found ih =>
    intro place known scope path _
    rw [perform_won_element]
    refine (ih place known scope path (Or.inl rfl)).imp ?_
    rintro tree record ids ys ⟨rfl, hinstances⟩
    exact ⟨rfl, .instances hinstances⟩
  | wonGroup n g cs index winner hwinner _ => exact group_yields hwinner
  | idle n d winner hidle =>
    intro place known scope path hfits
    rw [perform_idle hidle]
    cases hfits with
    | element present answered => cases hidle
    | group hget hw => cases hidle
    | conflict => exact .pure fun _ _ => ⟨rfl, .conflict⟩

/-! ## Whole runs -/

/-- The body of a run leaves a conforming tree behind, for every record that goes on from there
without more questions within a form. -/
theorem body_conforms {form : Form} {context : γ} {st : σ × List (Exchange γ)}
    {t : Session (σ × List (Exchange γ))} (hquiet : ∀ x ∈ st.2, x.place? = none)
    (hrun : ((equipped r limit [] b.recorded).body form context).exec ⟨st, start form⟩ = (.ok (), t))
    {later : List (Exchange γ)} (hlater : ∀ x ∈ later, x.place? = none) :
    (∃ n, t.output.node? OutputTree.root = some n ∧ n.kind = .form ∧
      n.origin = some ⟨form, .form form⟩) ∧
    ∀ id < t.output.size, Conforms r b t.output (t.state.2 ++ later) id := by
  obtain ⟨hsize, n, hnode, hkind, hbare, -, horigin⟩ := start_node form
  have hfresh : Fresh (⟨st, start form⟩ : Session (σ × List (Exchange γ))) :=
    fun id _ => askedAt_nowhere hquiet
  have hroot : OutputTree.root < (start form).size := by
    rw [hsize]
    decide
  have hyields : Run.Yields r b []
      (fun tree record ids xs => Blocks r b tree record form
        (Scope.top form context OutputTree.root) form.children ids xs)
      ((equipped r limit [] b.recorded).body form context) OutputTree.root :=
    perform_yields limit (.all form.children) (.top form context OutputTree.root) []
      (.top form context OutputTree.root) (.single form.label) trivial
  obtain ⟨ids, xs, hgrown, hnodes⟩ := hyields _ t hrun hroot hfresh (List.nil_subset _)
  -- what comes after the body is no exchange of any node
  have hasked : ∀ id, askedAt (t.state.2 ++ later) id = askedAt t.state.2 id := by
    intro id
    rw [askedAt_append, askedAt_nowhere hlater, List.append_nil]
  -- the whole tree is settled at the end, so all of its nodes can be judged in it
  have hsettled : Settled t.output (t.state.2 ++ later) (start form).size t := {
    prefix_record := List.prefix_append _ _
    node := fun _ _ _ => rfl
    asked := fun id _ _ => hasked id }
  obtain ⟨hblocks, hconform⟩ := hnodes _ _ hsettled
  have hself := hgrown.node n hnode
  refine ⟨⟨_, hself, hkind, horigin⟩, fun id hid => ?_⟩
  rcases Nat.eq_zero_or_pos id with rfl | hpos
  · -- the root was there before the body, and has got its children since
    have hchildren : t.output.children OutputTree.root = ids := by
      rw [OutputTree.children_of_node? hself, hbare, Array.empty_append]
    have hxs : askedAt (t.state.2 ++ later) OutputTree.root = xs := by
      rw [hasked, hgrown.asked, askedAt_nowhere hquiet, List.nil_append]
    have hunder : Beneath r b t.output (t.state.2 ++ later) form form.children OutputTree.root := by
      refine ⟨(Scope.top form context OutputTree.root), rfl, rfl, ?_⟩
      rw [hchildren, hxs]
      exact hblocks
    exact ⟨_, _, hself, horigin, hunder⟩
  · apply hconform id ?_ hid
    rw [hsize]
    exact hpos

/-- **Successful runs conform.** The root of the tree stands for the root form, and every node agrees
with the definition that produced it: its children are the blocks of that definition's children, in
their order, with as many nodes as the binder gave instances and as the cardinalities admit. -/
theorem bind_conforms (r : Registry) (limit : Nat) (b : Binder σ γ) (key : FormKey) (s : σ)
    {tree : OutputTree} (h : ((equipped r limit [] b).bind key s).1 = .ok tree) :
    ∃ form, r.get? key = some form ∧
      (∃ n, tree.node? OutputTree.root = some n ∧ n.kind = .form ∧
        n.origin = some ⟨form, .form form⟩) ∧
      ∀ id < tree.size, Conforms r b tree (exchanges r limit [] b key s) id := by
  cases hget : r.get? key with
  | none =>
    rw [bind_missing (by exact hget)] at h
    cases h
  | some form =>
    have hrecorded := (bind_recorded r limit [] (b := b) key s []).1
    rw [h] at hrecorded
    have hends := bind_ends (e := equipped r limit [] b.recorded) hget (s, [])
    rw [hrecorded] at hends
    refine ⟨form, rfl, ?_⟩
    rw [exchanges]
    -- only the record of the final state matters from here on
    generalize ((equipped r limit [] b.recorded).bind key (s, [])).2 = final at hends
    cases hends with
    | @finished context t hcontext hbody =>
      apply body_conforms (rootContext_nowhere rfl form s) hbody
      intro x hx
      rw [List.mem_singleton.mp hx]
      rfl

/-- An order with two lines, paid by transfer: all nodes of its tree conform. -/
theorem bind_conforms_orders :
    ∃ tree, ((equipped Sample.orders 1 [] Sample.binder).bind Sample.orderKey ()).1 = .ok tree ∧
      tree.size = 10 ∧
      ∀ id < tree.size, Conforms Sample.orders Sample.binder tree
        (exchanges Sample.orders 1 [] Sample.binder Sample.orderKey ()) id := by
  have hsize : ((equipped Sample.orders 1 [] Sample.binder).bind Sample.orderKey ()).1.toOption.map
      OutputTree.size = some 10 := by cbv
  cases h : ((equipped Sample.orders 1 [] Sample.binder).bind Sample.orderKey ()).1 with
  | error err =>
    rw [h] at hsize
    cases hsize
  | ok tree =>
    rw [h] at hsize
    obtain ⟨form, -, -, hall⟩ := bind_conforms Sample.orders 1 Sample.binder Sample.orderKey () h
    exact ⟨tree, rfl, Option.some.inj hsize, hall⟩

end Engine

end FormSchema
