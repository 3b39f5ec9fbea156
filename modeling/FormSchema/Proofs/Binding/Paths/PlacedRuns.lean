import FormSchema.Proofs.Binding.Paths.SoundParts
import FormSchema.Proofs.Binding.Walk.Jobs

/-!
# Runs keep to positions

The walk over definitions keeps to positions: where a definition stands, whatever is emitted, asked or
called for it happens at a position, and so does a failure. One induction covers all definitions, with
every way of getting deeper: instances, groups and their winners, references, and what extension points
wrap.

What has to be kept is more than where things happen. A failure is blamed on a definition by the
answers that led to it, and these are found in the record at the moment of the failure. So while a
winner is carried from the question to the check, it is remembered that any fault of it, up to the
next question, is the fault of the group.

* **`Engine.perform_steady`** — every job keeps to positions, by induction over jobs.
* **`Engine.bind_observed_accounts`** — whole runs.
-/

namespace FormSchema

variable {σ γ : Type}

section Walk

variable {k : Task σ γ} {m m' : Moment γ} {n : Nat} {d : Definition} {scope : Scope γ}
  {path : NodePath} {contributors : List Contributor} {found : γ} {p : NodeId}

/-! ## Faults to come

Between the answer and the failure nodes may be emitted, but nothing may be asked. That is the case
for a group: it is resolved, its own cardinality is checked, then its winner, and within it the
winner of the winner. -/

namespace Task

/-- Whatever is at fault with a definition for which there was found what is assigned, a definition
at a position is to blame for it, until the next question is asked. It is open by then, so that
nothing has been attached behind it. -/
def Dooms (k : Task σ γ) (m : Moment γ) (p : NodeId) (A : Assignment γ) (d : Definition) (path : NodePath) :
    Prop :=
  ∀ m' err, m.Later m' → m'.record = m.record → m'.tree.Open p → A.Faults d path err → k.Blames m' err

/-- The same for what is left to be judged of a winner when it has been counted: the winner within it. -/
def DoomsWithin (k : Task σ γ) (m : Moment γ) (p : NodeId) (A : Assignment γ) (d : Definition)
    (path : NodePath) : Prop :=
  ∀ g cs c j, d = .node (.choice g) cs → A.actives cs = [(c, j)] →
    k.Dooms m p (A.within j) c (path.child g.label)

variable {A : Assignment γ} {id : NodeId}

/-- Nothing is asked while a node is emitted. The new node is beneath the one that was open. -/
theorem Dooms.emitted (h : k.Dooms m p A d path) (hle : m.Later m') (hrecord : m'.record = m.record)
    (hopen : m'.tree.Open p) (hlast : id + 1 = m'.tree.size) (hp : p ∈ m'.tree.line id) :
    k.Dooms m' id A d path := by
  intro m'' err hle' hrecord' hid hfaults
  exact h m'' err (hle.trans hle') (hrecord'.trans hrecord)
    (hopen.outward hlast hp hle'.tree hid) hfaults

theorem DoomsWithin.emitted (h : k.DoomsWithin m p A d path) (hle : m.Later m')
    (hrecord : m'.record = m.record) (hopen : m'.tree.Open p) (hlast : id + 1 = m'.tree.size)
    (hp : p ∈ m'.tree.line id) : k.DoomsWithin m' id A d path :=
  fun g cs c j hd one => (h g cs c j hd one).emitted hle hrecord hopen hlast hp

end Task

namespace Engine

/-! ## Jobs -/

/-- What keeping to positions is for a job, `n` levels being left: definitions stand where they are bound,
instances were given at a node of the line above them, and a winner was given and has been counted. -/
def Steadily (k : Task σ γ) (contributors : List Contributor) (n : Nat) : Job γ → Prop
  | .one d => ∀ m scope path, k.Stands m n d scope path →
      k.Steady m scope.parent
        ((k.engine contributors).perform ((k.engine contributors).follow n) (.one d) scope path)
  | .all ds => ∀ m scope path, (∀ d ∈ ds, k.Stands m n d scope path) →
      k.Steady m scope.parent
        ((k.engine contributors).perform ((k.engine contributors).follow n) (.all ds) scope path)
  | .shown d found => ∀ m scope path p, k.Stands m n d scope path → p ∈ m.tree.line scope.parent →
      (∀ c ∈ found, Gave m.record (scope.withParent p) c d) →
      k.Steady m scope.parent
        ((k.engine contributors).perform ((k.engine contributors).follow n) (.shown d found) scope path)
  | .won d winner => ∀ m scope path p A, k.Stands m n d scope path → p ∈ m.tree.line scope.parent →
      Won (scope.withParent p) m.record d path winner → Crowned A d path winner →
      k.DoomsWithin m scope.parent A d path →
      k.Passes m scope.parent
        ((k.engine contributors).perform ((k.engine contributors).follow n) (.won d winner) scope path)
        fun _ _ => True

/-- An instance that the binder has given, and what lies beneath it. -/
theorem instance_steady (h : Steadily k contributors n (.all d.children))
    (hstands : k.Stands m n d scope path) (hp : p ∈ m.tree.line scope.parent)
    (hgave : Gave m.record (scope.withParent p) found d) (name : String) :
    k.Steady m scope.parent
      ((k.engine contributors).emitFound d.kind.nodeKind name d scope found >>= fun shown =>
        (k.engine contributors).perform ((k.engine contributors).follow n) (.all d.children)
          (scope.descend found shown.1) (path.child shown.2)) := by
  intro m' hle
  have hnow := hstands.mono hle
  have hline : p ∈ m'.tree.line scope.parent := by
    rw [hle.tree.line hstands.mirrors.known]
    exact hp
  refine (emitFound_passes hnow hline (hgave.mono hle.record.subset) name).bind
    fun shown m'' hle' _ hshown => ?_
  obtain ⟨hshown, hlast⟩ := hshown
  have habove : scope.parent ∈ m''.tree.line shown.1 := by
    rw [hshown.attached.line]
    exact List.mem_append_left _ (m''.tree.mem_line_self _)
  refine Task.Passes.beneath hlast habove (Task.Upholds.now ?_)
  exact h m'' (scope.descend found shown.1) _ fun c hc => .within (hnow.mono hle') hshown hc

/-- A winner is counted. Then only the winner within it is left to be judged. -/
theorem checkWinner_passes {A : Assignment γ} {winner : Winner γ} (hcrowned : Crowned A d path winner)
    (hdooms : k.Dooms m p A d path) :
    k.Passes m p (checkWinner path (some d) winner) fun m' _ =>
      m' = m ∧ k.DoomsWithin m p A d path := by
  cases hcrowned with
  | element =>
    refine .imp (.check fun v hv hopen => hdooms m _ (.refl m) rfl hopen (.instances hv)) ?_
    rintro m' _ ⟨rfl, -⟩
    exact ⟨rfl, nofun⟩
  | group one inner =>
    refine .imp (.check fun v hv hopen => hdooms m _ (.refl m) rfl hopen (.single one hv)) ?_
    rintro m' _ ⟨rfl, hpassed⟩
    refine ⟨rfl, ?_⟩
    rintro g cs c j hd one' m'' err hle hrecord hopen hfaults
    cases hd
    exact hdooms m'' err hle hrecord hopen (.winner one' hpassed hfaults)
  | conflict many => exact .stop fun hopen => hdooms m _ (.refl m) rfl hopen (.conflict many)

/-! ## Definitions of every kind

In every case the path of what is bound next is the path of its position, because a position beneath
another one has been reached by the same step that the walk takes. -/

section Kinds

variable {cs : List Definition}

/-- An attribute that is asked for at a position. A count that is refused is blamed on the
attribute, by the answer at the end of the record. -/
theorem attribute_steady {i : Item}
    (h : ∀ found, Steadily k contributors n (.shown (.node (.attribute i) cs) found)) :
    Steadily k contributors n (.one (.node (.attribute i) cs)) := by
  intro m scope path hstands m' hle
  rw [perform_attribute]
  have hasked : Tells scope (k.binder.observed.bindAttribute scope ⟨i, cs⟩)
      fun found xs => xs = [.attribute scope ⟨i, cs⟩ found] := .noted _ fun _ => rfl
  refine (Task.Passes.ask (hstands.mono hle) hasked (Task.noted_framed_quiet fun _ => rfl)).bind
    fun found m₁ hle₁ _ hanswer => ?_
  obtain ⟨-, xs, hrecord, rfl⟩ := hanswer
  have hnow := hstands.mono (hle.trans hle₁)
  -- the answer is the last entry of the record now, which is what a fault is read off
  refine (Task.Passes.check fun v hv hopen =>
    ⟨n, _, scope, path, hnow, hopen, .attributes hrecord hv⟩).bind fun _ m₂ _ _ hpassed => ?_
  obtain ⟨rfl, -⟩ := hpassed
  refine Task.Upholds.now (h _ m₂ scope path _ hnow (m₂.tree.mem_line_self _) fun c hc => ?_)
  -- what is shown next was found by this very answer
  have hfound : found = some c := Option.mem_toList.mp hc
  subst hfound
  refine .attribute ?_
  rw [hrecord]
  exact List.mem_append_right _ List.mem_cons_self

/-- An element that is asked for at a position. A count that is refused is blamed on the element,
by the answer at the end of the record. -/
theorem element_steady {i : Item}
    (h : ∀ found, Steadily k contributors n (.shown (.node (.element i) cs) found)) :
    Steadily k contributors n (.one (.node (.element i) cs)) := by
  intro m scope path hstands m' hle
  rw [perform_element]
  have hasked : Tells scope (k.binder.observed.bindElement scope ⟨i, cs⟩)
      fun found xs => xs = [.element scope ⟨i, cs⟩ found] := .noted _ fun _ => rfl
  refine (Task.Passes.ask (hstands.mono hle) hasked (Task.noted_framed_quiet fun _ => rfl)).bind
    fun found m₁ hle₁ _ hanswer => ?_
  obtain ⟨-, xs, hrecord, rfl⟩ := hanswer
  have hnow := hstands.mono (hle.trans hle₁)
  refine (Task.Passes.check fun v hv hopen =>
    ⟨n, _, scope, path, hnow, hopen, .elements hrecord hv⟩).bind fun _ m₂ _ _ hpassed => ?_
  obtain ⟨rfl, -⟩ := hpassed
  -- what is shown next is among what this very answer found
  refine Task.Upholds.now (h _ m₂ scope path _ hnow (m₂.tree.mem_line_self _) fun c hc => ?_)
  refine .element ?_ hc
  rw [hrecord]
  exact List.mem_append_right _ List.mem_cons_self

/-- A group with a winner that the binder gave. The winner and the extension points of the group come
beneath the node of the group. -/
theorem group_passes {g : Choice} {d : Definition} {index : Nat} {winner : Winner γ} {A : Assignment γ}
    (hwinner : Steadily k contributors n (.won d winner))
    (hextensions : Steadily k contributors n (.all (Definition.extensions cs)))
    (hstands : k.Stands m n (.node (.choice g) cs) scope path) (hget : cs[index]? = some d)
    (hp : p ∈ m.tree.line scope.parent)
    (hwon : Won (scope.withParent p) m.record d (path.child g.label) winner)
    (hcrowned : Crowned A d (path.child g.label) winner)
    (hdooms : k.Dooms m scope.parent A d (path.child g.label)) :
    k.Passes m scope.parent
      ((k.engine contributors).perform ((k.engine contributors).follow n)
        (.won (.node (.choice g) cs) (.group (.active index winner))) scope path) fun _ _ => True := by
  have hd : d ∈ cs := List.mem_of_getElem? hget
  rw [perform_group, hget]
  refine (checkWinner_passes hcrowned hdooms).bind fun _ m₁ _ _ hchecked => ?_
  obtain ⟨rfl, hwithin⟩ := hchecked
  have hlevel : (Definition.node (.choice g) cs).kind = .reference → 0 < n := by
    intro h
    cases h
  refine (emit_passes hstands hlevel (Or.inl rfl) _).bind fun id m₂ hle hopen hemitted => ?_
  obtain ⟨hattached, hlast, hrecord⟩ := hemitted
  have habove : scope.parent ∈ m₂.tree.line id := by
    rw [hattached.line]
    exact List.mem_append_left _ (m₂.tree.mem_line_self _)
  have hline : p ∈ m₂.tree.line id := by
    rw [hattached.line, hle.tree.line hstands.mirrors.known]
    exact List.mem_append_left _ hp
  -- all children of the group stand at the position beneath its node, at every later moment
  have hbeneath : ∀ m', m₂.Later m' → ∀ c ∈ cs,
      k.Stands m' n c (scope.withParent id) (path.child g.label) :=
    fun m' hle' c hc => .grouped (hstands.mono (hle.trans hle')) (hattached.mono hle'.tree) hc
  -- from here on everything is emitted beneath the node of the group
  refine .beneath hlast habove ?_
  refine (hwinner m₂ (scope.withParent id) (path.child g.label) p A (hbeneath m₂ (.refl m₂) d hd) hline
    (hwon.mono hle.record.subset) hcrowned (hwithin.emitted hle hrecord hopen hlast habove)).bind
      fun _ m₃ hle' _ _ => ?_
  refine Task.Upholds.now (hextensions m₃ (scope.withParent id) (path.child g.label) fun c hc => ?_)
  exact hbeneath m₃ hle' c (Definition.mem_of_mem_extensions hc)

/-- A group that is resolved at a position. If it fails, the answers at the end of the record
survey the group, and tell which fault it is. -/
theorem choice_steady {g : Choice}
    (h : ∀ index winner,
      Steadily k contributors n (.won (.node (.choice g) cs) (.group (.active index winner)))) :
    Steadily k contributors n (.one (.node (.choice g) cs)) := by
  intro m scope path hstands m' hle
  rw [perform_choice]
  have hasked : Tells scope (Definition.resolve k.binder.observed scope g.label cs 0 none
      (path.child g.label)) _ := (Definition.resolve_tells cs).and (Definition.resolve_surveys g cs)
  refine (Task.Passes.ask (hstands.mono hle) hasked (Task.resolve_quiet _ _ _ _)).bind
    fun outcome m₁ hle₁ _ hanswer => ?_
  obtain ⟨-, xs, hrecord, ⟨-, hactive, -⟩, A, hsurveys, hsettles⟩ := hanswer
  have hnow := hstands.mono (hle.trans hle₁)
  -- whatever fault the answers lead to, the group is to blame for it until the next question
  have hblames : ∀ m₂ err, m₁.Later m₂ → m₂.record = m₁.record → m₂.tree.Open scope.parent →
      A.Faults (.node (.choice g) cs) path err → k.Blames m₂ err := by
    intro m₂ err hle₂ hsame hopen hfaults
    have hsurveyed : A.Surveys (.node (.choice g) cs) scope m'.record m₂.record := by
      rw [hsame, hrecord]
      exact hsurveys m'.record
    exact ⟨n, _, scope, path, hnow.mono hle₂, hopen, .group hsurveyed hfaults⟩
  have hnone : ∀ err, A.Faults (.node (.choice g) cs) path err → m₁.tree.Open scope.parent →
      k.Blames m₁ err := fun err hfaults hopen => hblames m₁ err (.refl m₁) rfl hopen hfaults
  generalize hactives : A.actives cs = actives at hsettles
  cases hsettles with
  | absent =>
    refine (Task.Passes.check fun v hv => hnone _ (.absent hactives hv)).imp fun _ _ _ => trivial
  | conflict => exact .stop (hnone _ (.conflict (by rw [hactives]; simp)))
  | @active d index winner crowned =>
    obtain ⟨d', hget, hwon⟩ := hactive index winner rfl
    have halternative : cs[index]? = some d :=
      Assignment.getElem?_of_mem_actives (hactives ▸ List.mem_singleton.mpr rfl)
    obtain rfl : d = d' := Option.some.inj (halternative.symm.trans hget)
    refine (Task.Passes.check fun v hv => hnone _ (.single hactives hv)).bind fun _ m₂ _ _ hpassed => ?_
    obtain ⟨rfl, hpassed⟩ := hpassed
    have hsubset : xs ⊆ m₂.record := by
      rw [hrecord]
      exact List.subset_append_right _ _
    refine h index winner m₂ scope path scope.parent A hnow (m₂.tree.mem_line_self _)
      (.group hget (hwon.mono hsubset)) (.group hactives crowned) ?_
    rintro _ _ c j ⟨⟩ one m₃ err hle₃ hsame hopen hfaults
    exact hblames m₃ err hle₃ hsame hopen (.winner one hpassed hfaults)

/-- A reference is crossed beneath a node of its own, when there is a level left. Then the extension points
of the reference are bound beneath the same node. -/
theorem reference_steady {r : Reference} (deeper : ∀ m < n, ∀ ds, Steadily k contributors m (.all ds))
    (hextensions : Steadily k contributors n (.all (Definition.extensions cs))) :
    Steadily k contributors n (.one (.node (.reference r) cs)) := by
  intro m scope path hstands m' hle
  have hnow := hstands.mono hle
  cases hget : k.registry.get? r.target with
  | none =>
    rw [perform_missing (by exact hget)]
    exact .stop fun hopen => ⟨n, _, scope, path, hnow, hopen, .missing hget⟩
  | some target =>
    cases n with
    | zero =>
      rw [perform_exhausted (by exact hget)]
      exact .stop fun hopen => ⟨0, _, scope, path, hnow, hopen, .exceeded hget⟩
    | succ n =>
      rw [perform_entered (by exact hget)]
      refine (emit_passes hnow (fun _ => Nat.succ_pos n) (Or.inr rfl) _).bind
        fun id m₁ hle₁ _ hemitted => ?_
      obtain ⟨hattached, hlast, -⟩ := hemitted
      have habove : scope.parent ∈ m₁.tree.line id := by
        rw [hattached.line]
        exact List.mem_append_left _ (m₁.tree.mem_line_self _)
      have hasked : Tells scope
          (k.binder.observed.bindForm (some scope) target) fun context xs =>
            xs = [.bound (some scope) target context] := .noted _ fun _ => rfl
      -- the target is asked for while the node of the reference is the last one
      refine .beneath hlast habove ?_
      refine (Task.Passes.ask (hnow.mono hle₁) hasked (Task.noted_framed_quiet fun _ => rfl)).bind
        fun context m₂ hle₂ _ hanswer => ?_
      obtain ⟨-, xs, hrecord, rfl⟩ := hanswer
      have hbound : .bound (some scope) target context ∈ m₂.record := by
        rw [hrecord]
        exact List.mem_append_right _ List.mem_cons_self
      have hinside : ∀ c ∈ target.children, k.Stands m₂ n c
          (.top target (context.getD scope.context) id) (path.child r.label) := fun c hc =>
        .entered (hnow.mono (hle₁.trans hle₂)) (hattached.mono hle₂.tree) hget hbound hc
      have htarget := deeper n (Nat.lt_succ_self n) target.children m₂ _ _ hinside
      refine (Task.Upholds.now htarget).bind fun _ m₃ hle₃ _ _ => ?_
      -- the extension points of the reference have as many levels as the reference itself had
      have htrailing : ∀ c ∈ Definition.extensions cs,
          k.Stands m₃ (n + 1) c (scope.withParent id) (path.child r.label) :=
        fun c hc => .trailing (hnow.mono (hle₁.trans (hle₂.trans hle₃)))
          (hattached.mono (hle₂.trans hle₃).tree) (Definition.mem_of_mem_extensions hc)
      exact Task.Upholds.now (hextensions m₃ _ _ htrailing)

/-- An extension point at a position. Builders are called there, comments are left there, and what
is wrapped is bound there. -/
theorem extension_steady {x : Extension} (h : Steadily k contributors n (.all cs)) :
    Steadily k contributors n (.one (.node (.extension x) cs)) := by
  intro m scope path hstands
  rw [perform, build_extension_observed]
  refine .forM fun c _ => .seq (.note hstands) ?_
  cases c with
  | library l =>
    cases l with
    | comment kinds => exact leaveComment_steady hstands
    | inline => exact h m scope path fun d hd => .wrapped hstands hd
  | observer kinds => exact .done

end Kinds

/-- **Every job keeps to positions**, at every level. Each case finds its definition at the
position of the job, and hands positions on to the jobs beneath it. -/
theorem perform_steady (n : Nat) (job : Job γ) : Steadily k contributors n job := by
  induction n, job using Job.induct_levels with
  | nil n =>
    intro m scope path _
    rw [perform_nil]
    exact .done
  | cons n d ds hd hds =>
    intro m scope path hstands
    rw [perform_cons]
    refine .seq (hd m scope path (hstands d List.mem_cons_self)) ?_
    exact hds m scope path fun c hc => hstands c (List.mem_cons_of_mem d hc)
  | attributes n i cs ih => exact attribute_steady ih
  | elements n i cs ih => exact element_steady ih
  | choice n g cs ih => exact choice_steady ih
  | reference n r cs deeper hextensions => exact reference_steady deeper hextensions
  | extension n x cs ih => exact extension_steady ih
  | shownNil n d =>
    intro m scope path p _ _ _
    rw [perform_shown_nil]
    exact .done
  | shownCons n d c rest hinside hothers =>
    intro m scope path p hstands hp hgave
    -- one instance and then the others: the sequence is judged as two parts, while the walk has it
    -- as one
    have hfirst := instance_steady hinside hstands hp (hgave c List.mem_cons_self) d.nodeName
    have hrest := hothers m scope path p hstands hp fun x hx => hgave x (List.mem_cons_of_mem c hx)
    have hsequence := hfirst.seq hrest
    rw [bind_assoc] at hsequence
    rw [perform_shown_cons]
    exact hsequence
  | wonElement n i cs found ih =>
    intro m scope path p A hstands hp hwon _ _
    cases hwon with
    | element present answered =>
      rw [perform_won_element]
      exact Task.Upholds.now (ih m scope path p hstands hp fun c hc => .element answered hc)
  | wonGroup n g cs index winner hwinner hextensions =>
    intro m scope path p A hstands hp hwon hcrowned hwithin
    cases hcrowned with
    | @group _ _ _ _ d _ _ one inner =>
      cases hwon with
      | group hget hw =>
        -- the winner is the only active alternative, so it is the one that the index names
        have halternative : cs[index]? = some d :=
          Assignment.getElem?_of_mem_actives (one ▸ List.mem_singleton.mpr rfl)
        obtain rfl := Option.some.inj (halternative.symm.trans hget)
        exact group_passes (hwinner _ hget) hextensions hstands hget hp hw inner
          (hwithin g cs _ _ rfl one)
  | idle n d winner hidle =>
    intro m scope path p A _ _ _ _ _
    rw [perform_idle hidle]
    exact .pure trivial

end Engine

end Walk

/-! ## Whole runs -/

/-- What the outcome of an observed run shows: where questions were asked and builders called, where the
nodes of the tree are, and where the run failed. -/
structure Task.Accounts (k : Task σ γ) (result : Except RunError OutputTree) (tree : OutputTree)
    (o : Observation σ γ) : Prop where
  asked : ∀ x ∈ o.2, ∀ place, x.place? = some place →
    ∃ n d scope path, k.Stands ⟨tree, o.2⟩ n d scope path ∧ scope = place
  visited : ∀ v ∈ o.1.2, k.Mirrors v.moment v.place.parent v.path
  built : ∀ t, result = .ok t → t = tree ∧ k.Rooted ⟨tree, o.2⟩ ∧
    ∀ id < tree.size, id ≠ OutputTree.root → k.Placed ⟨tree, o.2⟩ id
  failed : ∀ err, result = .error err →
    (∀ context, .bound none k.root (some context) ∉ o.2) ∧
        err = .binding ⟨.formAbsent, .single k.root.label, some k.root.label⟩ ∨
      k.Blames ⟨tree, o.2⟩ err

namespace Engine

variable (k : Task σ γ) (contributors : List Contributor)

/-- Before the first definition the binder does what the record says, and no builder is called. -/
theorem rootContext_faithful :
    k.Faithful [] ((k.engine contributors).rootContext k.root ((k.state, []), [])).2 :=
  rootContext_keeps (Task.noted_framed_quiet (fun _ => rfl) [])
    (Task.noted_framed_quiet (fun _ => rfl) []) _ ⟨rfl, rfl⟩

/-- Before the first definition there is only the root, and nothing has been asked at any node. -/
theorem start_sound :
    k.Sound ⟨((k.engine contributors).rootContext k.root ((k.state, []), [])).2, start k.root⟩ := by
  obtain ⟨hvisits, hstate⟩ := rootContext_faithful k contributors
  have hsize := (start_node k.root).1
  have hnowhere := rootContext_nowhere (e := k.engine contributors) (b := k.binder.beside) rfl k.root
    (k.state, [])
  refine ⟨?_, ?_, ?_, fun id _ => askedAt_nowhere hnowhere, rfl, hstate⟩
  · intro id hid hne
    have hzero : id = OutputTree.root := Nat.lt_one_iff.mp (hsize ▸ hid)
    exact absurd hzero hne
  · intro x hx place hplace
    rw [hnowhere x hx] at hplace
    cases hplace
  · intro v hv
    rw [hvisits] at hv
    cases hv

/-- The root of the output stands for the root form. -/
theorem start_rooted (record : List (Exchange γ)) : k.Rooted ⟨start k.root, record⟩ := by
  obtain ⟨-, n, hnode, hkind, -, hparent, horigin⟩ := start_node k.root
  exact ⟨n, hnode, hkind, hparent, horigin⟩

/-- The body of a run keeps to positions, once the root form is bound. -/
theorem body_steady {context : γ}
    (h : ((k.engine contributors).rootContext k.root ((k.state, []), [])).1 = some context) :
    k.Steady ⟨start k.root, ((k.engine contributors).rootContext k.root ((k.state, []), [])).2.2⟩
      OutputTree.root ((k.engine contributors).body k.root context) := by
  have hsource : (k.engine contributors).binder.hasSource = true := by
    cases hnone : (k.engine contributors).binder.hasSource with
    | true => rfl
    | false =>
      rw [rootContext, hnone] at h
      cases h
  have hbound : .bound none k.root (some context) ∈
      ((k.engine contributors).rootContext k.root ((k.state, []), [])).2.2 := by
    rw [rootContext_record (b := k.binder.beside) rfl, if_pos (by exact hsource), h]
    exact List.mem_cons_of_mem _ List.mem_cons_self
  exact perform_steady k.limit (.all k.root.children) _ (.top k.root context OutputTree.root)
    (.single k.root.label) fun c hc => .top (start_rooted k _) hbound hc

/-- **A whole run keeps to positions.** Every visit was made with the path of its node, and an
error is blamed on a definition that stands in the tree. -/
theorem bind_observed_accounts {key : FormKey} (hget : k.registry.get? key = some k.root) :
    k.Accounts ((k.engine contributors).bind key ((k.state, []), [])).1
      ((k.engine contributors).built key ((k.state, []), []))
      ((k.engine contributors).bind key ((k.state, []), [])).2 := by
  have hends := bind_ends (e := k.engine contributors) hget ((k.state, []), [])
  have habsent := built_of_absent (e := k.engine contributors) (s := ((k.state, []), [])) hget
  have hbound := fun context
    (h : ((k.engine contributors).rootContext k.root ((k.state, []), [])).1 = some context) =>
      built_of_bound hget h
  have hsound := start_sound k contributors
  have hopen : (start k.root).Open OutputTree.root := OutputTree.open_of_last (start_node k.root).1.symm
  generalize ((k.engine contributors).bind key ((k.state, []), [])).1 = result at hends ⊢
  generalize ((k.engine contributors).bind key ((k.state, []), [])).2 = o at hends ⊢
  generalize (k.engine contributors).built key ((k.state, []), []) = tree at habsent hbound ⊢
  cases hends with
  | absent h =>
    obtain rfl := habsent h
    -- the root form is not bound, and there is no definition to blame
    refine ⟨hsound.asked, hsound.visited, fun tree htree => ?_, fun err herr => ?_⟩
    · cases htree
    · cases herr
      refine Or.inl ⟨fun context hbound => ?_, rfl⟩
      rw [rootContext_record (b := k.binder.beside) rfl, h] at hbound
      rcases List.mem_cons.mp hbound with hstarted | hbound
      · cases hstarted
      · split at hbound
        · cases List.mem_singleton.mp hbound
        · cases hbound
  | @stopped context _ t h hbody =>
    obtain ⟨hafter, -, -, hleaves⟩ :=
      Task.Upholds.now (body_steady k contributors h) _ hsound rfl hopen
    have htree := hbound context h
    rw [hbody] at hafter hleaves htree
    subst htree
    refine ⟨hafter.asked, hafter.visited, fun tree htree => ?_, fun err herr => ?_⟩
    · cases htree
    · cases herr
      exact Or.inr hleaves
  | @finished context t h hbody =>
    obtain ⟨hafter, hlater, -⟩ := Task.Upholds.now (body_steady k contributors h) _ hsound rfl hopen
    have htree := hbound context h
    rw [hbody] at hafter hlater htree
    subst htree
    have hrecord : ((k.engine contributors).binder.postBind k.root t.output t.state).2.2 =
        t.state.2 ++ [.finished k.root t.output] := rfl
    -- one exchange more, at no place
    have hfinal : t.moment.Later ⟨t.output, t.state.2 ++ [.finished k.root t.output]⟩ :=
      ⟨.refl _, List.prefix_append _ _⟩
    refine ⟨fun x hx place hplace => ?_, hafter.visited, fun tree htree => ?_, fun err herr => ?_⟩
    · rw [hrecord] at hx ⊢
      rcases List.mem_append.mp hx with hbefore | hlast
      · obtain ⟨n, d, scope, path, hstands, heq⟩ := hafter.asked x hbefore place hplace
        exact ⟨n, d, scope, path, hstands.mono hfinal, heq⟩
      · rw [List.mem_singleton.mp hlast] at hplace
        cases hplace
    · cases htree
      rw [hrecord]
      exact ⟨rfl, (start_rooted k _).mono (hlater.trans hfinal),
        fun id hid hne => (hafter.placed id hid hne).mono hfinal⟩
    · cases herr

section Library

variable {r : Registry} {limit : Nat} {builders : List LibraryBuilder} {b : Binder σ γ} {key : FormKey}
  {s : σ}

/-- The account of a run of an engine of the library. -/
theorem bind_accounts {form : Form} (hget : r.get? key = some form) :
    Task.Accounts ⟨r, limit, b, s, form⟩ ((equipped r limit builders b).bind key s).1
      ((equipped r limit builders b).built key s)
      (observation r limit (builders.map .library) b key s) := by
  -- an observed run is the run itself
  rw [← attended_library, ← bind_observed, ← built_observed]
  exact bind_observed_accounts ⟨r, limit, b, s, form⟩ (builders.map .library) hget

/-- An engine of the library asks within forms at positions only. -/
theorem exchanges_at_positions :
    ∀ x ∈ exchanges r limit builders b key s, ∀ place, x.place? = some place →
      ∃ form n d scope path, r.get? key = some form ∧
        Task.Stands ⟨r, limit, b, s, form⟩
          ⟨(equipped r limit builders b).built key s, exchanges r limit builders b key s⟩ n d scope path ∧
        scope = place := by
  intro x hx place hplace
  cases hget : r.get? key with
  | none =>
    rw [exchanges, bind_missing (by exact hget)] at hx
    cases hx
  | some form =>
    have haccounts : Task.Accounts ⟨r, limit, b, s, form⟩ _ _
        (observation r limit (builders.map .library) b key s) := bind_accounts hget
    have hasked := haccounts.asked
    rw [observation_record] at hasked
    obtain ⟨n, d, scope, path, hstands, heq⟩ := hasked x hx place hplace
    exact ⟨form, n, d, scope, path, rfl, hstands, heq⟩

/-- The nodes of a tree that an engine of the library returns are attached at positions. -/
theorem bind_placed {tree : OutputTree}
    (h : ((equipped r limit builders b).bind key s).1 = .ok tree) :
    ∃ form, r.get? key = some form ∧
      Task.Rooted ⟨r, limit, b, s, form⟩ ⟨tree, exchanges r limit builders b key s⟩ ∧
      ∀ id < tree.size, id ≠ OutputTree.root →
        Task.Placed ⟨r, limit, b, s, form⟩ ⟨tree, exchanges r limit builders b key s⟩ id := by
  cases hget : r.get? key with
  | none =>
    rw [bind_missing (by exact hget)] at h
    cases h
  | some form =>
    obtain ⟨rfl, hbuilt⟩ := (bind_accounts hget).built tree h
    rw [observation_record] at hbuilt
    exact ⟨form, rfl, hbuilt⟩

end Library

end Engine

end FormSchema
