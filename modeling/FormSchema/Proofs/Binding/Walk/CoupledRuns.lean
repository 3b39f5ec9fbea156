import FormSchema.Proofs.Binding.Walk.Jobs

/-!
# Runs in step

Two engines may bind the same data and yet build different trees, because their forms are written
differently or because their builders add to the output. This module relates two such runs step by step:
either both succeed or both stop with the same error, and whatever ties their sessions lasts.

A congruence of the preceding module is too weak for this, since it lets both runs attach the same
node to the same parent. Here the node of one tree goes together with a node of the other one that
may stand elsewhere, and which nodes go together is known only as the trees grow. A *world* records
this: it may only become larger, so that what two nodes have to do with one another is never lost,
and each step of the walk is proved from any world and ends in a later one.

* `Run.Coupled` — two runs from related sessions, with related results.
* `Bond` — what ties two sessions, in worlds that tell how far the runs have come.
* `Engine.Tied` — two engines that a bond ties wherever the walk looks outside.
* **`Engine.Tied.body_agrees`** — the bodies of their runs stay in step.
-/

namespace FormSchema

variable {σ τ γ α β α' β' : Type}

/-! ## Coupled runs -/

namespace Run

/-- Outcomes that go together: two results, or one error on both sides. -/
inductive Paired (cut : Session σ → Session τ → Prop) (Q : α → β → Session σ → Session τ → Prop) :
    Except RunError α × Session σ → Except RunError β × Session τ → Prop where
  | finished {a : α} {b : β} {s : Session σ} {t : Session τ} (h : Q a b s t) :
      Paired cut Q (.ok a, s) (.ok b, t)
  | stopped {err : RunError} {s : Session σ} {t : Session τ} (h : cut s t) :
      Paired cut Q (.error err, s) (.error err, t)

/-- From sessions that `P` relates two runs come to outcomes that go together. Of sessions in which
both runs have stopped less may be known than of those in which both have finished, which is what
`cut` is for. -/
def Coupled (cut P : Session σ → Session τ → Prop) (m : Run σ α) (m' : Run τ β)
    (Q : α → β → Session σ → Session τ → Prop) : Prop :=
  ∀ s t, P s t → Paired cut Q (m.exec s) (m'.exec t)

namespace Coupled

variable {cut P : Session σ → Session τ → Prop} {m : Run σ α} {m' : Run τ β}
  {Q Q' : α → β → Session σ → Session τ → Prop}

theorem pure {a : α} {b : β} (h : ∀ s t, P s t → Q a b s t) :
    Coupled cut P (pure a) (pure b) Q :=
  fun s t hst => .finished (h s t hst)

/-- Sequences are coupled when their parts are: the second parts start from whatever the first
parts have brought about on both sides. -/
theorem bind {f : α → Run σ α'} {f' : β → Run τ β'} {R : α' → β' → Session σ → Session τ → Prop}
    (h : Coupled cut P m m' Q) (hf : ∀ a b, Coupled cut (Q a b) (f a) (f' b) R) :
    Coupled cut P (m >>= f) (m' >>= f') R := by
  intro s t hst
  rw [exec_bind, exec_bind]
  have hpair := h s t hst
  generalize m.exec s = x at hpair
  generalize m'.exec t = y at hpair
  cases hpair with
  | finished hq => exact hf _ _ _ _ hq
  | stopped hcut => exact .stopped hcut

theorem stop {err : RunError} (h : ∀ s t, P s t → cut s t) :
    Coupled cut P (Run.stop err) (Run.stop err) Q :=
  fun s t hst => .stopped (h s t hst)

/-- Less may be said of the outcome. -/
theorem weaken (h : Coupled cut P m m' Q) (hq : ∀ a b s t, Q a b s t → Q' a b s t) :
    Coupled cut P m m' Q' := by
  intro s t hst
  have hpair := h s t hst
  generalize m.exec s = x at hpair ⊢
  generalize m'.exec t = y at hpair ⊢
  cases hpair with
  | finished hr => exact .finished (hq _ _ _ _ hr)
  | stopped hcut => exact .stopped hcut

/-- A step that only the second run takes. This is how a run with a builder that leaves comments
catches up with one without: the comment is attached while the other run stands still. -/
theorem after {x : Run τ β'} {f : β' → Run τ β} (P' : Session σ → Session τ → Prop)
    (h : ∀ s t, P s t → ∃ b t', x.exec t = (.ok b, t') ∧ P' s t')
    (hf : ∀ b, Coupled cut P' m (f b) Q) : Coupled cut P m (x >>= f) Q := by
  intro s t hst
  obtain ⟨b, t', hx, hst'⟩ := h s t hst
  rw [exec_bind, hx]
  exact hf b s t' hst'

end Coupled

end Run

/-! ## Bonds -/

/-- What ties the sessions of two runs. A world tells how far the runs have come; nodes that go together
in one world go together in all later ones. -/
structure Bond (σ τ : Type) where
  World : Type
  Later : World → World → Prop
  refl : ∀ w, Later w w
  trans : ∀ {w₁ w₂ w₃}, Later w₁ w₂ → Later w₂ w₃ → Later w₁ w₃
  Rel : World → Session σ → Session τ → Prop
  -- what is left of the relation when both runs have stopped
  Cut : Session σ → Session τ → Prop
  cut : ∀ {w s t}, Rel w s t → Cut s t
  Nodes : World → NodeId → NodeId → Prop
  later : ∀ {w w' id id'}, Later w w' → Nodes w id id' → Nodes w' id id'

namespace Bond

variable (B : Bond σ τ)

/-- From a world on two runs stay tied, and come to results that go together in a later world. -/
def Ties (w : B.World) (m : Run σ α) (m' : Run τ β) (V : B.World → α → β → Prop) : Prop :=
  Run.Coupled B.Cut (B.Rel w) m m' fun a b s t => ∃ w', B.Later w w' ∧ B.Rel w' s t ∧ V w' a b

/-- From a world on two runs stay tied, and come to the same result. -/
def Agrees (w : B.World) (m : Run σ α) (m' : Run τ α) : Prop := B.Ties w m m' fun _ a b => a = b

variable {B} {w : B.World} {V : B.World → α' → β' → Prop}

theorem Ties.pure {a : α'} {b : β'} (h : V w a b) : B.Ties w (pure a) (pure b) V :=
  Run.Coupled.pure fun _ _ hst => ⟨w, B.refl w, hst, h⟩

/-- From one world to the next: the second parts are tied from the world in which the first parts
have ended, and that world is later than the one they started from. -/
theorem Ties.bind {U : B.World → α → β → Prop} {m : Run σ α} {m' : Run τ β} {f : α → Run σ α'}
    {f' : β → Run τ β'} (h : B.Ties w m m' U)
    (hf : ∀ w' a b, B.Later w w' → U w' a b → B.Ties w' (f a) (f' b) V) :
    B.Ties w (m >>= f) (m' >>= f') V := by
  refine Run.Coupled.bind h fun a b s t => ?_
  rintro ⟨w₁, hlater, hst, hu⟩
  refine Run.Coupled.weaken (hf w₁ a b hlater hu) ?_ s t hst
  rintro a' b' s' t' ⟨w₂, hlater', hst', hv⟩
  exact ⟨w₂, B.trans hlater hlater', hst', hv⟩

theorem Agrees.pure (a : α) : B.Agrees w (Pure.pure a) (Pure.pure a) := Ties.pure rfl

/-- The same when the first parts come to one result, which is how an answer of the binder is
passed on. -/
theorem Agrees.bind {m : Run σ α} {m' : Run τ α} {f : α → Run σ α'} {f' : α → Run τ β'}
    (h : B.Agrees w m m') (hf : ∀ w' a, B.Later w w' → B.Ties w' (f a) (f' a) V) :
    B.Ties w (m >>= f) (m' >>= f') V := by
  refine Ties.bind h fun w' a b hlater hab => ?_
  cases hab
  exact hf w' a hlater

theorem Agrees.stop (err : RunError) : B.Agrees w (Run.stop err : Run σ α) (Run.stop err) :=
  Run.Coupled.stop fun _ _ => B.cut

/-- A check stops both runs or neither, and it leaves the sessions as they are. -/
theorem Agrees.check (c : Cardinality) (n : Nat) (kind : DefinitionKind) (label : String)
    (path : NodePath) : B.Agrees w (Run.check c n kind label path) (Run.check c n kind label path) := by
  cases h : c.check n with
  | none =>
    rw [Run.check_of_none h, Run.check_of_none h]
    exact .pure ()
  | some v =>
    rw [Run.check_of_some h, Run.check_of_some h]
    exact .stop _

end Bond

/-! ## Translations -/

/-- A way to write definitions and forms differently. Heads stay as they are, and so do the
children, each of them translated, with the exception of those of elements: there `inside` says what
the children become, so that an extension point may give way to the definitions it wraps. -/
structure Translation where
  definition : Definition → Definition
  form : Form → Form
  inside : Head → List Definition → List Definition
  node : ∀ head cs, definition (.node head cs) = .node head (inside head cs)
  inside_eq : ∀ head, head.kind ≠ .element → ∀ cs, inside head cs = cs.map definition
  heading : ∀ f, (form f).toFormHeading = f.toFormHeading
  children : ∀ f, (form f).children = f.children.map definition

/-- The translation that leaves everything as it is. -/
def Translation.refl : Translation where
  definition d := d
  form f := f
  inside _ cs := cs
  node _ _ := rfl
  inside_eq _ _ cs := (List.map_id' cs).symm
  heading _ := rfl
  children f := (List.map_id' f.children).symm

namespace Translation

variable (T : Translation)

theorem node_eq (head : Head) (h : head.kind ≠ .element) (cs : List Definition) :
    T.definition (.node head cs) = .node head (cs.map T.definition) := by
  rw [T.node, T.inside_eq head h]

theorem head (d : Definition) : (T.definition d).head = d.head := by
  obtain ⟨head, cs⟩ := d
  rw [T.node]
  rfl

theorem label (d : Definition) : (T.definition d).label = d.label := congrArg Head.label (T.head d)

theorem kind (d : Definition) : (T.definition d).kind = d.kind := congrArg Head.kind (T.head d)

theorem nodeName (d : Definition) : (T.definition d).nodeName = d.nodeName := by
  obtain ⟨head, cs⟩ := d
  rw [T.node]
  cases head <;> rfl

/-- Translated definitions have the same alternatives in the same order, so that a winner is to be
emitted on both sides or on neither. -/
theorem emits (d : Definition) (winner : Winner γ) :
    (T.definition d).emits winner = d.emits winner := by
  obtain ⟨head, cs⟩ := d
  rw [T.node]
  cases head <;> rcases winner with found | (_ | _ | _) <;> rfl

theorem extensions (cs : List Definition) :
    Definition.extensions (cs.map T.definition) =
      (Definition.extensions cs).map T.definition := by
  rw [Definition.extensions, Definition.extensions, List.filter_map]
  simp only [Function.comp_def, T.kind]

end Translation

/-- A job on translated definitions. -/
def Translation.job (T : Translation) : Job γ → Job γ
  | .one d => .one (T.definition d)
  | .all ds => .all (ds.map T.definition)
  | .shown d found => .shown (T.definition d) found
  | .won d winner => .won (T.definition d) winner

/-- Two scopes that say the same, up to a translation and up to the node. The context is the same
on both sides, since it is what a binder answered and both binders answer alike. -/
structure Bond.Scopes (B : Bond σ τ) (T : Translation) (w : B.World) (scope scope' : Scope γ) :
    Prop where
  form : scope'.form = T.form scope.form
  formContext : scope'.formContext = scope.formContext
  context : scope'.context = scope.context
  parent : B.Nodes w scope.parent scope'.parent

namespace Bond.Scopes

variable {B : Bond σ τ} {T : Translation} {w w' : B.World} {scope scope' : Scope γ}

theorem later (h : B.Scopes T w scope scope') (hlater : B.Later w w') :
    B.Scopes T w' scope scope' :=
  { h with parent := B.later hlater h.parent }

theorem withParent (h : B.Scopes T w scope scope') {node node' : NodeId}
    (hnode : B.Nodes w node node') :
    B.Scopes T w (scope.withParent node) (scope'.withParent node') :=
  ⟨h.form, h.formContext, h.context, hnode⟩

theorem descend (h : B.Scopes T w scope scope') (found : γ) {node node' : NodeId}
    (hnode : B.Nodes w node node') :
    B.Scopes T w (scope.descend found node) (scope'.descend found node') :=
  ⟨h.form, h.formContext, rfl, hnode⟩

theorem top (form : Form) (context : γ) {node node' : NodeId} (hnode : B.Nodes w node node') :
    B.Scopes T w (.top form context node) (.top (T.form form) context node') :=
  ⟨rfl, rfl, rfl, hnode⟩

end Bond.Scopes

/-! ## Engines -/

/-- The tree with one more node, which has an origin and attributes. -/
def OutputTree.grow (t : OutputTree) (parent : NodeId) (kind : NodeKind) (name : String)
    (origin : Origin) (attrs : OtherAttributes) : OutputTree :=
  ((t.attach parent kind name).1.setOrigin t.size origin).copyAttributes t.size attrs

namespace Engine

/-- Emitting a definition grows the tree by its node. -/
theorem exec_emit (scope : Scope γ) (kind : NodeKind) (name : String) (d : Definition)
    (s : Session σ) : (emit scope kind name d).exec s = (.ok s.output.size, { s with
      output := s.output.grow scope.parent kind name ⟨scope.form, .definition d⟩
        d.head.attributes }) := rfl

variable {B : Bond σ τ} {T : Translation}

/-- Two runs at a position stay in step wherever that position is. -/
def InStep (B : Bond σ τ) (T : Translation) (m : Scope γ → NodePath → Run σ Unit)
    (m' : Scope γ → NodePath → Run τ Unit) : Prop :=
  ∀ w scope scope' path, B.Scopes T w scope scope' → B.Agrees w (m scope path) (m' scope' path)

/-- The second engine binds the translated forms, and a bond ties the engines wherever the walk
looks outside: at the binder, at the output and at extension points. Registry and limit are compared
as data, the binder by its answers, the output by what a step does to two trees that belong
together, and extension points as wholes, since the builders may differ. -/
structure Tied (B : Bond σ τ) (T : Translation) (e : Engine σ γ) (e' : Engine τ γ) : Prop where
  registry : ∀ key, e'.registry.get? key = (e.registry.get? key).map T.form
  limit : e'.limit = e.limit
  look : ∀ w found, B.Agrees w (e.look found) (e'.look found)
  elements : ∀ w scope scope' i cs, B.Scopes T w scope scope' →
    B.Agrees w (Run.ask (e.binder.bindElement scope ⟨i, cs⟩))
      (Run.ask (e'.binder.bindElement scope' ⟨i, T.inside (.element i) cs⟩))
  attributes : ∀ w scope scope' i cs, B.Scopes T w scope scope' →
    B.Agrees w (Run.ask (e.binder.bindAttribute scope ⟨i, cs⟩))
      (Run.ask (e'.binder.bindAttribute scope' ⟨i, cs.map T.definition⟩))
  forms : ∀ w scope scope' form, B.Scopes T w scope scope' →
    B.Agrees w (Run.ask (e.binder.bindForm (some scope) form))
      (Run.ask (e'.binder.bindForm (some scope') (T.form form)))
  emits : ∀ w kind name d (scope scope' : Scope γ), kind ≠ .comment → B.Scopes T w scope scope' →
    B.Ties w (emit scope kind name d) (emit scope' kind name (T.definition d)) B.Nodes
  shows : ∀ w node node' text, B.Nodes w node node' →
    B.Agrees w (Run.edit fun t => t.setValue node text) (Run.edit fun t => t.setValue node' text)
  inside : ∀ entry i cs scope path,
    e'.buildAll entry (T.inside (.element i) cs) scope path =
      e'.buildAll entry (cs.map T.definition) scope path
  extensions : ∀ entry entry' x cs,
    InStep B T (e.buildAll entry cs) (e'.buildAll entry' (cs.map T.definition)) →
    InStep B T (e.build entry (.node (.extension x) cs))
      (e'.build entry' (T.definition (.node (.extension x) cs)))

namespace Tied

variable {e : Engine σ γ} {e' : Engine τ γ} {entry : Entry σ γ} {entry' : Entry τ γ} {w : B.World}
  {scope scope' : Scope γ}

/-! ### Resolution -/

/-- Groups are resolved in step when their alternatives are candidates in step. The worlds grow
along the way, because an answer of the binder may already be a step that the bond takes note of. -/
theorem resolve_agrees_of {cs : List Definition}
    (h : ∀ d ∈ cs, ∀ w scope scope' path, B.Scopes T w scope scope' →
      B.Agrees w (Run.ask (d.candidate e.binder scope path))
        (Run.ask ((T.definition d).candidate e'.binder scope' path)))
    (hs : B.Scopes T w scope scope') (label : String) (index : Nat)
    (found : Option (Nat × Winner γ)) (path : NodePath) :
    B.Agrees w (Run.ask (Definition.resolve e.binder scope label cs index found path))
      (Run.ask (Definition.resolve e'.binder scope' label (cs.map T.definition) index found
        path)) := by
  induction cs generalizing w index found with
  | nil =>
    cases found with
    | none => exact Bond.Agrees.pure _
    | some first => exact Bond.Agrees.pure _
  | cons d cs ih =>
    have hcs := fun c (hc : c ∈ cs) => h c (List.mem_cons_of_mem d hc)
    rw [List.map_cons, Definition.resolve, Definition.resolve, Run.ask_bind, Run.ask_bind]
    refine (h d List.mem_cons_self w scope scope' path hs).bind fun w' candidate hlater => ?_
    cases candidate with
    | none => exact ih hcs (hs.later hlater) _ _
    | some winner =>
      cases found with
      | none => exact ih hcs (hs.later hlater) _ _
      | some first => exact Bond.Agrees.pure _

/-- Every definition is a candidate in step with its translation. Only elements and groups are
candidates, and the alternatives of a group are translated one by one. -/
theorem candidate_agrees (h : Tied B T e e') (d : Definition) : ∀ w scope scope' path,
    B.Scopes T w scope scope' → B.Agrees w (Run.ask (d.candidate e.binder scope path))
      (Run.ask ((T.definition d).candidate e'.binder scope' path)) := by
  induction d using Definition.induct with
  | node head cs ih =>
    intro w scope scope' path hs
    cases head with
    | element i =>
      rw [T.node, Definition.candidate, Definition.candidate, Run.ask_bind, Run.ask_bind]
      exact (h.elements w scope scope' i cs hs).bind fun w' found hlater => Bond.Agrees.pure _
    | choice c =>
      -- a group is not an element, so it is translated child by child
      have hgroup : (Head.choice c).kind ≠ .element := by rintro ⟨⟩
      rw [T.node_eq _ hgroup, Definition.candidate, Definition.candidate, Run.ask_bind, Run.ask_bind]
      refine (resolve_agrees_of ih hs _ _ _ _).bind fun w' outcome hlater => ?_
      cases outcome <;> exact Bond.Agrees.pure _
    | _ =>
      rw [T.node]
      exact Bond.Agrees.pure _

/-! ### Definitions -/

/-- The winner is counted in step: the cardinality is read off the head, and the heads are the
same. -/
theorem checkWinner_agrees (path : NodePath) (d : Option Definition) (winner : Winner γ) :
    B.Agrees w (checkWinner path d winner) (checkWinner path (d.map T.definition) winner) := by
  cases d with
  | none => exact Bond.Agrees.pure ()
  | some d =>
    obtain ⟨head, cs⟩ := d
    rw [Option.map_some, T.node]
    cases head with
    | element i =>
      cases winner with
      | instances found => exact Bond.Agrees.check _ _ _ _ _
      | group inner => exact Bond.Agrees.pure ()
    | choice c =>
      rcases winner with found | (_ | _ | _)
      · exact Bond.Agrees.pure ()
      · exact Bond.Agrees.check _ _ _ _ _
      · exact Bond.Agrees.check _ _ _ _ _
      · exact Bond.Agrees.stop _
    | _ => cases winner <;> exact Bond.Agrees.pure ()

/-- The node of an instance, with the text and the entry that both binders say. -/
theorem emitFound_ties (h : Tied B T e e') (hs : B.Scopes T w scope scope') {kind : NodeKind}
    (hkind : kind ≠ .comment) (name : String) (d : Definition) (found : γ) :
    B.Ties w (e.emitFound kind name d scope found)
      (e'.emitFound kind name (T.definition d) scope' found)
      fun w' shown shown' => B.Nodes w' shown.1 shown'.1 ∧ shown.2 = shown'.2 := by
  rw [emitFound, emitFound, T.label]
  refine (h.emits w kind name d scope scope' hkind hs).bind fun w₁ node node' hlater hnode => ?_
  refine (h.look w₁ found).bind fun w₂ said hlater' => ?_
  have hnode₂ := B.later hlater' hnode
  have htext : B.Agrees w₂ (showText node said.1) (showText node' said.1) := by
    cases said.1 with
    | none => exact Bond.Agrees.pure ()
    | some text => exact h.shows w₂ node node' text hnode₂
  exact htext.bind fun w₃ _ hlater'' => Bond.Ties.pure ⟨B.later hlater'' hnode₂, rfl⟩

/-- Beneath the nodes of a definition the translated children are bound, also where the second engine has
other ones. -/
theorem perform_children (h : Tied B T e e') (d : Definition) (path : NodePath) :
    e'.perform entry' (.all (T.definition d).children) scope' path =
      e'.perform entry' (.all (d.children.map T.definition)) scope' path := by
  obtain ⟨head, cs⟩ := d
  by_cases hkind : head.kind = .element
  · cases head with
    | element i =>
      rw [T.node]
      exact h.inside entry' i cs scope' path
    | _ => cases hkind
  · rw [T.node_eq head hkind]
    rfl

/-- A reference is followed in step: both engines know the target or neither does, and both have a level
left or neither has. -/
theorem reference_inStep (h : Tied B T e e') {n : Nat} {r : Reference} {cs : List Definition}
    (deeper : ∀ m < n, ∀ ds : List Definition,
      InStep B T (e.perform (e.follow m) (.all ds))
        (e'.perform (e'.follow m) (.all (ds.map T.definition))))
    (hextensions : InStep B T (e.perform (e.follow n) (.all (Definition.extensions cs)))
      (e'.perform (e'.follow n) (.all ((Definition.extensions cs).map T.definition)))) :
    InStep B T (e.perform (e.follow n) (.one (.node (.reference r) cs)))
      (e'.perform (e'.follow n) (.one (T.definition (.node (.reference r) cs)))) := by
  intro w scope scope' path hs
  have hnode := T.node_eq (.reference r) (by rintro ⟨⟩) cs
  cases hget : e.registry.get? r.target with
  | none =>
    rw [hnode, perform_missing hget, perform_missing (by rw [h.registry, hget]; rfl)]
    exact Bond.Agrees.stop _
  | some target =>
    have hget' : e'.registry.get? r.target = some (T.form target) := by
      rw [h.registry, hget]
      rfl
    cases n with
    -- the error names the limit, which is the same for both
    | zero =>
      rw [hnode, perform_exhausted hget, perform_exhausted hget', h.limit]
      exact Bond.Agrees.stop _
    | succ n =>
      -- node, target, and what is beneath, each in a world that may have grown since
      have hemits := h.emits w .reference r.target.id (.node (.reference r) cs) scope scope' nofun hs
      rw [hnode] at hemits
      rw [hnode, perform_entered hget, perform_entered hget']
      refine hemits.bind fun w₁ node node' hlater hnode => ?_
      refine (h.forms w₁ scope scope' _ (hs.later hlater)).bind fun w₂ bound hlater' => ?_
      have hnode₂ := B.later hlater' hnode
      have hbeneath := deeper n (Nat.lt_succ_self n) target.children w₂ _ _
        (path.child r.label) (.top target (bound.getD scope.context) hnode₂)
      rw [hs.context, T.children, T.extensions]
      refine hbeneath.bind fun w₃ _ hlater'' => ?_
      have hlater₃ := B.trans hlater (B.trans hlater' hlater'')
      exact hextensions w₃ _ _ _ ((hs.later hlater₃).withParent (B.later hlater'' hnode₂))

/-- **Every job.** Where a bond ties two engines, whatever the first one does for a job, the second
one does for the translated job in step with it. The induction is over levels and jobs together: a
reference that is crossed leads to any job over the definitions of its target with one level less,
and the extension points beneath it are a job at the same level. -/
theorem perform_inStep (h : Tied B T e e') (n : Nat) (job : Job γ) (hjob : job.Within fun _ => True) :
    InStep B T (e.perform (e.follow n) job) (e'.perform (e'.follow n) (T.job job)) := by
  induction n, job using Job.induct_levels with
  | nil n => exact fun w scope scope' path hs => Bond.Agrees.pure ()
  | cons n d ds hd hds =>
    intro w scope scope' path hs
    rw [perform_cons, Translation.job, List.map_cons, perform_cons]
    refine (hd trivial w scope scope' path hs).bind fun w' _ hlater => ?_
    exact hds (fun _ _ => trivial) w' scope scope' path (hs.later hlater)
  | attributes n i cs ih =>
    intro w scope scope' path hs
    have hshown := fun found => ih found ⟨trivial, Or.inr rfl⟩
    simp only [Translation.job, T.node_eq (.attribute i) (by rintro ⟨⟩) cs] at hshown ⊢
    rw [perform_attribute, perform_attribute]
    refine (h.attributes w scope scope' i cs hs).bind fun w₁ found hlater => ?_
    refine (Bond.Agrees.check _ _ _ _ _).bind fun w₂ _ hlater' => ?_
    exact hshown _ w₂ scope scope' path (hs.later (B.trans hlater hlater'))
  | elements n i cs ih =>
    intro w scope scope' path hs
    have hshown := fun found => ih found ⟨trivial, Or.inl rfl⟩
    simp only [Translation.job, T.node] at hshown ⊢
    rw [perform_element, perform_element]
    refine (h.elements w scope scope' i cs hs).bind fun w₁ found hlater => ?_
    refine (Bond.Agrees.check _ _ _ _ _).bind fun w₂ _ hlater' => ?_
    exact hshown found w₂ scope scope' path (hs.later (B.trans hlater hlater'))
  | choice n g cs ih =>
    intro w scope scope' path hs
    have hwon := fun index winner => ih index winner trivial
    simp only [Translation.job, T.node_eq (.choice g) (by rintro ⟨⟩) cs] at hwon ⊢
    rw [perform_choice, perform_choice]
    refine (resolve_agrees_of (fun c _ => h.candidate_agrees c) hs _ _ _ _).bind
      fun w₁ outcome hlater => ?_
    cases outcome with
    | absent => exact Bond.Agrees.check _ _ _ _ _
    | conflict error => exact Bond.Agrees.stop _
    | active index winner =>
      refine (Bond.Agrees.check _ _ _ _ _).bind fun w₂ _ hlater' => ?_
      exact hwon index winner w₂ scope scope' path (hs.later (B.trans hlater hlater'))
  | reference n r cs deeper ih =>
    exact h.reference_inStep (fun m hm ds => deeper m hm ds fun _ _ => trivial) (ih fun _ _ => trivial)
  | extension n x cs ih => exact h.extensions _ _ x cs (ih fun _ _ => trivial)
  | shownNil n d => exact fun w scope scope' path hs => Bond.Agrees.pure ()
  | shownCons n d c rest hinside hothers =>
    intro w scope scope' path hs
    have hkind : d.kind.nodeKind ≠ .comment := by
      rcases hjob.2 with hkind | hkind <;> rw [hkind] <;> decide
    rw [Translation.job, perform_shown_cons, perform_shown_cons, T.kind, T.nodeName]
    refine (h.emitFound_ties hs hkind _ d c).bind fun w₁ shown shown' hlater hshown => ?_
    rw [h.perform_children d, hshown.2]
    have hbeneath := (hs.later hlater).descend c hshown.1
    -- the world in which the children are bound is the one with the two new nodes in it
    refine (hinside (fun _ _ => trivial) w₁ _ _ _ hbeneath).bind fun w₂ _ hlater' => ?_
    exact hothers hjob w₂ scope scope' path (hs.later (B.trans hlater hlater'))
  | wonElement n i cs found ih =>
    have hshown := ih ⟨trivial, Or.inl rfl⟩
    simp only [Translation.job, T.node] at hshown ⊢
    exact hshown
  | wonGroup n g cs index winner hwinner hextensions =>
    intro w scope scope' path hs
    have hchecked := checkWinner_agrees (w := w) (T := T) (path.child g.label) cs[index]? winner
    have hemits := fun w₁ hs₁ => h.emits w₁ .choice (g.id.getD "choice") (.node (.choice g) cs) scope
      scope' nofun hs₁
    simp only [Translation.job, T.node_eq (.choice g) (by rintro ⟨⟩) cs] at hemits ⊢
    rw [perform_group, perform_group, List.getElem?_map, T.extensions]
    refine hchecked.bind fun w₁ _ hlater => ?_
    refine (hemits w₁ (hs.later hlater)).bind fun w₂ node node' hlater' hnode => ?_
    have hs₂ := (hs.later (B.trans hlater hlater')).withParent hnode
    refine Bond.Agrees.bind ?_ fun w₃ _ hlater'' =>
      hextensions (fun _ _ => trivial) w₃ _ _ _ (hs₂.later hlater'')
    cases hget : cs[index]? with
    | none => exact Bond.Agrees.pure ()
    | some d => exact hwinner d hget trivial w₂ _ _ _ hs₂
  | idle n d winner hidle =>
    intro w scope scope' path hs
    rw [Translation.job, perform_idle hidle, perform_idle (by rw [T.emits]; exact hidle)]
    exact Bond.Agrees.pure ()

/-- **The bodies of two runs stay in step.** Both start at their roots, which have to go together,
at the path of the form and in the same context. -/
theorem body_agrees (h : Tied B T e e') (form : Form) (context : γ)
    (hroot : B.Nodes w OutputTree.root OutputTree.root) :
    B.Agrees w (e.body form context) (e'.body (T.form form) context) := by
  have hlabel : (T.form form).label = form.label := congrArg FormHeading.label (T.heading form)
  rw [body, body, h.limit, T.children, hlabel]
  exact h.perform_inStep e.limit (.all form.children) (fun _ _ => trivial) w _ _ _
    (.top form context hroot)

end Tied

end Engine

end FormSchema
