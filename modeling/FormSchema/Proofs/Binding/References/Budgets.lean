import FormSchema.Proofs.Binding.References.Depths
import Mathlib

/-!
# Runs on a budget

References may lead in circles, so nothing in the registered forms alone bounds how deep a run goes.
What bounds it is the depth of the forms together with the limit. This module lets definitions be bound
inside one another only so often: a walk on a budget gives up with an error of the caller's choice where
the budget is used up. With as much as the forms and the limit ask for it never does, and is the walk
itself.

The walk on a budget is written out a second time, and not derived from the walk itself, so that the
budget is seen to be handed on at each step into a child, an alternative or a target. That the two
agree is shown by induction on the budget: the hypothesis serves for every definition that costs
less, whether it is reached through the tree or through a reference, and whether it is bound or
emitted as a winner.

* `Engine.buildWithin`, `Engine.bindWithin` — binding on a budget.
* **`Engine.buildWithin_eq`** — with enough of it, a definition is bound as without.
* **`Engine.bind_within_budget`** — what is enough for a run, and how deep its output can be.
-/

namespace FormSchema

variable {σ γ : Type}

/-! ## Resolving on a budget -/

/-- Resolves the alternatives of a group by means of a way to ask for one of them. The budget is
spent by the alternatives, and going along their list costs nothing. -/
def settle (ask : Definition → NodePath → Run σ (Option (Winner γ))) (label : String) :
    List Definition → Nat → Option (Nat × Winner γ) → NodePath → Run σ (Outcome γ)
  | [], _, none, _ => pure .absent
  | [], _, some (i, w), _ => pure (.active i w)
  | d :: ds, index, found, path => do
    match ← ask d path with
    | none => settle ask label ds (index + 1) found path
    | some w =>
      match found with
      | none => settle ask label ds (index + 1) (some (index, w)) path
      | some _ => pure (.conflict (conflictAt label path))

/-- Asks for an alternative, resolving nested groups inside one another as often as the budget
admits. -/
def candidateWithin (full : RunError) (b : Binder σ γ) (place : Scope γ) :
    Nat → Definition → NodePath → Run σ (Option (Winner γ))
  | 0, _, _ => Run.stop full
  | _ + 1, .node (.element i) cs, _ => do
    let found ← Run.ask (b.bindElement place ⟨i, cs⟩)
    pure (if found.isEmpty then none else some (.instances found))
  | budget + 1, .node (.choice c) cs, path => do
    match ← settle (candidateWithin full b place budget) c.label cs 0 none (path.child c.label) with
    | .absent => pure none
    | o => pure (some (.group o))
  | _ + 1, .node (.attribute _) _, _ | _ + 1, .node (.reference _) _, _
  | _ + 1, .node (.extension _) _, _ => pure none

namespace Engine

/-! ## Binding on a budget -/

mutual

/-- Binds a definition at a position with a number of levels left, with as many definitions inside
one another as the budget admits. A step into a child takes one from the budget, and so does a step
into the target of a reference. Definitions that stand side by side get the same budget. -/
def buildWithin (e : Engine σ γ) (full : RunError) :
    Nat → Nat → Definition → Scope γ → NodePath → Run σ Unit
  | 0, _, _, _, _ => Run.stop full
  | budget + 1, n, .node (.attribute i) cs, scope, path => do
    let found ← Run.ask (e.binder.bindAttribute scope ⟨i, cs⟩)
    Run.check i.cardinality found.toList.length .attribute i.attributeLabel path
    found.toList.forM (e.emitInstance .attribute (i.nodeName "attribute") (.node (.attribute i) cs)
      scope path fun s p => cs.forM fun c => buildWithin e full budget n c s p)
  | budget + 1, n, .node (.element i) cs, scope, path => do
    let found ← Run.ask (e.binder.bindElement scope ⟨i, cs⟩)
    Run.check i.cardinality found.length .element i.elementLabel path
    found.forM (e.emitInstance .element (i.nodeName "element") (.node (.element i) cs)
      scope path fun s p => cs.forM fun c => buildWithin e full budget n c s p)
  | budget + 1, n, .node (.choice c) cs, scope, path => do
    let inner := path.child c.label
    match ← settle (candidateWithin full e.binder scope budget) c.label cs 0 none inner with
    | .absent => Run.check c.cardinality 0 .choice c.label path
    | .conflict error => Run.stop (.binding error)
    | .active index winner => do
      Run.check c.cardinality 1 .choice c.label path
      emitGroup (.node (.choice c) cs) c index winner scope inner
        (fun s => match cs[index]? with
          | some d => emitWithin e full budget n d winner s inner
          | none => pure ())
        (fun s => (cs.filter fun d => d.kind = .extension).forM fun d =>
          buildWithin e full budget n d s inner)
  | budget + 1, n, .node (.reference r) cs, scope, path =>
    match e.registry.get? r.target, n with
    | none, _ => Run.stop (.definitionNotFound r.target path)
    | some _, 0 => Run.stop (.referenceDepthExceeded r.target e.limit path)
    | some target, n + 1 => do
      let node ← emit scope .reference target.key.id (.node (.reference r) cs)
      let bound ← Run.ask (e.binder.bindForm (some scope) target)
      let inner := path.child r.label
      target.children.forM fun c =>
        buildWithin e full budget n c (.top target (bound.getD scope.context) node) inner
      (cs.filter fun d => d.kind = .extension).forM fun d =>
        buildWithin e full budget (n + 1) d (scope.withParent node) inner
  | budget + 1, n, .node (.extension x) cs, scope, path =>
    e.dispatch ⟨e.binder, scope, path, x, .node (.extension x) cs, cs.map fun d =>
      ⟨d, buildWithin e full budget n d,
        fun s p => d.children.forM fun c => buildWithin e full budget n c s p⟩⟩

/-- Emits an alternative as the winner of its group, on a budget. -/
def emitWithin (e : Engine σ γ) (full : RunError) :
    Nat → Nat → Definition → Winner γ → Scope γ → NodePath → Run σ Unit
  | 0, _, _, _, _, _ => Run.stop full
  | budget + 1, n, .node (.element i) cs, .instances found, scope, path =>
    found.forM (e.emitInstance .element (i.nodeName "element") (.node (.element i) cs)
      scope path fun s p => cs.forM fun c => buildWithin e full budget n c s p)
  | budget + 1, n, .node (.choice c) cs, .group (.active index winner), scope, path =>
    let inner := path.child c.label
    emitGroup (.node (.choice c) cs) c index winner scope inner
      (fun s => match cs[index]? with
        | some d => emitWithin e full budget n d winner s inner
        | none => pure ())
      (fun s => (cs.filter fun d => d.kind = .extension).forM fun d =>
        buildWithin e full budget n d s inner)
  | _ + 1, _, _, _, _, _ => pure ()

end

/-- Binds the root form registered under a key on a budget. -/
def bindWithin (e : Engine σ γ) (full : RunError) (budget : Nat) (key : FormKey) :
    ExceptT RunError (StateM σ) OutputTree := fun state =>
  match e.registry.get? key with
  | none => (.error (.definitionNotFound key .root), state)
  | some form =>
    match e.rootContext form state with
    | (none, state) =>
      (.error (.binding ⟨.formAbsent, .single form.label, some form.label⟩), state)
    | (some context, state) =>
      let body := form.children.forM fun d =>
        e.buildWithin full budget e.limit d (.top form context OutputTree.root) (.single form.label)
      match body.exec ⟨state, start form⟩ with
      | (.error err, t) => (.error err, t.state)
      | (.ok (), t) =>
        (.ok t.output, (e.binder.postBind form t.output t.state).2)

end Engine

/-! ## Enough of a budget -/

section Enough

variable {full : RunError} {b : Binder σ γ} {place : Scope γ}

/-- Alternatives that are asked for as a binder is asked are resolved as with the binder. -/
theorem settle_eq_resolve {ask : Definition → NodePath → Run σ (Option (Winner γ))}
    {cs : List Definition} {path : NodePath}
    (h : ∀ d ∈ cs, ask d path = Run.ask (d.candidate b place path)) (label : String) (index : Nat)
    (found : Option (Nat × Winner γ)) :
    settle ask label cs index found path =
      Run.ask (Definition.resolve b place label cs index found path) := by
  induction cs generalizing index found with
  | nil =>
    cases found with
    | none => rfl
    | some first => rfl
  | cons d ds ih =>
    have hds := fun c hc => h c (List.mem_cons_of_mem d hc)
    rw [settle, Definition.resolve, Run.ask_bind, h d List.mem_cons_self]
    -- the loops take the same turn at whatever the alternative answers
    refine congrArg _ (funext fun candidate => ?_)
    cases candidate with
    | none => exact ih hds _ _
    | some w =>
      cases found with
      | none => exact ih hds _ _
      | some first => rfl

/-- Resolving never goes deeper than the definition. An alternative that is no group is asked for
at once, whatever the budget is. -/
theorem candidateWithin_eq {budget : Nat} {d : Definition} (h : d.height ≤ budget)
    (path : NodePath) :
    candidateWithin full b place budget d path = Run.ask (d.candidate b place path) := by
  induction budget generalizing d path with
  | zero => exact absurd d.one_le_height (Nat.not_le.mpr (Nat.lt_succ_of_le h))
  | succ budget ih =>
    obtain ⟨head, cs⟩ := d
    match head with
    | .element i => rfl
    | .choice c =>
      have hcs : ∀ d ∈ cs, ∀ path,
          candidateWithin full b place budget d path = Run.ask (d.candidate b place path) :=
        fun d hd path => ih (Nat.le_of_succ_le_succ (Nat.le_trans (Definition.height_child hd) h)) path
      rw [candidateWithin, Definition.candidate, Run.ask_bind,
        settle_eq_resolve (fun d hd => hcs d hd _)]
      refine congrArg _ (funext fun outcome => ?_)
      cases outcome <;> rfl
    | .attribute _ | .reference _ | .extension _ => rfl

end Enough

namespace Engine

variable {e : Engine σ γ} {full : RunError}

section Children

variable {budget n : Nat} {cs : List Definition}

/-- A loop over children that are bound alike on the budget and off it. -/
theorem forM_buildWithin (h : ∀ c ∈ cs, e.buildWithin full budget n c = e.build (e.follow n) c)
    (scope : Scope γ) (path : NodePath) :
    (cs.forM fun c => e.buildWithin full budget n c scope path) =
      e.buildAll (e.follow n) cs scope path := by
  rw [buildAll_eq_forM]
  exact Run.forM_congr fun c hc => by rw [h c hc]

/-- The same for the extension points among them. -/
theorem forM_extensions_buildWithin
    (h : ∀ c ∈ cs, e.buildWithin full budget n c = e.build (e.follow n) c) (scope : Scope γ)
    (path : NodePath) :
    ((cs.filter fun d => d.kind = .extension).forM fun d => e.buildWithin full budget n d scope path) =
      e.buildExtensions (e.follow n) cs scope path := by
  rw [buildExtensions_eq_forM]
  exact Run.forM_congr fun c hc => by rw [h c (List.mem_filter.mp hc).1]

/-- An alternative that is emitted alike on the budget and off it is the winner alike. Where there
is none at the index nothing is emitted either way. -/
theorem emitAlternative_eq_emitWithin
    (h : ∀ c ∈ cs, e.emitWithin full budget n c = e.emitWinner (e.follow n) c) (index : Nat)
    (winner : Winner γ) (scope : Scope γ) (path : NodePath) :
    (match cs[index]? with
      | some d => e.emitWithin full budget n d winner scope path
      | none => pure ()) =
      e.emitAlternative (e.follow n) cs index winner scope path := by
  rw [emitAlternative_eq]
  cases hget : cs[index]? with
  | none => rfl
  | some d =>
    dsimp only
    rw [h d (List.mem_of_getElem? hget)]

end Children

/-- A reference takes one definition and one level, which pays for the definitions of its target. -/
theorem buildWithin_reference {budget n : Nat} {r : Reference} {cs : List Definition}
    (h : (Definition.node (.reference r) cs).height + n * e.registry.height ≤ budget + 1)
    (ih : ∀ {n : Nat} {d : Definition}, d.height + n * e.registry.height ≤ budget →
      e.buildWithin full budget n d = e.build (e.follow n) d ∧
        e.emitWithin full budget n d = e.emitWinner (e.follow n) d)
    (hbuild : ∀ c ∈ cs, e.buildWithin full budget n c = e.build (e.follow n) c) (scope : Scope γ)
    (path : NodePath) :
    e.buildWithin full (budget + 1) n (.node (.reference r) cs) scope path =
      e.build (e.follow n) (.node (.reference r) cs) scope path := by
  cases hget : e.registry.get? r.target with
  | none =>
    rw [build_reference, follow_missing hget]
    simp only [buildWithin, hget]
    rfl
  | some target =>
    cases n with
    | zero =>
      rw [build_reference, follow_exhausted hget]
      simp only [buildWithin, hget]
      rfl
    | succ n =>
      -- the depth of the target fits into what the level has set aside for it
      have htarget : ∀ c ∈ target.children,
          e.buildWithin full budget n c = e.build (e.follow n) c := by
        intro c hc
        have hheight : c.height ≤ e.registry.height :=
          Registry.deepest_child (Registry.mem_forms_of_get? hget) hc
        have hreference := (Definition.node (.reference r) cs).one_le_height
        rw [Nat.succ_mul] at h
        refine (ih ?_).1
        omega
      rw [build_reference, follow_entered hget]
      simp only [buildWithin, hget, bind_assoc, pure_bind, forM_buildWithin htarget,
        forM_extensions_buildWithin hbuild]

/-- **With enough of a budget nothing changes.** Enough is the depth of the definition, and that of the
registered forms for every level that is left. -/
theorem buildWithin_eq {budget n : Nat} {d : Definition}
    (h : d.height + n * e.registry.height ≤ budget) :
    e.buildWithin full budget n d = e.build (e.follow n) d ∧
      e.emitWithin full budget n d = e.emitWinner (e.follow n) d := by
  induction budget generalizing n d with
  | zero =>
    have hone := d.one_le_height
    omega
  | succ budget ih =>
    obtain ⟨head, cs⟩ := d
    have hcs : ∀ c ∈ cs, c.height + n * e.registry.height ≤ budget := by
      intro c hc
      have hheight : c.height + 1 ≤ (Definition.node head cs).height := Definition.height_child hc
      omega
    have hbuild := fun c hc => (ih (hcs c hc)).1
    have hwin := fun c hc => (ih (hcs c hc)).2
    have hall : (fun scope path => cs.forM fun c => e.buildWithin full budget n c scope path) =
        e.buildAll (e.follow n) cs :=
      funext fun scope => funext fun path => forM_buildWithin hbuild scope path
    -- a group is emitted alike as a definition of its own and as the winner of another group
    have hgroup : ∀ g index (winner : Winner γ) (scope : Scope γ) path,
        emitGroup (.node head cs) g index winner scope path
          (fun s => match cs[index]? with
            | some d => e.emitWithin full budget n d winner s path
            | none => pure ())
          (fun s => (cs.filter fun d => d.kind = .extension).forM fun d =>
            e.buildWithin full budget n d s path) =
        emitGroup (.node head cs) g index winner scope path
          (fun s => e.emitAlternative (e.follow n) cs index winner s path)
          (fun s => e.buildExtensions (e.follow n) cs s path) := by
      intro g index winner scope path
      simp only [emitAlternative_eq_emitWithin hwin, forM_extensions_buildWithin hbuild]
    match head with
    | .attribute i =>
      refine ⟨?_, ?_⟩
      · funext scope path
        rw [buildWithin, build, hall]
      · funext winner scope path
        cases winner <;> rfl
    | .element i =>
      refine ⟨?_, ?_⟩
      · funext scope path
        rw [buildWithin, build, hall]
      · funext winner scope path
        cases winner with
        | instances found =>
          rw [emitWithin, hall]
          rfl
        | group inner => rfl
    | .choice g =>
      refine ⟨?_, ?_⟩
      · funext scope path
        have hcandidates : ∀ d ∈ cs, candidateWithin full e.binder scope budget d
            (path.child g.label) = Run.ask (d.candidate e.binder scope (path.child g.label)) := by
          intro d hd
          refine candidateWithin_eq ?_ _
          exact Nat.le_trans (Nat.le_add_right _ _) (hcs d hd)
        rw [buildWithin, build, settle_eq_resolve hcandidates]
        refine congrArg _ (funext fun outcome => ?_)
        cases outcome with
        | absent => rfl
        | conflict error => rfl
        | active index winner => exact bind_congr fun _ => hgroup g index winner scope _
      · funext winner scope path
        rcases winner with found | (_ | ⟨index, winner⟩ | _)
        · rfl
        · rfl
        · rw [emitWithin, hgroup]
          rfl
        · rfl
    | .reference r =>
      refine ⟨?_, ?_⟩
      · funext scope path
        exact buildWithin_reference h ih hbuild scope path
      · funext winner scope path
        cases winner <;> rfl
    | .extension x =>
      refine ⟨?_, ?_⟩
      · funext scope path
        rw [buildWithin, build, wrappedAll_eq_map]
        refine congrArg
          (fun ws => e.dispatch ⟨e.binder, scope, path, x, .node (.extension x) cs, ws⟩) ?_
        refine List.map_congr_left fun d hd => ?_
        -- a builder may also bind the children of a wrapped definition without the definition
        have hinside : (fun scope path => d.children.forM fun c =>
            e.buildWithin full budget n c scope path) = e.buildInside (e.follow n) d := by
          obtain ⟨head', ds⟩ := d
          funext scope path
          refine forM_buildWithin (fun c hc => (ih ?_).1) scope path
          have hheight : c.height + 1 ≤ (Definition.node head' ds).height :=
            Definition.height_child hc
          exact Nat.le_trans (by omega) (hcs _ hd)
        rw [hbuild d hd, hinside]
      · funext winner scope path
        cases winner <;> rfl

/-- A whole run on a budget: the root form costs its own depth, and each level may cost the depth
of one more form. -/
theorem bindWithin_eq {budget : Nat} (h : (e.limit + 1) * e.registry.height ≤ budget)
    (key : FormKey) : e.bindWithin full budget key = e.bind key := by
  funext s
  cases hget : e.registry.get? key with
  | none =>
    rw [bind_missing hget, bindWithin, hget]
  | some form =>
    have hbuild : ∀ d ∈ form.children,
        e.buildWithin full budget e.limit d = e.build (e.follow e.limit) d := by
      intro d hd
      have hheight : d.height ≤ e.registry.height :=
        Registry.deepest_child (Registry.mem_forms_of_get? hget) hd
      -- the depth of the root form beside one for each level
      rw [Nat.succ_mul] at h
      refine (buildWithin_eq ?_).1
      omega
    rw [bind_eq hget, bindWithin, hget]
    simp only [forM_buildWithin hbuild]
    rfl

/-- **Runs end, however references lead.** Whatever the binder answers and the builders are, no more
definitions are bound inside one another than fit into one chain through a form for each level and one
for the root form: a budget of so many is never used up. A tree that is returned is no deeper. -/
theorem bind_within_budget (r : Registry) (limit : Nat) (builders : List LibraryBuilder)
    (b : Binder σ γ) (key : FormKey) :
    (∀ full budget, (limit + 1) * r.height ≤ budget →
      (equipped r limit builders b).bindWithin full budget key =
        (equipped r limit builders b).bind key) ∧
    ∀ s tree, ((equipped r limit builders b).bind key s).1 = .ok tree →
      ∀ id < tree.size, (tree.ancestors id).length ≤ (limit + 1) * r.height := by
  refine ⟨fun full budget h => bindWithin_eq h key, fun s tree h id hid => ?_⟩
  obtain ⟨form, hget, hrooted, hplaced⟩ := bind_placed h
  -- the root has no nodes above it, and every other node stands at a position
  by_cases hroot : id = OutputTree.root
  · subst hroot
    rw [OutputTree.ancestors, hrooted.line]
    exact Nat.zero_le _
  · exact (hplaced id hid hroot).length_ancestors (Registry.mem_forms_of_get? hget)

/-- Orders with addresses: no more than six definitions are bound inside one another. -/
theorem bind_within_budget_orders :
    (1 + 1) * Sample.orders.height ≤ 6 ∧
    (∀ full, (equipped Sample.orders 1 [.inline] Sample.binder).bindWithin full 6 Sample.orderKey =
      (equipped Sample.orders 1 [.inline] Sample.binder).bind Sample.orderKey) ∧
    ∃ tree, ((equipped Sample.orders 1 [.inline] Sample.binder).bind Sample.orderKey ()).1 =
        .ok tree ∧ tree.size = 14 ∧
      ∀ id < tree.size, (tree.ancestors id).length ≤ (1 + 1) * Sample.orders.height := by
  have henough : (1 + 1) * Sample.orders.height ≤ 6 := by decide
  have hsize : ((equipped Sample.orders 1 [.inline] Sample.binder).bind Sample.orderKey
      ()).1.toOption.map OutputTree.size = some 14 := by cbv
  obtain ⟨hbudget, hdepth⟩ :=
    bind_within_budget Sample.orders 1 [.inline] Sample.binder Sample.orderKey
  obtain ⟨tree, h, hnodes⟩ := exists_ok_of_toOption hsize
  exact ⟨henough, fun full => hbudget full 6 henough, tree, h, hnodes, hdepth () tree h⟩

example (full : RunError) : ((equipped Sample.orders 1 [.inline] Sample.binder).bindWithin full 3
    Sample.orderKey ()).1 = .error full := by cbv

end Engine

end FormSchema
