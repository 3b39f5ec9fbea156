import FormSchema.Binding.Builders
import FormSchema.Binding.Script
import FormSchema.Proofs.Binding.Walk.RunLaws

/-!
# The walk over definitions

The binding of a definition is a mutual recursion over trees, lists of trees and the winners of
groups. This module gives it the forms in which later proofs use it.

* **`Definition.induct`** — induction over a tree, with the hypothesis for every child.
* **`Engine.buildAll_eq_forM`**, **`Engine.buildExtensions_eq_forM`**,
  **`Engine.emitAlternative_eq`** — the recursions over lists are loops over `Engine.build` and
  `Engine.emitWinner`.
* **`Engine.equipped`**, **`Engine.build_extension_equipped`** — the engines whose builders all
  come from the library, and what they do at an extension point.
-/

namespace FormSchema

/-! ## Induction over definitions -/

/-- Induction over a tree of definitions: a property that passes from the children of a node to the
node holds of every tree. The principle that Lean generates has a second property for lists of
trees. Here that property is always the first one at every member, so that a proof has one case. -/
@[elab_as_elim]
theorem Definition.induct {P : Definition → Prop}
    (node : ∀ head children, (∀ c ∈ children, P c) → P (.node head children)) (d : Definition) :
    P d :=
  @Definition.rec P (fun cs => ∀ c ∈ cs, P c) node (by simp)
    (fun _ _ hc hcs => List.forall_mem_cons.mpr ⟨hc, hcs⟩) d

/-! ## Loops -/

namespace Engine

variable {σ γ : Type} (e : Engine σ γ) (entry : Entry σ γ)

/-- Definitions are bound one after the other, in the order in which they stand, and nothing is
passed on from one of them to the next but the session. -/
theorem buildAll_eq_forM (ds : List Definition) (scope : Scope γ) (path : NodePath) :
    e.buildAll entry ds scope path = ds.forM fun d => e.build entry d scope path := by
  induction ds with
  | nil => rfl
  | cons d ds ih => rw [buildAll, ih]; rfl

/-- Of the definitions beneath a reference or a group only the extension points are bound there, in
the order in which they stand. -/
theorem buildExtensions_eq_forM (ds : List Definition) (scope : Scope γ) (path : NodePath) :
    e.buildExtensions entry ds scope path =
      (ds.filter fun d => d.kind = .extension).forM fun d => e.build entry d scope path := by
  induction ds with
  | nil => rfl
  | cons d ds ih =>
    rw [buildExtensions, ih, List.filter_cons]
    by_cases h : d.kind = .extension
    · rw [if_pos h, if_pos (by simpa using h), List.forM_eq_forM, List.forM_cons]
    · rw [if_neg h, if_neg (by simpa using h)]

/-- What a builder is given: every wrapped definition, together with the two ways of binding it,
with its own node and without one. -/
theorem wrappedAll_eq_map (ds : List Definition) :
    e.wrappedAll entry ds =
      ds.map fun d => ⟨d, e.build entry d, e.buildInside entry d⟩ := by
  induction ds with
  | nil => rfl
  | cons d ds ih => rw [wrappedAll, ih, List.map_cons]

/-- Emits one alternative as the winner of its group. -/
def emitWinner (d : Definition) (winner : Winner γ) (scope : Scope γ) (path : NodePath) :
    Run σ Unit :=
  e.emitAlternative entry [d] 0 winner scope path

/-- The winner of a group is the alternative at its index, and without one nothing is emitted. The
walk looks for the index by counting down along the alternatives, and this is where that search is
opened. Everywhere else the alternative at an index is a lookup. -/
theorem emitAlternative_eq (ds : List Definition) (index : Nat) (winner : Winner γ)
    (scope : Scope γ) (path : NodePath) :
    e.emitAlternative entry ds index winner scope path =
      match ds[index]? with
      | some d => e.emitWinner entry d winner scope path
      | none => pure () := by
  induction ds generalizing index with
  | nil => rw [emitAlternative]; all_goals simp
  | cons d ds ih =>
    obtain ⟨head, cs⟩ := d
    -- the walk decides by the head and by the shape of the winner, a nested outcome included
    rcases winner with found | (_ | _ | _)
    all_goals cases index with
    | zero => cases head <;> rfl
    | succ index =>
      rw [List.getElem?_cons_succ, ← ih index]
      cases head <;> rfl

/-! ## Instances and references

Two places of the walk look outside it: the node of an instance shows what the binder says of the
instance, and a reference needs its target and a level. Each gets a form of its own here. -/

/-- What the binder says of an instance: its text, and its path entry. -/
def look (found : γ) : Run σ (Option String × Option String) := do
  let st ← Run.state
  pure (e.binder.value st found, e.binder.describe st found)

@[simp] theorem exec_look (found : γ) (s : Session σ) :
    (e.look found).exec s =
      (.ok (e.binder.value s.state found, e.binder.describe s.state found), s) := rfl

/-- Gives a node its text, when there is one. -/
def showText (node : NodeId) : Option String → Run σ Unit
  | some text => Run.edit fun t => t.setValue node text
  | none => pure ()

/-- An instance gets its node, the node gets the text of the instance, and the walk goes on beneath
it. The two questions are put to the same state of the binder, one after the other, and both are
asked before anything is bound beneath the node. -/
theorem emitInstance_eq (kind : NodeKind) (name : String) (d : Definition) (scope : Scope γ)
    (path : NodePath) (beneath : Scope γ → NodePath → Run σ Unit) (found : γ) :
    e.emitInstance kind name d scope path beneath found = (do
      let node ← emit scope kind name d
      let said ← e.look found
      showText node said.1
      beneath (scope.descend found node) (path.child (said.2.getD d.label))) := by
  rw [emitInstance, look]
  simp only [bind_assoc, pure_bind]
  congr 1
  funext node
  congr 1
  funext st
  cases e.binder.value st found <;> rfl

/-- The node of an instance, with its text; gives back the node and its path entry. -/
def emitFound (kind : NodeKind) (name : String) (d : Definition) (scope : Scope γ) (found : γ) :
    Run σ (NodeId × String) := do
  let node ← emit scope kind name d
  let said ← e.look found
  showText node said.1
  pure (node, said.2.getD d.label)

/-- An instance is its node and what is bound beneath it. In this form the node is a run of its
own, about which each account of a run proves one lemma. -/
theorem emitInstance_eq_emitFound (kind : NodeKind) (name : String) (d : Definition)
    (scope : Scope γ) (path : NodePath) (beneath : Scope γ → NodePath → Run σ Unit) (found : γ) :
    e.emitInstance kind name d scope path beneath found =
      e.emitFound kind name d scope found >>= fun shown =>
        beneath (scope.descend found shown.1) (path.child shown.2) := by
  rw [emitInstance_eq, emitFound]
  simp only [bind_assoc, pure_bind]

/-- A reference is followed, and then its own extension points come. They are back outside:
whatever becomes of references there is what became of them before. The level that was spent on the
target is given back before they are bound, and so a reference among them starts from the level at
which this one stood. -/
theorem build_reference (r : Reference) (cs : List Definition) (scope : Scope γ) (path : NodePath) :
    e.build entry (.node (.reference r) cs) scope path = (do
      let node ← entry r (.node (.reference r) cs) scope path
      e.buildExtensions entry cs (scope.withParent node) (path.child r.label)) := by
  rw [build]

section Follow

variable {e} {r : Reference} {d : Definition} {scope : Scope γ} {path : NodePath}

/-- A reference without a target stops the run, whatever the level. The target is looked up before
anything is shown and before the level is tested. -/
theorem follow_missing (h : e.registry.get? r.target = none) (n : Nat) :
    e.follow n r d scope path = Run.stop (.definitionNotFound r.target path) := by
  simp only [follow.eq_def, h]

/-- With no level left a reference stops the run. This needs the target to be registered: a
reference that dangles fails as one that dangles, even at level zero. No node is left behind by
either failure. -/
theorem follow_exhausted {target : Form} (h : e.registry.get? r.target = some target) :
    e.follow 0 r d scope path = Run.stop (.referenceDepthExceeded r.target e.limit path) := by
  simp only [follow.eq_def, h]

/-- Otherwise it is crossed into its target, which is bound with one level less. The level stands
for the whole way down: every reference met beneath the target is followed from there. -/
theorem follow_crossed {target : Form} (h : e.registry.get? r.target = some target) (n : Nat) :
    e.follow (n + 1) r d scope path =
      e.cross (fun form scope path => e.buildAll (e.follow n) form.children scope path) r target d
        scope path := by
  simp only [follow.eq_def, h]

/-- What crossing comes to: a node, an answer of the binder for the target, and the definitions of
the target beneath the node. A form that the binder does not answer for is bound to the context in
which its reference stands. -/
theorem follow_entered {target : Form} (h : e.registry.get? r.target = some target) (n : Nat) :
    e.follow (n + 1) r d scope path = (do
      let node ← emit scope .reference target.key.id d
      let bound ← Run.ask (e.binder.bindForm (some scope) target)
      e.buildAll (e.follow n) target.children (.top target (bound.getD scope.context) node)
        (path.child r.label)
      pure node) := by
  rw [follow_crossed h, cross]

end Follow

/-! ## Whole runs -/

variable {e entry}

/-- What the root form is bound to. The binder is told of the run first, and without a source it is
asked nothing more. -/
def rootContext (e : Engine σ γ) (form : Form) : StateM σ (Option γ) := do
  e.binder.preBind form
  if e.binder.hasSource then e.binder.bindForm none form else pure none

/-- The run that binds the definitions of the root form: beneath the root node, at the path of the
form, in the context that the binder gave for the form, and with every level left. -/
def body (e : Engine σ γ) (form : Form) (context : γ) : Run σ Unit :=
  e.buildAll (e.follow e.limit) form.children (.top form context OutputTree.root) (.single form.label)

/-- The ways in which binding a registered form may end: the form is absent, the body stops, or the
body succeeds and the binder is told of the output. The state in each of them is the one in which
the binder is left, and in the last it includes what the binder made of the output. -/
inductive Ends (e : Engine σ γ) (form : Form) (s : σ) : Except RunError OutputTree → σ → Prop where
  | absent (h : (e.rootContext form s).1 = none) :
      e.Ends form s (.error (.binding ⟨.formAbsent, .single form.label, some form.label⟩))
        (e.rootContext form s).2
  | stopped {context : γ} {err : RunError} {t : Session σ}
      (h : (e.rootContext form s).1 = some context)
      (hbody : (e.body form context).exec ⟨(e.rootContext form s).2, start form⟩ = (.error err, t)) :
      e.Ends form s (.error err) t.state
  | finished {context : γ} {t : Session σ} (h : (e.rootContext form s).1 = some context)
      (hbody : (e.body form context).exec ⟨(e.rootContext form s).2, start form⟩ = (.ok (), t)) :
      e.Ends form s (.ok t.output) (e.binder.postBind form t.output t.state).2

/-- A root form that is not registered is an error at the empty path, and the binder is not told. -/
theorem bindBy_missing {key : FormKey} (h : e.registry.get? key = none) (s : σ) :
    e.bindBy entry key s = (.error (.definitionNotFound key .root), s) := by
  rw [bindBy, h]

/-- The same of the engine's own run, in which references are followed from its limit. -/
theorem bind_missing {key : FormKey} (h : e.registry.get? key = none) (s : σ) :
    e.bind key s = (.error (.definitionNotFound key .root), s) := bindBy_missing h s

/-- A run of a registered form: the root form is bound, then its definitions are, then the binder is told
of the output. This does not depend on what becomes of references. -/
theorem bindBy_eq {key : FormKey} {form : Form} (h : e.registry.get? key = some form) (s : σ) :
    e.bindBy entry key s = match e.rootContext form s with
      | (none, s') =>
        (.error (.binding ⟨.formAbsent, .single form.label, some form.label⟩), s')
      | (some context, s') =>
        match (e.buildAll entry form.children (.top form context OutputTree.root)
          (.single form.label)).exec ⟨s', start form⟩ with
        | (.error err, t) => (.error err, t.state)
        | (.ok (), t) =>
          (.ok t.output, (e.binder.postBind form t.output t.state).2) := by
  have hroot : e.rootContext form s =
      if e.binder.hasSource then
        e.binder.bindForm none form (e.binder.preBind form s).2
      else (none, (e.binder.preBind form s).2) := by
    rw [rootContext]
    cases e.binder.hasSource <;> rfl
  rw [bindBy, h, hroot]
  dsimp only
  rcases e.binder.preBind form s with ⟨⟨⟩, s₁⟩
  dsimp only
  generalize (if e.binder.hasSource then e.binder.bindForm none form s₁
    else (none, s₁)) = found
  rcases found with ⟨_ | context, s'⟩ <;> rfl

/-- The same of the engine's own run: its three stages are the question for the root form, the
body, and the word to the binder that the output is complete. -/
theorem bind_eq {key : FormKey} {form : Form} (h : e.registry.get? key = some form) (s : σ) :
    e.bind key s = match e.rootContext form s with
      | (none, s') =>
        (.error (.binding ⟨.formAbsent, .single form.label, some form.label⟩), s')
      | (some context, s') =>
        match (e.body form context).exec ⟨s', start form⟩ with
        | (.error err, t) => (.error err, t.state)
        | (.ok (), t) =>
          (.ok t.output, (e.binder.postBind form t.output t.state).2) :=
  bindBy_eq h s

/-- **A run ends in one of three ways.** Every statement about whole runs is proved from this one
by cases, so that none of them opens `Engine.bind` itself. -/
theorem bind_ends {key : FormKey} {form : Form} (h : e.registry.get? key = some form) (s : σ) :
    e.Ends form s (e.bind key s).1 (e.bind key s).2 := by
  rw [bind_eq h]
  rcases hcase : e.rootContext form s with ⟨_ | context, s'⟩
  · -- the three constructors are the three branches of the equation above, once the stages that they
    -- speak of are named
    have habsent : e.Ends form s _ _ := .absent (by rw [hcase])
    rwa [hcase] at habsent
  · have hcontext : (e.rootContext form s).1 = some context := by rw [hcase]
    dsimp only
    rcases hbody : (e.body form context).exec ⟨s', start form⟩ with ⟨err | ⟨⟨⟩⟩, t⟩
    · exact .stopped hcontext (by rw [hcase]; exact hbody)
    · exact .finished hcontext (by rw [hcase]; exact hbody)

/-! ### The tree of a run

A run that fails gives back no tree. What it had built by then can still be spoken of, and is what the node of
a failing definition would have been attached to. -/

/-- The tree when the last definition of a run is done, or when the run stops. -/
def built (e : Engine σ γ) (key : FormKey) (s : σ) : OutputTree :=
  match e.registry.get? key with
  | none => ⟨#[]⟩
  | some form =>
    match e.rootContext form s with
    | (none, _) => start form
    | (some context, s') => ((e.body form context).exec ⟨s', start form⟩).2.output

/-- Where the root form is absent nothing is built beyond its node. -/
theorem built_of_absent {key : FormKey} {form : Form} (h : e.registry.get? key = some form) {s : σ}
    (habsent : (e.rootContext form s).1 = none) : e.built key s = start form := by
  rcases hroot : e.rootContext form s with ⟨c, s'⟩
  rw [hroot] at habsent
  obtain rfl : c = none := habsent
  rw [built, h]
  dsimp only
  rw [hroot]

/-- Otherwise the body of the run has built it. -/
theorem built_of_bound {key : FormKey} {form : Form} (h : e.registry.get? key = some form) {s : σ}
    {context : γ} (hbound : (e.rootContext form s).1 = some context) :
    e.built key s =
      ((e.body form context).exec ⟨(e.rootContext form s).2, start form⟩).2.output := by
  rcases hroot : e.rootContext form s with ⟨c, s'⟩
  rw [hroot] at hbound
  obtain rfl : c = some context := hbound
  rw [built, h]
  dsimp only
  rw [hroot]

end Engine

/-! ## Engines of the library

Both builders of the library act in a way that does not depend on the binder: a comment is left
behind, or what the extension point wraps is bound in its place. So an extension point is a loop
over the builders that apply. -/

/-- A builder of the library. -/
inductive LibraryBuilder where
  -- leaves a comment, for binders of the given kinds or of every kind
  | comment (kinds : List String)
  -- binds what the extension point wraps
  | inline
deriving DecidableEq

namespace LibraryBuilder

variable {σ γ : Type}

/-- The builder itself. -/
def builder : LibraryBuilder → Builder σ γ
  | .comment kinds => .comment kinds
  | .inline => .inline

/-- Whether the builder applies to binders of a kind. -/
def appliesTo : LibraryBuilder → String → Bool
  | .comment kinds, kind => Builder.appliesTo kinds kind
  | .inline, _ => true

/-- Attaches the comment of an extension point. -/
def leaveComment (scope : Scope γ) (point : Extension) (d : Definition) : Run σ Unit := do
  let node ← Run.attach scope.parent .comment "comment"
  Run.edit fun t => t.setValue node point.representation
  Run.edit fun t => t.copyAttributes node point.attributes
  Run.edit fun t => t.setOrigin node ⟨scope.form, .definition d⟩

/-- What the builder does at an extension point whose wrapped definitions are bound by `inside`. -/
def contribute (l : LibraryBuilder) (scope : Scope γ) (point : Extension) (d : Definition)
    (inside : Run σ Unit) : Run σ Unit :=
  match l with
  | .comment _ => leaveComment scope point d
  | .inline => inside

theorem builder_compatible (l : LibraryBuilder) (kind : String) :
    (l.builder : Builder σ γ).compatible kind = l.appliesTo kind := by
  cases l <;> rfl

end LibraryBuilder

namespace Engine

variable {σ γ : Type}

/-- An engine that consults builders of the library only. -/
def equipped (registry : Registry) (limit : Nat) (builders : List LibraryBuilder)
    (binder : Binder σ γ) : Engine σ γ :=
  ⟨registry, limit, builders.map LibraryBuilder.builder, binder⟩

variable (registry : Registry) (limit : Nat) (builders : List LibraryBuilder) (binder : Binder σ γ)

@[simp] theorem equipped_registry :
    (equipped registry limit builders binder).registry = registry := rfl

@[simp] theorem equipped_binder : (equipped registry limit builders binder).binder = binder := rfl

/-- What a builder of the library does at an extension point that was reached in a walk. For a
builder that inlines this says that binding the wrapped definitions one by one, as it does, is the
same as binding them as a list, as the walk does with children. -/
theorem builder_build_site (e : Engine σ γ) (entry : Entry σ γ) (l : LibraryBuilder)
    (point : Extension) (d : Definition) (cs : List Definition) (scope : Scope γ)
    (path : NodePath) :
    l.builder.build ⟨binder, scope, path, point, d, e.wrappedAll entry cs⟩ =
      l.contribute scope point d (e.buildAll entry cs scope path) := by
  cases l with
  | comment kinds => rfl
  | inline =>
    show (e.wrappedAll entry cs).forM (fun w => w.build scope path) = e.buildAll entry cs scope path
    rw [wrappedAll_eq_map, buildAll_eq_forM, List.forM_eq_forM, List.forM_eq_forM, List.forM_map]

/-- Builders that come from a list of descriptions are called in the order of the list. The
description of a builder may be anything from which the builder and the kinds it applies to can be
read. -/
theorem build_extension_of_map {e : Engine σ γ} {ι : Type} {ls : List ι} {f : ι → Builder σ γ}
    {applies : ι → String → Bool} (hbuilders : e.builders = ls.map f)
    (happlies : ∀ l kind, (f l).compatible kind = applies l kind) (entry : Entry σ γ)
    (point : Extension) (cs : List Definition) (scope : Scope γ) (path : NodePath) :
    e.build entry (.node (.extension point) cs) scope path =
      (ls.filter fun l => applies l e.binder.kind).forM fun l =>
        (f l).build ⟨e.binder, scope, path, point, .node (.extension point) cs,
          e.wrappedAll entry cs⟩ := by
  rw [build, dispatch, hbuilders, List.filter_map, List.forM_eq_forM, List.forM_map,
    List.forM_eq_forM]
  simp only [Function.comp_def, happlies]

/-- **Extension points.** Every builder that applies to the binder contributes once, in order. -/
theorem build_extension_equipped (entry : Entry σ γ) (point : Extension) (cs : List Definition)
    (scope : Scope γ) (path : NodePath) :
    (equipped registry limit builders binder).build entry (.node (.extension point) cs) scope path =
      (builders.filter fun l => l.appliesTo binder.kind).forM fun l =>
        l.contribute scope point (.node (.extension point) cs)
          ((equipped registry limit builders binder).buildAll entry cs scope path) := by
  rw [build_extension_of_map rfl LibraryBuilder.builder_compatible]
  simp only [builder_build_site, equipped_binder]

/-- Without builders nothing happens at an extension point. -/
theorem build_extension_bare (entry : Entry σ γ) (point : Extension) (cs : List Definition)
    (scope : Scope γ) (path : NodePath) :
    (equipped registry limit [] binder).build entry (.node (.extension point) cs) scope path =
      pure () := by
  rw [build_extension_equipped]
  rfl

/-- Without builders nothing happens at the extension points among definitions. -/
theorem buildExtensions_bare (entry : Entry σ γ) (ds : List Definition) (scope : Scope γ)
    (path : NodePath) :
    (equipped registry limit [] binder).buildExtensions entry ds scope path = pure () := by
  induction ds with
  | nil => rfl
  | cons d ds ih =>
    rw [buildExtensions, ih]
    match d with
    | .node (.extension point) cs =>
      rw [build_extension_bare]
      rfl
    | .node (.attribute _) _ | .node (.element _) _ | .node (.choice _) _
    | .node (.reference _) _ => rfl

end Engine

/-! ## An example

Orders and the addresses they refer to. An address is referred to from the order itself, and from
within an extension point of each of its lines. -/

namespace Sample

def item (id : String) (c : Cardinality) : Item := ⟨⟨some id, none, .empty⟩, c⟩

def shipTo : Definition := .leaf (.reference ⟨⟨"", "address"⟩, .empty⟩)

def address : Form :=
  ⟨⟨⟨"", "address"⟩, "samples", .empty⟩, [.leaf (.element (item "city" .required))]⟩

def line : Definition :=
  .node (.element (item "line" .optionalMultiple))
    [.leaf (.attribute (item "sku" .required)), .node (.extension ⟨"ship", .empty⟩) [shipTo]]

def payment : Definition :=
  .node (.choice ⟨some "payment", .required, .empty⟩)
    [.leaf (.element (item "card" .optional)),
      .node (.choice ⟨some "transfer", .optional, .empty⟩)
        [.leaf (.element (item "iban" .required))]]

def order : Form := ⟨⟨⟨"", "order"⟩, "samples", .empty⟩, [line, payment, shipTo]⟩

def orders : Registry := ⟨[address, order]⟩

def orderKey : FormKey := ⟨"", "order"⟩

def answers : Script where
  kind := "script"
  hasSource := true
  forms := []
  elements := [("line", .list ["first", "second"]), ("iban", .list ["account"]),
    ("city", .list ["Paris"])]
  attributes := [("sku", "A-1")]
  values := none
  entries := []

def faulty : Script :=
  { answers with
    elements := [("line", .list ["first", "second"]), ("card", .list ["visa"]),
      ("iban", .list ["account"])]
    attributes := [] }

def binder : Binder Unit String := answers.binder fun _ s => s

example : ((Engine.equipped orders 1 [] binder).bind orderKey ()).1.isOk = true := by cbv

end Sample

end FormSchema
