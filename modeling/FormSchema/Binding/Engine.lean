import FormSchema.Binding.Outcome
import FormSchema.Binding.Session
import FormSchema.Registry.Basic

/-!
# Binding

A root form is bound by walking its definitions, depth first and in the order of declaration. The
walk asks the binder for instances, checks their number and emits output nodes; the first fault
ends it.

A reference is followed into the registered form, which may lead back to where it started. What a
reference comes to is therefore left open in the recursion over definitions, and filled in from a
supply of levels, one for every reference that may still be nested: `Engine.follow e n` follows
references with `n` levels left, and with none left it refuses.

* `Engine.build` — binds one definition at a position.
* `Engine.bind` — binds a root form.
-/

namespace FormSchema

variable {σ γ : Type}

/-- A definition wrapped by an extension point, with the ways a builder may have it bound. -/
structure Wrapped (σ γ : Type) where
  definition : Definition
  -- binds the definition
  build : Scope γ → NodePath → Run σ Unit
  -- binds the children of the definition, without the definition itself
  buildChildren : Scope γ → NodePath → Run σ Unit

/-- An extension point reached in a run, as builders see it. -/
structure Site (σ γ : Type) where
  binder : Binder σ γ
  scope : Scope γ
  path : NodePath
  point : Extension
  -- the definition of the extension point, which nodes may name as their origin
  definition : Definition
  wrapped : List (Wrapped σ γ)

/-- Contributes output at extension points. -/
structure Builder (σ γ : Type) where
  -- whether the builder applies to binders of a kind
  compatible : String → Bool
  -- contributes output at one extension point
  build : Site σ γ → Run σ Unit

/-- Everything a run depends on. -/
structure Engine (σ γ : Type) where
  registry : Registry
  -- how many references may be nested in one another
  limit : Nat
  -- builders, in the order in which they are consulted
  builders : List (Builder σ γ)
  binder : Binder σ γ

/-- What references come to: follows a reference, which stands in a definition at a position, into its
target, and gives back the node above what was bound there. -/
abbrev Entry (σ γ : Type) := Reference → Definition → Scope γ → NodePath → Run σ NodeId

namespace Engine

/-- Attaches the node of a definition, with its origin and its attributes. -/
def emit (scope : Scope γ) (kind : NodeKind) (name : String) (d : Definition) : Run σ NodeId := do
  let node ← Run.attach scope.parent kind name
  Run.edit fun t => t.setOrigin node ⟨scope.form, .definition d⟩
  Run.edit fun t => t.copyAttributes node d.head.attributes
  pure node

/-- Emits the node of one instance and continues beneath it. -/
def emitInstance (e : Engine σ γ) (kind : NodeKind) (name : String) (d : Definition)
    (scope : Scope γ) (path : NodePath) (beneath : Scope γ → NodePath → Run σ Unit)
    (found : γ) : Run σ Unit := do
  let node ← emit scope kind name d
  let state ← Run.state
  match e.binder.value state found with
  | some v => Run.edit fun t => t.setValue node v
  | none => pure ()
  beneath (scope.descend found node) (path.child ((e.binder.describe state found).getD d.label))

/-- Checks the winner of a group at the path of the group. -/
def checkWinner (path : NodePath) : Option Definition → Winner γ → Run σ Unit
  | some (.node (.element i) _), .instances found =>
    Run.check i.cardinality found.length .element i.elementLabel path
  | some (.node (.choice _) _), .group (.conflict error) => Run.stop (.binding error)
  | some (.node (.choice c) _), .group _ => Run.check c.cardinality 1 .choice c.label path
  | _, _ => pure ()

/-- Emits a group whose winner is the child at `index`: the winner is checked, then the node of the
group is emitted, then the winner and the extension points of the group beneath it. -/
def emitGroup (d : Definition) (c : Choice) (index : Nat) (winner : Winner γ) (scope : Scope γ)
    (path : NodePath) (emitWinner emitExtensions : Scope γ → Run σ Unit) : Run σ Unit := do
  checkWinner path d.children[index]? winner
  let node ← emit scope .choice (c.id.getD "choice") d
  emitWinner (scope.withParent node)
  emitExtensions (scope.withParent node)

/-- Hands an extension point to every builder compatible with the binder, in order. -/
def dispatch (e : Engine σ γ) (site : Site σ γ) : Run σ Unit :=
  (e.builders.filter fun b => b.compatible e.binder.kind).forM fun b => b.build site

/-- Crosses a reference into its target: `enter` binds the target beneath a node of its own. -/
def cross (e : Engine σ γ) (enter : Form → Scope γ → NodePath → Run σ Unit) (r : Reference)
    (target : Form) (d : Definition) (scope : Scope γ) (path : NodePath) : Run σ NodeId := do
  let node ← emit scope .reference target.key.id d
  let bound ← Run.ask (e.binder.bindForm (some scope) target)
  enter target (.top target (bound.getD scope.context) node) (path.child r.label)
  pure node

mutual

/-- Binds a definition at a position. -/
def build (e : Engine σ γ) (entry : Entry σ γ) :
    Definition → Scope γ → NodePath → Run σ Unit
  | .node (.attribute i) cs, scope, path => do
    let found ← Run.ask (e.binder.bindAttribute scope ⟨i, cs⟩)
    Run.check i.cardinality found.toList.length .attribute i.attributeLabel path
    found.toList.forM (e.emitInstance .attribute (i.nodeName "attribute") (.node (.attribute i) cs)
      scope path (buildAll e entry cs))
  | .node (.element i) cs, scope, path => do
    let found ← Run.ask (e.binder.bindElement scope ⟨i, cs⟩)
    Run.check i.cardinality found.length .element i.elementLabel path
    found.forM (e.emitInstance .element (i.nodeName "element") (.node (.element i) cs)
      scope path (buildAll e entry cs))
  | .node (.choice c) cs, scope, path => do
    let inner := path.child c.label
    match ← Run.ask (Definition.resolve e.binder scope c.label cs 0 none inner) with
    | .absent => Run.check c.cardinality 0 .choice c.label path
    | .conflict error => Run.stop (.binding error)
    | .active index winner => do
      Run.check c.cardinality 1 .choice c.label path
      emitGroup (.node (.choice c) cs) c index winner scope inner
        (fun s => emitAlternative e entry cs index winner s inner)
        (fun s => buildExtensions e entry cs s inner)
  | .node (.reference r) cs, scope, path => do
    let node ← entry r (.node (.reference r) cs) scope path
    buildExtensions e entry cs (scope.withParent node) (path.child r.label)
  | .node (.extension x) cs, scope, path =>
    e.dispatch ⟨e.binder, scope, path, x, .node (.extension x) cs, wrappedAll e entry cs⟩

def buildAll (e : Engine σ γ) (entry : Entry σ γ) :
    List Definition → Scope γ → NodePath → Run σ Unit
  | [], _, _ => pure ()
  | d :: ds, scope, path => do
    build e entry d scope path
    buildAll e entry ds scope path

/-- Binds the extension points among definitions, in their order. -/
def buildExtensions (e : Engine σ γ) (entry : Entry σ γ) :
    List Definition → Scope γ → NodePath → Run σ Unit
  | [], _, _ => pure ()
  | d :: ds, scope, path => do
    if d.kind = .extension then build e entry d scope path
    buildExtensions e entry ds scope path

def buildInside (e : Engine σ γ) (entry : Entry σ γ) :
    Definition → Scope γ → NodePath → Run σ Unit
  | .node _ cs, scope, path => buildAll e entry cs scope path

/-- The definitions an extension point wraps, ready for builders. -/
def wrappedAll (e : Engine σ γ) (entry : Entry σ γ) : List Definition → List (Wrapped σ γ)
  | [] => []
  | d :: ds => ⟨d, build e entry d, buildInside e entry d⟩ :: wrappedAll e entry ds

/-- Emits the winner of a group: the alternative that is reached after skipping `index` others. -/
def emitAlternative (e : Engine σ γ) (entry : Entry σ γ) :
    List Definition → Nat → Winner γ → Scope γ → NodePath → Run σ Unit
  | .node (.element i) cs :: _, 0, .instances found, scope, path =>
    found.forM (e.emitInstance .element (i.nodeName "element") (.node (.element i) cs)
      scope path (buildAll e entry cs))
  | .node (.choice c) cs :: _, 0, .group (.active index winner), scope, path =>
    let inner := path.child c.label
    emitGroup (.node (.choice c) cs) c index winner scope inner
      (fun s => emitAlternative e entry cs index winner s inner)
      (fun s => buildExtensions e entry cs s inner)
  | _ :: ds, index + 1, winner, scope, path => emitAlternative e entry ds index winner scope path
  | _, _, _, _, _ => pure ()

end

/-- Follows references with a number of levels left. -/
def follow (e : Engine σ γ) : Nat → Entry σ γ
  | n, r, d, scope, path =>
    match e.registry.get? r.target, n with
    | none, _ => Run.stop (.definitionNotFound r.target path)
    | some _, 0 => Run.stop (.referenceDepthExceeded r.target e.limit path)
    | some target, n + 1 =>
      e.cross (fun form scope path => buildAll e (follow e n) form.children scope path) r target d
        scope path

/-- The output of a run before its first definition: the node of the root form. -/
def start (form : Form) : OutputTree :=
  ((OutputTree.new .form form.key.id).setOrigin OutputTree.root ⟨form, .form form⟩).copyAttributes
    OutputTree.root form.attributes

/-- Binds the root form registered under a key, given what references come to. -/
def bindBy (e : Engine σ γ) (entry : Entry σ γ) (key : FormKey) :
    ExceptT RunError (StateM σ) OutputTree := fun state =>
  match e.registry.get? key with
  | none => (.error (.definitionNotFound key .root), state)
  | some form =>
    let path := NodePath.single form.label
    let ((), state) := e.binder.preBind form state
    let (context, state) :=
      if e.binder.hasSource then e.binder.bindForm none form state else (none, state)
    match context with
    | none => (.error (.binding ⟨.formAbsent, path, some form.label⟩), state)
    | some context =>
      let scope := Scope.top form context OutputTree.root
      match buildAll e entry form.children scope path ⟨state, start form⟩ with
      | (.error error, session) => (.error error, session.state)
      | (.ok (), session) =>
        let ((), state) := e.binder.postBind form session.output session.state
        (.ok session.output, state)

/-- Binds the root form registered under a key, with as many levels as the limit admits. -/
def bind (e : Engine σ γ) (key : FormKey) : ExceptT RunError (StateM σ) OutputTree :=
  e.bindBy (e.follow e.limit) key

def bindId (e : Engine σ γ) (id : String) (group : Option String) :
    ExceptT RunError (StateM σ) OutputTree :=
  e.bind (.ofGroup group id)

end Engine

end FormSchema
