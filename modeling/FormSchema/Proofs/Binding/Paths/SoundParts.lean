import FormSchema.Proofs.Binding.Paths.Failures
import FormSchema.Proofs.Binding.Groups.Resolution
import FormSchema.Proofs.Binding.Walk.SafeRuns

/-!
# Parts of runs that keep to positions

A part of an observed run keeps to positions when it attaches its nodes at positions, calls builders with
the paths of positions, and fails with an error of a definition at a position. What is known of positions at a
moment stays known, so a part that may start at any later moment can be judged once, from that moment on.

Failures are another matter: which definition is to blame depends on the very last answer, and does not stay
so. A part of a run is therefore judged from the moment at which it starts to the moment at which it ends, and
the moments between its parts are passed on. The node at which all this takes place is kept open throughout:
a part may emit beneath it and nowhere else, and when the walk has gone further down and comes back, the nodes
above are found to be open still.

* `Task.Sound` — so far the run has kept to positions.
* **`Task.Passes`** — a part of a run keeps to positions from the moment at which it starts;
  `Task.Upholds`, `Task.Steady` — from any later one.
* **`Task.Passes.bind`**, **`Task.Passes.ask`**, **`Task.Steady.forM`** — parts in sequence, questions
  and loops.
* **`Task.Passes.beneath`** — what is done beneath the last node.
* **`Engine.emit_passes`**, **`Engine.emitFound_passes`** — new nodes.
-/

namespace FormSchema

variable {σ γ α β ι : Type}

/-! ## Sound sessions -/

namespace Task

variable (k : Task σ γ)

/-- The binder of an observed run is in the state that the record leaves it in, and the given calls
of builders have been noted. So what the binder would say of an instance can be computed from the
record, at any moment. -/
def Faithful (visits : List (Visit γ)) (o : Observation σ γ) : Prop :=
  o.1.2 = visits ∧ o.1.1 = k.binder.replay k.state o.2

/-- So far the run has kept to positions. All nodes stand at positions, all questions were asked at
positions, all builders were called with the paths of positions, and nothing has been asked at a
node that is not there yet. -/
structure Sound (s : Session (Observation σ γ)) : Prop where
  placed : ∀ id < s.output.size, id ≠ OutputTree.root → k.Placed s.moment id
  asked : ∀ x ∈ s.state.2, ∀ place, x.place? = some place →
    ∃ n d scope path, k.Stands s.moment n d scope path ∧ scope = place
  visited : ∀ v ∈ s.state.1.2, k.Mirrors v.moment v.place.parent v.path
  fresh : Fresh s
  faithful : k.Faithful s.state.1.2 s.state

/-- An action calls no builder, and what it does to the binder is in the record. -/
def Quiet (action : StateM (Observation σ γ) α) : Prop :=
  ∀ visits, Keeps (k.Faithful visits) action

/-- The engine of a task, observed. -/
abbrev engine (contributors : List Contributor) : Engine (Observation σ γ) γ :=
  Engine.observed k.registry k.limit contributors k.binder

/-- How a part of a run may end: with a result as `Q` says, or with an error of a definition that fails at
this very moment. -/
def Leaves (Q : Moment γ → α → Prop) (m : Moment γ) : Except RunError α → Prop
  | .ok a => Q m a
  | .error err => k.Blames m err

/-- Started at the moment `m`, while the node `p` is open, a part of a run keeps to positions and
emits beneath `p` only. What it brings about is as `Q` says of the moment at which it ends. The
moment is a parameter, rather than whatever the session holds, so that facts about it may be used in
the parts that follow. -/
def Passes (m : Moment γ) (p : NodeId) (x : Run (Observation σ γ) α) (Q : Moment γ → α → Prop) : Prop :=
  ∀ s, k.Sound s → s.moment = m → m.tree.Open p →
    k.Sound (x.exec s).2 ∧ m.Later (x.exec s).2.moment ∧ (x.exec s).2.moment.tree.Open p ∧
      k.Leaves Q (x.exec s).2.moment (x.exec s).1

/-- The same for a part of a run that may start at any moment from `m` on. The recursion over
definitions needs this form: the children of a definition are bound at moments that are not known
when the definition is met. -/
def Upholds (m : Moment γ) (p : NodeId) (x : Run (Observation σ γ) α) (Q : Moment γ → α → Prop) : Prop :=
  ∀ m', m.Later m' → k.Passes m' p x Q

/-- From the moment `m` on, a part of a run keeps to positions and emits beneath `p` only. -/
def Steady (m : Moment γ) (p : NodeId) (x : Run (Observation σ γ) Unit) : Prop :=
  k.Upholds m p x fun _ _ => True

end Task

section Rules

variable {k : Task σ γ} {m m' : Moment γ} {p id : NodeId} {n : Nat} {d : Definition} {scope : Scope γ}
  {path : NodePath} {x : Run (Observation σ γ) α} {Q : Moment γ → α → Prop}

/-! ## How parts are put together -/

namespace Task.Passes

theorem pure {a : α} (h : Q m a) : k.Passes m p (Pure.pure a) Q :=
  fun _ hs hm hopen => ⟨hs, hm ▸ .refl _, hm ▸ hopen, hm ▸ h⟩

/-- Parts in sequence. The second part starts at the moment at which the first one ends, with the
node still open, and knows what the first part has brought about. -/
theorem bind {f : α → Run (Observation σ γ) β} {W : Moment γ → β → Prop} (h : k.Passes m p x Q)
    (hf : ∀ a m', m.Later m' → m'.tree.Open p → Q m' a → k.Passes m' p (f a) W) :
    k.Passes m p (x >>= f) W := by
  intro s hs hm hopen
  obtain ⟨hsound, hlater, hopen', hleaves⟩ := h s hs hm hopen
  rw [Run.exec_bind]
  rcases hx : x.exec s with ⟨err | a, t⟩
  · rw [hx] at hsound hlater hopen' hleaves
    exact ⟨hsound, hlater, hopen', hleaves⟩
  · rw [hx] at hsound hlater hopen' hleaves
    obtain ⟨hsound', hlater', hopen'', hleaves'⟩ :=
      hf a t.moment hlater hopen' hleaves t hsound rfl hopen'
    exact ⟨hsound', hlater.trans hlater', hopen'', hleaves'⟩

/-- A part that stops has to blame a definition for it, at this moment and at the open node. -/
theorem stop {err : RunError} (h : m.tree.Open p → k.Blames m err) :
    k.Passes m p (Run.stop err : Run (Observation σ γ) α) Q :=
  fun _ hs hm hopen => ⟨hs, hm ▸ .refl _, hm ▸ hopen, hm ▸ h hopen⟩

theorem imp {W : Moment γ → α → Prop} (h : k.Passes m p x Q) (himp : ∀ m' a, Q m' a → W m' a) :
    k.Passes m p x W := by
  intro s hs hm hopen
  obtain ⟨hsound, hlater, hopen', hleaves⟩ := h s hs hm hopen
  refine ⟨hsound, hlater, hopen', ?_⟩
  cases hx : (x.exec s).1 with
  | error err =>
    rw [hx] at hleaves
    exact hleaves
  | ok a =>
    rw [hx] at hleaves
    exact himp _ a hleaves

theorem check {c : Cardinality} {count : Nat} {kind : DefinitionKind} {label : String}
    (h : ∀ v, c.check count = some v → m.tree.Open p →
      k.Blames m (.binding ⟨.count v kind, path, some label⟩)) :
    k.Passes m p (Run.check c count kind label path) fun m' _ => m' = m ∧ c.check count = none := by
  cases hcount : c.check count with
  | none =>
    rw [Run.check_of_none hcount]
    exact .pure ⟨rfl, rfl⟩
  | some v =>
    rw [Run.check_of_some hcount]
    exact .stop (h v hcount)

/-- What is done beneath the last node keeps any node open that lies above it. This is where the
walk comes back from a node to the one above: the upper node is open again because nothing was
emitted outside the lower one. -/
theorem beneath (hlast : id + 1 = m.tree.size) (hp : p ∈ m.tree.line id) (h : k.Passes m id x Q) :
    k.Passes m p x Q := by
  intro s hs hm hopen
  obtain ⟨hsound, hlater, hopen', hleaves⟩ := h s hs hm (OutputTree.open_of_last hlast)
  exact ⟨hsound, hlater, hopen.outward hlast hp hlater.tree hopen', hleaves⟩

end Task.Passes

namespace Task.Upholds

theorem now (h : k.Upholds m p x Q) : k.Passes m p x Q := h m (.refl m)

end Task.Upholds

namespace Task.Steady

theorem done : k.Steady m p (Pure.pure ()) := fun _ _ => .pure trivial

theorem seq {x y : Run (Observation σ γ) Unit} (hx : k.Steady m p x) (hy : k.Steady m p y) :
    k.Steady m p (x >>= fun _ => y) :=
  fun m' hle => (hx m' hle).bind fun _ m'' hle' _ _ => hy m'' (hle.trans hle')

theorem forM {f : ι → Run (Observation σ γ) Unit} {xs : List ι}
    (h : ∀ x ∈ xs, k.Steady m p (f x)) : k.Steady m p (xs.forM f) := by
  induction xs with
  | nil => exact done
  | cons x xs ih => exact .seq (h x List.mem_cons_self) (ih fun y hy => h y (List.mem_cons_of_mem x hy))

end Task.Steady

/-! ## Questions and calls -/

namespace Task

/-- A question that is noted is quiet, if the note says what becomes of the state of the binder. -/
theorem noted_framed_quiet {action : StateM σ α} {note : α → Exchange γ}
    (h : ∀ st, (note (action st).1).after k.binder st = (action st).2) :
    k.Quiet (noted (framed action) note) := by
  rintro visits o ⟨hvisits, hstate⟩
  refine ⟨hvisits, ?_⟩
  show (action o.1.1).2 = k.binder.replay k.state (o.2 ++ [note (action o.1.1).1])
  rw [Binder.replay_concat, ← hstate, h]

/-- Resolving a group calls no builder, and each of its questions is in the record. -/
theorem resolve_quiet (place : Scope γ) (label : String) (cs : List Definition) (path : NodePath) :
    k.Quiet (Definition.resolve k.binder.observed place label cs 0 none path) := fun visits =>
  Definition.resolve_keeps (fun _ => noted_framed_quiet (fun _ => rfl) visits) label cs path

/-- What is asked at a position comes to the end of the record, and nothing is emitted meanwhile.
The questions are asked at the position that the part stands at, and so the session stays sound. -/
theorem Passes.ask {action : StateM (Observation σ γ) α} {A : α → List (Exchange γ) → Prop}
    (hstands : k.Stands m n d scope path) (htells : Tells scope action A)
    (hquiet : k.Quiet action) :
    k.Passes m p (Run.ask action) fun m' a =>
      m'.tree = m.tree ∧ ∃ xs, m'.record = m.record ++ xs ∧ A a xs := by
  rintro s hs rfl hopen
  obtain ⟨xs, hrecord, hplace, hA⟩ := htells s.state
  obtain ⟨hvisits, hstate⟩ := hquiet _ s.state hs.faithful
  have hlater : s.moment.Later (Session.moment ⟨(action s.state).2, s.output⟩) := {
    tree := .refl _
    record := by
      show s.state.2 <+: (action s.state).2.2
      rw [hrecord]
      exact List.prefix_append _ _ }
  have hparent : scope.parent < s.output.size := hstands.mirrors.known
  rw [Run.exec_ask]
  refine ⟨⟨fun id hid hne => (hs.placed id hid hne).mono hlater, ?_, ?_, ?_, ?_⟩, hlater, hopen, rfl,
    xs, hrecord, hA⟩
  · intro x hx place hx'
    replace hx : x ∈ s.state.2 ++ xs := hrecord ▸ hx
    rcases List.mem_append.mp hx with hbefore | hnow
    · obtain ⟨n', d', scope', path', hthere, heq⟩ := hs.asked x hbefore place hx'
      exact ⟨n', d', scope', path', hthere.mono hlater, heq⟩
    · rw [hplace x hnow] at hx'
      exact ⟨n, d, scope, path, hstands.mono hlater, Option.some.inj hx'⟩
  · intro v hv
    exact hs.visited v (hvisits ▸ hv)
  · intro id hid
    -- all questions were asked at a node that is there already
    have hat : ∀ x ∈ xs, x.isAt scope.parent = true := fun x hx =>
      Exchange.isAt_of_place? (hplace x hx)
    have hne : id ≠ scope.parent := Nat.ne_of_gt (Nat.lt_of_lt_of_le hparent hid)
    show askedAt (action s.state).2.2 id = []
    rw [hrecord, askedAt_append, hs.fresh id hid, askedAt_other hat hne]
    rfl
  · exact ⟨rfl, hstate⟩

/-- A builder is called with the path of a position. -/
theorem Steady.note (hstands : k.Stands m n d scope path) :
    k.Steady m p (Contributor.note scope path) := by
  rintro m' hle s hs rfl hopen
  refine ⟨⟨hs.placed, hs.asked, ?_, hs.fresh, rfl, hs.faithful.2⟩, .refl _, hopen, trivial⟩
  intro v hv
  rcases List.mem_append.mp hv with hbefore | hnow
  · exact hs.visited v hbefore
  · rw [List.mem_singleton.mp hnow]
    exact (hstands.mono hle).mirrors

end Task

end Rules

/-! ## New nodes -/

section Emission

variable {k : Task σ γ} {m : Moment γ} {n : Nat} {d : Definition} {scope : Scope γ}
  {path : NodePath}

namespace Task

/-- A new node at the position of a definition. The node of the position stays open. The new node
is the last one, has the position for its place, and shows what it has to show. -/
theorem Sound.grafted {s : Session (Observation σ γ)} {t : OutputTree} {node : OutputNode}
    (hs : k.Sound s) (h : OutputTree.Grafted s.output t node)
    (hstands : k.Stands s.moment n d scope path) (hlevel : d.kind = .reference → 0 < n)
    (hkind : node.kind = d.kind.nodeKind) (hparent : node.parent = some scope.parent)
    (horigin : node.origin = some ⟨scope.form, .definition d⟩)
    (hshown : t.Attached scope.parent scope.form d s.output.size → d.kind = .attribute ∨ d.kind = .element →
      ∃ found entry, k.Shows ⟨t, s.state.2⟩ d scope found s.output.size entry) :
    k.Sound { s with output := t } ∧ s.moment.Later ⟨t, s.state.2⟩ ∧
      t.Attached scope.parent scope.form d s.output.size ∧
      (s.output.Open scope.parent → t.Open scope.parent) := by
  have hlater : s.moment.Later ⟨t, s.state.2⟩ := ⟨h.extended, List.prefix_refl _⟩
  have hknown : scope.parent < s.output.size := hstands.mirrors.known
  have hattached : t.Attached scope.parent scope.form d s.output.size :=
    h.attached hknown hparent hkind horigin
  refine ⟨⟨?_, ?_, hs.visited, ?_, hs.faithful⟩, hlater, hattached,
    fun hopen => hopen.attached h.extended h.size hattached⟩
  · intro id hid hne
    -- the new node is placed by what is said of it, and all others as before
    have hcases : id < s.output.size ∨ id = s.output.size := by
      have hsize : id < s.output.size + 1 := h.size ▸ hid
      omega
    rcases hcases with hlt | rfl
    · exact (hs.placed id hlt hne).mono hlater
    · exact ⟨n, d, scope, path, hstands.mono hlater, hattached, hlevel, hshown hattached⟩
  · intro x hx place hplace
    obtain ⟨n', d', scope', path', hthere, heq⟩ := hs.asked x hx place hplace
    exact ⟨n', d', scope', path', hthere.mono hlater, heq⟩
  · intro id hid
    exact hs.fresh id (Nat.le_trans h.extended.size hid)

end Task

namespace Engine

/-- The node of a group or of a reference becomes the last node, and nothing is asked. -/
theorem emit_passes (hstands : k.Stands m n d scope path) (hlevel : d.kind = .reference → 0 < n)
    (hwrapper : d.kind = .choice ∨ d.kind = .reference) (name : String) :
    k.Passes m scope.parent (emit scope d.kind.nodeKind name d) fun m' id =>
      m'.tree.Attached scope.parent scope.form d id ∧ id + 1 = m'.tree.size ∧ m'.record = m.record := by
  rintro s hs rfl hopen
  obtain ⟨t, node, hemit, hbuds, hkind, -, horigin, -⟩ :=
    emit_buds scope d.kind.nodeKind name d hstands.mirrors.known
  have hnone : ¬ (d.kind = .attribute ∨ d.kind = .element) := by
    rcases hwrapper with hwrapper | hwrapper <;> rw [hwrapper] <;> decide
  obtain ⟨hsound, hlater, hattached, hkept⟩ :=
    hs.grafted hbuds.grafted hstands hlevel hkind hbuds.parent horigin fun _ h => absurd h hnone
  rw [hemit]
  exact ⟨hsound, hlater, hkept hopen, hattached, hbuds.size.symm, rfl⟩

/-- A comment is a node at the position of its extension point, and nothing is emitted beneath it. -/
theorem leaveComment_steady {x : Extension} {cs : List Definition}
    (hstands : k.Stands m n (.node (.extension x) cs) scope path) :
    k.Steady m scope.parent (LibraryBuilder.leaveComment scope x (.node (.extension x) cs)) := by
  rintro m' hle s hs rfl hopen
  have hnow := hstands.mono hle
  obtain ⟨t, node, hleave, hbuds, hkind, horigin⟩ :=
    leaveComment_buds scope x (.node (.extension x) cs) hnow.mirrors.known
  obtain ⟨hsound, hlater, -, hkept⟩ := hs.grafted hbuds.grafted hnow nofun hkind hbuds.parent horigin
    fun _ h => by rcases h with h | h <;> cases h
  rw [hleave]
  exact ⟨hsound, hlater, hkept hopen, trivial⟩

variable {contributors : List Contributor} {found : γ} {p : NodeId}

/-- The node of an instance becomes the last node. The node shows the instance: its text and its
path entry are what the binder says of it in the state of this moment. -/
theorem emitFound_passes (hstands : k.Stands m n d scope path) (hp : p ∈ m.tree.line scope.parent)
    (hgave : Gave m.record (scope.withParent p) found d) (name : String) :
    k.Passes m scope.parent ((k.engine contributors).emitFound d.kind.nodeKind name d scope found)
      fun m' shown => k.Shows m' d scope found shown.1 shown.2 ∧ shown.1 + 1 = m'.tree.size := by
  rintro s hs rfl hopen
  obtain ⟨t, node, hemit, hbuds, hkind, hvalue, horigin, -⟩ :=
    (k.engine contributors).emitFound_buds d.kind.nodeKind name d scope found hstands.mirrors.known
  have hlevel : d.kind = .reference → 0 < n := by
    intro hreference
    rcases hgave with _ | _
    · cases hreference
    · cases hreference
  have hline : p ∈ t.line scope.parent := by
    rw [hbuds.grafted.extended.line hstands.mirrors.known]
    exact hp
  -- what is known of the instance is the record as it is now: nothing has been asked at the new node
  have hshown : t.Attached scope.parent scope.form d s.output.size →
      k.Shows ⟨t, s.state.2⟩ d scope found s.output.size
        (((k.engine contributors).binder.describe s.state found).getD d.label) := by
    refine fun hattached => ⟨hattached, s.state.2, p, node, List.prefix_refl _, hline,
      hgave, hs.fresh _ (Nat.le_refl _), hbuds.node, ?_, ?_⟩
    · rw [hvalue, ← hs.faithful.2]
      rfl
    · rw [← hs.faithful.2]
      rfl
  obtain ⟨hsound, hlater, hattached, hkept⟩ := hs.grafted hbuds.grafted hstands hlevel hkind hbuds.parent
    horigin fun hattached _ => ⟨found, _, hshown hattached⟩
  rw [hemit]
  exact ⟨hsound, hlater, hkept hopen, hshown hattached, hbuds.size.symm⟩

end Engine

end Emission

end FormSchema
