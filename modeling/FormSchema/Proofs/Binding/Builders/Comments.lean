import FormSchema.Document.Binder
import FormSchema.Proofs.Binding.Builders.Decorations
import FormSchema.Proofs.Binding.Walk.ObservedRuns
import Mathlib

/-!
# Comments decorate

Builders that leave comments add leaves to the output of a run on a document, and change nothing else.
To say which comments there are, a scout goes before them: it notes every extension point that is
dispatched, with the mark that comments left there will bear.

The two runs are tied by a bond in the sense of runs in step. Its worlds hold the kinds of the nodes
built so far, from which it is computed where a node is found in the tree without comments, and the
comments that have been announced by a scout but not yet been left. When nothing is due, the
comments of the tree are exactly those that the dispatches call for.

* `Engine.scouted`, **`Engine.bind_scouted`** — runs with a scout, which come to the same results.
* `Decorated` — the relation between a run without comments and one with them.
* **`Engine.bind_decorated`** — a run on a document with and without comments.
-/

namespace FormSchema

variable {σ γ : Type}

/-! ## Scouts -/

/-- What tells where a comment belongs: the node above it, and the origin it names. Comments with the same
mark show the same, since what a comment shows is read off its origin. -/
structure Mark where
  parent : Option NodeId
  origin : Option Origin

def OutputNode.mark (n : OutputNode) : Mark := ⟨n.parent, n.origin⟩

/-- The mark of the comments that are left for an extension point. -/
def Scope.mark (scope : Scope γ) (d : Definition) : Mark :=
  ⟨some scope.parent, some ⟨scope.form, .definition d⟩⟩

/-- Notes that an extension point is dispatched. -/
def scoutAt (scope : Scope γ) (d : Definition) : StateM (σ × List Mark) Unit := fun s =>
  ((), (s.1, s.2 ++ [scope.mark d]))

/-- A builder that notes every dispatch and contributes nothing. Since it comes first, the dispatch
is noted even if a later builder stops the run. -/
def scout : Builder (σ × List Mark) γ where
  compatible _ := true
  build site := Run.ask (scoutAt site.scope site.definition)

/-- A scouted run holds the state of its binder beside the marks. -/
theorem Binder.matches_scouted (b : Binder σ γ) :
    Binder.Matches (fun s (t : σ × List Mark) => s = t.1) b b.beside :=
  b.matches_beside (fun _ _ hst => hst) (fun _ _ _ _ => rfl)

namespace Engine

variable (r : Registry) (limit : Nat) (bs : List LibraryBuilder) (b : Binder σ γ)

/-- The engine whose builders come after a scout. -/
def scouted : Engine (σ × List Mark) γ :=
  ⟨r, limit, scout :: bs.map LibraryBuilder.builder, b.beside⟩

/-- An extension point is noted, and then the builders that apply contribute. -/
theorem build_extension_scouted (entry : Entry (σ × List Mark) γ) (x : Extension)
    (cs : List Definition) (scope : Scope γ) (path : NodePath) :
    (scouted r limit bs b).build entry (.node (.extension x) cs) scope path =
      Run.ask (scoutAt scope (.node (.extension x) cs)) >>= fun _ =>
        (bs.filter fun l => l.appliesTo b.kind).forM fun l =>
          l.contribute scope x (.node (.extension x) cs)
            ((scouted r limit bs b).buildAll entry cs scope path) := by
  have hbuilders : ((bs.map LibraryBuilder.builder).filter fun l : Builder (σ × List Mark) γ =>
      l.compatible b.kind) = (bs.filter fun l => l.appliesTo b.kind).map LibraryBuilder.builder := by
    simp only [List.filter_map, Function.comp_def, LibraryBuilder.builder_compatible]
  rw [build, dispatch]
  show ((scout :: bs.map LibraryBuilder.builder).filter fun l : Builder (σ × List Mark) γ =>
    l.compatible b.kind).forM _ = _
  rw [List.filter_cons_of_pos rfl, hbuilders, List.forM_eq_forM, List.forM_cons, List.forM_map]
  simp only [builder_build_site]
  rfl

/-- **A scout changes no run.** It only reads where it is called and writes into a state of its
own, which nothing else looks at. -/
theorem bind_scouted (key : FormKey) (s : σ) :
    ((scouted r limit bs b).bind key (s, [])).1 = ((equipped r limit bs b).bind key s).1 := by
  have halike : Alike (fun s (t : σ × List Mark) => s = t.1) (equipped r limit bs b)
      (scouted r limit bs b) := {
    registry := rfl
    limit := rfl
    binder := b.matches_scouted.toEchoes
    extensions := by
      intro entry entry' form x cs scope path _ h s t output hst
      rw [build_extension_equipped, build_extension_scouted, Run.exec_bind]
      exact (Run.matching _).forM (fun l _ => contribute_rel h l scope x _) s _ output hst }
  exact (bind_alike halike b.matches_scouted key (t := (s, [])) rfl).1.symm

/-- The extension points that are dispatched in a run. -/
def dispatches (key : FormKey) (s : σ) : List Mark := ((scouted r limit bs b).bind key (s, [])).2.2

end Engine

/-! ## Runs with and without comments -/

/-- What a comment shows: the extension point that it names as its origin, with nothing beneath it. -/
structure OutputNode.IsComment (n : OutputNode) : Prop where
  leaf : n.children = #[]
  name : n.name = "comment"
  point : ∃ form x cs, n.origin = some ⟨form, .definition (.node (.extension x) cs)⟩ ∧
    n.value = some x.representation ∧ (x.attributes.names.Nodup → n.attributes = x.attributes.entries)

/-- How far two runs have come: the kinds of the nodes in the tree with comments, and the comments
that are still due. Comments are due only while an extension point is being dispatched. -/
structure Stage where
  kinds : List NodeKind
  due : List Mark

/-- A run without comments beside one with comments, when every dispatch leaves `count` of them.
That the marks agree is said up to order, since an extension point that is inlined may dispatch
others before its own comments are all left. -/
structure Decorated {τ : Type} (count : Nat) (w : Stage) (s : Session σ)
    (t : Session (τ × List Mark)) : Prop where
  kinds : t.output.kinds = w.kinds
  remains : t.output.withoutComments = s.output
  linked : t.output.Linked
  shown : ∀ n ∈ t.output.comments, n.IsComment
  -- the comments of all dispatches have been left or are due
  marks : (t.output.comments.map OutputNode.mark ++ w.due).Perm
    (t.state.2.flatMap fun m => List.replicate count m)

/-- The bond of the two runs. A node without comments is where the same node has moved. Nothing is
asked of runs that have stopped, for these give back no tree. -/
def decoration (σ τ : Type) (count : Nat) : Bond σ (τ × List Mark) where
  World := Stage
  Later w w' := w.kinds <+: w'.kinds ∧ w'.due = w.due
  refl w := ⟨List.prefix_refl w.kinds, rfl⟩
  trans h h' := ⟨h.1.trans h'.1, h'.2.trans h.2⟩
  Rel := Decorated count
  Cut _ _ := True
  cut _ := trivial
  Nodes w id id' := id = rankIn w.kinds id' ∧ ∃ k, w.kinds[id']? = some k ∧ k ≠ .comment
  later := by
    rintro w w' id id' ⟨⟨later, hlater⟩, -⟩ ⟨rfl, k, hk, hne⟩
    have hlt : id' < w.kinds.length := (List.getElem?_eq_some_iff.mp hk).1
    rw [← hlater]
    exact ⟨(rankIn_append (Nat.le_of_lt hlt) later).symm, k,
      by rw [List.getElem?_append_left hlt, hk], hne⟩

section Steps

variable {τ : Type} {count : Nat} {w : Stage} {s : Session σ} {t : Session (τ × List Mark)}
  {id id' : NodeId}

/-- A node that goes with another one is in the tree with comments, and is none. -/
theorem Decorated.node? (h : Decorated count w s t) (hnode : (decoration σ τ count).Nodes w id id') :
    ∃ n, t.output.node? id' = some n ∧ n.kind ≠ .comment := by
  obtain ⟨-, k, hk, hne⟩ := hnode
  rw [← h.kinds, OutputTree.getElem?_kinds] at hk
  obtain ⟨n, hn, rfl⟩ := Option.map_eq_some_iff.mp hk
  exact ⟨n, hn, hne⟩

/-- It is in the tree without comments as well. -/
theorem Decorated.lt_size (h : Decorated count w s t)
    (hnode : (decoration σ τ count).Nodes w id id') : id < s.output.size := by
  obtain ⟨rfl, k, hk, hne⟩ := hnode
  rw [← h.remains, OutputTree.size_withoutComments, h.kinds]
  exact rankIn_lt hk hne

/-- Both trees grow by the node of a definition. The new nodes stand at the ends of their trees,
and go together from now on. -/
theorem Decorated.grow (h : Decorated count w s t) (hnode : (decoration σ τ count).Nodes w id id')
    {kind : NodeKind} (hkind : kind ≠ .comment) (name : String) (origin : Origin)
    (attrs : OtherAttributes) :
    ∃ w', (decoration σ τ count).Later w w' ∧
      Decorated count w' ⟨s.state, s.output.grow id kind name origin attrs⟩
        ⟨t.state, t.output.grow id' kind name origin attrs⟩ ∧
      (decoration σ τ count).Nodes w' s.output.size t.output.size := by
  obtain ⟨n, hn, hne⟩ := h.node? hnode
  have hlt := OutputTree.lt_size_of_node? hn
  -- both growths are plantings, of the same node at nodes that go together
  rw [OutputTree.grow_eq_plant (h.lt_size hnode), OutputTree.grow_eq_plant hlt]
  obtain ⟨rfl, -⟩ := hnode
  refine ⟨⟨w.kinds ++ [kind], w.due⟩, ⟨List.prefix_append _ _, rfl⟩, ?_, ?_, kind, ?_, hkind⟩
  · -- the kind is not that of a comment, so taking the comments out keeps the node
    exact {
      kinds := by
        rw [OutputTree.kinds_plant, h.kinds]
        rfl
      remains := by
        rw [OutputTree.withoutComments_plant h.linked hn hne hkind rfl rfl, h.remains, h.kinds]
        rfl
      linked := h.linked.plant hlt rfl rfl
      shown := by
        rw [OutputTree.comments_plant hn hne hkind]
        exact h.shown
      marks := by
        rw [OutputTree.comments_plant hn hne hkind]
        exact h.marks }
  · rw [← h.kinds, OutputTree.rankIn_size, h.remains]
  · rw [← h.kinds, ← OutputTree.length_kinds, List.getElem?_concat_length]

theorem Decorated.setValue (h : Decorated count w s t)
    (hnode : (decoration σ τ count).Nodes w id id') (value : String) :
    Decorated count w ⟨s.state, s.output.setValue id value⟩
      ⟨t.state, t.output.setValue id' value⟩ := by
  obtain ⟨n, hn, hne⟩ := h.node? hnode
  obtain ⟨rfl, -⟩ := hnode
  exact {
    kinds := by rw [OutputTree.kinds_setValue, h.kinds]
    remains := by rw [OutputTree.withoutComments_setValue hn hne, h.remains, h.kinds]
    linked := h.linked.setValue id' value
    shown := by
      rw [OutputTree.comments_setValue hn hne]
      exact h.shown
    marks := by
      rw [OutputTree.comments_setValue hn hne]
      exact h.marks }

/-- A dispatch is noted, and its comments are due. -/
theorem Decorated.note (h : Decorated count w s t) (m : Mark) :
    Decorated count ⟨w.kinds, List.replicate count m ++ w.due⟩ s
      ⟨(t.state.1, t.state.2 ++ [m]), t.output⟩ :=
  { h with
    marks := by
      have hmarks := h.marks.append_right (List.replicate count m)
      rw [List.flatMap_append, List.flatMap_singleton]
      refine List.Perm.trans ?_ hmarks
      rw [List.append_assoc]
      exact List.perm_append_comm.append_left _ }

/-- The node of a comment. -/
def commentNode (x : Extension) (m : Mark) : OutputNode :=
  { OutputTree.withAttributes x.attributes.entries
      { OutputNode.fresh .comment "comment" m.parent with value := some x.representation } with
    origin := m.origin }

theorem exec_leaveComment {scope : Scope γ} {s : Session σ} (hp : scope.parent < s.output.size)
    (x : Extension) (d : Definition) :
    (LibraryBuilder.leaveComment scope x d).exec s =
      (.ok (), ⟨s.state, s.output.plant scope.parent (commentNode x (scope.mark d))⟩) := by
  have hrewrites := (OutputTree.setOrigin_rewrites s.output.size ⟨scope.form, .definition d⟩).comp
    ((OutputTree.copyAttributes_rewrites s.output.size x.attributes).comp
      (OutputTree.setValue_rewrites s.output.size x.representation))
  have hplant := OutputTree.plant_of_rewrites hrewrites hp .comment "comment"
  exact congrArg (fun tree => (Except.ok (), Session.mk s.state tree)) hplant

/-- A comment that is due is left. -/
theorem Decorated.leave {x : Extension} {cs : List Definition} {scope' : Scope γ} {kinds : List NodeKind}
    {due : List Mark}
    (h : Decorated count ⟨kinds, scope'.mark (.node (.extension x) cs) :: due⟩ s t)
    (hnode : (decoration σ τ count).Nodes ⟨kinds, due⟩ id scope'.parent) :
    Decorated count ⟨kinds ++ [.comment], due⟩ s ⟨t.state, t.output.plant scope'.parent
      (commentNode x (scope'.mark (.node (.extension x) cs)))⟩ := by
  obtain ⟨n, hn, hne⟩ := h.node? hnode
  have hlt := OutputTree.lt_size_of_node? hn
  have hcomment : (commentNode x (scope'.mark (.node (.extension x) cs))).IsComment :=
    ⟨rfl, rfl, scope'.form, x, cs, rfl, rfl, fun hnames => OutputTree.withAttributes_of_nodup hnames rfl⟩
  -- only the run on the right gets a node, and taking the comments out takes it away again
  exact {
    kinds := by
      rw [OutputTree.kinds_plant, h.kinds]
      rfl
    remains := by rw [OutputTree.withoutComments_plant_comment h.linked hn hne rfl, h.remains]
    linked := h.linked.plant hlt rfl rfl
    shown := by
      rw [OutputTree.comments_plant_comment hn hne rfl]
      exact List.forall_mem_append.mpr ⟨h.shown, List.forall_mem_singleton.mpr hcomment⟩
    marks := by
      rw [OutputTree.comments_plant_comment hn hne rfl, List.map_append, List.append_assoc]
      exact h.marks }

end Steps

/-! ## Extension points -/

/-- How many builders leave comments. -/
def commentsOf (bs : List LibraryBuilder) : Nat := bs.countP fun l => l ≠ .inline

theorem Translation.map_refl (cs : List Definition) : cs.map Translation.refl.definition = cs :=
  List.map_id' cs

namespace Engine

section Loops

variable {τ : Type} {count : Nat} {inside : Scope γ → NodePath → Run σ Unit}
  {inside' : Scope γ → NodePath → Run (τ × List Mark) Unit}

/-- Builders at an extension point, those that inline beside all of them. One comment after the
other is left, and in between the runs stay tied by whatever the wrapped definitions do. The
induction is over the builders, and each step leaves one comment or binds what is wrapped. -/
theorem contributions_coupled (hinside : InStep (decoration σ τ count) .refl inside inside')
    (x : Extension) (cs : List Definition) (path : NodePath) {scope scope' : Scope γ} {due : List Mark}
    (bs : List LibraryBuilder) (kinds : List NodeKind)
    (hs : (decoration σ τ count).Scopes .refl ⟨kinds, due⟩ scope scope') :
    Run.Coupled (fun _ _ => True)
      (Decorated count ⟨kinds,
        List.replicate (commentsOf bs) (scope'.mark (.node (.extension x) cs)) ++ due⟩)
      ((bs.filter fun l => l = .inline).forM fun l =>
        l.contribute scope x (.node (.extension x) cs) (inside scope path))
      (bs.forM fun l => l.contribute scope' x (.node (.extension x) cs) (inside' scope' path))
      fun _ _ s t => ∃ later, Decorated count ⟨kinds ++ later, due⟩ s t := by
  induction bs generalizing kinds with
  | nil =>
    refine Run.Coupled.pure fun s t h => ⟨[], ?_⟩
    rw [List.append_nil]
    exact h
  | cons l bs ih =>
    cases l with
    | comment only =>
      have hcount : commentsOf (.comment only :: bs) = commentsOf bs + 1 :=
        List.countP_cons_of_pos rfl
      rw [hcount, List.filter_cons_of_neg Bool.false_ne_true]
      -- the second run leaves the comment that is due next
      refine Run.Coupled.after (Decorated count ⟨kinds ++ [.comment],
        List.replicate (commentsOf bs) (scope'.mark (.node (.extension x) cs)) ++ due⟩) ?_ fun _ => ?_
      · intro s t h
        have hp := OutputTree.lt_size_of_node? (h.node? hs.parent).choose_spec.1
        exact ⟨(), _, exec_leaveComment hp x _, h.leave hs.parent⟩
      · have hlater : (decoration σ τ count).Scopes .refl ⟨kinds ++ [.comment], due⟩ scope scope' :=
          hs.later ⟨List.prefix_append _ _, rfl⟩
        refine (ih (kinds ++ [.comment]) hlater).weaken fun _ _ s t => ?_
        rintro ⟨later, h⟩
        rw [List.append_assoc] at h
        exact ⟨_, h⟩
    | inline =>
      have hcount : commentsOf (.inline :: bs) = commentsOf bs := List.countP_cons_of_neg (by decide)
      rw [hcount, List.filter_cons_of_pos rfl]
      refine Run.Coupled.bind (hinside ⟨kinds, _⟩ scope scope' path
        ⟨hs.form, hs.formContext, hs.context, hs.parent⟩) fun _ _ s t => ?_
      rintro ⟨⟨kinds', due'⟩, ⟨⟨later, rfl⟩, rfl⟩, h, -⟩
      have hlater : (decoration σ τ count).Scopes .refl ⟨kinds ++ later, due⟩ scope scope' :=
        hs.later ⟨List.prefix_append _ _, rfl⟩
      refine (ih (kinds ++ later) hlater).weaken ?_ s t h
      rintro _ _ s t ⟨later', h⟩
      rw [List.append_assoc] at h
      exact ⟨_, h⟩

end Loops

section Tied

variable (r : Registry) (limit : Nat) (bs : List LibraryBuilder) (d : Document)

/-- A dispatch leaves the comments of all builders that apply. The scout comes first and announces
the comments, then the builders leave them, so that in the end nothing more is due than before. -/
theorem decoration_extensions (entry : Entry σ Located) (entry' : Entry (σ × List Mark) Located)
    (x : Extension) (cs : List Definition) :
    let count := commentsOf (bs.filter fun l => l.appliesTo Document.binderKind)
    let e := equipped r limit (bs.filter fun l => l = .inline) (d.binder σ)
    let e' := scouted r limit bs (d.binder σ)
    InStep (decoration σ σ count) .refl (e.buildAll entry cs) (e'.buildAll entry' cs) →
    InStep (decoration σ σ count) .refl (e.build entry (.node (.extension x) cs))
      (e'.build entry' (.node (.extension x) cs)) := by
  intro count e e' hinside w scope scope' path hs
  -- first which builders apply and then which of them inline, or the other way round
  have hswap : ((bs.filter fun l => l = .inline).filter fun l => l.appliesTo (d.binder σ).kind) =
      (bs.filter fun l => l.appliesTo (d.binder σ).kind).filter fun l => l = .inline := by
    simp only [List.filter_filter, Bool.and_comm]
  rw [build_extension_equipped, build_extension_scouted, hswap]
  -- what the scout announces is due as soon as it has been called
  refine Run.Coupled.after (Decorated count ⟨w.kinds,
    List.replicate count (scope'.mark (.node (.extension x) cs)) ++ w.due⟩) ?_ fun _ => ?_
  · intro s t h
    exact ⟨(), _, rfl, h.note _⟩
  · refine (contributions_coupled hinside x cs path _ w.kinds hs).weaken fun _ _ s t => ?_
    rintro ⟨later, h⟩
    exact ⟨⟨w.kinds ++ later, w.due⟩, ⟨List.prefix_append _ _, rfl⟩, h, rfl⟩

/-- On a document, comments are all that ties and parts the two runs. The binder of a document has
no state and looks at the context of a scope only, which is the same in both runs. -/
theorem decoration_tied :
    Tied (decoration σ σ (commentsOf (bs.filter fun l => l.appliesTo Document.binderKind))) .refl
      (equipped r limit (bs.filter fun l => l = .inline) (d.binder σ))
      (scouted r limit bs (d.binder σ)) where
  registry key := (Option.map_id' (x := r.get? key)).symm
  limit := rfl
  look w found := fun s t h => .finished ⟨w, Bond.refl _ w, h, rfl⟩
  -- the answers are read off the context, which `hs` says is the same
  elements w scope scope' i cs hs := by
    intro s t h
    refine .finished ⟨w, Bond.refl _ w, h, ?_⟩
    show d.elements scope.context _ = d.elements scope'.context _
    rw [hs.context]
  attributes w scope scope' i cs hs := by
    intro s t h
    refine .finished ⟨w, Bond.refl _ w, h, ?_⟩
    show d.attribute? scope.context _ = d.attribute? scope'.context _
    rw [hs.context]
  forms w scope scope' form hs := fun s t h => .finished ⟨w, Bond.refl _ w, h, rfl⟩
  -- nodes of definitions are emitted by both runs; comments are left to `extensions`
  emits w kind name d scope scope' hkind hs := by
    intro s t h
    have hform : scope'.form = scope.form := hs.form
    rw [exec_emit, exec_emit, hform]
    exact .finished (h.grow hs.parent hkind name _ _)
  shows w node node' text hnode := by
    intro s t h
    exact .finished ⟨w, Bond.refl _ w, h.setValue hnode text, rfl⟩
  inside entry i cs scope path := by
    rw [Translation.map_refl]
    rfl
  extensions entry entry' x cs h := by
    rw [Translation.map_refl] at h
    exact decoration_extensions r limit bs d entry entry' x cs h

end Tied

section Runs

variable (r : Registry) (limit : Nat) (bs : List LibraryBuilder) (d : Document) (key : FormKey) (s : σ)

/-- Both runs start with the node of the root form. -/
theorem start_decorated (count : Nat) (form : Form) :
    Decorated count ⟨[.form], []⟩ ⟨s, start form⟩ ⟨(s, []), start form⟩ := by
  obtain ⟨hsize, n, hn, hkind, hchildren, hparent, -⟩ := start_node form
  -- the tree is the root and nothing else, so that every clause is about this one node
  have hlist : (start form).nodes.toList = [n] := by
    obtain ⟨m, hm⟩ := List.length_eq_one_iff.mp (Array.length_toList.trans hsize)
    have hget : (start form).nodes.toList[0]? = some n := by
      simpa [OutputTree.node?, OutputTree.root] using hn
    rw [hm] at hget ⊢
    simpa using hget
  have hkinds : (start form).kinds = [.form] := by simp [OutputTree.kinds, hlist, hkind]
  have hstripped : n.stripped [.form] = n := by
    obtain ⟨kind, name, value, attributes, parent, children, origin⟩ := n
    cases hparent
    cases hchildren
    rfl
  have hcomments : (start form).comments = [] := by simp [OutputTree.comments, hlist, hkind]
  exact {
    kinds := hkinds
    remains := by
      apply OutputTree.ext_toList
      rw [OutputTree.toList_withoutComments, hkinds]
      simp [hlist, hkind, hstripped]
    linked := by
      intro id m hm
      rw [OutputTree.node?, ← Array.getElem?_toList, hlist] at hm
      obtain rfl : m = n := by
        rw [List.getElem?_singleton] at hm
        split at hm
        · exact (Option.some.inj hm).symm
        · cases hm
      rw [hchildren, hparent]
      exact ⟨fun child hchild => by simp at hchild, fun parent hparent => by cases hparent⟩
    shown := by
      rw [hcomments]
      intro c hc
      cases hc
    marks := by
      rw [hcomments]
      exact .nil }

/-- The scout and the other builders change neither the context of the root nor the state it leaves. -/
theorem rootContext_scouted (form : Form) :
    ∃ found, (scouted r limit bs (d.binder σ)).rootContext form (s, []) = (found, s, []) ∧
      (equipped r limit (bs.filter fun l => l = .inline) (d.binder σ)).rootContext form s =
        (found, s) := by
  rw [rootContext, rootContext]
  by_cases hsource : d.hasContent = true
  · rw [if_pos (by exact hsource), if_pos (by exact hsource)]
    exact ⟨_, rfl, rfl⟩
  · rw [if_neg (by exact hsource), if_neg (by exact hsource)]
    exact ⟨_, rfl, rfl⟩

/-- **Comments only decorate.** With and without the builders that leave comments, a run on a document
comes to the same error, or to the same tree once the comments are removed. Those are leaves that show
what their extension points say, and each dispatch leaves one of them for each builder that applies. -/
theorem bind_decorated :
    ((equipped r limit bs (d.binder σ)).bind key s).1.map OutputTree.withoutComments =
        ((equipped r limit (bs.filter fun l => l = .inline) (d.binder σ)).bind key s).1 ∧
      ((scouted r limit bs (d.binder σ)).bind key (s, [])).1 =
        ((equipped r limit bs (d.binder σ)).bind key s).1 ∧
      ∀ tree, ((equipped r limit bs (d.binder σ)).bind key s).1 = .ok tree →
        (∀ n ∈ tree.comments, n.IsComment) ∧
        (tree.comments.map OutputNode.mark).Perm
          ((dispatches r limit bs (d.binder σ) key s).flatMap fun m =>
            List.replicate (commentsOf (bs.filter fun l => l.appliesTo Document.binderKind)) m) := by
  refine and_left_comm.mp ⟨bind_scouted r limit bs (d.binder σ) key s, ?_⟩
  rw [← bind_scouted, dispatches]
  cases hget : r.get? key with
  | none =>
    rw [bind_missing (e := scouted r limit bs (d.binder σ)) (by exact hget),
      bind_missing (by exact hget)]
    exact ⟨rfl, nofun⟩
  | some form =>
    obtain ⟨found, hscouted, hplain⟩ := rootContext_scouted r limit bs d s form
    rw [bind_eq (e := scouted r limit bs (d.binder σ)) (by exact hget), bind_eq (by exact hget),
      hscouted, hplain]
    cases found with
    | none => exact ⟨rfl, nofun⟩
    | some context =>
      have hbody := (decoration_tied r limit bs d).body_agrees (w := Stage.mk [.form] []) form context
        ⟨rfl, .form, rfl, nofun⟩ _ _ (start_decorated s _ form)
      dsimp only
      change Run.Paired _ _ _ (((scouted r limit bs (d.binder σ)).body form context).exec _) at hbody
      generalize ((equipped r limit (bs.filter fun l => l = .inline) (d.binder σ)).body form
        context).exec ⟨s, start form⟩ = x at hbody ⊢
      generalize ((scouted r limit bs (d.binder σ)).body form context).exec ⟨(s, []), start form⟩ = y
        at hbody ⊢
      -- both runs stop with one error, or both finish, and then nothing is due any more
      cases hbody with
      | finished h =>
        obtain ⟨w, ⟨-, hdue⟩, h, -⟩ := h
        refine ⟨congrArg Except.ok h.remains, fun tree htree => ?_⟩
        cases htree
        have hmarks := h.marks
        rw [hdue, List.append_nil] at hmarks
        exact ⟨h.shown, hmarks⟩
      | stopped => exact ⟨rfl, nofun⟩

end Runs

end Engine

namespace Sample

/-- An order with one line, which has an address of its own. -/
def orderDocument : Document :=
  ⟨.object [("city", .string "Paris"), ("iban", .string "account"),
    ("line", .array [.object [("city", .string "Oslo"), ("sku", .string "A-1")]])], "order"⟩

/-- Two of the builders that leave comments apply to documents. -/
def decorators : List LibraryBuilder :=
  [.comment [], .inline, .comment ["script"], .comment ["document"]]

end Sample

namespace Engine

/-- The extension point of the one line is dispatched once, and leaves two comments. -/
theorem bind_decorated_orders :
    ∃ tree, ((equipped Sample.orders 1 Sample.decorators (Sample.orderDocument.binder Unit)).bind
        Sample.orderKey ()).1 = .ok tree ∧
      tree.comments.length = 2 ∧ (∀ n ∈ tree.comments, n.IsComment) ∧
      ((equipped Sample.orders 1 [.inline] (Sample.orderDocument.binder Unit)).bind
        Sample.orderKey ()).1 = .ok tree.withoutComments := by
  have hok : ((equipped Sample.orders 1 Sample.decorators (Sample.orderDocument.binder Unit)).bind
      Sample.orderKey ()).1.isOk = true := by cbv
  have hdispatches : (dispatches Sample.orders 1 Sample.decorators
      (Sample.orderDocument.binder Unit) Sample.orderKey ()).length = 1 := by cbv
  obtain ⟨hremains, -, hcomments⟩ :=
    bind_decorated Sample.orders 1 Sample.decorators Sample.orderDocument Sample.orderKey ()
  cases hrun : ((equipped Sample.orders 1 Sample.decorators
      (Sample.orderDocument.binder Unit)).bind Sample.orderKey ()).1 with
  | error err =>
    rw [hrun] at hok
    cases hok
  | ok tree =>
    obtain ⟨hshown, hmarks⟩ := hcomments tree hrun
    obtain ⟨m, hm⟩ := List.length_eq_one_iff.mp hdispatches
    have hlength := hmarks.length_eq
    rw [hm, List.flatMap_singleton, List.length_map, List.length_replicate] at hlength
    rw [hrun] at hremains
    exact ⟨tree, rfl, hlength, hshown, hremains.symm⟩

end Engine

end FormSchema
