import FormSchema.Proofs.Document.Addresses
import FormSchema.Proofs.Binding.Course.Rules
import FormSchema.Proofs.Binding.Paths.PlacedRuns

/-!
# Addresses in runs

A run hands the contexts that its binder has given back to it, across instances, groups and references.
When the binder is that of a document, every one of them addresses what it claims: the root does, and what
is found within an address is an address again. So the path entry of a node that shows an instance is a
pointer to where the text of the node was found.

The argument has two halves that meet. About the document it is known that what is found within an
address has an address. About runs it is known where their questions are asked: at positions, and a
position comes about by going down from the root form step by step. The invariant is that both
contexts of a position have addresses, and its induction is on how the position comes about. An
instance was given to some question of the record, asked further up, so that its address is that of
an answer; groups, extension points and references pass contexts on as they are.

Since every answer was given to a question at a position, every context in the record has an
address.

* `Exchange.contexts` — the contexts that pass between a run and its binder.
* `Document.Answered` — an exchange with the binder of a document.
* **`Task.Stands.addresses`** — the contexts of every position have addresses.
* **`Engine.bind_addresses`** — so have all contexts of a run, and the entries of its nodes are pointers.
-/

namespace FormSchema

variable {σ γ α : Type}

/-! ## Contexts

Contexts pass in both directions, from the run to the binder as part of a place and from the binder
to the run as answers. Claims about all contexts of a run are claims about those that occur in its
record. -/

def Scope.contexts (p : Scope γ) : List γ := [p.formContext, p.context]

/-- The contexts that are handed to a binder in an exchange, and those that it returns. -/
def Exchange.contexts : Exchange γ → List γ
  | .bound place _ context => place.toList.flatMap Scope.contexts ++ context.toList
  | .element place _ found => place.contexts ++ found
  | .attribute place _ found => place.contexts ++ found.toList
  | .started _ | .finished _ _ => []

/-- Any instance that was given passed in an exchange. -/
theorem Gave.exists_contexts {record : List (Exchange γ)} {place : Scope γ} {found : γ}
    {d : Definition} (h : Gave record place found d) : ∃ x ∈ record, found ∈ x.contexts := by
  rcases h with ⟨answered, among⟩ | answered
  · exact ⟨_, answered, List.mem_append_right _ among⟩
  · exact ⟨_, answered, List.mem_append_right _ (List.mem_singleton.mpr rfl)⟩

/-! ## Answers of documents

The binder of a document keeps no state of its own, so every exchange can be checked by itself: the
answer is what the document says at the place of the question. That a whole record consists of such
exchanges is shown once, by running the recorded binder beside the plain one. -/

namespace Document

variable {d : Document} {place : Scope Located} {item : ItemDefinition}

/-- An exchange with the binder of a document: the answer is the one the document gives. -/
inductive Answered (d : Document) : Exchange Located → Prop where
  | started {form : Form} : Answered d (.started form)
  | root {form : Form} : Answered d (.bound none form (some (.of .root d.value)))
  | target {place : Scope Located} {form : Form} : Answered d (.bound (some place) form none)
  | elements {place : Scope Located} {item : ItemDefinition} :
      Answered d (.element place item (d.elements place.context item.lookupKey))
  | attributes {place : Scope Located} {item : ItemDefinition} :
      Answered d (.attribute place item (d.attribute? place.context item.lookupKey))
  | finished {form : Form} {output : OutputTree} : Answered d (.finished form output)

/-- Noting what a document answers keeps a record to its answers. -/
theorem noted_answered {action : StateM σ α} {note : α → Exchange Located}
    (h : ∀ s, d.Answered (note (action s).1)) :
    Answers (fun s (t : σ × List (Exchange Located)) => s = t.1 ∧ ∀ x ∈ t.2, d.Answered x) action
      (noted action note) := by
  rintro s ⟨_, record⟩ ⟨rfl, hrecord⟩
  refine ⟨rfl, rfl, fun x hx => ?_⟩
  cases List.mem_append.mp hx with
  | inl hbefore => exact hrecord x hbefore
  | inr hlast => exact List.mem_singleton.mp hlast ▸ h s

theorem matches_answered (σ : Type) (d : Document) :
    Binder.Matches (fun s (t : σ × List (Exchange Located)) => s = t.1 ∧ ∀ x ∈ t.2, d.Answered x)
      (d.binder σ) (d.binder σ).recorded where
  kind := rfl
  hasSource := rfl
  preBind _ := noted_answered fun _ => .started
  bindForm place _ := by
    cases place with
    | none => exact noted_answered fun _ => .root
    | some place => exact noted_answered fun _ => .target
  bindElement _ _ := noted_answered fun _ => .elements
  bindAttribute _ _ := noted_answered fun _ => .attributes
  postBind _ _ := noted_answered fun _ => .finished
  describe _ _ _ _ := rfl
  value _ _ _ _ := rfl

/-- All exchanges of a run over a document are answered by the document. -/
theorem exchanges_answered (r : Registry) (limit : Nat) (builders : List LibraryBuilder)
    (d : Document) (key : FormKey) (s : σ) :
    ∀ x ∈ Engine.exchanges r limit builders (d.binder σ) key s, d.Answered x :=
  (Engine.bind_matches r limit builders (d.matches_answered σ) key (t := (s, [])) ⟨rfl, nofun⟩).2.2

/-- Where the place of an exchange has addresses, everything that passes in it has. -/
theorem Answered.addresses {x : Exchange Located} (h : d.Answered x) (hcontent : d.hasContent = true)
    (hplace : ∀ place, x.place? = some place → ∀ c ∈ place.contexts, d.Addresses c) :
    ∀ c ∈ x.contexts, d.Addresses c := by
  intro c hc
  cases h with
  | started => cases hc
  -- the announcements hand over no context
  | finished => cases hc
  | root => exact List.mem_singleton.mp hc ▸ root_addresses hcontent
  | @target place =>
    rw [Exchange.contexts, Option.toList_some, List.flatMap_singleton, Option.toList_none,
      List.append_nil] at hc
    exact hplace place rfl c hc
  | @elements place item =>
    have hinside : d.Addresses place.context := hplace place rfl _ (by simp [Scope.contexts])
    cases List.mem_append.mp hc with
    | inl hhanded => exact hplace place rfl c hhanded
    | inr hreturned => exact elements_addresses hinside item.lookupKey c hreturned
  | @attributes place item =>
    have hinside : d.Addresses place.context := hplace place rfl _ (by simp [Scope.contexts])
    cases List.mem_append.mp hc with
    | inl hhanded => exact hplace place rfl c hhanded
    | inr hreturned =>
      exact attribute?_addresses hinside item.lookupKey (Option.mem_toList.mp hreturned)

/-- An instance that a document gave within an address has an address. -/
theorem addresses_of_gave {record : List (Exchange Located)} {found : Located} {definition : Definition}
    (hrecord : ∀ x ∈ record, d.Answered x) (h : Gave record place found definition)
    (hplace : d.Addresses place.context) : d.Addresses found := by
  rcases h with ⟨answered, among⟩ | answered
  · cases hrecord _ answered with
    | elements => exact elements_addresses hplace _ found among
  · generalize hanswer : some found = answer at answered
    cases hrecord _ answered with
    | attributes => exact attribute?_addresses hplace _ hanswer.symm

end Document

/-! ## Positions

A position carries a context for itself and one for the form around it. A reference starts over with
the context of its own place for both, because a document binds forms to nothing. -/

namespace Task

variable {k : Task σ Located} {m : Moment Located} {n : Nat} {definition : Definition}
  {scope : Scope Located} {path : NodePath} {d : Document}

/-- **Positions have addresses.** Both contexts of a position address what they claim. A form that a
reference leads to starts in the context of the reference, since the document binds it to nothing. -/
theorem Stands.addresses (hcontent : d.hasContent = true) (hrecord : ∀ x ∈ m.record, d.Answered x)
    (h : k.Stands m n definition scope path) :
    d.Addresses scope.context ∧ d.Addresses scope.formContext := by
  induction h with
  | @top context c rooted bound child =>
    generalize hanswer : some context = answer at bound
    cases hrecord _ bound with
    | root =>
      cases hanswer
      exact ⟨Document.root_addresses hcontent, Document.root_addresses hcontent⟩
  -- the instance was given at the position above, whose contexts have addresses
  | within above shown child ih =>
    obtain ⟨known, p, -, hknown, -, hgave, -⟩ := shown.said
    have hgiven := Document.addresses_of_gave hrecord (hgave.mono hknown.subset) ih.1
    exact ⟨hgiven, ih.2⟩
  | grouped above attached child ih => exact ih
  | wrapped above child ih => exact ih
  -- the document binds no form but the root, so the context is the one above
  | @entered n r cs target c scope path id context above attached known bound child ih =>
    generalize hanswer : context = answer at bound
    cases hrecord _ bound with
    | target =>
      cases hanswer
      exact ⟨ih.1, ih.1⟩
  | trailing above attached child ih => exact ih

/-- A node for an instance shows an instance that was given. -/
theorem EntryOf.gave {k : Task σ γ} {m : Moment γ} {id : NodeId} {entry : String} {node : OutputNode}
    (h : k.EntryOf m id entry) (hnode : m.tree.node? id = some node)
    (hkind : node.kind = .element ∨ node.kind = .attribute) :
    ∃ known place found definition, known <+: m.record ∧ Gave known place found definition ∧
      node.value = k.binder.value (k.binder.replay k.state known) found ∧
      entry = (k.binder.describe (k.binder.replay k.state known) found).getD definition.label := by
  cases h with
  | root rooted =>
    -- the root and the nodes of groups and references are of other kinds
    obtain ⟨root, hroot, hform, -⟩ := rooted
    rw [hroot] at hnode
    cases hnode
    rw [hform] at hkind
    rcases hkind with h | h <;> cases h
  | @shown definition scope found id entry shows =>
    obtain ⟨known, p, shownNode, hknown, -, hgave, -, hshown, hvalue, hentry⟩ := shows.said
    rw [hshown] at hnode
    cases hnode
    exact ⟨known, _, found, definition, hknown, hgave, hvalue, hentry⟩
  | wrapper attached kind =>
    obtain ⟨wrapper, hwrapper, hwrapped, -⟩ := attached.emitted
    rw [hwrapper] at hnode
    cases hnode
    rw [hwrapped] at hkind
    rcases kind with hd | hd <;> rw [hd] at hkind <;> rcases hkind with h | h <;> cases h

/-- A node for an instance has an entry. -/
theorem Placed.exists_entry {k : Task σ γ} {m : Moment γ} {id : NodeId} {node : OutputNode}
    (h : k.Placed m id) (hnode : m.tree.node? id = some node)
    (hkind : node.kind = .element ∨ node.kind = .attribute) : ∃ entry, k.EntryOf m id entry := by
  obtain ⟨n, definition, scope, path, -, hattached, -, hshown⟩ := h
  obtain ⟨placed, hplaced, hplacedKind, -⟩ := hattached.emitted
  rw [hplaced] at hnode
  cases hnode
  rw [hplacedKind] at hkind
  have hdefinition : definition.kind = .attribute ∨ definition.kind = .element := by
    cases hd : definition.kind <;> simp [hd, DefinitionKind.nodeKind] at hkind ⊢
  obtain ⟨found, entry, hshows⟩ := hshown hdefinition
  exact ⟨entry, .shown hshows⟩

end Task

/-! ## Runs

A document without content is a case of its own: it has no root to address, and then there is no
context either. Otherwise the record and the tree are read as one moment of the run, at which all
positions have addresses. -/

namespace Engine

/-- A document without content is asked for nothing, and nothing is bound to it. There is one
exchange, the start of the run, before the missing root ends it. -/
theorem bind_without_content {r : Registry} {limit : Nat} {builders : List LibraryBuilder}
    {d : Document} (hcontent : d.hasContent = false) (key : FormKey) (s : σ) :
    (∀ x ∈ exchanges r limit builders (d.binder σ) key s, x.contexts = []) ∧
      ∀ tree, ((equipped r limit builders (d.binder σ)).bind key s).1 ≠ .ok tree := by
  rw [exchanges, ← (bind_recorded r limit builders key s []).1]
  cases hget : r.get? key with
  | none =>
    rw [bind_missing (by exact hget)]
    exact ⟨fun x hx => (by cases hx), fun tree htree => (by cases htree)⟩
  | some form =>
    have hsource : (equipped r limit builders (d.binder σ).recorded).binder.hasSource = false := hcontent
    -- without content there is no source, and so the root form is not asked for
    have hnone : ((equipped r limit builders (d.binder σ).recorded).rootContext form (s, [])).1 =
        none := by
      rw [rootContext, hsource]
      rfl
    have hrecord := rootContext_record (e := equipped r limit builders (d.binder σ).recorded) rfl form s
    rw [if_neg (by exact Bool.not_eq_true _ ▸ hcontent)] at hrecord
    rw [bind_eq (by exact hget)]
    rcases hroot : (equipped r limit builders (d.binder σ).recorded).rootContext form (s, []) with ⟨c, t⟩
    rw [hroot] at hnone hrecord
    obtain rfl : c = none := hnone
    refine ⟨fun x hx => ?_, fun tree htree => (by cases htree)⟩
    obtain rfl : x = .started form := List.mem_singleton.mp (hrecord ▸ hx)
    rfl

/-- **Contexts address what they claim.** Whatever the document, the forms and the builders of the library,
each context that passes between a run and the binder has a pointer that leads to a value which is not
null, and its text is that of the value. A node that shows an instance has an entry in paths, and this is
the pointer of a context, to a value with the text of the node. -/
theorem bind_addresses (r : Registry) (limit : Nat) (builders : List LibraryBuilder) (d : Document)
    (key : FormKey) (s : σ) :
    (∀ x ∈ exchanges r limit builders (d.binder σ) key s, ∀ c ∈ x.contexts, d.Addresses c) ∧
    ∀ form tree, r.get? key = some form →
      ((equipped r limit builders (d.binder σ)).bind key s).1 = .ok tree →
      ∀ id node, tree.node? id = some node → node.kind = .element ∨ node.kind = .attribute →
        (∃ entry, Task.EntryOf ⟨r, limit, d.binder σ, s, form⟩
          ⟨tree, exchanges r limit builders (d.binder σ) key s⟩ id entry) ∧
        ∀ entry, Task.EntryOf ⟨r, limit, d.binder σ, s, form⟩
            ⟨tree, exchanges r limit builders (d.binder σ) key s⟩ id entry →
          ∃ x ∈ exchanges r limit builders (d.binder σ) key s, ∃ c ∈ x.contexts,
            d.Addresses c ∧ entry = "#" ++ c.pointer.text ∧ node.value = c.scalar := by
  have hall : ∀ x ∈ exchanges r limit builders (d.binder σ) key s, ∀ c ∈ x.contexts,
      d.Addresses c := by
    intro x hx
    cases hcontent : d.hasContent with
    | false =>
      rw [(bind_without_content hcontent key s).1 x hx]
      exact nofun
    | true =>
      have hrecord := d.exchanges_answered r limit builders key s
      refine (hrecord x hx).addresses hcontent fun place hplace => ?_
      obtain ⟨form, n, definition, scope, path, -, hstands, rfl⟩ :=
        exchanges_at_positions x hx place hplace
      obtain ⟨hinner, houter⟩ := hstands.addresses hcontent hrecord
      exact List.forall_mem_cons.mpr ⟨houter, List.forall_mem_singleton.mpr hinner⟩
  refine ⟨hall, fun form tree hget htree id node hnode hkind => ⟨?_, fun entry hentry => ?_⟩⟩
  · obtain ⟨form', hget', hrooted, hplaced⟩ := bind_placed htree
    obtain rfl : form' = form := Option.some.inj (hget'.symm.trans hget)
    refine (hplaced id (OutputTree.lt_size_of_node? hnode) fun hroot => ?_).exists_entry hnode hkind
    -- the root shows the root form, not an instance
    subst hroot
    obtain ⟨root, hroot, hform, -⟩ := hrooted
    rw [hroot] at hnode
    cases hnode
    rw [hform] at hkind
    rcases hkind with h | h <;> cases h
  · -- the instance that a node shows was given in an exchange, and passed in it
    obtain ⟨known, place, found, definition, hknown, hgave, hvalue, hentry⟩ := hentry.gave hnode hkind
    obtain ⟨x, hx, hfound⟩ := (hgave.mono hknown.subset).exists_contexts
    exact ⟨x, hx, found, hfound, hall x hx found hfound, hentry, hvalue⟩

end Engine

/-! ## An example

A document whose keys have slashes and tildes in them, and a form that reaches its values across an
array, an attribute and a reference. -/

namespace Sample

/-- A form whose keys have to be escaped in pointers or are empty. -/
def track : Form :=
  ⟨⟨⟨"", "track"⟩, "samples", .empty⟩,
    [.node (.element (item "in/out" .optionalMultiple))
      [.leaf (.attribute (item "~1" .required)), .leaf (.element (item "" .required)), shipTo]]⟩

def tracks : Registry := ⟨[address, track]⟩

/-- The second item of the track is all there is to bind. -/
def trackDocument : Document :=
  ⟨.object [("in/out", .array [.null, .object [("", .bool true), ("city", .string "Oslo"),
    ("~1", .array [.string "first"])]])], "track"⟩

end Sample

namespace Engine

/-- The contexts of a track, with the tokens escaped, lead to its values. The attribute counts an array as
one and has no text; the city is found through a reference. -/
theorem bind_addresses_tracks :
    (exchanges Sample.tracks 1 [] (Sample.trackDocument.binder Unit) ⟨"", "track"⟩ ()).flatMap
        Exchange.given =
      [⟨⟨"/in~1out/1"⟩, none⟩, ⟨⟨"/in~1out/1/~01"⟩, none⟩, ⟨⟨"/in~1out/1/"⟩, some "true"⟩,
        ⟨⟨"/in~1out/1/city"⟩, some "Oslo"⟩] ∧
    (∀ x ∈ exchanges Sample.tracks 1 [] (Sample.trackDocument.binder Unit) ⟨"", "track"⟩ (),
      ∀ c ∈ x.contexts, Sample.trackDocument.Addresses c) ∧
    ∃ tree node, ((equipped Sample.tracks 1 [] (Sample.trackDocument.binder Unit)).bind
        ⟨"", "track"⟩ ()).1 = .ok tree ∧ tree.node? 5 = some node ∧ node.value = some "Oslo" ∧
      ∃ entry, Task.EntryOf ⟨Sample.tracks, 1, Sample.trackDocument.binder Unit, (), Sample.track⟩
        ⟨tree, exchanges Sample.tracks 1 [] (Sample.trackDocument.binder Unit) ⟨"", "track"⟩ ()⟩ 5
        entry := by
  have hgiven : (exchanges Sample.tracks 1 [] (Sample.trackDocument.binder Unit) ⟨"", "track"⟩
      ()).flatMap Exchange.given =
      [⟨⟨"/in~1out/1"⟩, none⟩, ⟨⟨"/in~1out/1/~01"⟩, none⟩, ⟨⟨"/in~1out/1/"⟩, some "true"⟩,
        ⟨⟨"/in~1out/1/city"⟩, some "Oslo"⟩] := by cbv
  have hshown : ((equipped Sample.tracks 1 [] (Sample.trackDocument.binder Unit)).bind
      ⟨"", "track"⟩ ()).1.toOption.map (fun tree => (tree.node? 5).map fun n => (n.kind, n.value)) =
        some (some (.element, some "Oslo")) := by cbv
  obtain ⟨haddresses, hentries⟩ :=
    bind_addresses Sample.tracks 1 [] Sample.trackDocument ⟨"", "track"⟩ ()
  obtain ⟨tree, htree, hnode⟩ := exists_ok_of_toOption hshown
  obtain ⟨node, hnode, hpair⟩ := Option.map_eq_some_iff.mp hnode
  have hkind : node.kind = .element := congrArg Prod.fst hpair
  have hvalue : node.value = some "Oslo" := congrArg Prod.snd hpair
  have hentry := (hentries Sample.track tree rfl htree 5 node hnode (.inl hkind)).1
  exact ⟨hgiven, haddresses, tree, node, htree, hnode, hvalue, hentry⟩

end Engine

end FormSchema
