import FormSchema.Proofs.FormFile.Manuscripts

/-!
# Reading form files back

A file that says what a manuscript says is read as the draft of the manuscript, and the draft is assembled to
what the manuscript means. Since what is written is well-formed, nothing is refused on the way: attributes
are inserted in their order, and children go where their head keeps them. A cardinality that was left out is
the default one, and that is the only difference that reading can make.

Reading takes three steps, and each has its part here. The entries of the file are sorted into a
draft, which the theory of manuscripts provides for definitions and this module for the file as a
whole, where the version has to be split off first. The draft is assembled by inserting what it says
into a bare definition, and nothing is refused as long as what is meant is well-formed: a refusal is
a broken clause of well-formedness. And what was assembled is the definition that was meant, because
inserting keeps the order that was written, or puts a child into the slot where the manuscript has
it anyway.

That every form has a manuscript at all needs that it was built. Only then are the children of an
extension point in the order of their slots, so that writing them down and sorting them again gives
them back.

* **`Manuscript.assemble_draft`** — the draft is assembled to what is meant.
* `FormHeading.ofTree?_fileValue` — the contents of the file are read as the draft.
* `Definition.Built.definition_manuscript` — every definition can be written down.
* **`Form.parse_written`** — reading a file that describes a form gives the form.
-/

namespace FormSchema

/-! ## Inserting what was written

Both loops are generalised over what has been inserted so far. At each step the part that is
inserted and the part that is still to come make up the whole, and well-formedness of the whole is
what lets the next insertion pass. -/

theorem OtherAttributes.insert_of_wellFormed {done rest : List (String × String)} {name value : String}
    (h : OtherAttributes.WellFormed ⟨done ++ (name, value) :: rest⟩) :
    OtherAttributes.insert ⟨done⟩ name value = .ok ⟨done ++ [(name, value)]⟩ := by
  have hnames : OtherAttributes.names ⟨done ++ (name, value) :: rest⟩ =
      done.map Prod.fst ++ name :: rest.map Prod.fst := List.map_append
  have hreserved : name ∉ reservedNames :=
    h.unreserved name (hnames ▸ List.mem_append_right _ List.mem_cons_self)
  have hnew : name ∉ OtherAttributes.names ⟨done⟩ := fun hmem =>
    (List.nodup_append.mp (hnames ▸ h.distinct)).2.2 _ hmem _ List.mem_cons_self rfl
  rw [insert, if_neg hreserved, if_neg hnew]

/-- Attributes that may be inserted are inserted, whatever they are inserted into. -/
theorem foldlM_strings {α : Type} (insert : α → String → String → Except ModelError α)
    (make : OtherAttributes → α)
    (hinsert : ∀ {a b name value}, a.insert name value = .ok b →
      insert (make a) name value = .ok (make b)) {a : OtherAttributes} (ha : a.WellFormed) :
    (strings a.entries).foldlM (fun x (name, v) => do
      (insert x name (← attributeText name v)).mapError .model) (make .empty) =
      (.ok (make a) : Except FormFileError α) := by
  -- what has been inserted so far and what is left make up the whole
  have hfold : ∀ rest done : List (String × String), OtherAttributes.WellFormed ⟨done ++ rest⟩ →
      (strings rest).foldlM (fun x (name, v) => do
        (insert x name (← attributeText name v)).mapError .model) (make ⟨done⟩) =
        (.ok (make ⟨done ++ rest⟩) : Except FormFileError α) := by
    intro rest
    induction rest with
    | nil => exact fun done _ => by rw [List.append_nil]; rfl
    | cons pair rest ih =>
      intro done hdone
      obtain ⟨name, value⟩ := pair
      have hnext := hinsert (OtherAttributes.insert_of_wellFormed hdone)
      rw [List.append_cons] at hdone ⊢
      show ((insert (make ⟨done⟩) name value).mapError FormFileError.model >>= _) = _
      rw [hnext]
      exact ih _ hdone
  exact hfold a.entries [] ha

/-- Children that may be inserted are inserted, whatever they are inserted into. -/
theorem foldlM_drafts {config : Config} {α : Type} (insert : α → Definition → Except ModelError α)
    (make : List Definition → α) {drafts : List Draft} {ds : List Definition}
    (assembled : List.Forall₂ (fun draft d => draft.assemble config = .ok d) drafts ds)
    (hinsert : ∀ done d rest, ds = done ++ d :: rest →
      insert (make done) d = .ok (make (done ++ [d]))) :
    drafts.foldlM (fun x draft => do
      let c ← draft.assemble config
      (insert x c).mapError .model) (make []) = (.ok (make ds) : Except FormFileError α) := by
  -- generalized to a form with some children, since each step starts from those inserted before
  have hfold : ∀ done : List Definition, (∀ before d rest, done ++ ds = before ++ d :: rest →
      insert (make before) d = .ok (make (before ++ [d]))) →
      drafts.foldlM (fun x draft => do
        let c ← draft.assemble config
        (insert x c).mapError .model) (make done) = (.ok (make (done ++ ds)) : Except FormFileError α) := by
    clear hinsert
    induction assembled with
    | nil => exact fun done _ => by rw [List.append_nil]; rfl
    | @cons draft d drafts ds hd _ ih =>
      intro done hinsert
      have hnext := hinsert done d ds rfl
      rw [List.append_cons] at hinsert ⊢
      rw [List.foldlM_cons, hd]
      show ((insert (make done) d).mapError FormFileError.model >>= _) = _
      rw [hnext]
      exact ih _ hinsert
  exact hfold [] hinsert

@[simp] theorem Head.setAttributes_attributes (head : Head) :
    head.setAttributes head.attributes = head := by
  cases head <;> rfl

@[simp] theorem Head.setAttributes_setAttributes (head : Head) (a b : OtherAttributes) :
    (head.setAttributes a).setAttributes b = head.setAttributes b := by
  cases head <;> rfl

@[simp] theorem Head.arrange_nil (head : Head) : head.arrange [] = [] := by
  cases head <;> rfl

theorem Definition.withOthers_strings (head : Head) (h : head.attributes.WellFormed) :
    (leaf (head.setAttributes .empty)).withOthers (strings head.attributes.entries) = .ok (leaf head) := by
  have hfold := foldlM_strings withAttribute (fun a => leaf (head.setAttributes a)) ?_ h
  · rwa [head.setAttributes_attributes] at hfold
  · intro a b name value hinsert
    rw [leaf, withAttribute, Head.attributes_setAttributes, OtherAttributes.add, hinsert]
    show Except.ok (leaf ((head.setAttributes a).setAttributes b)) = _
    rw [Head.setAttributes_setAttributes]

theorem Form.withOthers_strings {heading : FormHeading} (h : heading.attributes.WellFormed) :
    (Form.empty heading.key heading.source).withOthers (strings heading.attributes.entries) =
      .ok ⟨heading, []⟩ := by
  refine foldlM_strings withAttribute (fun a => ⟨⟨heading.key, heading.source, a⟩, []⟩) ?_ h
  intro a b name value hinsert
  rw [withAttribute, OtherAttributes.add, hinsert]
  rfl

/-- What a head hosts can be given to it. -/
theorem Definition.withChild_arrange {head : Head} {done rest : List Definition} {d : Definition}
    (h : head.Hosts (done ++ d :: rest)) :
    (node head (head.arrange done)).withChild d = .ok (node head (head.arrange (done ++ [d]))) := by
  have hmem : d ∈ done ++ d :: rest := List.mem_append_right _ List.mem_cons_self
  match head, h with
  | .attribute _, h | .reference _, h | .choice _, h => exact if_pos (decide_eq_true (h d hmem))
  | .element _, _ => rfl
  | .extension x, h =>
    have hfree : (((Head.extension x).arrange done).any fun c => c.kind = d.kind) = false := by
      refine List.any_eq_false.mpr fun c hc hkind => ?_
      have hdone := (Head.arrange_perm _ done).subset hc
      have hdistinct : ((done ++ d :: rest).map kind).Nodup := h
      rw [List.map_append, List.nodup_append] at hdistinct
      exact hdistinct.2.2 _ (List.mem_map_of_mem hdone) _ List.mem_cons_self (of_decide_eq_true hkind)
    rw [withChild, hfree, if_neg (by decide), Head.arrange, Head.arrange, List.foldl_append]
    rfl

/-- Children that a head hosts are all put where they belong. -/
theorem Draft.assembleOnto_arrange {config : Config} {head : Head} {drafts : List Draft}
    {ds : List Definition} (h : head.Hosts ds)
    (assembled : List.Forall₂ (fun draft d => draft.assemble config = .ok d) drafts ds) :
    assembleOnto config (.leaf head) drafts = .ok (.node head (head.arrange ds)) := by
  have hfold := foldlM_drafts Definition.withChild (fun ds => .node head (head.arrange ds)) assembled
    fun done d rest heq => Definition.withChild_arrange (heq ▸ h)
  rwa [head.arrange_nil, ← Definition.leaf, ← assembleOnto_eq_foldlM] at hfold

/-! ## Assembling what was written

The draft of a manuscript is assembled bottom up. A head may have got the default cardinality in the
meantime, which touches neither its attributes nor what it hosts. -/

/-- The cardinality of an item is the one that its token names, or the default one. -/
theorem ItemDraft.cardinalityUnder_token (config : Config) (id lookup : Option String) (stated : Bool)
    (c : Cardinality) :
    ItemDraft.cardinalityUnder config ⟨id, lookup, if stated then some c.token else none⟩ =
      .ok (if stated then c else config.defaultCardinality) := by
  cases stated with
  | false => rfl
  | true =>
    show (Cardinality.ofToken c.token).mapError FormFileError.cardinality = _
    rw [Cardinality.ofToken, Cardinality.parse?_token]
    rfl

/-- What is said about a head is assembled to the head without its other attributes. -/
theorem Head.assemble_draft (config : Config) (stated : Bool) (head : Head) :
    (head.draft stated).assemble config = .ok
      ((if stated then head else head.withCardinality config.defaultCardinality).setAttributes .empty) := by
  match head with
  | .attribute i | .element i | .choice i =>
    rw [draft, DraftHead.assemble, ItemDraft.cardinalityUnder_token]
    cases stated <;> rfl
  | .reference _ | .extension _ => cases stated <;> rfl

namespace Manuscript

variable {config : Config}

theorem drafts_assembled {ms : List Manuscript} (h : ∀ m ∈ ms, m.draft.assemble config =
    .ok (m.definition (Head.withCardinality config.defaultCardinality))) :
    List.Forall₂ (fun draft d => draft.assemble config = .ok d) (drafts ms)
      (definitions (Head.withCardinality config.defaultCardinality) ms) := by
  induction ms with
  | nil => exact .nil
  | cons m ms ih =>
    obtain ⟨hm, hms⟩ := List.forall_mem_cons.mp h
    exact .cons hm (ih hms)

/-- **What was written is what is meant**, with the default where a cardinality was left out. -/
theorem assemble_draft {m : Manuscript} (hm : (m.definition id).WellFormed) :
    m.draft.assemble config = .ok (m.definition (Head.withCardinality config.defaultCardinality)) := by
  induction m using induct with
  | node head stated children ih =>
    have hbelow := drafts_assembled fun m hmem => ih m hmem (wellFormed_beneath hm hmem)
    rw [definition, id, ite_self] at hm
    obtain ⟨hattributes, hhosts, -⟩ := hm
    have hhead := head.assemble_draft config stated
    generalize hfilled : (if stated then head else head.withCardinality config.defaultCardinality) = filled
      at hhead
    -- filling in a cardinality changes nothing else
    have hsame : filled.attributes = head.attributes ∧ filled.arrange = head.arrange ∧
        ∀ ds, filled.Hosts ds ↔ head.Hosts ds := by
      subst hfilled
      cases stated <;> simp
    obtain ⟨hsameAttributes, hsameArrange, hsameHosts⟩ := hsame
    -- what is hosted is a matter of kinds, and filling in or sorting leaves the kinds alone
    have hhosted : filled.Hosts (definitions (Head.withCardinality config.defaultCardinality) children) := by
      refine (hsameHosts _).mpr (hhosts.of_kinds ?_)
      rw [kinds_definitions]
      exact ((head.arrange_perm _).map _).symm
    have hothers := Definition.withOthers_strings filled (hsameAttributes ▸ hattributes)
    rw [hsameAttributes] at hothers
    rw [draft, Draft.assemble, hhead]
    show (Definition.withOthers _ _ >>= _) = _
    rw [hothers]
    show Draft.assembleOnto _ _ _ = _
    rw [Draft.assembleOnto_arrange hhosted hbelow, definition, hfilled, hsameArrange]

end Manuscript

/-! ## The contents of a file

A file is a text, read as a tree and the tree as a value. The version is looked for in the tree,
since it has to be a scalar of a certain spelling; all other entries are taken as values. What is
needed here is the way back from values to trees: a string value comes of a scalar with just that
text, and a mapping of a mapping. -/

namespace Yaml

/-- What a scalar with this text can stand for: the text itself, or something that is neither a string nor a
collection. -/
def Value.FromText (text : String) : Value → Prop
  | .string t => t = text
  | .sequence _ | .mapping _ => False
  | .null | .bool _ | .integer _ | .real _ => True

theorem plainValue?_fromText {text : String} {v : Value} (h : plainValue? text = some v) :
    v.FromText text := by
  rw [plainValue?] at h
  split at h
  · cases h
    trivial
  · split at h
    · cases h
      trivial
    · split at h
      · split at h
        · cases h
          trivial
        · cases h
      · split at h
        · cases h
          rfl
        · split at h
          · cases h
            trivial
          · cases h
            rfl

theorem Scalar.value?_fromText {s : Scalar} {v : Value} (h : s.value? = some v) : v.FromText s.text := by
  rw [Scalar.value?] at h
  -- one case for each kind of scalar that is tried, in the order in which the reader tries them
  split at h
  · split at h
    · exact plainValue?_fromText h
    · cases h
      rfl
  · split at h
    · obtain ⟨b, -, rfl⟩ := Option.map_eq_some_iff.mp h
      trivial
    · split at h
      · obtain ⟨n, -, rfl⟩ := Option.map_eq_some_iff.mp h
        trivial
      · split at h
        · obtain ⟨x, -, rfl⟩ := Option.map_eq_some_iff.mp h
          trivial
        · split at h
          · split at h
            · cases h
              trivial
            · cases h
          · split at h
            · cases h
            · cases h
              rfl

/-- A string is the text of a scalar. -/
theorem Tree.eq_scalar_of_value? {t : Tree} {text : String} (h : t.value? = some (.string text)) :
    ∃ s : Scalar, t = .scalar s ∧ s.text = text := by
  match t with
  | .scalar s => exact ⟨s, rfl, (s.value?_fromText h).symm⟩
  | .sequence _ | .mapping _ =>
    rw [Tree.value?] at h
    obtain ⟨_, -, heq⟩ := Option.map_eq_some_iff.mp h
    cases heq

/-- A mapping is read from the entries of a mapping. -/
theorem Tree.eq_mapping_of_value? {t : Tree} {entries : List (Value × Value)}
    (h : t.value? = some (.mapping entries)) :
    ∃ pairs, t = .mapping pairs ∧ entriesOf? pairs = some entries := by
  match t with
  | .scalar s => exact (s.value?_fromText h).elim
  | .sequence _ =>
    rw [Tree.value?] at h
    obtain ⟨_, -, heq⟩ := Option.map_eq_some_iff.mp h
    cases heq
  | .mapping pairs =>
    rw [Tree.value?] at h
    obtain ⟨_, hpairs, heq⟩ := Option.map_eq_some_iff.mp h
    cases heq
    exact ⟨pairs, rfl, hpairs⟩

theorem entriesOf?_cons {k v : Tree} {pairs : List (Tree × Tree)} {entries : List (Value × Value)}
    (h : entriesOf? ((k, v) :: pairs) = some entries) :
    ∃ key value rest, k.value? = some key ∧ v.value? = some value ∧ entriesOf? pairs = some rest ∧
      entries = (key, value) :: rest := by
  rw [entriesOf?] at h
  obtain ⟨key, hkey, h⟩ := Option.bind_eq_some_iff.mp h
  obtain ⟨value, hvalue, h⟩ := Option.bind_eq_some_iff.mp h
  obtain ⟨rest, hrest, h⟩ := Option.bind_eq_some_iff.mp h
  cases h
  exact ⟨key, value, rest, hkey, hvalue, hrest, rfl⟩

end Yaml

namespace FormDraft

/-- Without a version among the keys all entries stay. -/
theorem splitVersions_of_ne {pairs : List (Yaml.Tree × Yaml.Tree)}
    {entries : List (Yaml.Value × Yaml.Value)} (h : Yaml.entriesOf? pairs = some entries)
    (hkeys : ∀ e ∈ entries, e.1 ≠ .string versionKey) : splitVersions pairs = some ([], entries) := by
  induction pairs generalizing entries with
  | nil =>
    cases h
    rfl
  | cons pair pairs ih =>
    obtain ⟨k, v⟩ := pair
    obtain ⟨key, value, rest, hkey, hvalue, hrest, rfl⟩ := Yaml.entriesOf?_cons h
    obtain ⟨hne, hkeys⟩ := List.forall_mem_cons.mp hkeys
    rw [splitVersions, ih hrest hkeys, Option.bind_eq_bind, Option.bind_some, hkey]
    dsimp only [Option.bind_eq_bind, Option.bind_some]
    -- the key is quoted, plain or no scalar at all, and in none of these cases is it the version
    split
    · next name s =>
      rw [if_neg fun hname => hne (congrArg _ hname), show s.value? = some value from hvalue]
      rfl
    · next name _ _ =>
      rw [if_neg fun hname => hne (congrArg _ hname), hvalue]
      rfl
    · rw [hvalue]
      rfl

/-- A file of the version is read as the draft in its other entries. -/
theorem ofTree?_of_version {tree : Yaml.Tree} {entries : List (Yaml.Value × Yaml.Value)}
    (h : tree.value? = some (.mapping ((.string versionKey, .string version) :: entries)))
    (hkeys : ∀ e ∈ entries, e.1 ≠ .string versionKey) : ofTree? tree = ofEntries? entries := by
  obtain ⟨pairs, rfl, hpairs⟩ := Yaml.Tree.eq_mapping_of_value? h
  match pairs with
  | [] => cases hpairs
  | (k, v) :: pairs =>
    obtain ⟨_, _, _, hkey, hvalue, hrest, heq⟩ := Yaml.entriesOf?_cons hpairs
    cases heq
    obtain ⟨s, rfl, htext⟩ := Yaml.Tree.eq_scalar_of_value? hvalue
    have hsplit : splitVersions ((k, .scalar s) :: pairs) = some ([version], entries) := by
      rw [splitVersions, splitVersions_of_ne hrest hkeys, Option.bind_eq_bind, Option.bind_some, hkey]
      dsimp only [Option.bind_eq_bind, Option.bind_some]
      rw [if_pos rfl, htext]
    rw [ofTree?, hsplit, Option.bind_eq_bind, Option.bind_some]
    exact if_pos rfl

end FormDraft

/-- The contents of a file are read as the draft of what was written. -/
theorem FormHeading.ofTree?_fileValue {heading : FormHeading} {ms : List Manuscript}
    (ha : heading.attributes.WellFormed) (clear : heading.KeepsClear)
    (hms : ∀ m ∈ ms, Draft.ofValue? m.value = some m.draft) {tree : Yaml.Tree}
    (h : tree.value? = some (heading.fileValue ms)) :
    FormDraft.ofTree? tree =
      some ⟨heading.key, strings heading.attributes.entries, Manuscript.drafts ms⟩ := by
  have hfieldNames : heading.key.fields.map Prod.fst = ["id", "group"] := rfl
  -- no entry is taken for the version of the file
  have hkeys : ∀ e ∈ written heading.key.fields heading.attributes (Manuscript.values ms),
      e.1 ≠ .string FormDraft.versionKey := by
    intro e he hversion
    obtain ⟨name, hname, hwhere⟩ := exists_name_of_mem_written he
    obtain rfl : name = FormDraft.versionKey := Yaml.Value.string.inj (hname.symm.trans hversion)
    rcases hwhere with hfield | hattribute | hbelow
    · exact absurd hfield (hfieldNames ▸ by decide)
    · exact (clear _ hattribute).1 rfl
    · exact absurd hbelow (by decide)
  have hchildren : Draft.childrenField ∉ heading.attributes.names := fun hmem =>
    (clear _ hmem).2 (by decide)
  have hfields : Fields.ofEntries? Draft.keyFields
      (written heading.key.fields heading.attributes (Manuscript.values ms)) =
      some ⟨strings (present heading.key.fields) ++ childrenWritten (Manuscript.values ms),
        strings heading.attributes.entries⟩ :=
    ofEntries?_written (.refl _) (by decide) ha fun name hname => (clear name hname).2
  rw [FormDraft.ofTree?_of_version h hkeys, FormDraft.ofEntries?, hfields, Option.bind_eq_bind,
    Option.bind_some, Draft.key?_written, Option.bind_eq_bind, Option.bind_some,
    childrenOf?_written (hfieldNames ▸ by decide) hchildren, Manuscript.ofValues?_values hms]
  rfl

/-! ## Every form can be written

Writing a definition down in full is a recursion with nothing to choose. Reading it back has to
arrange the children of extension points again, and finds them in order. -/

namespace Definition

/-- A definition that comes after all others by its slot is put at the end. -/
theorem insertBySlot_last {d : Definition} {cs : List Definition}
    (h : ∀ c ∈ cs, c.kind.slot < d.kind.slot) : d.insertBySlot cs = cs ++ [d] := by
  induction cs with
  | nil => rfl
  | cons c cs ih =>
    obtain ⟨hc, hcs⟩ := List.forall_mem_cons.mp h
    rw [insertBySlot, if_neg (Nat.lt_asymm hc), ih hcs]
    rfl

end Definition

/-- What is kept by a head is arranged already. -/
theorem Head.Arranges.arrange_eq {head : Head} {inserted kept : List Definition}
    (h : head.Arranges inserted kept) : head.arrange kept = kept := by
  match head, h with
  | .attribute _, _ | .element _, _ | .choice _, _ | .reference _, _ => rfl
  -- each child of an extension point goes to the end, since the slots are in order
  | .extension _, ⟨_, hslots⟩ =>
    have hfold : ∀ rest done : List Definition,
        ((done ++ rest).Pairwise fun a b => a.kind.slot < b.kind.slot) →
        rest.foldl (fun kept d => d.insertBySlot kept) done = done ++ rest := by
      intro rest
      induction rest with
      | nil => exact fun done _ => (List.append_nil done).symm
      | cons d rest ih =>
        intro done hdone
        have hlast : ∀ c ∈ done, c.kind.slot < d.kind.slot := fun c hc =>
          (List.pairwise_append.mp hdone).2.2 c hc d List.mem_cons_self
        rw [List.append_cons] at hdone ⊢
        rw [List.foldl_cons, Definition.insertBySlot_last hlast]
        exact ih _ hdone
    exact hfold kept [] hslots

namespace Definition

theorem manuscripts_eq_map (ds : List Definition) : manuscripts ds = ds.map manuscript := by
  induction ds with
  | nil => rfl
  | cons d ds ih => rw [manuscripts, ih, List.map_cons]

theorem manuscript_complete (d : Definition) : d.manuscript.Complete := by
  induction d using Definition.induct with
  | node head cs ih =>
    rw [manuscript, manuscripts_eq_map]
    exact .node (List.forall_mem_map.mpr ih)

/-- What is written down in full is what is meant. -/
theorem Built.definition_manuscript {d : Definition} {attributes : List (String × String)}
    {children : List Definition} (h : d.Built attributes children) (fill : Head → Head) :
    d.manuscript.definition fill = d := by
  induction d using Definition.induct generalizing attributes children with
  | node head cs ih =>
    have hchildren : Manuscript.definitions fill (manuscripts cs) = cs := by
      rw [Manuscript.definitions_eq_map, manuscripts_eq_map, List.map_map]
      refine (List.map_congr_left fun c hc => ?_).trans (List.map_id cs)
      obtain ⟨_, _, hbuilt⟩ := h.child_built c hc
      exact ih c hc hbuilt
    have harranged : head.arrange cs = cs := h.arranged.arrange_eq
    rw [manuscript, Manuscript.definition, if_pos rfl, hchildren, harranged]

end Definition

/-- Where nothing is left out nothing is filled in. -/
theorem Manuscript.Complete.definition_eq {m : Manuscript} (h : m.Complete) (fill : Head → Head) :
    m.definition fill = m.definition id := by
  induction m using Manuscript.induct with
  | node head stated children ih =>
    cases h with
    | node hchildren =>
      have hsame : definitions fill children = definitions id children := by
        rw [definitions_eq_map, definitions_eq_map]
        exact List.map_congr_left fun m hm => ih m hm (hchildren m hm)
      rw [definition, definition, hsame]
      rfl

/-! ## Reading a form back

Nothing is assumed of the text but what it says. Two texts that are read as the same value are read
as the same form, be they laid out, quoted or ordered in whatever way the format allows. -/

/-- **Form files describe every form**, unless an attribute has the name of a field. Every form that has been
built can be written down in full. However it is written down, reading the file gives the form under its own
source, with the default of the configuration at exactly those definitions whose cardinality was left out;
with nothing left out it is the form itself. -/
theorem Form.parse_written {f : Form} (built : ∃ attributes children, f.Built attributes children)
    (clear : f.toFormHeading.KeepsClear) (clears : ∀ d, f.Holds d → d.KeepsClear) :
    (∃ ms : List Manuscript, (∀ m ∈ ms, m.Complete) ∧ Manuscript.definitions id ms = f.children) ∧
    ∀ ms, Manuscript.definitions id ms = f.children → ∀ (config : Config) (text : String),
      (Yaml.tree? text >>= Yaml.Tree.value?) = some (f.fileValue ms) →
      parseForm config f.source text = .ok { f with
        children := Manuscript.definitions (Head.withCardinality config.defaultCardinality) ms } ∧
      ((∀ m ∈ ms, m.Complete) → parseForm config f.source text = .ok f) := by
  obtain ⟨attributes, children, hbuilt⟩ := built
  refine ⟨⟨Definition.manuscripts f.children, ?_, ?_⟩, fun ms hms config text htext => ?_⟩
  · rw [Definition.manuscripts_eq_map]
    exact List.forall_mem_map.mpr fun d _ => d.manuscript_complete
  · rw [Manuscript.definitions_eq_map, Definition.manuscripts_eq_map, List.map_map]
    refine (List.map_congr_left fun d hd => ?_).trans (List.map_id f.children)
    obtain ⟨_, _, hd⟩ := hbuilt.child_built d hd
    exact hd.definition_manuscript id
  · -- what is meant stands beneath the form, so it is well-formed and keeps clear of the fields
    have hshapes : ∀ m ∈ ms, (m.definition id).WellFormed ∧
        ∀ d : Definition, d.Within (m.definition id) → d.KeepsClear := by
      intro m hm
      have hmem : m.definition id ∈ f.children := by
        rw [← hms, Manuscript.definitions_eq_map]
        exact List.mem_map_of_mem hm
      exact ⟨hbuilt.wellFormed.children _ hmem, fun d hd => clears d ⟨_, hmem, hd⟩⟩
    have hparse : parseForm config f.source text = .ok { f with
        children := Manuscript.definitions (Head.withCardinality config.defaultCardinality) ms } := by
      obtain ⟨tree, htree, hvalue⟩ := Option.bind_eq_some_iff.mp htext
      have hdraft := FormHeading.ofTree?_fileValue hbuilt.wellFormed.attributes clear
        (fun m hm => Manuscript.ofValue?_value (hshapes m hm).1 (hshapes m hm).2) hvalue
      rw [parseForm, htree, Option.bind_eq_bind, Option.bind_some, hdraft]
      show (Form.withOthers _ _ >>= _) = _
      rw [Form.withOthers_strings hbuilt.wellFormed.attributes]
      refine foldlM_drafts Form.withChild (fun ds => ⟨f.toFormHeading, ds⟩)
        (Manuscript.drafts_assembled fun m hm => Manuscript.assemble_draft (hshapes m hm).1)
        fun done d rest heq => if_pos (decide_eq_true ?_)
      -- the form permits a definition for its kind, which does not depend on what was filled in
      have hd : d.kind ∈ f.children.map Definition.kind := by
        rw [← hms, ← Manuscript.kinds_definitions config.defaultCardinality, heq]
        exact List.mem_map_of_mem (List.mem_append_right _ List.mem_cons_self)
      obtain ⟨e, he, hkind⟩ := List.mem_map.mp hd
      exact hkind ▸ hbuilt.wellFormed.hosted e he
    refine ⟨hparse, fun hcomplete => ?_⟩
    have hsame : Manuscript.definitions (Head.withCardinality config.defaultCardinality) ms = f.children := by
      rw [← hms, Manuscript.definitions_eq_map, Manuscript.definitions_eq_map]
      exact List.map_congr_left fun m hm => (hcomplete m hm).definition_eq _
    rw [hparse, hsame]

/-! ## An example

Equality of values is decided by a function, so that what a text says can be computed and compared. -/

namespace Yaml

mutual

/-- Whether two values are equal, down to the order of the entries. -/
def Value.equal : Value → Value → Bool
  | .null, .null => true
  | .bool a, .bool b => a = b
  | .integer a, .integer b => a = b
  | .real a, .real b => a = b
  | .string a, .string b => a = b
  | .sequence as, .sequence bs => equalAll as bs
  | .mapping as, .mapping bs => equalEntries as bs
  | _, _ => false

def equalAll : List Value → List Value → Bool
  | [], [] => true
  | a :: as, b :: bs => a.equal b && equalAll as bs
  | _, _ => false

def equalEntries : List (Value × Value) → List (Value × Value) → Bool
  | [], [] => true
  | (k, v) :: as, (l, w) :: bs => k.equal l && v.equal w && equalEntries as bs
  | _, _ => false

end

mutual

theorem Value.eq_of_equal {v w : Value} (h : v.equal w = true) : v = w := by
  rw [Value.equal.eq_def] at h
  split at h
  · rfl
  · exact congrArg _ (of_decide_eq_true h)
  · exact congrArg _ (of_decide_eq_true h)
  · exact congrArg _ (of_decide_eq_true h)
  · exact congrArg _ (of_decide_eq_true h)
  · exact congrArg _ (eq_of_equalAll h)
  · exact congrArg _ (eq_of_equalEntries h)
  · cases h

theorem eq_of_equalAll {as bs : List Value} (h : equalAll as bs = true) : as = bs := by
  rw [equalAll.eq_def] at h
  split at h
  · rfl
  · obtain ⟨hfirst, hrest⟩ := Bool.and_eq_true_iff.mp h
    rw [Value.eq_of_equal hfirst, eq_of_equalAll hrest]
  · cases h

theorem eq_of_equalEntries {as bs : List (Value × Value)} (h : equalEntries as bs = true) : as = bs := by
  rw [equalEntries.eq_def] at h
  split at h
  · rfl
  · obtain ⟨hentry, hrest⟩ := Bool.and_eq_true_iff.mp h
    obtain ⟨hkey, hvalue⟩ := Bool.and_eq_true_iff.mp hentry
    rw [Value.eq_of_equal hkey, Value.eq_of_equal hvalue, eq_of_equalEntries hrest]
  · cases h

end

end Yaml

namespace Sample

/-- A point that wraps an attribute and a reference. -/
def slipPoint : Definition :=
  .node (.extension ⟨"p", .empty⟩)
    [.leaf (.attribute ⟨⟨none, none, .empty⟩, .required⟩), .leaf (.reference ⟨⟨"", "a"⟩, .empty⟩)]

/-- A slip with an attribute that has the name of a field, but of no field of forms. -/
def slip : Form :=
  ⟨⟨⟨"", "slip"⟩, "samples", ⟨[("cardinality", "few")]⟩⟩,
    [.node (.choice ⟨none, .optional, .empty⟩) [slipPoint]]⟩

/-- The slip with the cardinalities left out and the reference before the attribute. -/
def slipManuscript : List Manuscript :=
  [.node (.choice ⟨none, .optional, .empty⟩) false
    [.node (.extension ⟨"p", .empty⟩) false
      [.node (.reference ⟨⟨"", "a"⟩, .empty⟩) false [],
        .node (.attribute ⟨⟨none, none, .empty⟩, .required⟩) false []]]]

def slipText : String := "_version: '1'
id: slip
cardinality: few
children:
- choice:
   children:
   - other: {representation: p, children: [{form-ref: {id: a}}, {attribute: {}}]}
"

theorem slipText_read :
    (Yaml.tree? slipText >>= Yaml.Tree.value?) = some (slip.fileValue slipManuscript) := by
  have hread : ((Yaml.tree? slipText >>= Yaml.Tree.value?).any fun v =>
      v.equal (slip.fileValue slipManuscript)) = true := by decide +kernel
  cases hvalue : Yaml.tree? slipText >>= Yaml.Tree.value? with
  | none =>
    rw [hvalue] at hread
    cases hread
  | some v =>
    rw [hvalue] at hread
    rw [Yaml.Value.eq_of_equal hread]

theorem slip_built : slip.Built [("cardinality", "few")] slip.children := by
  have hstamp : (Definition.leaf (.attribute ⟨⟨none, none, .empty⟩, .required⟩)).Built [] [] :=
    .fresh (.attribute none .required)
  have hreference : (Definition.leaf (.reference ⟨⟨"", "a"⟩, .empty⟩)).Built [] [] :=
    .fresh (.reference ⟨"", "a"⟩)
  have hpoint : slipPoint.Built [] slipPoint.children :=
    .child (.child (.fresh (.extension "p")) hstamp rfl) hreference rfl
  have hchoice : (Definition.node (.choice ⟨none, .optional, .empty⟩) [slipPoint]).Built [] [slipPoint] :=
    .child (.fresh (.choice none .optional)) hpoint rfl
  exact .child (.attributed (.empty ⟨"", "slip"⟩ "samples") rfl) hchoice rfl

theorem slip_keepsClear {d : Definition} (h : slip.Holds d) : d.KeepsClear := by
  -- none of the definitions of this form has other attributes, so there is nothing to keep clear of
  have hnone : d.head.attributes.names = [] := by
    obtain ⟨c, hc, hwithin⟩ := h
    obtain rfl := List.mem_singleton.mp hc
    cases hwithin with
    | here => rfl
    | beneath hpoint hwithin =>
      obtain rfl := List.mem_singleton.mp hpoint
      cases hwithin with
      | here => rfl
      | beneath hleaf hwithin =>
        rcases List.mem_pair.mp hleaf with rfl | rfl <;> cases hwithin with
        | here => rfl
        | beneath hnothing _ => cases hnothing
  rw [Definition.KeepsClear, hnone]
  exact fun _ hname => absurd hname List.not_mem_nil

end Sample

/-- The slip is read back with its attribute before its reference, and with the default of the standard
configuration for its group and for the attribute. -/
theorem Form.parse_written_slip :
    (∃ attributes children, Sample.slip.Built attributes children) ∧
    Sample.slip.toFormHeading.KeepsClear ∧ (∀ d, Sample.slip.Holds d → d.KeepsClear) ∧
    Manuscript.definitions id Sample.slipManuscript = Sample.slip.children ∧
    (Yaml.tree? Sample.slipText >>= Yaml.Tree.value?) =
      some (Sample.slip.fileValue Sample.slipManuscript) ∧
    parseForm .standard "samples" Sample.slipText = .ok { Sample.slip with
      children := [.node (.choice ⟨none, .required, .empty⟩) [Sample.slipPoint]] } := by
  have hbuilt : ∃ attributes children, Sample.slip.Built attributes children := ⟨_, _, Sample.slip_built⟩
  have hclear : Sample.slip.toFormHeading.KeepsClear :=
    List.forall_mem_singleton.mpr ⟨by decide, by decide⟩
  have hmeant : Manuscript.definitions id Sample.slipManuscript = Sample.slip.children := rfl
  obtain ⟨-, hreads⟩ := parse_written hbuilt hclear fun _ => Sample.slip_keepsClear
  obtain ⟨hparse, -⟩ := hreads _ hmeant .standard _ Sample.slipText_read
  exact ⟨hbuilt, hclear, fun _ => Sample.slip_keepsClear, hmeant, Sample.slipText_read, hparse⟩

end FormSchema
