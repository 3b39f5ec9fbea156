import FormSchema.Proofs.Definition.Insertions

/-!
# Manuscripts

A manuscript is a definition as it is written down: whether its cardinality is stated, and in which order
things stand beneath it. A file writes every definition as a mapping under the tag of its kind, with its
fields, its other attributes as strings and what stands beneath it. What is written can be told apart again:
the names of the schema at a definition become its fields, all others its other attributes. An attribute
with the name of a field would be taken for the field.

The writer is a specification and not part of any program: it says what a file has to look like,
with everything left open that a file may choose. What it chooses is kept in the manuscript, so one
definition has many manuscripts, and the theorem about reading is about each of them.

The reader sorts the entries of a mapping by their names, and what it does to a list of entries is a
fold over them. As written entries come in three runs, of fields, of other attributes and of one
entry for the children, the fold is taken run by run, and each run adds to one side of the result
only.

* `Manuscript` — a definition as it is written down, and `Manuscript.definition`, what is meant.
* `Manuscript.value`, `FormHeading.fileValue` — what is written.
* `ofEntries?_written` — fields and other attributes are told apart.
* **`Manuscript.ofValue?_value`** — what is written is read as the draft of the manuscript.
-/

namespace FormSchema

/-! ## Manuscripts

A manuscript is a tree like a definition, with a mark on every node for whether its cardinality is
stated. What it means is a definition again, where a head that was written without a cardinality is
filled in from outside and the children beneath an extension point are put into their slots. -/

/-- A definition as it is written down: what it is about, whether its cardinality is stated, and what stands
beneath it, in the order of the file. -/
inductive Manuscript where
  | node (head : Head) (stated : Bool) (children : List Manuscript)

/-- How a head keeps children that are given to it one after the other. -/
def Head.arrange : Head → List Definition → List Definition
  | .extension _, ds => ds.foldl (fun kept d => d.insertBySlot kept) []
  | _, ds => ds

/-- The head with another cardinality, if it has one. -/
def Head.withCardinality (c : Cardinality) : Head → Head
  | .attribute i => .attribute { i with cardinality := c }
  | .element i => .element { i with cardinality := c }
  | .choice g => .choice { g with cardinality := c }
  | h => h

namespace Manuscript

theorem induct {P : Manuscript → Prop}
    (node : ∀ head stated children, (∀ m ∈ children, P m) → P (.node head stated children))
    (m : Manuscript) : P m :=
  @Manuscript.rec P (fun ms => ∀ m ∈ ms, P m) node (by simp)
    (fun _ _ hm hms => List.forall_mem_cons.mpr ⟨hm, hms⟩) m

mutual

/-- The definition that is written down, with heads filled in where their cardinality is left out. -/
def definition (fill : Head → Head) : Manuscript → Definition
  | .node head stated children =>
    .node (if stated then head else fill head) (head.arrange (definitions fill children))

def definitions (fill : Head → Head) : List Manuscript → List Definition
  | [] => []
  | m :: ms => m.definition fill :: definitions fill ms

end

/-- Every cardinality is stated. -/
inductive Complete : Manuscript → Prop where
  | node {head : Head} {ms : List Manuscript} (children : ∀ m ∈ ms, Complete m) :
      Complete (.node head true ms)

end Manuscript

namespace Definition

mutual

/-- A definition written down in full, with everything where it is kept. -/
def manuscript : Definition → Manuscript
  | .node head cs => .node head true (manuscripts cs)

def manuscripts : List Definition → List Manuscript
  | [] => []
  | d :: ds => d.manuscript :: manuscripts ds

end

end Definition

/-! ## What is written

Fields come as a list of names with texts, of which those that are absent are left out. In this form
the fields of all five kinds are data, and the lemmas below are about any list of fields. -/

/-- The fields of a key. The empty group is left out. -/
def FormKey.fields (key : FormKey) : List (String × Option String) :=
  [("id", some key.id), ("group", if key.group.isEmpty then none else some key.group)]

/-- The fields of a head, with its cardinality or without. -/
def Head.fields (stated : Bool) : Head → List (String × Option String)
  | .attribute i | .element i =>
    [("id", i.id), ("lookup", i.lookup),
      ("cardinality", if stated then some i.cardinality.token else none)]
  | .choice g => [("id", g.id), ("cardinality", if stated then some g.cardinality.token else none)]
  | .reference r => r.target.fields
  | .extension x => [("representation", some x.representation)]

/-- The fields that are there. -/
def present (fields : List (String × Option String)) : List (String × String) :=
  fields.filterMap fun (name, text) => text.map fun t => (name, t)

/-- Strings as the values of their names. -/
def strings (texts : List (String × String)) : List (String × Yaml.Value) :=
  texts.map fun (name, text) => (name, .string text)

/-- The field for what stands beneath a definition, which is left out if nothing does. -/
def childrenWritten (children : List Yaml.Value) : List (String × Yaml.Value) :=
  if children.isEmpty then [] else [(Draft.childrenField, .sequence children)]

/-- The entries of a definition or a form: its fields, its other attributes and what stands beneath it. -/
def written (fields : List (String × Option String)) (a : OtherAttributes) (children : List Yaml.Value) :
    List (Yaml.Value × Yaml.Value) :=
  (strings (present fields) ++ strings a.entries ++ childrenWritten children).map fun (name, v) =>
    (.string name, v)

namespace Manuscript

mutual

/-- A definition as a value: under the tag of its kind its fields, its other attributes and what stands
beneath it. -/
def value : Manuscript → Yaml.Value
  | .node head stated children =>
    .mapping [(.string head.kind.tag,
      .mapping (written (head.fields stated) head.attributes (values children)))]

def values : List Manuscript → List Yaml.Value
  | [] => []
  | m :: ms => m.value :: values ms

end

end Manuscript

/-- The contents of a form file: its version, the heading of the form and what stands beneath it. -/
def FormHeading.fileValue (heading : FormHeading) (ms : List Manuscript) : Yaml.Value :=
  .mapping ((.string FormDraft.versionKey, .string FormDraft.version) ::
    written heading.key.fields heading.attributes (Manuscript.values ms))

/-! ## Reading fields

The reader either finds the name of an entry among the fields that it knows or takes the entry for
an attribute. For what is written the first holds of fields and children and the second of
attributes, the latter because attributes are supposed to keep clear of the fields. -/

namespace Fields

variable {names : List String} {f : Fields}

theorem put_of_notMem {name : String} {v : Yaml.Value} {others : List (String × Yaml.Value)}
    (h : name ∉ others.map Prod.fst) : put name v others = others ++ [(name, v)] := by
  induction others with
  | nil => rfl
  | cons other others ih =>
    obtain ⟨hne, hrest⟩ := not_or.mp (List.mem_cons.not.mp h)
    rw [put, if_neg (Ne.symm hne), ih hrest]
    rfl

/-- One entry after the other. -/
def addAll (names : List String) (f : Fields) (pairs : List (String × Yaml.Value)) : Option Fields :=
  pairs.foldlM (fun f (name, v) => f.add names name v) f

theorem addAll_append {pairs pairs' : List (String × Yaml.Value)} :
    f.addAll names (pairs ++ pairs') = f.addAll names pairs >>= fun g => g.addAll names pairs' :=
  List.foldlM_append

theorem ofEntries?_eq_addAll (pairs : List (String × Yaml.Value)) :
    ofEntries? names (pairs.map fun (name, v) => (.string name, v)) = empty.addAll names pairs := by
  rw [ofEntries?, List.foldlM_map]
  rfl

/-- Names of the schema become fields. -/
theorem addAll_schema {pairs : List (String × Yaml.Value)} (known : ∀ n ∈ pairs.map Prod.fst, n ∈ names)
    (distinct : ((f.schema ++ pairs).map Prod.fst).Nodup) :
    f.addAll names pairs = some ⟨f.schema ++ pairs, f.others⟩ := by
  induction pairs generalizing f with
  | nil => rw [List.append_nil]; rfl
  | cons pair pairs ih =>
    obtain ⟨name, v⟩ := pair
    obtain ⟨hknown, hpairs⟩ := List.forall_mem_cons.mp known
    have hnew : name ∉ f.schema.map Prod.fst := by
      rw [List.map_append, List.nodup_append] at distinct
      exact fun hmem => distinct.2.2 _ hmem _ List.mem_cons_self rfl
    rw [List.append_cons] at distinct
    have hadd : f.add names name v = some ⟨f.schema ++ [(name, v)], f.others⟩ := by
      rw [add, if_pos hknown, if_neg hnew]
    rw [addAll, List.foldlM_cons, List.append_cons]
    exact (congrArg (· >>= _) hadd).trans (ih hpairs distinct)

/-- Other names become other attributes. -/
theorem addAll_others {pairs : List (String × Yaml.Value)} (unknown : ∀ n ∈ pairs.map Prod.fst, n ∉ names)
    (plain : ∀ p ∈ pairs, p.2.hasDistinctKeys = true)
    (distinct : ((f.others ++ pairs).map Prod.fst).Nodup) :
    f.addAll names pairs = some ⟨f.schema, f.others ++ pairs⟩ := by
  induction pairs generalizing f with
  | nil => rw [List.append_nil]; rfl
  | cons pair pairs ih =>
    obtain ⟨name, v⟩ := pair
    obtain ⟨hunknown, hpairs⟩ := List.forall_mem_cons.mp unknown
    obtain ⟨hplain, hplains⟩ := List.forall_mem_cons.mp plain
    -- the name is new, so that it goes to the end and replaces nothing
    have hnew : name ∉ f.others.map Prod.fst := by
      rw [List.map_append, List.nodup_append] at distinct
      exact fun hmem => distinct.2.2 _ hmem _ List.mem_cons_self rfl
    rw [List.append_cons] at distinct
    have hadd : f.add names name v = some ⟨f.schema, f.others ++ [(name, v)]⟩ := by
      rw [add, if_neg hunknown, if_pos hplain, put_of_notMem hnew]
    rw [addAll, List.foldlM_cons, List.append_cons]
    exact (congrArg (· >>= _) hadd).trans (ih hpairs hplains distinct)

end Fields

section Written

variable {names : List String} {fields : List (String × Option String)} {a : OtherAttributes}
  {children : List Yaml.Value} {others : List (String × Yaml.Value)} {name : String}

theorem names_strings (texts : List (String × String)) :
    (strings texts).map Prod.fst = texts.map Prod.fst := by
  rw [strings, List.map_map]
  rfl

theorem names_present (fields : List (String × Option String)) :
    ((present fields).map Prod.fst).Sublist (fields.map Prod.fst) := by
  induction fields with
  | nil => exact .slnil
  | cons field fields ih =>
    obtain ⟨name, text⟩ := field
    cases text with
    | none => exact ih.cons _
    | some text => exact ih.cons_cons _

theorem names_childrenWritten (children : List Yaml.Value) :
    ((childrenWritten children).map Prod.fst).Sublist [Draft.childrenField] := by
  cases children with
  | nil => exact List.nil_sublist _
  | cons => exact .refl _

/-- Everything that is written stands under a name. -/
theorem exists_name_of_mem_written {e : Yaml.Value × Yaml.Value} (he : e ∈ written fields a children) :
    ∃ name, e.1 = .string name ∧
      (name ∈ fields.map Prod.fst ∨ name ∈ a.names ∨ name = Draft.childrenField) := by
  obtain ⟨p, hp, rfl⟩ := List.mem_map.mp he
  refine ⟨p.1, rfl, ?_⟩
  have hname := List.mem_map_of_mem (f := Prod.fst) hp
  rw [List.map_append, List.map_append, names_strings, names_strings, List.mem_append,
    List.mem_append] at hname
  rcases hname with (hfield | hattribute) | hbelow
  · exact .inl ((names_present fields).subset hfield)
  · exact .inr (.inl hattribute)
  · exact .inr (.inr (List.mem_singleton.mp ((names_childrenWritten children).subset hbelow)))

theorem lookup_strings (texts : List (String × String)) (name : String) :
    (strings texts).lookup name = (texts.lookup name).map .string := by
  induction texts with
  | nil => rfl
  | cons pair texts ih =>
    obtain ⟨n, text⟩ := pair
    rw [strings, List.map_cons, List.lookup_cons, List.lookup_cons]
    cases name == n with
    | true => rfl
    | false => exact ih

theorem lookup_present (distinct : (fields.map Prod.fst).Nodup) :
    (present fields).lookup name = (fields.lookup name).join := by
  induction fields with
  | nil => rfl
  | cons field fields ih =>
    obtain ⟨n, text⟩ := field
    obtain ⟨hn, hrest⟩ := List.nodup_cons.mp distinct
    have hpresent : present ((n, text) :: fields) = present [(n, text)] ++ present fields :=
      List.filterMap_append (l := [_])
    by_cases hname : name = n
    · -- the field is the first one; if it is absent, no later one has its name
      subst hname
      rw [List.lookup_cons_self, hpresent, List.lookup_append]
      cases text with
      | none =>
        refine List.lookup_eq_none_iff.mpr fun p hp => bne_iff_ne.mpr fun heq => hn ?_
        exact heq ▸ (names_present fields).subset (List.mem_map_of_mem hp)
      | some text =>
        rw [show (present [(name, some text)]).lookup name = some text from List.lookup_cons_self]
        rfl
    · have hfirst : (present [(n, text)]).lookup name = none := by
        cases text with
        | none => rfl
        | some text => rw [present]; simp [hname]
      rw [List.lookup_cons, beq_false_of_ne hname, hpresent, List.lookup_append, hfirst]
      exact ih hrest

/-- Everything finds its place: fields and children in the schema, other attributes among the others. -/
theorem ofEntries?_written (known : (fields.map Prod.fst ++ [Draft.childrenField]).Sublist names)
    (distinct : names.Nodup) (ha : a.WellFormed) (clear : ∀ name ∈ a.names, name ∉ names) :
    Fields.ofEntries? names (written fields a children) =
      some ⟨strings (present fields) ++ childrenWritten children, strings a.entries⟩ := by
  have hschema : ((strings (present fields) ++ childrenWritten children).map Prod.fst).Sublist names := by
    rw [List.map_append, names_strings]
    exact ((names_present fields).append (names_childrenWritten children)).trans known
  have hleft : ((strings (present fields)).map Prod.fst).Sublist names :=
    ((List.sublist_append_left _ _).map _).trans hschema
  have hright : ((childrenWritten children).map Prod.fst).Sublist names :=
    ((List.sublist_append_right _ _).map _).trans hschema
  -- fields, other attributes and children come one after the other, and each only adds to one side
  have hfields : Fields.empty.addAll names (strings (present fields)) =
      some ⟨strings (present fields), []⟩ :=
    Fields.addAll_schema (fun _ hn => hleft.subset hn) (hleft.nodup distinct)
  have hothers : (⟨strings (present fields), []⟩ : Fields).addAll names (strings a.entries) =
      some ⟨strings (present fields), strings a.entries⟩ := by
    refine Fields.addAll_others ?_ (fun p hp => ?_) ?_
    · rw [names_strings]
      exact clear
    · obtain ⟨text, -, rfl⟩ := List.mem_map.mp hp
      rfl
    · rw [List.nil_append, names_strings]
      exact ha.distinct
  rw [written, Fields.ofEntries?_eq_addAll, Fields.addAll_append, Fields.addAll_append, hfields,
    Option.bind_eq_bind, Option.bind_some, hothers, Option.bind_some]
  exact Fields.addAll_schema (fun _ hn => hright.subset hn) (hschema.nodup distinct)

theorem lookup_written (distinct : (fields.map Prod.fst).Nodup) (hname : name ≠ Draft.childrenField) :
    (strings (present fields) ++ childrenWritten children).lookup name =
      ((fields.lookup name).join).map .string := by
  have hchildren : (childrenWritten children).lookup name = none := by
    refine List.lookup_eq_none_iff.mpr fun p hp => bne_iff_ne.mpr fun heq => hname ?_
    exact heq ▸ List.mem_singleton.mp ((names_childrenWritten children).subset (List.mem_map_of_mem hp))
  rw [List.lookup_append, lookup_strings, lookup_present distinct, hchildren, Option.or_none]

/-- A field that may be absent is read as it was written. -/
theorem text?_written (distinct : (fields.map Prod.fst).Nodup) (hname : name ≠ Draft.childrenField) :
    Fields.text? ⟨strings (present fields) ++ childrenWritten children, others⟩ name =
      some (fields.lookup name).join := by
  rw [Fields.text?, lookup_written distinct hname]
  cases (fields.lookup name).join <;> rfl

/-- A field that has to be there is read as it was written. -/
theorem text_written (distinct : (fields.map Prod.fst).Nodup) (hname : name ≠ Draft.childrenField) :
    Fields.text ⟨strings (present fields) ++ childrenWritten children, others⟩ name =
      (fields.lookup name).join := by
  rw [Fields.text, lookup_written distinct hname]
  cases (fields.lookup name).join <;> rfl

theorem childrenOf?_strings {texts : List (String × String)} {entries : List (Yaml.Value × Yaml.Value)}
    (h : Draft.childrenField ∉ texts.map Prod.fst) :
    Draft.childrenOf? (((strings texts).map fun (name, v) => (.string name, v)) ++ entries) =
      Draft.childrenOf? entries := by
  induction texts with
  | nil => rfl
  | cons pair texts ih =>
    obtain ⟨n, text⟩ := pair
    obtain ⟨hne, hrest⟩ := not_or.mp (List.mem_cons.not.mp h)
    show Draft.childrenOf? ((.string n, .string text) :: (_ ++ entries)) = _
    rw [Draft.childrenOf?, if_neg (Ne.symm hne)]
    · exact ih hrest
    · exact nofun

/-- What stands beneath a definition is read where it was written. -/
theorem childrenOf?_written (hfields : Draft.childrenField ∉ fields.map Prod.fst)
    (clear : Draft.childrenField ∉ a.names) :
    Draft.childrenOf? (written fields a children) = Draft.ofValues? children := by
  have hpresent : Draft.childrenField ∉ (present fields).map Prod.fst :=
    fun hmem => hfields ((names_present fields).subset hmem)
  rw [written, List.map_append, List.map_append, List.append_assoc, childrenOf?_strings hpresent,
    childrenOf?_strings clear]
  cases children with
  | nil => rfl
  | cons v vs =>
    show Draft.childrenOf? [(.string Draft.childrenField, .sequence (v :: vs))] = _
    rw [Draft.childrenOf?, if_pos rfl]

end Written

/-! ## Reading definitions

Looking a field up in what was sorted gives the text that was written, and leaves nothing where the
field was left out. From there on each kind reads its own fields, and gets its own head back. -/

/-- What a form file says about a head. -/
def Head.draft (stated : Bool) : Head → DraftHead
  | .attribute i =>
    .attribute ⟨i.id, i.lookup, if stated then some i.cardinality.token else none⟩
  | .element i => .element ⟨i.id, i.lookup, if stated then some i.cardinality.token else none⟩
  | .choice g => .choice ⟨g.id, none, if stated then some g.cardinality.token else none⟩
  | .reference r => .reference r.target
  | .extension x => .extension x.representation

theorem Head.fields_known (stated : Bool) (head : Head) :
    ((head.fields stated).map Prod.fst ++ [Draft.childrenField]).Sublist (Draft.fields head.kind) := by
  match head with
  | .attribute _ | .element _ | .reference _ | .extension _ => exact .refl _
  | .choice _ => exact .cons_cons "id" (.cons "lookup" (.refl _))

theorem Draft.fields_distinct (kind : DefinitionKind) : (Draft.fields kind).Nodup := by
  cases kind <;> decide

theorem Draft.kind?_tag (kind : DefinitionKind) : Draft.kind? (.string kind.tag) = some kind := by
  cases kind <;> decide

namespace Draft

variable {fields : List (String × Option String)} {children : List Yaml.Value}
  {others : List (String × Yaml.Value)}

theorem item?_written (distinct : (fields.map Prod.fst).Nodup) :
    item? ⟨strings (present fields) ++ childrenWritten children, others⟩ =
      some ⟨(fields.lookup "id").join, (fields.lookup "lookup").join, (fields.lookup "cardinality").join⟩ := by
  rw [item?, text?_written distinct (by decide), text?_written distinct (by decide),
    text?_written distinct (by decide)]
  rfl

/-- The fields of a key are read as the key, which has the empty group if none was written. -/
theorem key?_written (key : FormKey) :
    key? ⟨strings (present key.fields) ++ childrenWritten children, others⟩ = some key := by
  have hdistinct : (key.fields.map Prod.fst).Nodup := by
    show ["id", "group"].Nodup
    decide
  have hgroup : (if key.group.isEmpty then none else some key.group).getD "" = key.group := by
    split
    · next hempty => exact (String.isEmpty_iff.mp hempty).symm
    · rfl
  rw [key?, text?_written hdistinct (by decide), text_written hdistinct (by decide)]
  exact congrArg (fun group => some (FormKey.mk group key.id)) hgroup

/-- The fields of a head are read as what they say. -/
theorem head?_written (head : Head) (stated : Bool) :
    head? head.kind ⟨strings (present (head.fields stated)) ++ childrenWritten children, others⟩ =
      some (head.draft stated) := by
  have hdistinct : ((head.fields stated).map Prod.fst).Nodup :=
    ((List.sublist_append_left _ _).trans (head.fields_known stated)).nodup (fields_distinct head.kind)
  match head with
  | .attribute i | .element i | .choice i =>
    rw [Head.kind, head?, item?_written hdistinct]
    rfl
  | .reference r =>
    rw [Head.kind, head?, Head.fields, key?_written]
    rfl
  | .extension x =>
    rw [Head.kind, head?, text_written hdistinct (by decide)]
    rfl

end Draft

/-! ## Definitions that are written

Reading is by induction on the manuscript. That the definition meant is well-formed is used at every
node, for the distinct names of its attributes, and passes down to what stands beneath it. Whether
cardinalities have been filled in makes no difference to any of this, as the lemmas about kinds and
attributes say. -/

@[simp] theorem Head.attributes_withCardinality (c : Cardinality) (head : Head) :
    (head.withCardinality c).attributes = head.attributes := by
  cases head <;> rfl

@[simp] theorem Head.kind_withCardinality (c : Cardinality) (head : Head) :
    (head.withCardinality c).kind = head.kind := by
  cases head <;> rfl

@[simp] theorem Head.arrange_withCardinality (c : Cardinality) (head : Head) :
    (head.withCardinality c).arrange = head.arrange := by
  cases head <;> rfl

@[simp] theorem Head.hosts_withCardinality (c : Cardinality) (head : Head) (ds : List Definition) :
    (head.withCardinality c).Hosts ds ↔ head.Hosts ds := by
  cases head <;> rfl

theorem Head.arrange_perm (head : Head) (ds : List Definition) : (head.arrange ds).Perm ds := by
  match head with
  | .attribute _ | .element _ | .choice _ | .reference _ => exact .refl _
  | .extension _ =>
    have hfold : ∀ kept : List Definition,
        (ds.foldl (fun kept d => d.insertBySlot kept) kept).Perm (ds ++ kept) := by
      induction ds with
      | nil => exact fun kept => .refl _
      | cons d ds ih =>
        exact fun kept => (ih _).trans (((d.insertBySlot_perm kept).append_left ds).trans List.perm_middle)
    exact (hfold []).trans (.of_eq (List.append_nil ds))

/-- What a head hosts is a matter of the kinds. -/
theorem Head.Hosts.of_kinds {head : Head} {ds ds' : List Definition} (h : head.Hosts ds)
    (hkinds : (ds'.map Definition.kind).Perm (ds.map Definition.kind)) : head.Hosts ds' := by
  have hall : ∀ {p : DefinitionKind → Prop}, (∀ d ∈ ds, p d.kind) → ∀ d ∈ ds', p d.kind := by
    intro p hp d hd
    obtain ⟨e, he, heq⟩ := List.mem_map.mp (hkinds.subset (List.mem_map_of_mem hd))
    exact heq ▸ hp e he
  match head with
  | .attribute _ | .reference _ => exact hall (p := fun k => k = .extension) h
  | .choice _ => exact hall (p := fun k => k = .element ∨ k = .choice ∨ k = .extension) h
  | .element _ => trivial
  | .extension _ => exact hkinds.nodup_iff.mpr h

namespace Manuscript

theorem definitions_eq_map (fill : Head → Head) (ms : List Manuscript) :
    definitions fill ms = ms.map (definition fill) := by
  induction ms with
  | nil => rfl
  | cons m ms ih => rw [definitions, ih, List.map_cons]

/-- Filling in cardinalities does not change the kinds. -/
theorem kinds_definitions (c : Cardinality) (ms : List Manuscript) :
    (definitions (Head.withCardinality c) ms).map Definition.kind =
      (definitions id ms).map Definition.kind := by
  rw [definitions_eq_map, definitions_eq_map, List.map_map, List.map_map]
  refine List.map_congr_left fun m _ => ?_
  obtain ⟨head, stated, children⟩ := m
  show (if stated then head else head.withCardinality c).kind = (if stated then head else head).kind
  cases stated with
  | true => rfl
  | false => exact head.kind_withCardinality c

/-- What is written beneath a definition stands beneath it. -/
theorem definition_mem_children (fill : Head → Head) (head : Head) (stated : Bool)
    {children : List Manuscript} {m : Manuscript} (hm : m ∈ children) :
    m.definition fill ∈ ((node head stated children).definition fill).children := by
  rw [definition, Definition.children, (head.arrange_perm _).mem_iff, definitions_eq_map]
  exact List.mem_map_of_mem hm

end Manuscript

/-- None of the other attributes has the name of a field. -/
def Definition.KeepsClear (d : Definition) : Prop :=
  ∀ name ∈ d.head.attributes.names, name ∉ Draft.fields d.kind

/-- None of the other attributes has the name of a field or of the version. -/
def FormHeading.KeepsClear (heading : FormHeading) : Prop :=
  ∀ name ∈ heading.attributes.names, name ≠ FormDraft.versionKey ∧ name ∉ Draft.keyFields

namespace Manuscript

mutual

/-- What a form file says about a definition. -/
def draft : Manuscript → Draft
  | .node head stated children =>
    .node (head.draft stated) (strings head.attributes.entries) (drafts children)

def drafts : List Manuscript → List Draft
  | [] => []
  | m :: ms => m.draft :: drafts ms

end

theorem ofValues?_values {ms : List Manuscript} (h : ∀ m ∈ ms, Draft.ofValue? m.value = some m.draft) :
    Draft.ofValues? (values ms) = some (drafts ms) := by
  induction ms with
  | nil => rfl
  | cons m ms ih =>
    obtain ⟨hm, hms⟩ := List.forall_mem_cons.mp h
    rw [values, Draft.ofValues?, hm, ih hms]
    rfl

theorem wellFormed_beneath {fill : Head → Head} {head : Head} {stated : Bool}
    {children : List Manuscript} (h : ((node head stated children).definition fill).WellFormed)
    {m : Manuscript} (hm : m ∈ children) : (m.definition fill).WellFormed := by
  have hmem := definition_mem_children fill head stated hm
  rw [definition] at h hmem
  cases h with
  | node _ _ hchildren => exact hchildren _ hmem

/-- **The file says what was written.** Fields are found whatever the order in which they stand,
and a field that was left out is absent. -/
theorem ofValue?_value {m : Manuscript} (hm : (m.definition id).WellFormed)
    (clear : ∀ d : Definition, d.Within (m.definition id) → d.KeepsClear) :
    Draft.ofValue? m.value = some m.draft := by
  induction m using induct with
  | node head stated children ih =>
    -- what stands beneath is read by induction, being well-formed and clear of fields as well
    have hchildren : Draft.ofValues? (values children) = some (drafts children) :=
      ofValues?_values fun m hmem => ih m hmem (wellFormed_beneath hm hmem) fun d hd =>
        clear d (.beneath (definition_mem_children id head stated hmem) hd)
    have hattributes : head.attributes.WellFormed := by
      rw [definition, id, ite_self] at hm
      cases hm with
      | node attributes _ _ => exact attributes
    have hclear : ∀ name ∈ head.attributes.names, name ∉ Draft.fields head.kind := by
      have hhere := clear _ .here
      rwa [Definition.KeepsClear, Definition.kind, definition, Definition.head, id, ite_self] at hhere
    have hknown := head.fields_known stated
    have hdistinct := Draft.fields_distinct head.kind
    have hfield : Draft.childrenField ∈ Draft.fields head.kind :=
      hknown.subset (List.mem_append_right _ (List.mem_singleton.mpr rfl))
    have hfresh : Draft.childrenField ∉ (head.fields stated).map Prod.fst := fun hmem =>
      (List.nodup_append.mp (hknown.nodup hdistinct)).2.2 _ hmem _ (List.mem_singleton.mpr rfl) rfl
    rw [value, Draft.ofValue?, Draft.kind?_tag, Option.bind_eq_bind, Option.bind_some,
      ofEntries?_written hknown hdistinct hattributes hclear, Option.bind_eq_bind, Option.bind_some,
      Draft.head?_written, childrenOf?_written hfresh fun hmem => hclear _ hmem hfield, hchildren]
    rfl

end Manuscript

end FormSchema
