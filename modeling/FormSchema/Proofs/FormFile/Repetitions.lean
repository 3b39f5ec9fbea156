import FormSchema.Proofs.FormFile.Readings
import Mathlib

/-!
# Keys that are repeated

A form file writes a form and each of its definitions as a mapping, and in such a mapping a key may stand
twice. Where it names a field of the schema, or is no name at all, the file is refused. Where it names another
attribute the file is read all the same: the earlier value is overwritten by the later one, and nothing is left
to tell that it was there. Only values within which keys are repeated are refused, be they overwritten or not.

Reading a mapping is a fold that adds one entry at a time to the fields or to the other attributes.
What becomes of a repeated key can be read off one step of the fold. A field that is there already
fails the step, and once it is there it stays, so the second entry fails wherever it stands. Another
attribute is set again without a failure; setting it a second time at the place of the first is the
same as setting it once with the later value, since whatever stands between them commutes with it.

To carry this to any depth two relations between a file and what is in it are defined along its
mappings. Unreadability goes up from a mapping to the one above it. Being alike goes up as well, but
not as equality: the mapping above holds the two versions of the one below in the field of its
children, so the two agree in everything else, and in what is read from that field.

* `FormFile.contents?` — the entries of a file of the version, but for the version.
* `FormFile.Mappings` — the mappings of a form and its definitions, at any depth.
* **`FormFile.Mappings.unread`** — what is unreadable at any depth makes the file unreadable.
* `FormFile.Overwritten` — an earlier value has been overwritten by the next one for the same attribute.
* **`FormFile.Overwritten.alike`** — which makes no difference to the reader.
* **`FormFile.parse_repeated`** — what becomes of any file in which a key is repeated.
-/

namespace FormSchema

/-! ## Entries one by one

The fold of the reader, cut into single steps, with the laws of taking it apart at any entry. -/

namespace Fields

variable {names : List String} {f g : Fields} {entries rest : List (Yaml.Value × Yaml.Value)} {name : String}
  {v w : Yaml.Value}

/-- Adds an entry whose key has to be a string. -/
def addEntry (names : List String) (f : Fields) (e : Yaml.Value × Yaml.Value) : Option Fields :=
  match e.1 with
  | .string name => f.add names name e.2
  | _ => none

/-- Adds entries one after the other. -/
def addEntries (names : List String) (f : Fields) (entries : List (Yaml.Value × Yaml.Value)) :
    Option Fields := entries.foldlM (addEntry names) f

theorem ofEntries?_eq_addEntries : ofEntries? names entries = empty.addEntries names entries := rfl

theorem addEntries_append :
    f.addEntries names (entries ++ rest) = (f.addEntries names entries).bind fun g => g.addEntries names rest :=
  List.foldlM_append

theorem addEntries_cons {e : Yaml.Value × Yaml.Value} :
    f.addEntries names (e :: rest) = (f.addEntry names e).bind fun g => g.addEntries names rest :=
  List.foldlM_cons

/-- What every entry keeps is kept by all of them. -/
theorem addEntries_keeps {P : Fields → Prop} (step : ∀ f g e, P f → f.addEntry names e = some g → P g)
    (hf : P f) (h : f.addEntries names entries = some g) : P g := by
  induction entries generalizing f with
  | nil =>
    obtain rfl : f = g := Option.some.inj h
    exact hf
  | cons e entries ih =>
    rw [addEntries_cons, Option.bind_eq_some_iff] at h
    obtain ⟨next, hnext, h⟩ := h
    exact ih (step f next e hf hnext) h

/-! ### Fields

Whether an entry names a field decides everything. Its value does not matter to a field, and to an
attribute only inasmuch as keys may be repeated within it. -/

theorem addEntry_field (known : name ∈ names) :
    f.addEntry names (.string name, v) =
      if name ∈ f.schema.map Prod.fst then none else some { f with schema := f.schema ++ [(name, v)] } :=
  if_pos known

/-- Another attribute is set as often as it stands there. -/
theorem addEntry_other (unknown : name ∉ names) :
    f.addEntry names (.string name, v) =
      if v.hasDistinctKeys then some { f with others := put name v f.others } else none :=
  if_neg unknown

/-- **What one entry adds**: a field that was not there, or another attribute. -/
theorem addEntry_eq_some {e : Yaml.Value × Yaml.Value} (h : f.addEntry names e = some g) :
    ∃ n u, e = (.string n, u) ∧
      ((n ∈ names ∧ n ∉ f.schema.map Prod.fst ∧ g = ⟨f.schema ++ [(n, u)], f.others⟩) ∨
        (n ∉ names ∧ u.hasDistinctKeys = true ∧ g = ⟨f.schema, put n u f.others⟩)) := by
  obtain ⟨key, u⟩ := e
  match key, h with
  | .string n, h =>
    refine ⟨n, u, rfl, ?_⟩
    by_cases hn : n ∈ names
    · rw [addEntry_field hn, Option.ite_none_left_eq_some, Option.some.injEq] at h
      exact Or.inl ⟨hn, h.1, h.2.symm⟩
    · rw [addEntry_other hn, Option.ite_none_right_eq_some, Option.some.injEq] at h
      exact Or.inr ⟨hn, h.1, h.2.symm⟩

theorem mem_schema_of_addEntry {e : Yaml.Value × Yaml.Value} (hf : name ∈ f.schema.map Prod.fst)
    (h : f.addEntry names e = some g) : name ∈ g.schema.map Prod.fst := by
  obtain ⟨n, u, -, ⟨-, -, rfl⟩ | ⟨-, -, rfl⟩⟩ := addEntry_eq_some h
  · rw [List.map_append]
    exact List.mem_append_left _ hf
  · exact hf

/-- An entry that may be overwritten by a later one: its key is the name of another attribute, and no key is
repeated within its value. -/
def Overwritable (names : List String) (e : Yaml.Value × Yaml.Value) : Prop :=
  ∃ name, e.1 = .string name ∧ name ∉ names ∧ e.2.hasDistinctKeys = true

/-- **Nothing else is overwritten.** Any other entry whose key stands again is refused. -/
theorem addEntries_repeated {a b c : List (Yaml.Value × Yaml.Value)} {key key' : Yaml.Value}
    (same : key.same key' = true) (h : ¬ Overwritable names (key, v)) :
    f.addEntries names (a ++ (key, v) :: (b ++ (key', w) :: c)) = none := by
  refine Option.eq_none_iff_forall_ne_some.mpr fun g hg => ?_
  rw [addEntries_append, Option.bind_eq_some_iff] at hg
  -- suppose that all is read: first what comes before, then the entry, what is between, and the key
  -- again
  obtain ⟨before, -, hg⟩ := hg
  rw [addEntries_cons, Option.bind_eq_some_iff] at hg
  obtain ⟨first, hfirst, hg⟩ := hg
  rw [addEntries_append, Option.bind_eq_some_iff] at hg
  obtain ⟨between, hbetween, hg⟩ := hg
  rw [addEntries_cons, Option.bind_eq_some_iff] at hg
  obtain ⟨again, hagain, -⟩ := hg
  obtain ⟨name, u, hkey, ⟨hname, -, rfl⟩ | ⟨hname, hplain, -⟩⟩ := addEntry_eq_some hfirst
  · -- the field is there when its key comes again
    cases hkey
    obtain ⟨name', u', hkey', hadded⟩ := addEntry_eq_some hagain
    cases hkey'
    obtain rfl : name = name' := of_decide_eq_true same
    have hthere : name ∈ between.schema.map Prod.fst :=
      addEntries_keeps (fun _ _ _ => mem_schema_of_addEntry) (by simp) hbetween
    rcases hadded with ⟨-, hfree, -⟩ | ⟨hname', -, -⟩
    · exact hfree hthere
    · exact hname' hname
  · -- an attribute that is plain may be overwritten, which was ruled out
    cases hkey
    exact h ⟨name, rfl, hname, hplain⟩

/-! ### Other attributes

An attribute keeps the place of its first setting and has the value of its last. So the first of two
entries may be given the later value and the second be dropped, as long as none of the same name
stands between them. -/

theorem put_put (others : List (String × Yaml.Value)) :
    put name w (put name v others) = put name w others := by
  induction others with
  | nil => simp [put]
  | cons other others ih =>
    by_cases hn : other.1 = name
    · simp [put, hn]
    · simp [put, hn, ih]

theorem mem_put {n : String} {others : List (String × Yaml.Value)} :
    n ∈ (put name v others).map Prod.fst ↔ n = name ∨ n ∈ others.map Prod.fst := by
  induction others with
  | nil => simp [put]
  | cons other others ih =>
    by_cases hn : other.1 = name
    · simp [put, hn]
    · simp only [put, if_neg hn, List.map_cons, List.mem_cons, ih]
      exact or_left_comm

/-- An attribute that is there keeps its place, whether another one is set before it or after it. -/
theorem put_comm {n : String} {others : List (String × Yaml.Value)} (hne : n ≠ name)
    (h : name ∈ others.map Prod.fst) :
    put name v (put n w others) = put n w (put name v others) := by
  induction others with
  | nil => cases h
  | cons other others ih =>
    obtain ⟨m, u⟩ := other
    by_cases hm : m = name
    · simp [put, hm, Ne.symm hne]
    · have hrest := ih ((List.mem_cons.mp h).resolve_left (Ne.symm hm))
      by_cases hn : m = n
      · simp [put, hn, hne]
      · simp [put, hm, hn, hrest]

theorem mem_others_of_addEntry {e : Yaml.Value × Yaml.Value} (hf : name ∈ f.others.map Prod.fst)
    (h : f.addEntry names e = some g) : name ∈ g.others.map Prod.fst := by
  obtain ⟨n, u, -, ⟨-, -, rfl⟩ | ⟨-, -, rfl⟩⟩ := addEntry_eq_some h
  · exact hf
  · exact mem_put.mpr (Or.inr hf)

theorem addEntry_comm {e : Yaml.Value × Yaml.Value} (unknown : name ∉ names) (he : e.1 ≠ .string name)
    (hf : name ∈ f.others.map Prod.fst) :
    (f.addEntry names e).bind (fun g => g.addEntry names (.string name, v)) =
      (f.addEntry names (.string name, v)).bind fun g => g.addEntry names e := by
  obtain ⟨key, w⟩ := e
  -- if the value has repeated keys, both orders fail at the attribute
  by_cases hv : v.hasDistinctKeys = true
  · have hset (g : Fields) : g.addEntry names (.string name, v) = some ⟨g.schema, put name v g.others⟩ := by
      rw [addEntry_other unknown, if_pos hv]
    simp only [hset, Option.bind_some]
    match key with
    | .string n =>
      have hne : n ≠ name := fun heq => he (congrArg _ heq)
      by_cases hn : n ∈ names
      · -- fields do not matter to the attribute
        simp only [addEntry_field hn]
        split_ifs <;> rfl
      · simp only [addEntry_other hn, ← put_comm hne hf]
        split_ifs <;> rfl
    | .null | .bool _ | .integer _ | .real _ | .sequence _ | .mapping _ => rfl
  · have hset (g : Fields) : g.addEntry names (.string name, v) = none := by
      rw [addEntry_other unknown, if_neg hv]
    simp only [hset, Option.bind_none, Option.bind_fun_none]

theorem addEntries_comm {b : List (Yaml.Value × Yaml.Value)} (unknown : name ∉ names)
    (hb : ∀ e ∈ b, e.1 ≠ .string name) (hf : name ∈ f.others.map Prod.fst) :
    (f.addEntries names b).bind (fun g => g.addEntry names (.string name, v)) =
      (f.addEntry names (.string name, v)).bind fun g => g.addEntries names b := by
  induction b generalizing f with
  | nil => exact (Option.bind_fun_some _).symm
  | cons e b ih =>
    obtain ⟨he, hb⟩ := List.forall_mem_cons.mp hb
    simp only [addEntries_cons]
    rw [Option.bind_assoc, ← Option.bind_assoc (f.addEntry names (.string name, v)),
      ← addEntry_comm unknown he hf, Option.bind_assoc]
    exact Option.bind_congr fun g hg => ih hb (mem_others_of_addEntry hf hg)

/-- **A value is overwritten** by the next one for the same attribute, at the place of the former. -/
theorem addEntries_overwritten {a b c : List (Yaml.Value × Yaml.Value)} (unknown : name ∉ names)
    (plain : v.hasDistinctKeys = true) (between : ∀ e ∈ b, e.1 ≠ .string name) :
    f.addEntries names (a ++ (.string name, v) :: (b ++ (.string name, w) :: c)) =
      f.addEntries names (a ++ (.string name, w) :: (b ++ c)) := by
  rw [addEntries_append, addEntries_append]
  refine Option.bind_congr fun g _ => ?_
  have hfirst : g.addEntry names (.string name, v) = some ⟨g.schema, put name v g.others⟩ := by
    rw [addEntry_other unknown, if_pos plain]
  have hagain : addEntry names ⟨g.schema, put name v g.others⟩ (.string name, w) =
      g.addEntry names (.string name, w) := by
    rw [addEntry_other unknown, addEntry_other unknown, put_put]
  rw [addEntries_cons, addEntries_cons, hfirst, Option.bind_some, addEntries_append]
  simp only [addEntries_cons, addEntries_append]
  rw [← Option.bind_assoc, addEntries_comm unknown between (mem_put.mpr (Or.inl rfl)), hagain,
    Option.bind_assoc]

/-! ### The field that holds the children

When a mapping is sorted, the value of this field is put aside unseen. Two values in its place give
fields that agree but for it. -/

/-- The same, but for the value of the field that holds the children. -/
structure Agrees (f g : Fields) : Prop where
  names : f.schema.map Prod.fst = g.schema.map Prod.fst
  field : ∀ name ≠ Draft.childrenField, f.schema.lookup name = g.schema.lookup name
  others : f.others = g.others

namespace Agrees

theorem refl (f : Fields) : f.Agrees f := ⟨rfl, fun _ _ => rfl, rfl⟩

theorem addEntry (h : f.Agrees g) (e : Yaml.Value × Yaml.Value) :
    Option.Rel Agrees (f.addEntry names e) (g.addEntry names e) := by
  obtain ⟨key, w⟩ := e
  match key with
  | .string n =>
    by_cases hn : n ∈ names
    · rw [addEntry_field hn, addEntry_field hn, h.names]
      split
      · exact .none
      · refine .some ⟨?_, fun m hm => ?_, h.others⟩
        · rw [List.map_append, List.map_append, h.names]
        · rw [List.lookup_append, List.lookup_append, h.field m hm]
    · rw [addEntry_other hn, addEntry_other hn, h.others]
      split
      · exact .some ⟨h.names, h.field, rfl⟩
      · exact .none
  | .null | .bool _ | .integer _ | .real _ | .sequence _ | .mapping _ => exact .none

theorem addEntries (h : f.Agrees g) :
    Option.Rel Agrees (f.addEntries names entries) (g.addEntries names entries) := by
  induction entries generalizing f g with
  | nil => exact .some h
  | cons e entries ih =>
    rw [addEntries_cons, addEntries_cons]
    match f.addEntry names e, g.addEntry names e, h.addEntry e with
    | _, _, .some hnext => exact ih hnext
    | _, _, .none => exact .none

theorem text? (h : f.Agrees g) (hname : name ≠ Draft.childrenField) : f.text? name = g.text? name := by
  rw [Fields.text?, Fields.text?, h.field name hname]

theorem text (h : f.Agrees g) (hname : name ≠ Draft.childrenField) : f.text name = g.text name := by
  rw [Fields.text, Fields.text, h.field name hname]

end Agrees

/-- Nothing is looked for in the field that holds the children when entries are sorted. -/
theorem addEntries_children {a b : List (Yaml.Value × Yaml.Value)} (known : Draft.childrenField ∈ names) :
    Option.Rel Agrees (f.addEntries names (a ++ (.string Draft.childrenField, v) :: b))
      (f.addEntries names (a ++ (.string Draft.childrenField, w) :: b)) := by
  rw [addEntries_append, addEntries_append]
  cases f.addEntries names a with
  | none => exact .none
  | some g =>
    rw [Option.bind_some, Option.bind_some, addEntries_cons, addEntries_cons, addEntry_field known,
      addEntry_field known]
    split
    · exact .none
    · refine Agrees.addEntries ⟨?_, fun m hm => ?_, rfl⟩
      · rw [List.map_append, List.map_append]
        rfl
      · rw [List.lookup_append, List.lookup_append, List.lookup_cons, List.lookup_cons,
          beq_eq_false_iff_ne.mpr hm]

end Fields

/-! ## Readings of a mapping

A definition is read from its fields and from the drafts beneath it. Both the form and its
definitions are read in this way, and one lemma about such readings serves for both. -/

namespace Draft

variable {names : List String} {entries rest : List (Yaml.Value × Yaml.Value)} {kind : DefinitionKind}
  {tag : Yaml.Value}

/-- The fields of a mapping, and the drafts beneath it. -/
def sorted? (names : List String) (entries : List (Yaml.Value × Yaml.Value)) :
    Option (Fields × List Draft) := do
  let f ← Fields.ofEntries? names entries
  let children ← childrenOf? entries
  some (f, children)

/-- The head may be read before the children or after them. -/
theorem bind_sorted {α β : Type} (head : Fields → Option β)
    (make : β → List (String × Yaml.Value) → List Draft → α) :
    (do let f ← Fields.ofEntries? names entries
        let h ← head f
        let children ← childrenOf? entries
        some (make h f.others children)) =
      (sorted? names entries).bind fun x => (head x.1).map fun h => make h x.1.others x.2 := by
  rw [sorted?]
  simp only [Option.bind_eq_bind]
  cases Fields.ofEntries? names entries with
  | none => rfl
  | some f =>
    simp only [Option.bind_some]
    cases hhead : head f <;> cases childrenOf? entries <;> simp [hhead]

theorem ofValue?_mapping (hkind : kind? tag = some kind) :
    ofValue? (.mapping [(tag, .mapping entries)]) = (sorted? (fields kind) entries).bind fun x =>
      (head? kind x.1).map fun h => .node h x.1.others x.2 := by
  rw [ofValue?, hkind]
  exact bind_sorted (head? kind) node

theorem childrenOf?_cons_of_ne {name : String} {v : Yaml.Value} (hname : name ≠ childrenField) :
    childrenOf? ((.string name, v) :: rest) = childrenOf? rest := by
  cases v with
  | sequence => rw [childrenOf?, if_neg hname]
  | null | bool | integer | real | string | mapping =>
    rw [childrenOf?, if_neg hname]
    rintro _ ⟨⟩

theorem childrenOf?_cons_children (items : List Yaml.Value) :
    childrenOf? ((.string childrenField, .sequence items) :: rest) = ofValues? items := by
  rw [childrenOf?, if_pos rfl]

theorem childrenOf?_append_congr {entries' : List (Yaml.Value × Yaml.Value)}
    (h : childrenOf? entries = childrenOf? entries') (a : List (Yaml.Value × Yaml.Value)) :
    childrenOf? (a ++ entries) = childrenOf? (a ++ entries') := by
  induction a with
  | nil => exact h
  | cons e a ih =>
    obtain ⟨key, v⟩ := e
    match key, v with
    | .string name, .sequence _ => rw [List.cons_append, List.cons_append, childrenOf?, childrenOf?, ih]
    | .string name, .null | .string name, .bool _ | .string name, .integer _ | .string name, .real _
    | .string name, .string _ | .string name, .mapping _ =>
      simp only [List.cons_append, childrenOf?, ih]
    | .null, _ | .bool _, _ | .integer _, _ | .real _, _ | .sequence _, _ | .mapping _, _ =>
      simp only [List.cons_append, childrenOf?, ih]

theorem childrenOf?_append_of_ne {a : List (Yaml.Value × Yaml.Value)}
    (h : ∀ e ∈ a, e.1 ≠ .string childrenField) : childrenOf? (a ++ rest) = childrenOf? rest := by
  induction a with
  | nil => rfl
  | cons e a ih =>
    obtain ⟨he, ha⟩ := List.forall_mem_cons.mp h
    obtain ⟨key, v⟩ := e
    match key with
    | .string name =>
      rw [List.cons_append, childrenOf?_cons_of_ne fun hname => he (congrArg _ hname), ih ha]
    | .null | .bool _ | .integer _ | .real _ | .sequence _ | .mapping _ =>
      simp only [List.cons_append, childrenOf?, ih ha]

theorem ofValues?_congr {before after : List Yaml.Value} {v w : Yaml.Value} (h : ofValue? v = ofValue? w) :
    ofValues? (before ++ v :: after) = ofValues? (before ++ w :: after) := by
  induction before with
  | nil => rw [List.nil_append, List.nil_append, ofValues?, ofValues?, h]
  | cons u before ih => rw [List.cons_append, List.cons_append, ofValues?, ofValues?, ih]

theorem ofValues?_eq_none {items : List Yaml.Value} {v : Yaml.Value} (hv : v ∈ items) (h : ofValue? v = none) :
    ofValues? items = none := by
  induction items with
  | nil => cases hv
  | cons u items ih =>
    rw [ofValues?]
    rcases List.mem_cons.mp hv with rfl | hmem
    · rw [h]
      rfl
    · rw [ih hmem]
      exact Option.bind_fun_none _

theorem key?_congr {f g : Fields} (h : f.Agrees g) : key? f = key? g := by
  rw [key?, key?, h.text? (by decide), h.text (by decide)]

theorem head?_congr {f g : Fields} (h : f.Agrees g) (kind : DefinitionKind) : head? kind f = head? kind g := by
  have hitem : item? f = item? g := by
    rw [item?, item?, h.text? (by decide), h.text? (by decide), h.text? (by decide)]
  cases kind with
  | «attribute» | element | choice => rw [head?, head?, hitem]
  | reference => rw [head?, head?, key?_congr h]
  | extension => rw [head?, head?, h.text (by decide)]

/-- Two readings of a mapping that agree but for the value of the field that holds the children. -/
abbrev Alike (x y : Option (Fields × List Draft)) : Prop :=
  Option.Rel (fun x y => x.1.Agrees y.1 ∧ x.2 = y.2) x y

theorem alike_of_agrees {names' : List String} {entries' : List (Yaml.Value × Yaml.Value)}
    (hfields : Option.Rel Fields.Agrees (Fields.ofEntries? names entries) (Fields.ofEntries? names' entries'))
    (hchildren : childrenOf? entries = childrenOf? entries') :
    Alike (sorted? names entries) (sorted? names' entries') := by
  rw [sorted?, sorted?, hchildren]
  match Fields.ofEntries? names entries, Fields.ofEntries? names' entries', hfields with
  | _, _, .none => exact .none
  | _, _, .some hagrees =>
    cases childrenOf? entries' with
    | none => exact .none
    | some children => exact .some ⟨hagrees, rfl⟩

/-- Nothing else of a mapping depends on that value. -/
theorem Alike.bind_eq {α β : Type} {x y : Option (Fields × List Draft)} (h : Alike x y)
    {head : Fields → Option β} (congr : ∀ {f g}, f.Agrees g → head f = head g)
    (make : β → List (String × Yaml.Value) → List Draft → α) :
    (x.bind fun x => (head x.1).map fun h => make h x.1.others x.2) =
      y.bind fun y => (head y.1).map fun h => make h y.1.others y.2 := by
  cases h with
  | none => rfl
  | some hagrees =>
    obtain ⟨hfields, hchildren⟩ := hagrees
    rw [Option.bind_some, Option.bind_some, congr hfields, hfields.others, hchildren]

end Draft

theorem FormDraft.ofEntries?_eq_sorted (entries : List (Yaml.Value × Yaml.Value)) :
    ofEntries? entries = (Draft.sorted? Draft.keyFields entries).bind fun x =>
      (Draft.key? x.1).map fun key => ⟨key, x.1.others, x.2⟩ :=
  Draft.bind_sorted Draft.key? FormDraft.mk

/-! ## Files

The version is dealt with first. It is split off from the other entries before they are sorted, and
a file with two versions is as good as one with none. -/

namespace FormDraft

variable {pairs rest : List (Yaml.Tree × Yaml.Tree)} {versions : List String}
  {entries : List (Yaml.Value × Yaml.Value)} {k v : Yaml.Tree}

theorem splitVersions_cons (h : splitVersions ((k, v) :: rest) = some (versions, entries)) :
    ∃ versions' entries', splitVersions rest = some (versions', entries') ∧ versions' <:+ versions ∧
      (k.value? = some (.string versionKey) → ∃ text, versions = text :: versions') := by
  rw [splitVersions] at h
  obtain ⟨⟨versions', entries'⟩, hrest, h⟩ := Option.bind_eq_some_iff.mp h
  obtain ⟨key, hkey, h⟩ := Option.bind_eq_some_iff.mp h
  refine ⟨versions', entries', hrest, ?_⟩
  rw [hkey]
  cases key with
  | string name =>
    -- an entry is a version, whose value has to be a scalar, or it is kept
    by_cases hname : name = versionKey
    · cases v with
      | scalar s =>
        dsimp only at h
        rw [if_pos hname] at h
        cases h
        exact ⟨List.suffix_cons _ _, fun _ => ⟨_, rfl⟩⟩
      | sequence | mapping =>
        dsimp only at h
        rw [if_pos hname] at h
        cases h
    · have hother : some (Yaml.Value.string name) ≠ some (.string versionKey) := fun heq =>
        hname (Yaml.Value.string.inj (Option.some.inj heq))
      cases v with
      | scalar | sequence | mapping =>
        dsimp only at h
        rw [if_neg hname] at h
        obtain ⟨_, -, h⟩ := Option.bind_eq_some_iff.mp h
        cases h
        exact ⟨List.suffix_refl _, fun heq => absurd heq hother⟩
  | null | bool | integer | real | sequence | mapping =>
    obtain ⟨_, -, h⟩ := Option.bind_eq_some_iff.mp h
    cases h
    exact ⟨List.suffix_refl _, fun heq => by cases heq⟩

theorem splitVersions_append {a : List (Yaml.Tree × Yaml.Tree)}
    (h : splitVersions (a ++ rest) = some (versions, entries)) :
    ∃ versions' entries', splitVersions rest = some (versions', entries') ∧ versions' <:+ versions := by
  induction a generalizing versions entries with
  | nil => exact ⟨versions, entries, h, List.suffix_refl _⟩
  | cons pair a ih =>
    obtain ⟨versions₁, entries₁, h₁, hsuffix₁, -⟩ := splitVersions_cons h
    obtain ⟨versions₂, entries₂, h₂, hsuffix₂⟩ := ih h₁
    exact ⟨versions₂, entries₂, h₂, hsuffix₂.trans hsuffix₁⟩

/-- A version that stands twice is none. -/
theorem splitVersions_repeated {a b c : List (Yaml.Tree × Yaml.Tree)} {k' v' : Yaml.Tree}
    (hk : k.value? = some (.string versionKey)) (hk' : k'.value? = some (.string versionKey))
    (h : splitVersions (a ++ (k, v) :: (b ++ (k', v') :: c)) = some (versions, entries)) :
    versions ≠ [version] := by
  obtain ⟨versions₁, _, h₁, hsuffix₁⟩ := splitVersions_append h
  obtain ⟨versions₂, _, h₂, -, hfirst⟩ := splitVersions_cons h₁
  obtain ⟨versions₃, _, h₃, hsuffix₃⟩ := splitVersions_append h₂
  obtain ⟨versions₄, _, -, -, hagain⟩ := splitVersions_cons h₃
  obtain ⟨_, rfl⟩ := hfirst hk
  obtain ⟨_, rfl⟩ := hagain hk'
  rintro rfl
  have hone := hsuffix₁.length_le
  have htwo := hsuffix₃.length_le
  simp only [List.length_cons, List.length_nil] at hone htwo
  omega

end FormDraft

namespace FormFile

/-- The entries of a form file but for its version, if the file is of the version. -/
def contents? (text : String) : Option (List (Yaml.Value × Yaml.Value)) :=
  match Yaml.tree? text with
  | some (.mapping pairs) => do
    let (versions, entries) ← FormDraft.splitVersions pairs
    if versions = [FormDraft.version] then some entries else none
  | _ => none

/-- The form in the entries of a form file. -/
def read (config : Config) (source : String) (entries : List (Yaml.Value × Yaml.Value)) :
    Except FormFileError Form :=
  match FormDraft.ofEntries? entries with
  | none => .error .unreadable
  | some draft => draft.assemble config source

/-- The mappings of a form and of the definitions beneath it, with the names of their fields. The form has the
entries of the file; a definition is a mapping under the only key of another one, which names its kind, among
the children of a mapping. -/
inductive Mappings (root : List (Yaml.Value × Yaml.Value)) :
    List String → List (Yaml.Value × Yaml.Value) → Prop where
  | form : Mappings root Draft.keyFields root
  | beneath {names : List String} {entries inner : List (Yaml.Value × Yaml.Value)}
      {items : List Yaml.Value} {tag : Yaml.Value} {kind : DefinitionKind} (above : Mappings root names entries)
      (field : (.string Draft.childrenField, .sequence items) ∈ entries)
      (item : .mapping [(tag, .mapping inner)] ∈ items) (named : Draft.kind? tag = some kind) :
      Mappings root (Draft.fields kind) inner

/-- In a mapping whose fields have these names, or in one beneath it, an entry has been overwritten by the next
one for the same attribute. -/
inductive Overwritten :
    List String → List (Yaml.Value × Yaml.Value) → List (Yaml.Value × Yaml.Value) → Prop where
  | here {names : List String} {a b c : List (Yaml.Value × Yaml.Value)} {name : String} {v w : Yaml.Value}
      (unknown : name ∉ names) (plain : v.hasDistinctKeys = true) (between : ∀ e ∈ b, e.1 ≠ .string name) :
      Overwritten names (a ++ (.string name, v) :: (b ++ (.string name, w) :: c))
        (a ++ (.string name, w) :: (b ++ c))
  | beneath {names : List String} {a b inner inner' : List (Yaml.Value × Yaml.Value)}
      {before after : List Yaml.Value} {tag : Yaml.Value} {kind : DefinitionKind}
      (named : Draft.kind? tag = some kind) (overwritten : Overwritten (Draft.fields kind) inner inner') :
      Overwritten names
        (a ++ (.string Draft.childrenField,
          .sequence (before ++ .mapping [(tag, .mapping inner)] :: after)) :: b)
        (a ++ (.string Draft.childrenField,
          .sequence (before ++ .mapping [(tag, .mapping inner')] :: after)) :: b)

variable {names : List String} {root entries entries' : List (Yaml.Value × Yaml.Value)}

theorem parseForm_eq_read (config : Config) (source text : String) :
    parseForm config source text =
      match contents? text with
      | none => .error .unreadable
      | some entries => read config source entries := by
  rw [parseForm, contents?]
  cases Yaml.tree? text with
  | none => rfl
  | some tree =>
    cases tree with
    | scalar | sequence => rfl
    | mapping pairs =>
      simp only [Option.bind_eq_bind, Option.bind_some, FormDraft.ofTree?]
      cases FormDraft.splitVersions pairs with
      | none => rfl
      | some split =>
        simp only [Option.bind_some]
        -- the version has to be there just once, whatever else there is
        by_cases hversion : split.1 = [FormDraft.version]
        · rw [if_pos hversion, if_pos hversion]
          rfl
        · rw [if_neg hversion, if_neg hversion]

theorem Mappings.children_known (h : Mappings root names entries) : Draft.childrenField ∈ names := by
  cases h with
  | form => decide
  | @beneath _ _ _ _ _ kind => cases kind <;> decide

/-- A mapping is not read when one of its children is not. -/
theorem sorted?_eq_none {items : List Yaml.Value} {v : Yaml.Value} (known : Draft.childrenField ∈ names)
    (field : (.string Draft.childrenField, .sequence items) ∈ entries) (item : v ∈ items)
    (hv : Draft.ofValue? v = none) : Draft.sorted? names entries = none := by
  rw [Draft.sorted?]
  obtain ⟨a, b, rfl⟩ := List.append_of_mem field
  by_cases hfirst : ∀ e ∈ a, e.1 ≠ .string Draft.childrenField
  · rw [Draft.childrenOf?_append_of_ne hfirst, Draft.childrenOf?_cons_children,
      Draft.ofValues?_eq_none item hv]
    exact Option.bind_fun_none _
  · -- the field of the children is repeated, so that nothing is read at all
    push Not at hfirst
    obtain ⟨⟨key, w⟩, hmem, rfl⟩ := hfirst
    obtain ⟨a, between, rfl⟩ := List.append_of_mem hmem
    have hfield : ¬ Fields.Overwritable names (.string Draft.childrenField, w) := by
      rintro ⟨_, heq, hunknown, -⟩
      cases heq
      exact hunknown known
    have hsame : (Yaml.Value.string Draft.childrenField).same (.string Draft.childrenField) = true := by
      rw [Yaml.Value.same, decide_eq_true rfl]
    rw [List.append_assoc, List.cons_append, Fields.ofEntries?_eq_addEntries,
      Fields.addEntries_repeated hsame hfield]
    rfl

/-- **What is unreadable at any depth makes the file unreadable.** -/
theorem Mappings.unread (h : Mappings root names entries) (hnone : Draft.sorted? names entries = none) :
    FormDraft.ofEntries? root = none := by
  induction h with
  | form => rw [FormDraft.ofEntries?_eq_sorted, hnone, Option.bind_none]
  | beneath above field item named ih =>
    refine ih (sorted?_eq_none above.children_known field item ?_)
    rw [Draft.ofValue?_mapping named, hnone, Option.bind_none]

/-- **What has been overwritten makes no difference.** The later value takes the place of the
earlier one before anything looks at it. -/
theorem Overwritten.alike (h : Overwritten names entries entries') (known : Draft.childrenField ∈ names) :
    Draft.Alike (Draft.sorted? names entries) (Draft.sorted? names entries') := by
  induction h with
  | @here names a b c name v w unknown plain between =>
    have hne : name ≠ Draft.childrenField := fun heq => unknown (heq ▸ known)
    -- the later value stands where the earlier one stood, which is what an ordered map does
    have hfields : Fields.ofEntries? names (a ++ (.string name, v) :: (b ++ (.string name, w) :: c)) =
        Fields.ofEntries? names (a ++ (.string name, w) :: (b ++ c)) :=
      Fields.addEntries_overwritten unknown plain between
    refine Draft.alike_of_agrees ?_ (Draft.childrenOf?_append_congr ?_ a)
    · rw [hfields]
      cases Fields.ofEntries? names (a ++ (.string name, w) :: (b ++ c)) with
      | none => exact .none
      | some f => exact .some (.refl f)
    · rw [Draft.childrenOf?_cons_of_ne hne, Draft.childrenOf?_cons_of_ne hne]
      exact Draft.childrenOf?_append_congr (Draft.childrenOf?_cons_of_ne hne) b
  | @beneath names a b inner inner' before after tag kind named _ ih =>
    have hinner : Draft.childrenField ∈ Draft.fields kind := by
      cases kind <;> decide
    have hitem : Draft.ofValue? (.mapping [(tag, .mapping inner)]) =
        Draft.ofValue? (.mapping [(tag, .mapping inner')]) := by
      rw [Draft.ofValue?_mapping named, Draft.ofValue?_mapping named]
      exact (ih hinner).bind_eq (fun hagrees => Draft.head?_congr hagrees kind) Draft.node
    refine Draft.alike_of_agrees (Fields.addEntries_children known) (Draft.childrenOf?_append_congr ?_ a)
    rw [Draft.childrenOf?_cons_children, Draft.childrenOf?_cons_children, Draft.ofValues?_congr hitem]

theorem Overwritten.read_eq (h : Overwritten Draft.keyFields root entries) (config : Config) (source : String) :
    read config source root = read config source entries := by
  rw [read, read, FormDraft.ofEntries?_eq_sorted, FormDraft.ofEntries?_eq_sorted,
    (h.alike (by decide)).bind_eq Draft.key?_congr FormDraft.mk]

/-- **What becomes of keys that are repeated.** In a file of the version, a repeated key makes the form unreadable
if it is the version, names a field of the schema or is no name at all, or if a key is repeated within its
earlier value, whether it is repeated by the form itself or by a definition at any depth. What is left are names
of other attributes: they may be repeated, and the file is read as if the later value stood in place of the
earlier one. -/
theorem parse_repeated (config : Config) (source text : String) :
    (∀ a b c k v k' v', Yaml.tree? text = some (.mapping (a ++ (k, v) :: (b ++ (k', v') :: c))) →
      k.value? = some (.string FormDraft.versionKey) → k'.value? = some (.string FormDraft.versionKey) →
      parseForm config source text = .error .unreadable) ∧
    ∀ root, contents? text = some root →
      (∀ names a b c key v key' w, Mappings root names (a ++ (key, v) :: (b ++ (key', w) :: c)) →
        key.same key' = true → ¬ Fields.Overwritable names (key, v) →
        parseForm config source text = .error .unreadable) ∧
      ∀ root', Overwritten Draft.keyFields root root' →
        parseForm config source text = read config source root' := by
  rw [parseForm_eq_read]
  constructor
  · intro a b c k v k' v' htree hk hk'
    rw [contents?, htree]
    dsimp only
    cases hsplit : FormDraft.splitVersions (a ++ (k, v) :: (b ++ (k', v') :: c)) with
    | none => rfl
    | some split =>
      rw [Option.bind_eq_bind, Option.bind_some, if_neg (FormDraft.splitVersions_repeated hk hk' hsplit)]
  · intro root hroot
    rw [hroot]
    refine ⟨fun names a b c key v key' w hmapping hsame hkept => ?_,
      fun root' hoverwritten => hoverwritten.read_eq config source⟩
    -- the mapping itself is not read, wherever it stands, and then the file is not
    have hnone : Draft.sorted? names (a ++ (key, v) :: (b ++ (key', w) :: c)) = none := by
      rw [Draft.sorted?, Fields.ofEntries?_eq_addEntries, Fields.addEntries_repeated hsame hkept]
      rfl
    show read config source root = _
    rw [read, hmapping.unread hnone]

end FormFile

/-! ## Examples

In each file one key is repeated: the name of an attribute, that of a field, or the version. -/

namespace Sample

/-- A form that gives its unit twice. -/
def unitText : String := "_version: '1'
id: scale
unit: kg
unit: lb
"

/-- An entry with a text. -/
def entry (name text : String) : Yaml.Value × Yaml.Value := (.string name, .string text)

/-- A form with an element that gives its unit twice. -/
def weightText : String := "_version: '1'
id: scale
children:
- element: {id: weight, unit: kg, unit: lb}
"

/-- The entries of the form, given those of the element. -/
def weightEntries (inner : List (Yaml.Value × Yaml.Value)) : List (Yaml.Value × Yaml.Value) :=
  [entry "id" "scale", (.string Draft.childrenField,
    .sequence [.mapping [(.string "element", .mapping inner)]])]

/-- A form with an element that gives its id twice. -/
def weighingText : String := "_version: '1'
id: scale
children:
- element: {id: weight, id: mass}
"

/-- A file that gives its version twice. -/
def versionText : String := "'_version': '1'
'id': 'scale'
'_version': '1'
"

/-- An entry of quoted texts. -/
def quoted (name text : String) : Yaml.Tree × Yaml.Tree :=
  (.scalar ⟨none, false, name⟩, .scalar ⟨none, false, text⟩)

theorem contents?_of_equal {text : String} {entries : List (Yaml.Value × Yaml.Value)}
    (h : ((FormFile.contents? text).any fun found => Yaml.equalEntries found entries) = true) :
    FormFile.contents? text = some entries := by
  cases hfound : FormFile.contents? text with
  | none =>
    rw [hfound] at h
    cases h
  | some found =>
    rw [hfound] at h
    rw [Yaml.eq_of_equalEntries h]

end Sample

namespace FormFile

/-- Of the units of an element the second one is read, in place of the first. An element with two ids is not
read, and neither is a file with two versions. -/
theorem parse_repeated_weight :
    parseForm .standard "samples" Sample.weightText = read .standard "samples"
      (Sample.weightEntries [Sample.entry "id" "weight", Sample.entry "unit" "lb"]) ∧
    parseForm .standard "samples" Sample.weighingText = .error .unreadable ∧
    parseForm .standard "samples" Sample.versionText = .error .unreadable := by
  -- texts are read by computation, and what is made of them by the theorem
  have hweight : contents? Sample.weightText = some (Sample.weightEntries
      [Sample.entry "id" "weight", Sample.entry "unit" "kg", Sample.entry "unit" "lb"]) :=
    Sample.contents?_of_equal (by decide +kernel)
  have hweighing : contents? Sample.weighingText = some (Sample.weightEntries
      [Sample.entry "id" "weight", Sample.entry "id" "mass"]) :=
    Sample.contents?_of_equal (by decide +kernel)
  have hversions : Yaml.tree? Sample.versionText = some (.mapping ([] ++ Sample.quoted "_version" "1" ::
      ([Sample.quoted "id" "scale"] ++ Sample.quoted "_version" "1" :: []))) := by
    cbv
  obtain ⟨-, hread⟩ := parse_repeated .standard "samples" Sample.weightText
  obtain ⟨-, hrefused⟩ := parse_repeated .standard "samples" Sample.weighingText
  obtain ⟨htwice, -⟩ := parse_repeated .standard "samples" Sample.versionText
  refine ⟨(hread _ hweight).2 _ ?_, ?_, htwice _ _ _ _ _ _ _ hversions rfl rfl⟩
  · have hunit : Overwritten (Draft.fields .element)
        ([Sample.entry "id" "weight"] ++ Sample.entry "unit" "kg" ::
          ([] ++ Sample.entry "unit" "lb" :: []))
        ([Sample.entry "id" "weight"] ++ Sample.entry "unit" "lb" :: ([] ++ [])) :=
      .here (by decide) rfl fun e he => absurd he List.not_mem_nil
    exact @Overwritten.beneath Draft.keyFields [Sample.entry "id" "scale"] [] _ _ [] []
      (.string "element") .element rfl hunit
  · have helement : Mappings
        (Sample.weightEntries [Sample.entry "id" "weight", Sample.entry "id" "mass"])
        (Draft.fields .element)
        ([] ++ Sample.entry "id" "weight" :: ([] ++ Sample.entry "id" "mass" :: [])) :=
      .beneath .form (List.mem_cons_of_mem _ List.mem_cons_self) (List.mem_singleton.mpr rfl) rfl
    refine (hrefused _ hweighing).1 _ _ _ _ _ _ _ _ helement (by decide) ?_
    rintro ⟨_, heq, hunknown, -⟩
    cases heq
    exact hunknown (by decide)

/-- **A unit is lost.** The form gives its unit twice, and is read with the second one. -/
theorem parse_loses_unit :
    (parseForm .standard "samples" Sample.unitText).toOption.map (fun f => f.attributes.entries) =
      some [("unit", "lb")] ∧
    ¬ ∀ (config : Config) (source text : String) (root : List (Yaml.Value × Yaml.Value)),
      contents? text = some root → ∀ names a b c key v key' w,
        Mappings root names (a ++ (key, v) :: (b ++ (key', w) :: c)) → key.same key' = true →
        ∃ cause, parseForm config source text = .error cause := by
  have hread : (parseForm .standard "samples" Sample.unitText).toOption.map (fun f => f.attributes.entries) =
      some [("unit", "lb")] := by decide +kernel
  refine ⟨hread, fun hclaim => ?_⟩
  have hunit : contents? Sample.unitText = some ([Sample.entry "id" "scale"] ++
      Sample.entry "unit" "kg" :: ([] ++ Sample.entry "unit" "lb" :: [])) :=
    Sample.contents?_of_equal (by decide +kernel)
  obtain ⟨cause, hcause⟩ := hclaim .standard "samples" _ _ hunit _ _ _ _ _ _ _ _ .form (by decide)
  rw [hcause] at hread
  cases hread

end FormFile

end FormSchema
