import FormSchema.Document.Load

/-!
# Names of members

An object is a list of members, and looking one up leads to the first of its name. For the objects that
are read there is no other: JSON and YAML both go through `Json.ofMembers`, which keeps the members in the
order of their names and sets a name that is there already anew.

That names are unique is a property of how objects are put together. The members are set one by one
into a list that is kept strictly sorted by name, and a strictly sorted list has no name twice. The
readers of JSON and of YAML call this at the end of every object, so the rest of the proof is that
they do, at every depth: for JSON by induction on the steps that the reader has left, for YAML on
the tree that was read.

* `Json.NamesOnce` — no object within a value has two members with one name.
* `Json.setMember_ordered` — setting a member keeps the names in order.
* **`Document.load_namesOnce`** — every document that is read names each member once.
-/

namespace FormSchema

/-! ## Objects

Setting a member replaces the value of a name that is there and otherwise puts the name where it
belongs. Both keep the names in strict order, and the values that stood there or were put there are
the only ones. -/

namespace Json

/-- No object within a value has two members with one name. -/
inductive NamesOnce : Json → Prop where
  | null : NamesOnce .null
  | bool (value : Bool) : NamesOnce (.bool value)
  | number (value : JsonNumber) : NamesOnce (.number value)
  | string (value : String) : NamesOnce (.string value)
  | array {items : List Json} (hitems : ∀ v ∈ items, NamesOnce v) : NamesOnce (.array items)
  | object {members : List (String × Json)} (hnames : (members.map Prod.fst).Nodup)
      (hvalues : ∀ m ∈ members, NamesOnce m.2) : NamesOnce (.object members)

theorem mem_setMember {name : String} {value : Json} {members : List (String × Json)}
    {m : String × Json} (h : m ∈ setMember name value members) : m = (name, value) ∨ m ∈ members := by
  induction members with
  | nil => exact .inl (List.mem_singleton.mp h)
  | cons head rest ih =>
    rw [setMember] at h
    split at h
    · cases List.mem_cons.mp h with
      | inl h => exact .inl h
      | inr h => exact .inr (List.mem_cons_of_mem head h)
    · split at h
      · exact List.mem_cons.mp h
      · cases List.mem_cons.mp h with
        | inl h => exact .inr (h ▸ List.mem_cons_self)
        | inr h => exact (ih h).imp_right (List.mem_cons_of_mem head)

/-- Setting a member keeps the names in their order, each of them once. -/
theorem setMember_ordered (name : String) (value : Json) {members : List (String × Json)}
    (h : (members.map Prod.fst).Pairwise (· < ·)) :
    ((setMember name value members).map Prod.fst).Pairwise (· < ·) := by
  induction members with
  | nil => exact List.pairwise_singleton _ _
  | cons head rest ih =>
    obtain ⟨hhead, hrest⟩ := List.pairwise_cons.mp h
    rw [setMember]
    split
    · -- the name is there, and its neighbours stay what they are
      next heq => exact List.pairwise_cons.mpr ⟨by rw [heq]; exact hhead, hrest⟩
    · next hne =>
      split
      · -- the name belongs in front of the first one, and so in front of all
        next hlt =>
        refine List.pairwise_cons.mpr ⟨fun n hn => ?_, h⟩
        cases List.mem_cons.mp hn with
        | inl hn => exact hn ▸ hlt
        | inr hn => exact String.lt_trans hlt (hhead n hn)
      · -- it belongs further back, where the rest is in order by induction
        next hnlt =>
        have hgt : head.1 < name :=
          String.not_le.mp fun hle => hne (String.le_antisymm hle (String.not_lt.mp hnlt))
        refine List.pairwise_cons.mpr ⟨fun n hn => ?_, ih hrest⟩
        obtain ⟨m, hm, rfl⟩ := List.mem_map.mp hn
        cases mem_setMember hm with
        | inl hm => exact hm ▸ hgt
        | inr hm => exact hhead m.1 (List.mem_map_of_mem hm)

/-- Members that are set one after the other are in order and hold what they were given. -/
theorem foldl_setMember_namesOnce {rest set : List (String × Json)}
    (hrest : ∀ m ∈ rest, m.2.NamesOnce) (hordered : (set.map Prod.fst).Pairwise (· < ·))
    (hset : ∀ m ∈ set, m.2.NamesOnce) :
    (Json.object (rest.foldl (fun ms m => setMember m.1 m.2 ms) set)).NamesOnce := by
  induction rest generalizing set with
  | nil => exact .object (hordered.imp fun hlt => String.ne_of_lt hlt) hset
  | cons m rest ih =>
    refine ih (fun k hk => hrest k (List.mem_cons_of_mem m hk)) (setMember_ordered m.1 m.2 hordered)
      fun k hk => ?_
    cases mem_setMember hk with
    | inl hk => exact hk ▸ hrest m List.mem_cons_self
    | inr hk => exact hset k hk

theorem namesOnce_ofMembers {members : List (String × Json)} (h : ∀ m ∈ members, m.2.NamesOnce) :
    (ofMembers members).NamesOnce :=
  foldl_setMember_namesOnce h .nil nofun

/-! ## Reading JSON

Values, items and members are read by functions that call one another with one step less. Their
claims are made for a number of steps together and proved for one step more; a reader that collects
what it has read carries the claim for what it has collected so far. -/

theorem readWord_eq_some {word : String} {value v : Json} {cs rest : List Char}
    (h : readWord word value cs = some (v, rest)) : v = value := by
  rw [readWord] at h
  split at h
  · exact (congrArg Prod.fst (Option.some.inj h)).symm
  · cases h

/-- With so many steps left, whatever is read names each member once. -/
structure ReadsNamesOnce (fuel : Nat) : Prop where
  value : ∀ {levels cs v rest}, readValue fuel levels cs = some (v, rest) → v.NamesOnce
  items : ∀ {levels done cs items rest}, readItems fuel levels done cs = some (items, rest) →
    (∀ v ∈ done, v.NamesOnce) → ∀ v ∈ items, v.NamesOnce
  members : ∀ {levels done cs members rest}, readMembers fuel levels done cs = some (members, rest) →
    (∀ m ∈ done, m.2.NamesOnce) → ∀ m ∈ members, m.2.NamesOnce

namespace ReadsNamesOnce

variable {fuel levels : Nat} {cs rest : List Char}

theorem value_succ (h : ReadsNamesOnce fuel) {v : Json}
    (hread : readValue (fuel + 1) levels cs = some (v, rest)) : v.NamesOnce := by
  rw [readValue.eq_def] at hread
  cases cs with
  | nil => cases hread
  | cons c cs =>
    dsimp only at hread
    -- one case for each way in which a value may begin, in the order in which the reader tells them
    -- apart
    split at hread
    · exact readWord_eq_some hread ▸ .null
    split at hread
    · exact readWord_eq_some hread ▸ .bool true
    split at hread
    · exact readWord_eq_some hread ▸ .bool false
    split at hread
    · obtain ⟨_, -, heq⟩ := Option.map_eq_some_iff.mp hread
      cases heq
      exact .string _
    split at hread
    · cases levels with
      | zero => cases hread
      | succ levels =>
        dsimp only at hread
        split at hread
        · cases hread
          exact .array nofun
        · obtain ⟨⟨items, _⟩, hitems, heq⟩ := Option.map_eq_some_iff.mp hread
          cases heq
          exact .array (h.items hitems nofun)
    split at hread
    · cases levels with
      | zero => cases hread
      | succ levels =>
        dsimp only at hread
        split at hread
        · cases hread
          exact .object .nil nofun
        · obtain ⟨⟨members, _⟩, hmembers, heq⟩ := Option.map_eq_some_iff.mp hread
          cases heq
          exact namesOnce_ofMembers (h.members hmembers nofun)
    obtain ⟨_, -, heq⟩ := Option.map_eq_some_iff.mp hread
    cases heq
    exact .number _

theorem items_succ (h : ReadsNamesOnce fuel) {done items : List Json}
    (hread : readItems (fuel + 1) levels done cs = some (items, rest))
    (hdone : ∀ v ∈ done, v.NamesOnce) : ∀ v ∈ items, v.NamesOnce := by
  rw [readItems] at hread
  obtain ⟨⟨v, _⟩, hvalue, hread⟩ := Option.bind_eq_some_iff.mp hread
  have hadded : ∀ w ∈ v :: done, w.NamesOnce := List.forall_mem_cons.mpr ⟨h.value hvalue, hdone⟩
  dsimp only at hread
  split at hread
  · exact h.items hread hadded
  · cases hread
    exact fun w hw => hadded w (List.mem_reverse.mp hw)
  · cases hread

theorem members_succ (h : ReadsNamesOnce fuel) {done members : List (String × Json)}
    (hread : readMembers (fuel + 1) levels done cs = some (members, rest))
    (hdone : ∀ m ∈ done, m.2.NamesOnce) : ∀ m ∈ members, m.2.NamesOnce := by
  rw [readMembers.eq_def] at hread
  split at hread
  · next heq =>
    obtain rfl := Nat.succ.inj heq
    obtain ⟨⟨name, _⟩, -, hread⟩ := Option.bind_eq_some_iff.mp hread
    dsimp only at hread
    split at hread
    · obtain ⟨⟨v, _⟩, hvalue, hread⟩ := Option.bind_eq_some_iff.mp hread
      -- the member that was just read joins those that were collected before
      have hadded : ∀ m ∈ (name, v) :: done, m.2.NamesOnce :=
        List.forall_mem_cons.mpr ⟨h.value hvalue, hdone⟩
      dsimp only at hread
      split at hread
      · exact h.members hread hadded
      · cases hread
        exact fun m hm => hadded m (List.mem_reverse.mp hm)
      · cases hread
    · cases hread
  · cases hread

end ReadsNamesOnce

theorem reads_namesOnce (fuel : Nat) : ReadsNamesOnce fuel := by
  induction fuel with
  | zero => exact ⟨nofun, nofun, nofun⟩
  | succ fuel ih => exact ⟨ih.value_succ, ih.items_succ, ih.members_succ⟩

theorem parse?_namesOnce {text : String} {v : Json} (h : parse? text = some v) : v.NamesOnce := by
  obtain ⟨⟨w, rest⟩, hread, h⟩ := Option.bind_eq_some_iff.mp h
  dsimp only at h
  split at h
  · cases h
    exact (reads_namesOnce _).value hread
  · cases h

end Json

/-! ## Reading YAML

The tree of a YAML text is turned into a value by recursion over the tree, and every mapping goes
through the same function as the objects of JSON. -/

namespace Yaml

theorem Value.toJson_namesOnce (v : Value) : v.toJson.NamesOnce := by
  cases v with
  | bool b => exact .bool b
  | integer n => exact .number _
  | real x =>
    cases x with
    | finite x => exact .number _
    | _ => exact .null
  | string s => exact .string s
  | null => exact .null
  | sequence items => exact .null
  | mapping entries => exact .null

mutual

theorem Tree.toJson?_namesOnce (t : Tree) {v : Json} (h : t.toJson? = some v) : v.NamesOnce := by
  cases t with
  | scalar s =>
    obtain ⟨w, -, rfl⟩ := Option.map_eq_some_iff.mp h
    exact w.toJson_namesOnce
  | sequence items =>
    obtain ⟨vs, hvs, rfl⟩ := Option.map_eq_some_iff.mp h
    exact .array (Tree.toJsons?_namesOnce items hvs)
  | mapping entries =>
    obtain ⟨ms, hms, rfl⟩ := Option.map_eq_some_iff.mp h
    exact Json.namesOnce_ofMembers (Tree.toMembers?_namesOnce entries hms)

theorem Tree.toJsons?_namesOnce (ts : List Tree) {vs : List Json} (h : Tree.toJsons? ts = some vs) :
    ∀ v ∈ vs, v.NamesOnce := by
  cases ts with
  | nil =>
    cases h
    exact nofun
  | cons t ts =>
    obtain ⟨v, hv, h⟩ := Option.bind_eq_some_iff.mp h
    obtain ⟨rest, hrest, h⟩ := Option.bind_eq_some_iff.mp h
    cases h
    exact List.forall_mem_cons.mpr ⟨t.toJson?_namesOnce hv, Tree.toJsons?_namesOnce ts hrest⟩

theorem Tree.toMembers?_namesOnce (es : List (Tree × Tree)) {ms : List (String × Json)}
    (h : Tree.toMembers? es = some ms) : ∀ m ∈ ms, m.2.NamesOnce := by
  match es with
  | [] =>
    cases h
    exact nofun
  | (.scalar s, v) :: es =>
    obtain ⟨w, hw, h⟩ := Option.bind_eq_some_iff.mp h
    obtain ⟨rest, hrest, h⟩ := Option.bind_eq_some_iff.mp h
    cases h
    exact List.forall_mem_cons.mpr ⟨v.toJson?_namesOnce hw, Tree.toMembers?_namesOnce es hrest⟩
  | (.sequence _, _) :: _ => cases h
  | (.mapping _, _) :: _ => cases h

end

end Yaml

/-- **Documents name members once.** Whatever the text of a document, none of the objects read from it has
two members with one name. -/
theorem Document.load_namesOnce {path : String} {contents : Except ReadFault String} {d : Document}
    (h : Document.load path contents = .ok d) : d.value.NamesOnce := by
  cases contents with
  | error fault => cases h
  | ok text =>
    rw [Document.load] at h
    split at h
    · next v hparse =>
      cases h
      -- the text is read in one of two formats, and each reader returns values in which no name is
      -- repeated
      rw [Document.parse] at hparse
      split at hparse
      · split at hparse
        · next heq =>
          cases hparse
          exact Json.parse?_namesOnce heq
        · cases hparse
      · split at hparse
        · next heq =>
          cases hparse
          obtain ⟨t, -, ht⟩ := Option.bind_eq_some_iff.mp heq
          exact t.toJson?_namesOnce ht
        · cases hparse
    · cases h

end FormSchema
