import FormSchema.Proofs.Document.AddressedRuns

/-!
# What lookup keys name

A key is looked up in the value that the context of a place leads to. It is appended to a pointer, which is
then split and followed from the top of the document, so it is not plain to see that it hits what it names
and nothing else. On an object it does: a key names the member of that name, whatever characters are in it.
On an array it names an item by its decimal index, and on other values it names nothing.

The answer of the binder is described by what is found at the longer pointer, in four cases:
nothing, a value, an array, and anything else than an array. The description is proved for any
place, and the two main theorems only say what is found at the longer pointer when the context is an
object, an array, or neither. On an array this takes the converse of reading numerals: a token that
is read as an index is the numeral of that index, so no other key can name the item.

* `Document.Binds` — what a definition with a key is bound to, by what the key names.
* **`Document.binder_of_object`** — on an object that is the member of that name.
* **`Document.binder_beside_objects`** — and on other values.
* `Engine.key_names_item` — a run in which a key names an item.
-/

namespace FormSchema

/-! ## Numerals

A numeral determines its number and the number its numeral, provided that no zeros stand in front.
The proof takes the digits from the end, as the value of a numeral does. -/

namespace Pointer

theorem exists_digitChar {c : Char} (h : c.isDigit = true) : ∃ n < 10, c = Nat.digitChar n := by
  have hbounds : 48 ≤ c.toNat ∧ c.toNat ≤ 57 := by
    simpa [Char.isDigit, UInt32.le_iff_toNat_le] using h
  have hchar : ∀ n, 48 ≤ n → n ≤ 57 → Char.ofNat n = Nat.digitChar (n - 48) := by decide
  refine ⟨c.toNat - 48, by omega, ?_⟩
  rw [← hchar _ hbounds.1 hbounds.2, Char.ofNat_toNat]

/-- Digits without a zero in front of others are the numeral of their number. -/
theorem toDigits_ofDigitChars {cs : List Char} (hne : cs ≠ []) (hdigits : ∀ c ∈ cs, c.isDigit = true)
    (hzero : cs.head? = some '0' → cs.length = 1) : Nat.toDigits 10 (Nat.ofDigitChars 10 cs 0) = cs := by
  -- the last digit counts the ones, so the induction takes digits from the end
  induction cs using List.reverseRecOn with
  | nil => exact absurd rfl hne
  | append_singleton ds c ih =>
    obtain ⟨n, hn, rfl⟩ := exists_digitChar (hdigits c (List.mem_append_right _ List.mem_cons_self))
    rw [Nat.ofDigitChars_append, Nat.ofDigitChars_cons_digitChar_of_lt_ten hn, Nat.ofDigitChars_nil]
    cases ds with
    | nil =>
      rw [Nat.ofDigitChars_nil, Nat.mul_zero, Nat.zero_add, Nat.toDigits_of_lt_base hn]
      rfl
    | cons d ds =>
      have hfront : (d :: ds).head? ≠ some '0' := by
        intro hd
        have hlength := hzero hd
        simp at hlength
      have hds := ih (List.cons_ne_nil d ds) (fun c hc => hdigits c (List.mem_append_left _ hc))
        fun hd => absurd hd hfront
      have hpos : 0 < Nat.ofDigitChars 10 (d :: ds) 0 := by
        refine Nat.pos_of_ne_zero fun hnumber => hfront ?_
        rw [hnumber] at hds
        rw [← hds]
        rfl
      rw [← Nat.toDigits_append_toDigits (by decide) hpos hn, hds, Nat.toDigits_of_lt_base hn]

/-- A token names an index exactly when it is the numeral of the index. -/
theorem index?_eq_some_iff {token : String} {n : Nat} : index? token = some n ↔ token = Nat.repr n := by
  constructor
  · intro h
    rw [index?] at h
    split at h
    · cases h
    · cases h
    · next hempty hfront =>
      split at h
      · next hdigits =>
        have hall : ∀ c ∈ token.toList, c.isDigit = true := List.all_eq_true.mp hdigits
        have hne : token.toList ≠ [] := hempty
        -- there are only digits, so nothing is left out when the number is read
        have hplain : token.toList.filter (· != '_') = token.toList := by
          refine List.filter_eq_self.mpr fun c hc => bne_iff_ne.mpr ?_
          rintro rfl
          exact absurd (hall _ hc) (by decide)
        -- a zero in front of others was refused before
        have hzero : token.toList.head? = some '0' → token.toList.length = 1 := by
          intro hhead
          rcases hlist : token.toList with _ | ⟨c, _ | ⟨d, cs⟩⟩
          · exact absurd hlist hne
          · rfl
          · rw [hlist] at hhead
            cases hhead
            exact absurd hlist (hfront d cs)
        have hnumber := String.toNat?_eq_some_ofDigitChars (String.isNat_of_toNat?_eq_some h)
        rw [h, hplain] at hnumber
        rw [Option.some.inj hnumber, Nat.repr_eq_ofList_toDigits, toDigits_ofDigitChars hne hall hzero,
          String.ofList_toList]
      · cases h
  · rintro rfl
    exact index?_repr n

end Pointer

/-! ## Instances

What a definition is bound to depends on its lookup key and on what the key names, and on nothing
else. The structure `Binds` lists the cases, and one lemma shows that they are right for whatever
the pointer happens to lead to. -/

namespace Document

variable {σ : Type} {d : Document} {place : Scope Located} {item : ItemDefinition} {key : String}

/-- The items of an array that are not null, each at its index. -/
theorem locateItems_eq (p : Pointer) (index : Nat) (items : List Json) :
    locateItems p index items =
      ((items.zipIdx index).filter fun x => !x.1.isNull).map fun x => .of (p.item x.2) x.1 := by
  induction items generalizing index with
  | nil => rfl
  | cons v items ih =>
    rw [locateItems, ih, List.zipIdx_cons, List.filter_cons]
    cases v.isNull <;> rfl

/-- What a definition is bound to at a place, when its key names what is found at the pointer `p`. A missing
or a null value binds nothing. An array binds an element once for every item that is not null, and an
attribute once; any other value binds either of them once. -/
structure Binds (σ : Type) (d : Document) (place : Scope Located) (item : ItemDefinition) (p : Pointer)
    (found : Option Json) : Prop where
  absent : found = none ∨ found = some .null → ∀ s,
    (d.binder σ).bindElement place item s = ([], s) ∧
      (d.binder σ).bindAttribute place item s = (none, s)
  whole : ∀ v, found = some v → v.isNull = false →
    p.resolve? d.value = some v ∧
      ∀ s, (d.binder σ).bindAttribute place item s = (some (.of p v), s)
  items : ∀ items, found = some (.array items) →
    (∀ i, (p.item i).resolve? d.value = items[i]?) ∧
      ∀ s, (d.binder σ).bindElement place item s =
        ((items.zipIdx.filter fun x => !x.1.isNull).map fun x => .of (p.item x.2) x.1, s)
  single : ∀ v, found = some v → v.isNull = false → (∀ items, v ≠ .array items) → ∀ s,
    (d.binder σ).bindElement place item s = ([.of p v], s)

theorem binder_element (h : item.lookupKey = some key) :
    (d.binder σ).bindElement place item = pure (d.elements place.context (some key)) := by
  rw [← h]
  rfl

theorem binder_attribute (h : item.lookupKey = some key) :
    (d.binder σ).bindAttribute place item = pure (d.attribute? place.context (some key)) := by
  rw [← h]
  rfl

/-- A key names what the pointer of the context leads to, when the key is appended to it. -/
theorem binds_resolved (hkey : item.lookupKey = some key) :
    d.Binds σ place item (place.context.pointer.member key)
      ((place.context.pointer.member key).resolve? d.value) where
  absent h s := by
    rw [binder_element hkey, binder_attribute hkey, elements_some, attribute?_some]
    rcases h with h | h <;> rw [h] <;> exact ⟨rfl, rfl⟩
  whole v h hv := by
    refine ⟨h, fun s => ?_⟩
    rw [binder_attribute hkey, attribute?_some, h, Json.content?_some hv]
    rfl
  items items h := by
    refine ⟨fun i => Pointer.resolve?_item_of_array h i, fun s => ?_⟩
    rw [binder_element hkey, elements_some, h, Json.content?_some rfl]
    show (locateItems _ 0 items, s) = _
    rw [locateItems_eq]
  -- what is not an array is one instance for an element as well
  single v h hv hne s := by
    rw [binder_element hkey, elements_some, h, Json.content?_some hv]
    cases v with
    | array items => exact absurd rfl (hne items)
    | _ => rfl

/-- **On an object a lookup key names the member of that name**, whatever characters the key has and whatever
pointer leads to the object. No other member is looked at: another object with the same member under the key
answers alike. A definition without a key is bound to the context itself. -/
theorem binder_of_object (σ : Type) (d : Document) (place : Scope Located) (item : ItemDefinition) :
    (∀ members key, place.context.pointer.resolve? d.value = some (.object members) →
      item.lookupKey = some key →
      d.Binds σ place item (place.context.pointer.member key) (members.lookup key) ∧
      ∀ (d' : Document) members', place.context.pointer.resolve? d'.value = some (.object members') →
        members'.lookup key = members.lookup key →
        (d'.binder σ).bindElement place item = (d.binder σ).bindElement place item ∧
          (d'.binder σ).bindAttribute place item = (d.binder σ).bindAttribute place item) ∧
    (item.lookup = none → item.id = none → ∀ s,
      (d.binder σ).bindElement place item s = ([place.context], s) ∧
        (d.binder σ).bindAttribute place item s = (some place.context, s)) := by
  refine ⟨fun members key hobject hkey => ?_, fun hlookup hid s => ?_⟩
  · have hmember : ∀ {d : Document} {members}, place.context.pointer.resolve? d.value = some (.object members) →
        (place.context.pointer.member key).resolve? d.value = members.lookup key := by
      intro d members h
      rw [Pointer.resolve?_member, h]
      rfl
    refine ⟨hmember hobject ▸ binds_resolved hkey, fun d' members' hobject' hsame => ?_⟩
    -- both documents have the same value at the pointer, and the binder looks nowhere else
    have hresolved : (place.context.pointer.member key).resolve? d'.value =
        (place.context.pointer.member key).resolve? d.value := by
      rw [hmember hobject, hmember hobject', hsame]
    rw [binder_element hkey, binder_element hkey, binder_attribute hkey, binder_attribute hkey,
      elements_some, elements_some, attribute?_some, attribute?_some, hresolved]
    exact ⟨rfl, rfl⟩
  · have hnone : item.lookupKey = none := by
      rw [Subject.lookupKey, hlookup, hid]
      rfl
    show (d.elements place.context item.lookupKey, s) = _ ∧
      (d.attribute? place.context item.lookupKey, s) = _
    rw [hnone]
    exact ⟨rfl, rfl⟩

end Document

namespace Sample

/-- Beneath the second item of the track, which is an object. -/
def trackScope : Scope Located :=
  ⟨track, .of .root trackDocument.value, ⟨⟨"/in~1out/1"⟩, none⟩, 1⟩

/-- An anonymous definition with a lookup key, or without one. -/
def keyed (key : Option String) : ItemDefinition := ⟨⟨⟨none, key, .empty⟩, .optional⟩, []⟩

/-- A document with one of the members of the item, and beside it one that no key of the track names. -/
def otherTrackDocument : Document :=
  ⟨.object [("in/out", .array [.null, .object [("/1", .null), ("~1", .array [.string "first"])]])], "other"⟩

end Sample

namespace Document

/-- The item has an array of one text under `~1`, whose token in pointers is `~01`. -/
theorem binder_of_object_track :
    Sample.trackScope.context.pointer.resolve? Sample.trackDocument.value = some
      (.object [("", .bool true), ("city", .string "Oslo"), ("~1", .array [.string "first"])]) ∧
    (Sample.trackDocument.binder Unit).bindElement Sample.trackScope (Sample.keyed "~1") () =
      ([⟨⟨"/in~1out/1/~01/0"⟩, some "first"⟩], ()) ∧
    (Sample.trackDocument.binder Unit).bindAttribute Sample.trackScope (Sample.keyed "~1") () =
      (some ⟨⟨"/in~1out/1/~01"⟩, none⟩, ()) ∧
    (Sample.otherTrackDocument.binder Unit).bindElement Sample.trackScope (Sample.keyed "~1") =
      (Sample.trackDocument.binder Unit).bindElement Sample.trackScope (Sample.keyed "~1") ∧
    (Sample.trackDocument.binder Unit).bindElement Sample.trackScope (Sample.keyed none) () =
      ([⟨⟨"/in~1out/1"⟩, none⟩], ()) := by
  have hobject : Sample.trackScope.context.pointer.resolve? Sample.trackDocument.value = some
      (.object [("", .bool true), ("city", .string "Oslo"), ("~1", .array [.string "first"])]) := by cbv
  have hother : Sample.trackScope.context.pointer.resolve? Sample.otherTrackDocument.value = some
      (.object [("/1", .null), ("~1", .array [.string "first"])]) := by cbv
  obtain ⟨hkeys, -⟩ := binder_of_object Unit Sample.trackDocument Sample.trackScope (Sample.keyed "~1")
  obtain ⟨hbinds, halike⟩ := hkeys _ "~1" hobject rfl
  obtain ⟨-, hitems⟩ := hbinds.items [.string "first"] rfl
  obtain ⟨-, hwhole⟩ := hbinds.whole (.array [.string "first"]) rfl rfl
  obtain ⟨hsame, -⟩ := halike Sample.otherTrackDocument _ hother rfl
  obtain ⟨-, hplain⟩ := binder_of_object Unit Sample.trackDocument Sample.trackScope (Sample.keyed none)
  exact ⟨hobject, (hitems ()).trans (by cbv), (hwhole ()).trans (by cbv), hsame, (hplain rfl rfl ()).1⟩

/-- **On an array a lookup key names an item** by its decimal index, without a sign and without zeros in
front, and no other key names anything. On a string, a number or a truth value no key does. -/
theorem binder_beside_objects (σ : Type) (d : Document) (place : Scope Located) (item : ItemDefinition)
    (key : String) (hkey : item.lookupKey = some key) :
    (∀ items, place.context.pointer.resolve? d.value = some (.array items) →
      (∀ i, key = Nat.repr i →
        d.Binds σ place item (place.context.pointer.member key) items[i]?) ∧
      ((∀ i, key ≠ Nat.repr i) → ∀ s, (d.binder σ).bindElement place item s = ([], s) ∧
        (d.binder σ).bindAttribute place item s = (none, s))) ∧
    ∀ v, place.context.pointer.resolve? d.value = some v → (∀ items, v ≠ .array items) →
      (∀ members, v ≠ .object members) → ∀ s, (d.binder σ).bindElement place item s = ([], s) ∧
        (d.binder σ).bindAttribute place item s = (none, s) := by
  -- the key is one more step of the pointer, and what a step does depends on the value it is taken
  -- from
  have hstep : ∀ {v}, place.context.pointer.resolve? d.value = some v →
      (place.context.pointer.member key).resolve? d.value = Pointer.step v key := by
    intro v h
    rw [Pointer.resolve?_member, h, Option.bind_some]
  have hnothing : (place.context.pointer.member key).resolve? d.value = none → ∀ s,
      (d.binder σ).bindElement place item s = ([], s) ∧
        (d.binder σ).bindAttribute place item s = (none, s) :=
    fun h => (binds_resolved hkey).absent (Or.inl h)
  refine ⟨fun items harray => ⟨fun i hi => ?_, fun hindex => hnothing ?_⟩, fun v hv harray hobject =>
    hnothing ?_⟩
  · have hitem : (place.context.pointer.member key).resolve? d.value = items[i]? := by
      rw [hstep harray, Pointer.step, Pointer.index?_eq_some_iff.mpr hi, Option.bind_some]
    exact hitem ▸ binds_resolved hkey
  · have hnone : Pointer.index? key = none := by
      cases hsome : Pointer.index? key with
      | none => rfl
      | some i => exact absurd (Pointer.index?_eq_some_iff.mp hsome) (hindex i)
    rw [hstep harray, Pointer.step, hnone, Option.bind_none]
  · rw [hstep hv]
    cases v with
    | array items => exact absurd rfl (harray items)
    | object members => exact absurd rfl (hobject members)
    | _ => rfl

end Document

namespace Sample

/-- A form with one element, whose id is the numeral of an index. -/
def list : Form := ⟨⟨⟨"", "list"⟩, "test", .empty⟩, [.leaf (.element (item "0" .optional))]⟩

def lists : Registry := ⟨[list]⟩

/-- A document that is an array. -/
def listDocument : Document := ⟨.array [.string "first"], "list"⟩

/-- At the top of the form, which is bound to the array. -/
def listScope : Scope Located :=
  ⟨list, .of .root listDocument.value, .of .root listDocument.value, 0⟩

end Sample

namespace Document

/-- The key `0` names the item of the array, and `00` nothing. On that item, which is a text, `0` names
nothing. -/
theorem binder_beside_objects_list :
    Sample.listScope.context.pointer.resolve? Sample.listDocument.value =
      some (.array [.string "first"]) ∧
    (Sample.listDocument.binder Unit).bindElement Sample.listScope (Sample.keyed "0") () =
      ([⟨⟨"/0"⟩, some "first"⟩], ()) ∧
    (Sample.listDocument.binder Unit).bindElement Sample.listScope (Sample.keyed "00") () = ([], ()) ∧
    (Sample.listDocument.binder Unit).bindElement
        { Sample.listScope with context := ⟨⟨"/0"⟩, some "first"⟩ } (Sample.keyed "0") () = ([], ()) := by
  have harray : Sample.listScope.context.pointer.resolve? Sample.listDocument.value =
      some (.array [.string "first"]) := by cbv
  have hnumeral : ∀ i, "00" ≠ Nat.repr i := fun i h => by
    have hindex := Pointer.index?_eq_some_iff.mpr h
    cases hindex
  obtain ⟨hitems, -⟩ := binder_beside_objects Unit Sample.listDocument Sample.listScope
    (Sample.keyed "0") "0" rfl
  obtain ⟨hothers, -⟩ := binder_beside_objects Unit Sample.listDocument Sample.listScope
    (Sample.keyed "00") "00" rfl
  obtain ⟨-, hscalar⟩ := binder_beside_objects Unit Sample.listDocument
    { Sample.listScope with context := ⟨⟨"/0"⟩, some "first"⟩ } (Sample.keyed "0") "0" rfl
  have hplain : ∀ items, Json.string "first" ≠ .array items := fun _ h => by cases h
  have hfirst := ((hitems _ harray).1 0 (by cbv)).single (.string "first") rfl rfl hplain ()
  exact ⟨harray, hfirst.trans (by cbv), ((hothers _ harray).2 hnumeral ()).1,
    (hscalar (.string "first") (by cbv) hplain (fun _ h => by cases h) ()).1⟩

end Document

/-! ## A key beside members

A key that is a numeral can name an item where the schema means a member. The run below does just
this. -/

namespace Engine

/-- In a run over an array, the element with the key `0` is bound to the first item. -/
theorem key_names_item :
    ∃ place item found, .element place item found ∈
        exchanges Sample.lists 1 [] (Sample.listDocument.binder Unit) ⟨"", "list"⟩ () ∧
      item.lookupKey = some "0" ∧
      place.context.pointer.resolve? Sample.listDocument.value = some (.array [.string "first"]) ∧
      ¬ found = [] := by
  have hrecord : exchanges Sample.lists 1 [] (Sample.listDocument.binder Unit) ⟨"", "list"⟩ () =
      .started Sample.list ::
        .bound none Sample.list (some (.of .root Sample.listDocument.value)) ::
        .element Sample.listScope ⟨⟨⟨some "0", none, .empty⟩, .optional⟩, []⟩ [⟨⟨"/0"⟩, some "first"⟩] :: (exchanges
          Sample.lists 1 [] (Sample.listDocument.binder Unit) ⟨"", "list"⟩ ()).drop 3 := by cbv
  refine ⟨Sample.listScope, ⟨⟨⟨some "0", none, .empty⟩, .optional⟩, []⟩, [⟨⟨"/0"⟩, some "first"⟩], ?_, rfl, by cbv,
    List.cons_ne_nil _ _⟩
  rw [hrecord]
  exact List.mem_cons_of_mem _ (List.mem_cons_of_mem _ List.mem_cons_self)

end Engine

end FormSchema
