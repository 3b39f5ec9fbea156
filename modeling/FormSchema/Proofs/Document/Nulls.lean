import FormSchema.Proofs.Binding.Walk.Equations
import FormSchema.Proofs.Document.Members
import Mathlib

/-!
# Null members

An object either has a member or it does not: a member that is null says no more than a missing one. A
document therefore binds like the one that is left when its null members are taken out, however deep they
stand. The items of arrays stay, null or not, since the places of the items after them depend on them.

The binder never looks at a value without asking first whether it is null. So what it needs to know
of a pointer is not where it leads but what content it leads to, if any, and this is the quantity
that is compared: the content behind a pointer in the document without null members is the content
in the document itself, without null members. A step into a null value leads nowhere, as a step to a
missing member does, which is why the two documents stay in step along the whole pointer.

Names have to be unique within an object. If a null member stood in front of another one of the same
name, taking it out would bring the other one to light.

* `Json.withoutNulls` — a value without its null members.
* `Pointer.resolve?_withoutNulls` — a pointer leads to the same content in both.
* **`Document.binder_withoutNulls`** — both documents answer alike, whatever they are asked.
* **`Engine.bind_withoutNulls`** — so they bind alike.
-/

namespace FormSchema

/-! ## Values

Taking out null members is a recursion through the value. Arrays are passed through item by item and
keep their length, objects lose the members that are null and keep the order of the others. -/

namespace Json

mutual

/-- A value without the members that are null, at any depth. Items of arrays stay in place. -/
def withoutNulls : Json → Json
  | .array items => .array (itemsWithoutNulls items)
  | .object members => .object (membersWithoutNulls members)
  | v => v

def itemsWithoutNulls : List Json → List Json
  | [] => []
  | v :: vs => v.withoutNulls :: itemsWithoutNulls vs

def membersWithoutNulls : List (String × Json) → List (String × Json)
  | [] => []
  | (n, v) :: ms =>
    if v.isNull then membersWithoutNulls ms else (n, v.withoutNulls) :: membersWithoutNulls ms

end

/-- What is found where null counts as nothing. -/
def content? (found : Option Json) : Option Json := found.filter fun v => !v.isNull

@[simp] theorem content?_none : content? none = none := rfl

theorem content?_of_isNull {v : Json} (h : v.isNull = true) : content? (some v) = none := by
  rw [content?, Option.filter_some, h]
  rfl

theorem content?_some {v : Json} (h : v.isNull = false) : content? (some v) = some v := by
  rw [content?, Option.filter_some, h]
  rfl

theorem itemsWithoutNulls_eq (vs : List Json) : itemsWithoutNulls vs = vs.map withoutNulls := by
  induction vs with
  | nil => rfl
  | cons v vs ih => rw [itemsWithoutNulls, ih, List.map_cons]

@[simp] theorem isNull_withoutNulls (v : Json) : v.withoutNulls.isNull = v.isNull := by
  cases v <;> rfl

@[simp] theorem scalarText_withoutNulls (v : Json) :
    Located.scalarText v.withoutNulls = Located.scalarText v := by
  cases v <;> rfl

theorem content?_map_withoutNulls (found : Option Json) :
    content? (found.map withoutNulls) = (content? found).map withoutNulls := by
  cases found with
  | none => rfl
  | some v =>
    cases hnull : v.isNull with
    | true =>
      rw [Option.map_some, content?_of_isNull hnull,
        content?_of_isNull ((isNull_withoutNulls v).trans hnull), Option.map_none]
    | false =>
      rw [Option.map_some, content?_some hnull, content?_some ((isNull_withoutNulls v).trans hnull),
        Option.map_some]

/-- The members that are left hold what the members held, and none stands behind one taken out. -/
theorem content?_lookup_withoutNulls (name : String) {members : List (String × Json)}
    (h : (members.map Prod.fst).Nodup) :
    content? ((membersWithoutNulls members).lookup name) =
      (content? (members.lookup name)).map withoutNulls := by
  induction members with
  | nil => rfl
  | cons m members ih =>
    obtain ⟨n, v⟩ := m
    obtain ⟨hfresh, hrest⟩ := List.nodup_cons.mp h
    by_cases hname : name = n
    · subst hname
      rw [List.lookup_cons_self]
      cases hnull : v.isNull with
      | true =>
        -- no other member has the name, so nothing comes to light behind the one taken out
        have hnone : members.lookup name = none := by
          refine List.lookup_eq_none_iff.mpr fun m hm => bne_iff_ne.mpr fun heq => hfresh ?_
          have hmem : m.1 ∈ members.map Prod.fst := List.mem_map_of_mem hm
          exact heq ▸ hmem
        rw [membersWithoutNulls, if_pos hnull, ih hrest, hnone, content?_of_isNull hnull, content?_none]
      | false =>
        rw [membersWithoutNulls, if_neg (by rw [hnull]; decide), List.lookup_cons_self]
        exact content?_map_withoutNulls (some v)
    · have hskip : ∀ (w : Json) (ms : List (String × Json)),
          ((n, w) :: ms).lookup name = ms.lookup name := fun w ms => by
        rw [List.lookup_cons, beq_false_of_ne hname]
      rw [hskip, membersWithoutNulls]
      split
      · exact ih hrest
      · rw [hskip]
        exact ih hrest

end Json

/-! ## Pointers

The induction is on the tokens of the pointer. What is compared after each step is the content
reached so far; whether a step failed or led to null makes no difference to the steps that come
after it. -/

namespace Pointer

open Json

theorem step_namesOnce {v w : Json} {token : String} (h : v.NamesOnce) (hstep : step v token = some w) :
    w.NamesOnce := by
  cases h with
  | array hitems =>
    obtain ⟨i, -, hi⟩ := Option.bind_eq_some_iff.mp hstep
    exact hitems w (List.mem_of_getElem? hi)
  | object hnames hvalues =>
    obtain ⟨before, after, heq, -⟩ := List.lookup_eq_some_iff.mp hstep
    exact hvalues (token, w) (by simp [heq])
  | null => cases hstep
  | bool => cases hstep
  | number => cases hstep
  | string => cases hstep

/-- One step down leads to the same content. -/
theorem step_withoutNulls {v : Json} (token : String) (h : v.NamesOnce) :
    content? (step v.withoutNulls token) = (content? (step v token)).map withoutNulls := by
  cases h with
  | @array items hitems =>
    rw [withoutNulls, step, step, itemsWithoutNulls_eq, ← content?_map_withoutNulls, Option.map_bind]
    simp only [List.getElem?_map, Function.comp_def]
  | object hnames hvalues => exact content?_lookup_withoutNulls token hnames
  | null => rfl
  | bool => rfl
  | number => rfl
  | string => rfl

/-- Beneath null there is nothing, so that whatever comes after a step depends on its content only. -/
theorem content?_bind_walk (found : Option Json) (tokens : List String) :
    content? (found.bind fun v => tokens.foldlM step v) =
      content? ((content? found).bind fun v => tokens.foldlM step v) := by
  cases found with
  | none => rfl
  | some v =>
    cases v with
    | null =>
      cases tokens with
      | nil => rfl
      | cons token tokens => rfl
    | _ => rfl

theorem walk_withoutNulls (tokens : List String) {v : Json} (h : v.NamesOnce) :
    content? (tokens.foldlM step v.withoutNulls) =
      (content? (tokens.foldlM step v)).map withoutNulls := by
  induction tokens generalizing v with
  | nil => exact content?_map_withoutNulls (some v)
  | cons token tokens ih =>
    change content? ((step v.withoutNulls token).bind fun w => tokens.foldlM step w) =
      (content? ((step v token).bind fun w => tokens.foldlM step w)).map withoutNulls
    rw [content?_bind_walk, step_withoutNulls token h, content?_bind_walk (step v token)]
    cases hstep : content? (step v token) with
    | none => rfl
    | some w => exact ih (step_namesOnce h (Option.filter_eq_some_iff.mp hstep).1)

/-- A pointer leads to the same content whether or not null members are there. -/
theorem resolve?_withoutNulls (p : Pointer) {v : Json} (h : v.NamesOnce) :
    content? (p.resolve? v.withoutNulls) = (content? (p.resolve? v)).map withoutNulls := by
  rw [resolve?, resolve?]
  cases p.tokens? with
  | none => rfl
  | some tokens => exact walk_withoutNulls tokens h

end Pointer

/-! ## Documents

The answers of the binder are written as functions of the content behind a pointer. The two
documents have the same content there up to the removal of null members, and neither the text of a
scalar nor the items of an array change under it. -/

namespace Document

open Json

/-- The document without its null members. -/
def withoutNulls (d : Document) : Document := ⟨d.value.withoutNulls, d.label⟩

theorem locateItems_withoutNulls (p : Pointer) (index : Nat) (items : List Json) :
    locateItems p index (itemsWithoutNulls items) = locateItems p index items := by
  induction items generalizing index with
  | nil => rfl
  | cons v items ih =>
    rw [itemsWithoutNulls, locateItems, locateItems, isNull_withoutNulls, ih, Located.of,
      scalarText_withoutNulls]
    rfl

/-- The instances of an element depend on the content at its place only. -/
theorem elements_some (d : Document) (within : Located) (key : String) :
    d.elements within (some key) =
      match content? ((within.pointer.member key).resolve? d.value) with
      | none => []
      | some (.array items) => locateItems (within.pointer.member key) 0 items
      | some v => [.of (within.pointer.member key) v] := by
  rw [elements]
  cases (within.pointer.member key).resolve? d.value with
  | none => rfl
  | some v => cases v <;> rfl

theorem attribute?_some (d : Document) (within : Located) (key : String) :
    d.attribute? within (some key) =
      (content? ((within.pointer.member key).resolve? d.value)).map
        (.of (within.pointer.member key)) := by
  rw [attribute?]
  cases (within.pointer.member key).resolve? d.value with
  | none => rfl
  | some v => cases v <;> rfl

theorem elements_withoutNulls {d : Document} (h : d.value.NamesOnce) (within : Located)
    (key : Option String) : d.withoutNulls.elements within key = d.elements within key := by
  cases key with
  | none => rfl
  | some key =>
    rw [elements_some, elements_some, withoutNulls, Pointer.resolve?_withoutNulls _ h]
    cases content? ((within.pointer.member key).resolve? d.value) with
    | none => rfl
    | some v =>
      cases v with
      | array items => exact locateItems_withoutNulls _ 0 items
      | _ => rfl

theorem attribute?_withoutNulls {d : Document} (h : d.value.NamesOnce) (within : Located)
    (key : Option String) : d.withoutNulls.attribute? within key = d.attribute? within key := by
  cases key with
  | none => rfl
  | some key =>
    rw [attribute?_some, attribute?_some, withoutNulls, Pointer.resolve?_withoutNulls _ h, Option.map_map]
    exact congrArg (Option.map · _) (funext fun v => by
      rw [Function.comp_apply, Located.of, scalarText_withoutNulls, Located.of])

/-- **Null members answer nothing.** With and without them a document is the same binder. -/
theorem binder_withoutNulls (σ : Type) {d : Document} (h : d.value.NamesOnce) :
    d.withoutNulls.binder σ = d.binder σ := by
  have hsource : d.withoutNulls.hasContent = d.hasContent :=
    congrArg (!·) (isNull_withoutNulls d.value)
  have hroot : Located.of .root d.withoutNulls.value = Located.of .root d.value :=
    congrArg (Located.mk .root) (scalarText_withoutNulls d.value)
  rw [binder, binder, hsource, hroot]
  simp only [elements_withoutNulls h, attribute?_withoutNulls h]

end Document

/-! ## Runs

As binders the two documents are one and the same, so their runs are equal outright; no induction
over runs is needed. -/

namespace Engine

variable {σ : Type}

/-- **Null members do not count.** A document and the one without its null members bind alike: to the same
tree, or to the same error at the same path. -/
theorem bind_withoutNulls (r : Registry) (limit : Nat) (builders : List LibraryBuilder) (key : FormKey)
    (s : σ) (d : Document) (h : d.value.NamesOnce) :
    (equipped r limit builders (d.withoutNulls.binder σ)).bind key s =
      (equipped r limit builders (d.binder σ)).bind key s := by
  rw [Document.binder_withoutNulls σ h]

end Engine

/-! ## An example -/

namespace Sample

/-- An order where null stands among the lines, for a city and for the card that was not used. -/
def sparseDocument : Document :=
  ⟨.object [("card", .null), ("city", .string "Paris"), ("iban", .string "account"),
    ("line", .array [.null, .object [("city", .null), ("sku", .string "A-1")]])], "order"⟩

theorem sparseDocument_namesOnce : sparseDocument.value.NamesOnce := by
  have hline : (Json.object [("city", .null), ("sku", .string "A-1")]).NamesOnce :=
    .object (by decide) (by simp [Json.NamesOnce.null, Json.NamesOnce.string])
  have hlines : (Json.array [.null, .object [("city", .null), ("sku", .string "A-1")]]).NamesOnce :=
    .array (by simp [Json.NamesOnce.null, hline])
  exact .object (by decide) (by simp [Json.NamesOnce.null, Json.NamesOnce.string, hlines])

end Sample

namespace Engine

/-- The order binds as it does without its null members, and so does its line, which is the second item
either way. Where what the line ships to is bound as well, the city is missing in both. -/
theorem bind_withoutNulls_orders :
    Sample.sparseDocument.withoutNulls =
      ⟨.object [("city", .string "Paris"), ("iban", .string "account"),
        ("line", .array [.null, .object [("sku", .string "A-1")]])], "order"⟩ ∧
    ((equipped Sample.orders 1 [] (Sample.sparseDocument.binder Unit)).bind
      Sample.orderKey ()).1.isOk = true ∧
    ((equipped Sample.orders 1 [.inline] (Sample.sparseDocument.binder Unit)).bind
      Sample.orderKey ()).1.isOk = false ∧
    ∀ builders, (equipped Sample.orders 1 builders
        (Sample.sparseDocument.withoutNulls.binder Unit)).bind Sample.orderKey () =
      (equipped Sample.orders 1 builders (Sample.sparseDocument.binder Unit)).bind Sample.orderKey () :=
  ⟨rfl, by cbv, by cbv, fun builders => bind_withoutNulls Sample.orders 1 builders Sample.orderKey ()
    Sample.sparseDocument Sample.sparseDocument_namesOnce⟩

end Engine

end FormSchema
