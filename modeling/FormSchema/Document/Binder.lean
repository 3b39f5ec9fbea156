import FormSchema.Binding.Binder
import FormSchema.Document.Pointer

/-!
# Binding documents

A document is a JSON value to bind forms against. Lookup keys name members: a member that is an
array binds once for every item that is not null, any other member that is not null binds once.
Definitions without a key bind to where they stand. Instances are places in the document.
-/

namespace FormSchema

/-- A value to bind forms against. -/
structure Document where
  value : Json
  -- says where the document came from
  label : String
deriving Inhabited

/-- A place in a document, with the text of the scalar found there. -/
structure Located where
  pointer : Pointer
  scalar : Option String
deriving DecidableEq

namespace Located

/-- The text of a scalar. Null and collections have none. -/
def scalarText : Json → Option String
  | .string s => some s
  | .number n => some n.text
  | .bool b => some (if b then "true" else "false")
  | .null | .array _ | .object _ => none

def of (p : Pointer) (v : Json) : Located := ⟨p, scalarText v⟩

end Located

namespace Document

/-- Whether there is anything to bind: a document that is null holds nothing. -/
def hasContent (d : Document) : Bool := !d.value.isNull

/-- The items that are not null, at their places; `index` is that of the first. -/
def locateItems (p : Pointer) : Nat → List Json → List Located
  | _, [] => []
  | index, v :: vs =>
    if v.isNull then locateItems p (index + 1) vs
    else .of (p.item index) v :: locateItems p (index + 1) vs

/-- The instances of an element with a lookup key, within a place. -/
def elements (d : Document) (within : Located) : Option String → List Located
  | none => [within]
  | some key =>
    let p := within.pointer.member key
    match p.resolve? d.value with
    | none | some .null => []
    | some (.array items) => locateItems p 0 items
    | some v => [.of p v]

/-- The instance of an attribute with a lookup key, within a place. An array counts as one. -/
def attribute? (d : Document) (within : Located) : Option String → Option Located
  | none => some within
  | some key =>
    let p := within.pointer.member key
    match p.resolve? d.value with
    | none | some .null => none
    | some v => some (.of p v)

def binderKind : String := "document"

/-- The binder of a document. It never changes its state. A referenced form is bound to nothing of
its own, so it continues where the reference stands. -/
def binder (σ : Type) (d : Document) : Binder σ Located where
  kind := binderKind
  hasSource := d.hasContent
  preBind _ := pure ()
  bindForm place _ := pure (if place.isNone then some (.of .root d.value) else none)
  bindElement place item := pure (d.elements place.context item.lookupKey)
  bindAttribute place item := pure (d.attribute? place.context item.lookupKey)
  postBind _ _ := pure ()
  describe _ found := some ("#" ++ found.pointer.text)
  value _ found := found.scalar

end Document

end FormSchema
