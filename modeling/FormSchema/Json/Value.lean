import FormSchema.Decimal.Shortest

/-!
# JSON values

A number is a whole number between the least signed and the greatest unsigned 64-bit integer, or
a finite binary floating-point number. The members of an object are a list: printing keeps its
order, and `Json.ofMembers` brings the members of a document into the order of their names.
-/

namespace FormSchema

inductive JsonNumber where
  | integer (value : Int)
  | real (value : Binary64)
deriving DecidableEq, Inhabited

/-- Numbers from `1e-5` up to below `1e16` are written out; other exponents carry their sign. -/
def JsonNumber.layout : Binary64.Layout := ⟨16, 4, "+"⟩

def JsonNumber.text : JsonNumber → String
  | .integer n => toString n
  | .real x => x.text layout

inductive Json where
  | null
  | bool (value : Bool)
  | number (value : JsonNumber)
  | string (value : String)
  | array (items : List Json)
  | object (members : List (String × Json))
deriving Inhabited

namespace Json

def isNull : Json → Bool
  | .null => true
  | _ => false

/-- Sets a member of a list ordered by name. A name that is present keeps its place and gets the
new value. -/
def setMember (name : String) (value : Json) : List (String × Json) → List (String × Json)
  | [] => [(name, value)]
  | (n, v) :: rest =>
    if name = n then (name, value) :: rest
    else if name < n then (name, value) :: (n, v) :: rest
    else (n, v) :: setMember name value rest

/-- The object of the given members, ordered by name; of members with one name the last counts. -/
def ofMembers (members : List (String × Json)) : Json :=
  .object (members.foldl (fun ms (n, v) => setMember n v ms) [])

end Json

end FormSchema
