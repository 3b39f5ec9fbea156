import FormSchema.Yaml.Node
import FormSchema.Yaml.Numeral

/-!
# YAML values

What a scalar stands for. Plain text is null, a truth value, a number or a string, by its spelling;
quoted text is a string. A tag of the core schema asks for one of these kinds, other tags that are
known everywhere are ignored, and a private tag has no meaning here.
-/

namespace FormSchema.Yaml

inductive Value where
  | null
  | bool (value : Bool)
  | integer (value : Int)
  | real (value : Real)
  | string (value : String)
  | sequence (items : List Value)
  | mapping (entries : List (Value × Value))
deriving Inhabited

/-! ### Spellings -/

def isNull (text : String) : Bool := ["null", "Null", "NULL", "~"].contains text

/-- The truth value of a text. -/
def bool? (text : String) : Option Bool :=
  if ["true", "True", "TRUE"].contains text then some true
  else if ["false", "False", "FALSE"].contains text then some false
  else none

def isWord (n : Int) : Bool := fitsWord 64 n

/-- Whether 128 bits, with or without a sign, can hold a whole number. -/
def isDoubleWord (n : Int) : Bool := fitsWord 128 n

/-- What a text of the scalars is by its spelling. A whole number is refused when 128 bits can hold
it but 64 bits cannot; a greater one is a real number if its spelling admits that. -/
def plainValue? (text : String) : Option Value :=
  let cs := text.toList
  if text.isEmpty || isNull text then some .null
  else
    match bool? text with
    | some b => some (.bool b)
    | none =>
      match (whole? cs).filter isDoubleWord with
      | some n => if isWord n then some (.integer n) else none
      | none =>
        if isPadded cs then some (.string text)
        else
          match real? cs with
          | some x => some (.real x)
          | none => some (.string text)

/-! ### Tags -/

def isPrivate (tag : String) : Bool := tag.toList.head? = some '!'

def coreTag (name : String) : String := "tag:yaml.org,2002:" ++ name

/-- What a scalar stands for; `none` when its tag does not fit its text. -/
def Scalar.value? (s : Scalar) : Option Value :=
  match s.tag with
  | none => if s.plain then plainValue? s.text else some (.string s.text)
  | some tag =>
    if tag = coreTag "bool" then (bool? s.text).map .bool
    else if tag = coreTag "int" then
      ((whole? s.text.toList).filter isWord).map .integer
    else if tag = coreTag "float" then (real? s.text.toList).map .real
    else if tag = coreTag "null" then if isNull s.text then some .null else none
    else if isPrivate tag then none
    else some (.string s.text)

/-! ### Trees -/

/-- The contents of a document with every alias replaced by what it leads to. -/
inductive Tree where
  | scalar (content : Scalar)
  | sequence (items : List Tree)
  | mapping (entries : List (Tree × Tree))
deriving Inhabited

mutual

/-- The value of a tree. -/
def Tree.value? : Tree → Option Value
  | .scalar s => s.value?
  | .sequence items => (valuesOf? items).map .sequence
  | .mapping entries => (entriesOf? entries).map .mapping

def valuesOf? : List Tree → Option (List Value)
  | [] => some []
  | t :: ts => do some ((← t.value?) :: (← valuesOf? ts))

def entriesOf? : List (Tree × Tree) → Option (List (Value × Value))
  | [] => some []
  | (k, v) :: ts => do some (((← k.value?), (← v.value?)) :: (← entriesOf? ts))

end

end FormSchema.Yaml
