import FormSchema.Json.Value

/-!
# Pointers

The place of a value within a JSON document, as a text of tokens that each follow a slash. Within a
token a tilde is written `~0` and a slash `~1`.

* `Pointer.unescape_escape` — a token reads back as the key it was written for.
-/

namespace FormSchema

/-- A place within a document; the empty text is the whole document. -/
structure Pointer where
  text : String
deriving DecidableEq, Inhabited

namespace Pointer

def root : Pointer := ⟨""⟩

/-- A key as it stands in a token. -/
def escape : List Char → List Char
  | [] => []
  | c :: cs =>
    if c = '~' then '~' :: '0' :: escape cs
    else if c = '/' then '~' :: '1' :: escape cs
    else c :: escape cs

/-- The key a token stands for. A tilde before any other character stands for itself. -/
def unescape : List Char → List Char
  | [] => []
  | '~' :: '0' :: cs => '~' :: unescape cs
  | '~' :: '1' :: cs => '/' :: unescape cs
  | c :: cs => c :: unescape cs

def member (p : Pointer) (key : String) : Pointer :=
  ⟨p.text ++ "/" ++ String.ofList (escape key.toList)⟩

def item (p : Pointer) (index : Nat) : Pointer := ⟨p.text ++ "/" ++ Nat.repr index⟩

/-- Splits at every slash; there is always one part more than slashes. -/
def split : List Char → List (List Char)
  | [] => [[]]
  | c :: cs =>
    if c = '/' then [] :: split cs
    else match split cs with
      | [] => [[c]]
      | part :: parts => (c :: part) :: parts

/-- The keys and indices of a pointer, in order; `none` when it does not start with a slash. -/
def tokens? (p : Pointer) : Option (List String) :=
  match p.text.toList with
  | [] => some []
  | '/' :: cs => some ((split cs).map fun part => String.ofList (unescape part))
  | _ => none

/-- The index a token names: a decimal numeral without sign and without leading zeros. -/
def index? (token : String) : Option Nat :=
  match token.toList with
  | [] => none
  | '0' :: _ :: _ => none
  | cs => if cs.all Char.isDigit then token.toNat? else none

/-- The value one step down: a member of an object or an item of an array. -/
def step (v : Json) (token : String) : Option Json :=
  match v with
  | .object members => members.lookup token
  | .array items => (index? token).bind fun i => items[i]?
  | _ => none

def resolve? (p : Pointer) (v : Json) : Option Json :=
  p.tokens?.bind fun ts => ts.foldlM step v

@[simp] theorem unescape_escape (cs : List Char) : unescape (escape cs) = cs := by
  induction cs with
  | nil => rfl
  | cons c cs ih =>
    by_cases h : c = '~'
    · simp [escape, unescape, h, ih]
    · by_cases h' : c = '/'
      · simp [escape, unescape, h', ih]
      · simp [escape, unescape, h, h', ih]

/-- A token holds no slash, so that splitting a pointer never cuts through one. -/
theorem slash_notMem_escape (cs : List Char) : '/' ∉ escape cs := by
  induction cs with
  | nil => simp [escape]
  | cons c cs ih =>
    by_cases h : c = '~'
    · simp [escape, h, ih]
    · by_cases h' : c = '/'
      · simp [escape, h', ih]
      · simp [escape, h, h', ih, Ne.symm h']

end Pointer

end FormSchema
