import FormSchema.Cardinality
import FormSchema.Decimal.Word

/-!
# Configurations

Settings for loading and binding forms: how many references may be nested in one another, the
cardinality of definitions that declare none, and the file extensions of form files.
-/

namespace FormSchema

/-- Settings for loading and binding forms. -/
structure Config where
  -- how many references may be nested in one another in one run
  maxReferenceDepth : Nat
  -- the cardinality of definitions that declare none
  defaultCardinality : Cardinality
  -- the extensions of form files
  formExtensions : List String
deriving DecidableEq

namespace Config

def standard : Config := ⟨32, .required, ["yaml", "yml"]⟩

instance : Inhabited Config := ⟨standard⟩

def depthBound : Nat := wordValues 64

/-- A letter in lower case; only the letters of ASCII have two cases here. -/
def foldCase (s : String) : List Char := s.toList.map Char.toLower

/-- Whether an extension marks a form file. The case of ASCII letters does not matter. -/
def isFormExtension (c : Config) (extension : String) : Bool :=
  c.formExtensions.any fun e => foldCase e = foldCase extension

end Config

end FormSchema
