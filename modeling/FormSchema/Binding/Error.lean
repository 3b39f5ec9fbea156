import FormSchema.Definition
import FormSchema.NodePath

/-!
# Run errors

Why a run stops. A fault of the data against the definitions is reported at the path of the node
whose children were being bound; the label of the failing definition is kept beside it, because
that definition never produced output.
-/

namespace FormSchema

/-- How the data disagrees with the definitions. -/
inductive Fault where
  -- a count of instances breaks the cardinality of a definition of some kind
  | count (violation : Violation) (kind : DefinitionKind)
  -- more than one alternative of a group is present
  | conflict
  -- there is nothing to bind the root form to
  | formAbsent
  -- a builder refuses an extension point in its own words
  | refused (text : String)
deriving DecidableEq

def Fault.message : Fault → String
  | .count v kind => v.message kind.noun
  | .conflict => s!"multiple {DefinitionKind.choice.noun}s are present"
  | .formAbsent => "form is not present"
  | .refused text => text

/-- A fault and its place. -/
structure BindingError where
  fault : Fault
  path : NodePath
  -- the label of the failing definition, when it is known
  definition : Option String
deriving DecidableEq

/-- The message and the path it is attributed to; after an empty path only the comma is left. -/
def BindingError.text (e : BindingError) : String :=
  if e.path.isEmpty then e.fault.message ++ "," else e.fault.message ++ ", " ++ e.path.text

/-- Why a run stops. -/
inductive RunError where
  -- the data and the definitions disagree
  | binding (error : BindingError)
  -- a root form or the target of a reference is not registered
  | definitionNotFound (key : FormKey) (path : NodePath)
  -- references are nested more deeply than the limit
  | referenceDepthExceeded (key : FormKey) (limit : Nat) (path : NodePath)
deriving DecidableEq

namespace RunError

def path : RunError → NodePath
  | .binding e => e.path
  | .definitionNotFound _ p => p
  | .referenceDepthExceeded _ _ p => p

def message : RunError → String
  | .binding e => e.text
  | .definitionNotFound key p => s!"form definition {key.text} not found, {p.text}"
  | .referenceDepthExceeded key limit p =>
    s!"form reference depth limit of {limit} exceeded by {key.text}, {p.text}"

end RunError

end FormSchema
