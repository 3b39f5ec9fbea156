import FormSchema.Document.Binder
import FormSchema.FileTree
import FormSchema.Json.Reader
import FormSchema.Yaml.Reader

/-!
# Reading documents

A file whose extension is that of JSON holds JSON; any other file holds YAML. Either way the
document is a JSON value. A key of a YAML mapping becomes the name of a member by its text, and a
number that is not finite becomes null.
-/

namespace FormSchema

/-- Why a file is not a document. -/
inductive DocumentFault where
  | unreadable
  | notJson
  | notYaml
deriving DecidableEq

/-- Why a document cannot be read, and where it was to be read from. -/
structure DocumentError where
  fault : DocumentFault
  path : String
deriving DecidableEq

def DocumentError.message (e : DocumentError) : String :=
  match e.fault with
  | .unreadable => s!"failed to read {e.path}"
  | .notJson => s!"failed to parse {e.path} as JSON"
  | .notYaml => s!"failed to parse {e.path} as YAML"

def Yaml.Value.toJson : Yaml.Value → Json
  | .bool b => .bool b
  | .integer n => .number (.integer n)
  | .real (.finite x) => .number (.real x)
  | .string s => .string s
  | .null | .real _ | .sequence _ | .mapping _ => .null

namespace Yaml.Tree

mutual

def toJson? : Tree → Option Json
  | .scalar s => s.value?.map Value.toJson
  | .sequence items => (toJsons? items).map .array
  | .mapping entries => (toMembers? entries).map Json.ofMembers

def toJsons? : List Tree → Option (List Json)
  | [] => some []
  | t :: ts => do some ((← t.toJson?) :: (← toJsons? ts))

/-- The members of a mapping, whose keys have to be scalars. -/
def toMembers? : List (Tree × Tree) → Option (List (String × Json))
  | [] => some []
  | (.scalar s, v) :: es => do some ((s.text, ← v.toJson?) :: (← toMembers? es))
  | _ :: _ => none

end

end Yaml.Tree

namespace Document

/-- The extension of files that hold JSON. Its case does not matter. -/
def jsonExtension : String := "json"

def isJsonPath (path : String) : Bool :=
  (PathText.extension? path).any fun e => e.toList.map Char.toLower = jsonExtension.toList

def parse (path text : String) : Except DocumentFault Json :=
  if isJsonPath path then
    match Json.parse? text with
    | some v => .ok v
    | none => .error .notJson
  else
    match Yaml.tree? text >>= Yaml.Tree.toJson? with
    | some v => .ok v
    | none => .error .notYaml

/-- The document in what was read at a path, which is also its label. -/
def load (path : String) (contents : Except ReadFault String) : Except DocumentError Document :=
  match contents with
  | .error _ => .error ⟨.unreadable, path⟩
  | .ok text =>
    match parse path text with
    | .ok v => .ok ⟨v, path⟩
    | .error fault => .error ⟨fault, path⟩

end Document

end FormSchema
