import FormSchema.Config.Text
import FormSchema.FormFile.Assembly
import FormSchema.Registry.Basic

/-!
# Directories of form files

Every file below a directory whose extension marks a form file holds one form, whose source is the
way from the directory to the file. Forms are registered in the order of those ways, and the first
file that is at fault ends the loading.
-/

namespace FormSchema

/-- A place where form files are looked for, and what is there. -/
structure Directory where
  path : String
  -- a file, a directory, or nothing
  contents : Option FileTree
deriving Inhabited

/-- A form file below a directory. -/
structure FormSource where
  -- the names on the way to the file
  label : String
  -- the text of the file, unless its bytes are no text
  text : Option String
deriving DecidableEq

/-- Why the forms of a directory cannot be loaded. -/
inductive LoadError where
  -- the bytes of a file are no text
  | unreadable (label : String)
  -- the text of a file is not a form
  | invalid (label : String) (cause : FormFileError)
  -- two files have forms with the same key
  | duplicate (cause : DuplicateForm)
deriving DecidableEq

def LoadError.message (path : String) : LoadError → String
  | .unreadable label => s!"failed to read {PathText.join path label}"
  | .invalid label e => s!"failed to parse {PathText.join path label}: {e.message}"
  | .duplicate e => e.message

namespace Directory

def ofPath (t : FileTree) (path : String) : Directory := ⟨path, (t.find path).toOption⟩

def configName : String := "formbind.toml"

/-- The configuration that a directory brings along; without a usable one, the standard one. -/
def config (d : Directory) : Config :=
  match d.contents with
  | none => .standard
  | some t =>
    match Config.ofFile (t.read configName) with
    | .ok c => c
    | .error _ => .standard

/-- Whether the name at the end of a path is that of a form file. -/
def isFormFile (c : Config) (path : String) : Bool :=
  (PathText.extension? path).any c.isFormExtension

/-- The form files below a directory, in the order of the ways to them. A file in the place of the
directory counts by its own name. -/
def sources (d : Directory) (c : Config) : List FormSource :=
  match d.contents with
  | none => []
  | some (.file text) => if isFormFile c d.path then [⟨"", text⟩] else []
  | some (.directory entries) =>
    (FileTree.directory entries).files.filterMap fun (way, text) =>
      if (way.getLast?.bind PathText.nameExtension?).any c.isFormExtension then
        some ⟨PathText.ofNames way, text⟩
      else none

def formOf (c : Config) (source : FormSource) : Except LoadError Form :=
  match source.text with
  | none => .error (.unreadable source.label)
  | some text => (parseForm c source.label text).mapError (.invalid source.label)

def register (c : Config) (r : Registry) (source : FormSource) : Except LoadError Registry := do
  (r.insert (← formOf c source)).mapError .duplicate

def load (d : Directory) (c : Config) : Except LoadError Registry :=
  (d.sources c).foldlM (register c) .empty

end Directory

end FormSchema
