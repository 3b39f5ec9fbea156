import FormSchema.Binding.Builders
import FormSchema.CommandLine.Help
import FormSchema.Directory
import FormSchema.Document.Load
import FormSchema.Output.View
import FormSchema.Registry.Cycles

/-!
# Running a command

`Request.report` carries out what a command line asks for and says what the program prints and how
it ends. It depends on nothing but the files it is shown.
-/

namespace FormSchema.CommandLine

/-- The files that a command may read. -/
structure Files where
  -- the text of the file at a path
  read : String → Except ReadFault String
  -- the directory at a path
  directory : String → Directory

def Files.ofTree (t : FileTree) : Files := ⟨t.read, Directory.ofPath t⟩

/-- What the program prints, and how it ends. -/
structure Report where
  code : Nat
  output : String
  -- the message of the error that ended the program
  error : Option String
deriving DecidableEq

namespace Report

def done (output : String) : Report := ⟨0, output, none⟩

def failed (message : String) : Report := ⟨1, "", some message⟩

def misuse : Report := ⟨2, "", none⟩

end Report

/-! ### Colours -/

/-- What a line of a check is about. -/
inductive Status where
  -- nothing is missing
  | clean
  -- a form that is missing
  | dangling
  -- forms that refer to each other
  | cycle
  -- the forms of a cycle
  | detail
deriving DecidableEq

def Status.colour : Status → String
  | .clean => "32"
  | .dangling => "33;1"
  | .cycle => "36"
  | .detail => "2"

def Status.paint (s : Status) (coloured : Bool) (text : String) : String :=
  if coloured then "\x1b[" ++ s.colour ++ "m" ++ text ++ "\x1b[0m" else text

def tagWidth : Nat := 8

def tag (s : Status) (coloured : Bool) (word : String) : String :=
  s.paint coloured (word ++ String.ofList (List.replicate (tagWidth - word.length) ' '))

/-! ### Commands -/

/-- The configuration and the forms that an invocation asks for. -/
def load (files : Files) (i : Invocation) : Except String (Config × Registry) := do
  let d := files.directory i.forms
  let config ← match i.config with
    | none => .ok d.config
    | some path =>
      (Config.ofFile (files.read path)).mapError fun e => s!"Failed to load {path}: {e.message}"
  let r ← (d.load config).mapError (LoadError.message d.path)
  .ok (config, r)

/-- The output tree of a document. Comments are copied, and inline definitions are bound. -/
def bindDocument (config : Config) (r : Registry) (form : String) (group : Option String)
    (document : Document) : Except RunError OutputTree :=
  let engine : Engine Unit Located :=
    ⟨r, config.maxReferenceDepth, [Builder.comment [], Builder.inline], document.binder Unit⟩
  ((engine.bindId form group).run ()).1

def Format.render (t : OutputTree) : Format → String
  | .yaml => t.toYaml
  | .json => t.toJson.pretty ++ "\n"

def runBind (files : Files) (config : Config) (r : Registry) (form : String)
    (group : Option String) (format : Format) (path : String) : Except String String := do
  let document ← (Document.load path (files.read path)).mapError DocumentError.message
  let t ← (bindDocument config r form group document).mapError RunError.message
  .ok (format.render t)

def danglingLine (coloured : Bool) (d : DanglingReference) : String :=
  tag .dangling coloured "dangling" ++
    s!" form {d.form.text} references missing form {d.target.text}\n"

def cycleLine (coloured : Bool) (keys : List FormKey) : String :=
  tag .cycle coloured "cycle" ++ " " ++
    Status.detail.paint coloured (" -> ".intercalate (keys.map FormKey.text)) ++ "\n"

/-- Carries out the command that checks. Only references to missing forms make it fail. -/
def runCheck (coloured quiet : Bool) (r : Registry) : Report :=
  let dangling := r.dangling
  let cycles := r.cycles
  let details := String.join (dangling.map (danglingLine coloured)) ++
    String.join (cycles.map (cycleLine coloured))
  let summary := s!"{r.size} forms, {dangling.length} dangling references, " ++
    s!"{cycles.length} reference cycles"
  let status := if dangling.isEmpty then Status.clean else .dangling
  ⟨if dangling.isEmpty then 0 else 2,
    (if quiet then "" else details) ++ status.paint coloured summary ++ "\n", none⟩

def Invocation.report (files : Files) (coloured : Bool) (i : Invocation) : Report :=
  match load files i with
  | .error message => .failed message
  | .ok (config, r) =>
    match i.command with
    | .check quiet => runCheck coloured quiet r
    | .bind form group format path =>
      match runBind files config r form group format path with
      | .ok text => .done text
      | .error message => .failed message

def Request.report (files : Files) (coloured : Bool) : Request → Report
  | .run i => i.report files coloured
  | .help topic => .done topic.text
  | .version => .done versionText
  | .misuse => .misuse

end FormSchema.CommandLine
