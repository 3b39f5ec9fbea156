import FormSchema.CommandLine.Invocation

/-!
# Help

The texts that the program prints about itself.
-/

namespace FormSchema.CommandLine

def programName : String := "formbind"

def versionText : String := "form-binding 0.1.0\n"

/-- A line of a list: a heading, padded to a width, and what it is about. -/
def helpLine (width : Nat) (heading about : String) : String :=
  "  " ++ heading ++ String.ofList (List.replicate (width - heading.length) ' ') ++ "  " ++ about ++
    "\n"

/-- A titled list. The headings are padded to the longest of them. -/
def helpList (title : String) (lines : List (String × String)) : String :=
  let width := (lines.map fun l => l.1.length).foldl max 0
  title ++ ":\n" ++ String.join (lines.map fun (heading, about) => helpLine width heading about)

def usage (words : String) : String := s!"Usage: {programName} {words}\n"

def verboseHelp : String × String := ("-v, --verbose...", "Verbosity (-v, -vv, -vvv)")

def configHelp : String × String :=
  ("-c, --config <CONFIG>",
    "Configuration file; defaults to `formbind.toml` in the forms directory")

def helpHelp : String × String := ("-h, --help", "Print help")

def formsHelp : String × String :=
  ("    --forms <DIR>", s!"The directory holding the form files [default: {standardForms}]")

def bindAbout : String := "Bind a document to a form and print the output tree"

def checkAbout : String := "Check a directory of forms for dangling references and cycles"

def helpAbout : String := "Print this message or the help of the given subcommand(s)"

def formatHelp : String × String :=
  let words := ", ".intercalate (Format.all.map Format.word)
  ("    --format <FORMAT>",
    s!"Output format [default: {Format.yaml.word}] [possible values: {words}]")

def Topic.text : Topic → String
  | .program =>
    "Schema-driven binding of structured data to form definitions\n\n"
      ++ usage "[OPTIONS] <COMMAND>" ++ "\n"
      ++ helpList "Commands" [("bind", bindAbout), ("check", checkAbout), ("help", helpAbout)]
      ++ "\n"
      ++ helpList "Options"
        [verboseHelp, configHelp, helpHelp, ("-V, --version", "Print version")]
  | .bind =>
    bindAbout ++ "\n\n" ++ usage "bind [OPTIONS] --form <ID> <DOCUMENT>" ++ "\n"
      ++ helpList "Arguments" [("<DOCUMENT>", "The document to bind (JSON or YAML)")] ++ "\n"
      ++ helpList "Options"
        [formsHelp, verboseHelp, configHelp, ("    --form <ID>", "The id of the root form"),
          ("    --group <GROUP>", "The group of the root form"), formatHelp, helpHelp]
  | .check =>
    checkAbout ++ "\n\n" ++ usage "check [OPTIONS]" ++ "\n"
      ++ helpList "Options"
        [formsHelp, verboseHelp, configHelp,
          ("-q, --quiet", "Suppress everything but the summary line"), helpHelp]
  | .help =>
    helpAbout ++ "\n\n" ++ usage "help [COMMAND]..." ++ "\n"
      ++ helpList "Arguments" [("[COMMAND]...", "Print help for the subcommand(s)")]

end FormSchema.CommandLine
