import FormSchema.CommandLine.Arguments

/-!
# Invocations

The commands of the program and what the words on its command line ask for. Two options belong to
the program as a whole and may be given before or after the name of a command; given in both
places, the later one counts.
-/

namespace FormSchema.CommandLine

/-- How an output tree is printed. -/
inductive Format where
  | yaml
  | json
deriving DecidableEq, Inhabited

def Format.word : Format → String
  | .yaml => "yaml"
  | .json => "json"

def Format.all : List Format := [.yaml, .json]

def Format.ofWord (word : String) : Format := (all.find? fun f => f.word = word).getD .yaml

/-- What the program is asked to do. -/
inductive Command where
  -- bind a document to a form and print the output tree
  | bind (form : String) (group : Option String) (format : Format) (document : String)
  -- report dangling references and cycles
  | check (quiet : Bool)
deriving DecidableEq

/-- A command, with where it finds forms and configuration. -/
structure Invocation where
  -- the path of a configuration file, if one is given
  config : Option String
  -- the path of the directory of form files
  forms : String
  command : Command
deriving DecidableEq

/-- A part of the program that there is help for. -/
inductive Topic where
  | program
  | bind
  | check
  -- the command that prints help
  | help
deriving DecidableEq

/-- What comes of the words on a command line. -/
inductive Request where
  | run (invocation : Invocation)
  | help (topic : Topic)
  | version
  -- the words are wrong
  | misuse
deriving DecidableEq

/-! ### Options -/

/-- The options of the program as a whole that every command shares. -/
def sharedOptions : List OptionSpec :=
  [⟨.verbose, "verbose", some 'v', .count⟩, ⟨.config, "config", some 'c', .path⟩,
    ⟨.help, "help", some 'h', .flag⟩]

def programOptions : List OptionSpec :=
  sharedOptions ++ [⟨.version, "version", some 'V', .flag⟩]

def formsOption : OptionSpec := ⟨.forms, "forms", none, .path⟩

def bindOptions : List OptionSpec :=
  sharedOptions ++ [formsOption, ⟨.form, "form", none, .text⟩, ⟨.group, "group", none, .text⟩,
    ⟨.format, "format", none, .word (Format.all.map Format.word)⟩]

def checkOptions : List OptionSpec :=
  sharedOptions ++ [formsOption, ⟨.quiet, "quiet", some 'q', .flag⟩]

def standardForms : String := "."

/-! ### Commands -/

def bindRequest (config : Option String) (a : Arguments) : Request :=
  match a.get? .form, a.words with
  | some form, [document] =>
    .run ⟨a.get? .config <|> config, (a.get? .forms).getD standardForms,
      .bind form (a.get? .group) ((a.get? .format).elim .yaml Format.ofWord) document⟩
  | _, _ => .misuse

def checkRequest (config : Option String) (a : Arguments) : Request :=
  .run ⟨a.get? .config <|> config, (a.get? .forms).getD standardForms, .check (a.has .quiet)⟩

/-- The request in the words of a command with options of its own and some paths. -/
def commandRequest (topic : Topic) (specs : List OptionSpec) (paths : Nat) (words : List String)
    (request : Arguments → Request) : Request :=
  match Arguments.ofWords specs (.paths paths) words with
  | .ok (a, _) => request a
  | .error .help => .help topic
  | .error _ => .misuse

/-- The topic that words name. The commands that bind and check have no parts of their own. -/
def topic? : List String → Option Topic
  | [] => some .program
  | ["bind"] => some .bind
  | ["check"] => some .check
  | ["help"] => some .help
  | _ => none

def Request.ofWords (words : List String) : Request :=
  match Arguments.ofWords programOptions .command words with
  | .error .help => .help .program
  | .error .version => .version
  | .error .misuse => .misuse
  | .ok (a, rest) =>
    let config := a.get? .config
    match a.words with
    | ["bind"] => commandRequest .bind bindOptions 1 rest (bindRequest config)
    | ["check"] => commandRequest .check checkOptions 0 rest (checkRequest config)
    | ["help"] => (topic? rest).elim .misuse .help
    | _ => .misuse

end FormSchema.CommandLine
