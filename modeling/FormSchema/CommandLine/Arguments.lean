/-!
# Arguments

The options of a command and the words given to it. Words are taken from left to right: an option
by its long name, a row of options by their letters, a value of an option, or a word of its own. A
lone double hyphen makes every later word a word of its own. The first word that asks for help, or
is wrong, settles the matter.
-/

namespace FormSchema.CommandLine

inductive OptionName where
  | verbose
  | config
  | help
  | version
  | forms
  | form
  | group
  | format
  | quiet
deriving DecidableEq, Inhabited

inductive ValueKind where
  -- nothing; the option is given once
  | flag
  -- nothing; the option may be repeated
  | count
  -- any text
  | text
  -- a path, which is not empty
  | path
  -- one of some words
  | word (options : List String)
deriving DecidableEq, Inhabited

def ValueKind.takesValue : ValueKind → Bool
  | .flag | .count => false
  | .text | .path | .word _ => true

def ValueKind.admits (value : String) : ValueKind → Bool
  | .flag | .count | .text => true
  | .path => !value.isEmpty
  | .word options => options.contains value

/-- An option of a command. -/
structure OptionSpec where
  name : OptionName
  long : String
  letter : Option Char
  value : ValueKind
deriving Inhabited

/-- What becomes of words that belong to no option. -/
inductive WordRule where
  -- the first one names a command and ends the words that count
  | command
  -- they are paths, of which there are so many at most
  | paths (most : Nat)
deriving DecidableEq, Inhabited

/-- Why the words are not carried out. -/
inductive Halt where
  -- a word asks for help with the command
  | help
  -- a word asks for the version of the program
  | version
  -- a word is wrong, or one is missing
  | misuse
deriving DecidableEq

/-- What the words say. -/
structure Arguments where
  -- the options that were given, with their values
  options : List (OptionName × String)
  -- the words that belong to no option
  words : List String
deriving Inhabited

namespace Arguments

def empty : Arguments := ⟨[], []⟩

def get? (a : Arguments) (name : OptionName) : Option String := a.options.lookup name

def has (a : Arguments) (name : OptionName) : Bool := (a.get? name).isSome

def add (a : Arguments) (spec : OptionSpec) (value : String) : Except Halt Arguments :=
  if spec.name = .help then .error .help
  else if spec.name = .version then .error .version
  else if a.has spec.name && spec.value ≠ .count then .error .misuse
  else if !spec.value.admits value then .error .misuse
  else .ok { a with options := a.options ++ [(spec.name, value)] }

def addWord (a : Arguments) (word : String) : Arguments := { a with words := a.words ++ [word] }

def addPath (most : Nat) (a : Arguments) (word : String) : Except Halt Arguments :=
  if word.isEmpty || most ≤ a.words.length then .error .misuse else .ok (a.addWord word)

/-- Whether a word looks like an option. A lone hyphen does not. -/
def looksLikeOption (word : String) : Bool :=
  match word.toList with
  | '-' :: _ :: _ => true
  | _ => false

/-- Takes the value of an option from the words that follow. -/
def addFollowing (a : Arguments) (spec : OptionSpec) :
    List String → Except Halt (Arguments × List String)
  | [] => .error .misuse
  | word :: rest =>
    if looksLikeOption word then .error .misuse
    else do .ok (← a.add spec word, rest)

/-- Takes an option by its long name, with the value behind an equals sign if there is one. -/
def addLong (specs : List OptionSpec) (a : Arguments) (name : List Char) (rest : List String) :
    Except Halt (Arguments × List String) :=
  let long := String.ofList (name.takeWhile (· ≠ '='))
  match specs.find? fun s => s.long = long, name.dropWhile (· ≠ '=') with
  | none, _ => .error .misuse
  | some spec, [] =>
    if spec.value.takesValue then a.addFollowing spec rest
    else do .ok (← a.add spec "", rest)
  | some spec, _ :: value =>
    if spec.value.takesValue then do .ok (← a.add spec (String.ofList value), rest)
    else .error .misuse

/-- Takes a row of options by their letters. What stands behind the letter of an option that takes
a value is the value, less an equals sign. -/
def addLetters (specs : List OptionSpec) (a : Arguments) (rest : List String) :
    List Char → Except Halt (Arguments × List String)
  | [] => .ok (a, rest)
  | c :: cs =>
    match specs.find? fun s => s.letter = some c with
    | none => .error .misuse
    | some spec =>
      if spec.value.takesValue then
        match cs with
        | [] => a.addFollowing spec rest
        | '=' :: value => do .ok (← a.add spec (String.ofList value), rest)
        | value => do .ok (← a.add spec (String.ofList value), rest)
      else do addLetters specs (← a.add spec "") rest cs

/-- Takes words that are no options whatever they look like. None of them names a command. -/
def takePlain (rule : WordRule) (a : Arguments) (words : List String) :
    Except Halt (Arguments × List String) :=
  match rule with
  | .command => .error .misuse
  | .paths most => do .ok (← words.foldlM (addPath most) a, [])

/-- Takes the words of a command. Gives what they say and the words that do not count. -/
def take (specs : List OptionSpec) (rule : WordRule) :
    Nat → Arguments → List String → Except Halt (Arguments × List String)
  | 0, _, _ => .error .misuse
  | _ + 1, a, [] => .ok (a, [])
  | fuel + 1, a, word :: rest =>
    match word.toList with
    | ['-', '-'] => takePlain rule a rest
    | '-' :: '-' :: name => do
      let (a, rest) ← addLong specs a name rest
      take specs rule fuel a rest
    | '-' :: c :: letters => do
      let (a, rest) ← addLetters specs a rest (c :: letters)
      take specs rule fuel a rest
    | _ =>
      match rule with
      | .command => .ok (a.addWord word, rest)
      | .paths most => do take specs rule fuel (← addPath most a word) rest

/-- What the words of a command say. Every option and path takes up at least one of them. -/
def ofWords (specs : List OptionSpec) (rule : WordRule) (words : List String) :
    Except Halt (Arguments × List String) :=
  take specs rule (words.length + 1) empty words

end Arguments

end FormSchema.CommandLine
