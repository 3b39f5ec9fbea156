import FormSchema.Config.Basic
import FormSchema.FileTree
import FormSchema.Toml.Reader

/-!
# Configuration files

A configuration is kept as a TOML text with a version and the three settings. A setting that is
left out has its standard value; other keys are passed over.

What is written and read is not the configuration itself but one of the versions in which it may be kept, of
which there is only one so far. A configuration is turned into the latest version before it is written, and a
version that was read is turned into a configuration, so that either may change without the other.

* `Config.Versions` — what is kept of a configuration; `Config.Versions.config`, `Config.Versions.ofConfig`
  turn it into a configuration and back.
* `Config.parse` — the configuration of a text.
* `Config.text` — the text of a configuration.
-/

namespace FormSchema

/-- Why a text is not a configuration. -/
inductive ConfigFault where
  -- the text is wrong at a place
  | malformed (place : Toml.Place)
  -- the version is not stated, or is not known
  | version
  -- a depth is out of range
  | depth (value : Int)
  -- a value is not of the kind that a setting asks for
  | kind (found : String) (expected : String)
  -- a token names no cardinality
  | cardinality (cause : UnknownCardinality)
deriving DecidableEq

def ConfigFault.message : ConfigFault → String
  | .malformed p => s!"TOML parse error at line {p.line}, column {p.column}"
  | .version => "TOML parse error at line 1, column 1"
  | .depth n => s!"invalid value: integer `{n}`, expected usize"
  | .kind found expected => s!"invalid type: {found}, expected {expected}"
  | .cardinality e => e.message

/-- Why a configuration file cannot be used. -/
inductive ConfigError where
  | unreadable (fault : ReadFault)
  | invalid (fault : ConfigFault)
deriving DecidableEq

def ConfigError.message : ConfigError → String
  | .unreadable e => s!"failed to access config file: {e.message}"
  | .invalid e => s!"failed to parse config file: {e.message}"

namespace Config

/-! ### Versions -/

/-- The versions in which configurations are kept. The tag of a version is its text under the key of versions. -/
inductive Versions where
  -- tagged "1"
  | v1 (maxReferenceDepth : Nat) (defaultCardinality : Cardinality) (formExtensions : List String)
deriving DecidableEq

namespace Versions

/-- The configuration that is kept. -/
def config : Versions → Config
  | .v1 depth cardinality extensions => ⟨depth, cardinality, extensions⟩

/-- The latest version of a configuration. -/
def ofConfig (c : Config) : Versions := .v1 c.maxReferenceDepth c.defaultCardinality c.formExtensions

/-- What is kept of a configuration is all of it. -/
@[simp] theorem config_ofConfig (c : Config) : (ofConfig c).config = c := rfl

end Versions

/-! ### Reading -/

def versionKey : String := "_version"

def version : String := "1"

def depthKey : String := "max_reference_depth"

def cardinalityKey : String := "default_cardinality"

def extensionsKey : String := "form_extensions"

def quotedChar (c : Char) : String :=
  if c = '\x22' then "\\\x22"
  else if c = '\\' then "\\\\"
  else if c = '\n' then "\\n"
  else if c = '\r' then "\\r"
  else if c = '\t' then "\\t"
  else if c = '\x00' then "\\0"
  else if c.toNat < 0x20 || c = '\x7f' then
    "\\u\x7b" ++ String.ofList (Nat.toDigits 16 c.toNat) ++ "\x7d"
  else c.toString

def quoted (s : String) : String := "\x22" ++ String.join (s.toList.map quotedChar) ++ "\x22"

/-- What a message calls a value. -/
def describe : Toml.Value → String
  | .string s => s!"string {quoted s}"
  | .integer n => s!"integer `{n}`"
  | .other name => name
  | .array _ | .tables _ => "sequence"
  | .table _ _ => "map"

def textOf : Toml.Value → Except ConfigFault String
  | .string s => .ok s
  | v => .error (.kind (describe v) "a string")

def depthOf : Toml.Value → Except ConfigFault Nat
  | .integer n =>
    if 0 ≤ n && n < depthBound then .ok n.toNat else .error (.depth n)
  | v => .error (.kind (describe v) "usize")

def cardinalityOf (v : Toml.Value) : Except ConfigFault Cardinality := do
  (Cardinality.ofToken (← textOf v)).mapError .cardinality

def textsOf : Toml.Value → Except ConfigFault (List String)
  | .array items => items.mapM textOf
  | v => .error (.kind (describe v) "a sequence")

/-- The setting of a key, or its standard value. -/
def setting {α : Type} (t : Toml.Table) (key : String) (read : Toml.Value → Except ConfigFault α)
    (standard : α) : Except ConfigFault α :=
  match t.get? key with
  | some v => read v
  | none => .ok standard

/-- The version that a table holds. Settings are judged in the order of their keys. -/
def Versions.ofTable (t : Toml.Table) : Except ConfigFault Versions :=
  match t.get? versionKey with
  | some (.string v) =>
    if v = version then do
      let cardinality ← setting t cardinalityKey cardinalityOf standard.defaultCardinality
      let extensions ← setting t extensionsKey textsOf standard.formExtensions
      let depth ← setting t depthKey depthOf standard.maxReferenceDepth
      .ok (.v1 depth cardinality extensions)
    else .error .version
  | _ => .error .version

/-- The configuration of a table. -/
def ofTable (t : Toml.Table) : Except ConfigFault Config := (Versions.ofTable t).map Versions.config

def parse (text : String) : Except ConfigFault Config := do
  ofTable (← (Toml.parse text).mapError .malformed)

def ofFile (contents : Except ReadFault String) : Except ConfigError Config := do
  (parse (← contents.mapError .unreadable)).mapError .invalid

/-! ### Writing -/

def line (key value : String) : String := key ++ " = " ++ value ++ "\n"

/-- A list of texts. More than one item take up lines of their own. -/
def listText : List String → String
  | [] => "[]"
  | [s] => "[" ++ Toml.stringText s ++ "]"
  | ss => "[\n" ++ String.join (ss.map fun s => "    " ++ Toml.stringText s ++ ",\n") ++ "]"

/-- The text of a version, its tag first. -/
def Versions.text : Versions → String
  | .v1 depth cardinality extensions =>
    line versionKey (Toml.stringText version)
      ++ line depthKey (Nat.repr depth)
      ++ line cardinalityKey (Toml.stringText cardinality.token)
      ++ line extensionsKey (listText extensions)

/-- A configuration is written in its latest version. -/
def text (c : Config) : String := (Versions.ofConfig c).text

end Config

end FormSchema
