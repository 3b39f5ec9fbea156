import FormSchema.Config.Basic
import FormSchema.Form
import FormSchema.FormFile.Draft
import FormSchema.Yaml.Reader

/-!
# Assembling forms

`parseForm` makes a form of the text of a form file. A draft is turned into definitions from the
top downwards: of each node first the cardinality, then the other attributes in their order, then
its children, each of which is complete before it is added. The first fault ends the assembly.
-/

namespace FormSchema

/-- Why a text is not a form. -/
inductive FormFileError where
  -- the text is not a document of the right shape
  | unreadable
  -- a token names no cardinality
  | cardinality (cause : UnknownCardinality)
  -- an other attribute is null or a collection
  | notScalar (name : String)
  -- the definitions cannot be put together
  | model (cause : ModelError)
deriving DecidableEq

def FormFileError.message : FormFileError → String
  | .unreadable => "the text is not a form file"
  | .cardinality e => e.message
  | .notScalar name => s!"attribute '{name}' must be a string, number or boolean"
  | .model e => e.message

/-- The text of a value as an other attribute. -/
def Yaml.Value.attributeText? : Yaml.Value → Option String
  | .string s => some s
  | .bool b => some (if b then "true" else "false")
  | .integer n => some (toString n)
  | .real x => some x.text
  | .null | .sequence _ | .mapping _ => none

def attributeText (name : String) (v : Yaml.Value) : Except FormFileError String :=
  match v.attributeText? with
  | some text => .ok text
  | none => .error (.notScalar name)

def Definition.withOthers (d : Definition) (others : List (String × Yaml.Value)) :
    Except FormFileError Definition :=
  others.foldlM (fun d (name, v) => do
    (d.withAttribute name (← attributeText name v)).mapError .model) d

def Form.withOthers (f : Form) (others : List (String × Yaml.Value)) :
    Except FormFileError Form :=
  others.foldlM (fun f (name, v) => do
    (f.withAttribute name (← attributeText name v)).mapError .model) f

/-- The cardinality of an item: the one its token names, or the configured one. -/
def ItemDraft.cardinalityUnder (config : Config) (item : ItemDraft) :
    Except FormFileError Cardinality :=
  match item.cardinality with
  | none => .ok config.defaultCardinality
  | some token => (Cardinality.ofToken token).mapError .cardinality

/-- The head of a definition. Nothing is looked up for a group, so its lookup is refused. -/
def DraftHead.assemble (config : Config) : DraftHead → Except FormFileError Head
  | .attribute item => do
    return .attribute ⟨⟨item.id, item.lookup, .empty⟩, ← item.cardinalityUnder config⟩
  | .element item => do
    return .element ⟨⟨item.id, item.lookup, .empty⟩, ← item.cardinalityUnder config⟩
  | .choice item => do
    let cardinality ← item.cardinalityUnder config
    if item.lookup.isSome then throw (.model (.attribute (.reserved "lookup")))
    return .choice ⟨item.id, cardinality, .empty⟩
  | .reference target => .ok (.reference ⟨target, .empty⟩)
  | .extension representation => .ok (.extension ⟨representation, .empty⟩)

namespace Draft

mutual

def assemble (config : Config) : Draft → Except FormFileError Definition
  | .node head others children => do
    let d ← (Definition.leaf (← head.assemble config)).withOthers others
    assembleOnto config d children

def assembleOnto (config : Config) (d : Definition) :
    List Draft → Except FormFileError Definition
  | [] => .ok d
  | c :: cs => do
    let child ← c.assemble config
    assembleOnto config (← (d.withChild child).mapError .model) cs

end

end Draft

def FormDraft.assemble (config : Config) (source : String) (draft : FormDraft) :
    Except FormFileError Form := do
  let f ← (Form.empty draft.key source).withOthers draft.others
  draft.children.foldlM (fun f c => do
    let child ← c.assemble config
    (f.withChild child).mapError .model) f

def parseForm (config : Config) (source text : String) : Except FormFileError Form :=
  match Yaml.tree? text >>= FormDraft.ofTree? with
  | none => .error .unreadable
  | some draft => draft.assemble config source

end FormSchema
