import FormSchema.Yaml.Token

/-!
# YAML nodes

The contents of a document as they are written: scalars, sequences and mappings, any of which may
have an anchor and a tag, and aliases. An anchor is known by a number, the count of names known
when it was set, and so is the alias that refers to it by name. A name that is set again makes the
next new name share its number, and the last node of a number is the one aliases lead to.

* `Yaml.Node.ofTokens?` — the document in a list of tokens.
-/

namespace FormSchema.Yaml

/-- What may stand beside a node. -/
structure Properties where
  anchor : Option Nat
  tag : Option String
deriving DecidableEq, Inhabited

/-- A scalar as it is written. -/
structure Scalar where
  tag : Option String
  -- whether the text stands without quotes
  plain : Bool
  text : String
deriving DecidableEq, Inhabited

/-- A node of a document. -/
inductive Node where
  | scalar (anchor : Option Nat) (content : Scalar)
  | sequence (properties : Properties) (items : List Node)
  | mapping (properties : Properties) (entries : List (Node × Node))
  | alias (number : Nat)
deriving Inhabited

def Scalar.empty : Scalar := ⟨none, true, ""⟩

namespace Node

def empty : Node := .scalar none .empty

/-- What is left to read, and the names known so far. -/
structure Progress where
  tokens : List Token
  -- anchors by name, with their numbers
  anchors : List (String × Nat)
  -- the beginnings of tags, by handle
  handles : List (String × String)

abbrev Reader := StateT Progress Option

def peek : Reader (Option Token) := do return (← get).tokens.head?

def advance : Reader Unit := modify fun s => { s with tokens := s.tokens.tail }

def nextIs (options : List Token) : Reader Bool := do
  return (← peek).any options.contains

/-- Passes over the next token if it is a given one, and says whether it was. -/
def accept (t : Token) : Reader Bool := do
  if ← nextIs [t] then
    advance
    return true
  else return false

def expect (t : Token) : Reader Unit := do
  if !(← accept t) then failure

/-! ### Anchors and tags -/

/-- Sets an anchor: it gets the count of names known so far. -/
def setAnchor (name : String) : Reader Nat := do
  let s ← get
  let number := s.anchors.length
  set { s with anchors := (name, number) :: s.anchors.filter fun a => a.1 != name }
  return number

def findAnchor (name : String) : Reader Nat := do
  match (← get).anchors.lookup name with
  | some number => return number
  | none => failure

def standardHandles : List (String × String) := [("!", "!"), ("!!", "tag:yaml.org,2002:")]

/-- The full tag; a verbatim tag has an empty handle. -/
def fullTag (handle rest : String) : Reader String := do
  if handle.isEmpty then return rest
  else
    match ((← get).handles ++ standardHandles).lookup handle with
    | some beginning => return beginning ++ rest
    | none => failure

def readTag : Reader (Option String) := do
  match ← peek with
  | some (.tag handle rest) =>
    advance
    return some (← fullTag handle rest)
  | _ => return none

def readAnchor : Reader (Option String) := do
  match ← peek with
  | some (.anchor name) =>
    advance
    return some name
  | _ => return none

/-- Reads an anchor and a tag, in either order. The anchor is not set yet. -/
def readProperties : Reader (Option String × Option String) := do
  match ← readAnchor with
  | some name => return (some name, ← readTag)
  | none =>
    match ← readTag with
    | some tag => return (← readAnchor, some tag)
    | none => return (none, none)

/-- Sets the anchor of a node, if it has one. -/
def setAnchor? (name : Option String) : Reader (Option Nat) := do
  match name with
  | some name => return some (← setAnchor name)
  | none => return none

def neutralTag : String := "!"

/-! ### Nodes -/

mutual

/-- Reads a node. `inBlock` says whether a block collection may come next, and `hanging` whether
the items of a sequence may, without a token that begins the sequence. -/
def readNode (inBlock hanging : Bool) : Nat → Reader Node
  | 0 => failure
  | fuel + 1 => do
    if let some (.alias name) ← peek then
      advance
      return .alias (← findAnchor name)
    let (anchor, tag) ← readProperties
    match ← peek with
    | some (.scalar plain text) =>
      advance
      let tag := if tag = some neutralTag then none else tag
      return .scalar (← setAnchor? anchor) ⟨tag, plain, text⟩
    | some .flowSequence =>
      let number ← setAnchor? anchor
      advance
      return .sequence ⟨number, tag⟩ (← readFlowItems true fuel)
    | some .flowMapping =>
      let number ← setAnchor? anchor
      advance
      return .mapping ⟨number, tag⟩ (← readFlowEntries true fuel)
    | next =>
      if hanging && next = some .item then
        return .sequence ⟨← setAnchor? anchor, tag⟩ (← readHangingItems fuel)
      else if inBlock && next = some .blockSequence then
        let number ← setAnchor? anchor
        advance
        return .sequence ⟨number, tag⟩ (← readBlockItems fuel)
      else if inBlock && next = some .blockMapping then
        let number ← setAnchor? anchor
        advance
        return .mapping ⟨number, tag⟩ (← readBlockEntries fuel)
      else if anchor.isSome || tag.isSome then
        return .scalar (← setAnchor? anchor) ⟨tag, true, ""⟩
      else failure

/-- Reads a node, unless one of some tokens comes next. -/
def readNodeUnless (stops : List Token) (inBlock hanging : Bool) : Nat → Reader Node
  | 0 => failure
  | fuel + 1 => do if ← nextIs stops then return .empty else readNode inBlock hanging fuel

def readBlockItems : Nat → Reader (List Node)
  | 0 => failure
  | fuel + 1 => do
    if ← accept .item then
      let item ← readNodeUnless [.item, .blockEnd] true false fuel
      return item :: (← readBlockItems fuel)
    else
      expect .blockEnd
      return []

/-- Reads the items of a sequence that stands as deep as the key it belongs to. -/
def readHangingItems : Nat → Reader (List Node)
  | 0 => failure
  | fuel + 1 => do
    if ← accept .item then
      let item ← readNodeUnless [.item, .key, .value, .blockEnd] true false fuel
      return item :: (← readHangingItems fuel)
    else return []

def readBlockEntries : Nat → Reader (List (Node × Node))
  | 0 => failure
  | fuel + 1 => do
    if ← accept .key then
      let key ← readNodeUnless [.key, .value, .blockEnd] true true fuel
      let value ←
        if ← accept .value then readNodeUnless [.key, .value, .blockEnd] true true fuel
        else pure .empty
      return (key, value) :: (← readBlockEntries fuel)
    else
      expect .blockEnd
      return []

def readFlowItems (first : Bool) : Nat → Reader (List Node)
  | 0 => failure
  | fuel + 1 => do
    if ← accept .flowSequenceEnd then return []
    if !first then expect .separator
    if ← accept .key then
      let pair ← readPair fuel
      return .mapping ⟨none, none⟩ [pair] :: (← readFlowItems false fuel)
    if ← accept .flowSequenceEnd then return []
    let item ← readNode false false fuel
    return item :: (← readFlowItems false fuel)

/-- Reads the key and value of a pair that is an item of a flow sequence. Where the key is empty
the token that shows it is passed over. -/
def readPair : Nat → Reader (Node × Node)
  | 0 => failure
  | fuel + 1 => do
    let key ←
      if ← nextIs [.value, .separator, .flowSequenceEnd] then
        advance
        pure .empty
      else readNode false false fuel
    let value ←
      if ← accept .value then readNodeUnless [.separator, .flowSequenceEnd] false false fuel
      else pure .empty
    return (key, value)

def readFlowEntries (first : Bool) : Nat → Reader (List (Node × Node))
  | 0 => failure
  | fuel + 1 => do
    if ← accept .flowMappingEnd then return []
    if !first then expect .separator
    if ← accept .key then
      let key ← readNodeUnless [.value, .separator, .flowMappingEnd] false false fuel
      let value ←
        if ← accept .value then readNodeUnless [.separator, .flowMappingEnd] false false fuel
        else pure .empty
      return (key, value) :: (← readFlowEntries false fuel)
    if ← accept .flowMappingEnd then return []
    let key ← readNode false false fuel
    return (key, .empty) :: (← readFlowEntries false fuel)

end

/-! ### Documents -/

def isKnownVersion (major minor : Nat) : Bool := major = 1 && (minor = 1 || minor = 2)

/-- Reads the directives before a document: at most one version, and handles that differ. Gives
whether there were any. -/
def readDirectives (versionSeen any : Bool) : Nat → Reader Bool
  | 0 => failure
  | fuel + 1 => do
    match ← peek with
    | some (.version major minor) =>
      if versionSeen || !isKnownVersion major minor then failure
      advance
      readDirectives true true fuel
    | some (.handle name beginning) =>
      if ((← get).handles.lookup name).isSome then failure
      modify fun s => { s with handles := (name, beginning) :: s.handles }
      advance
      readDirectives versionSeen true fuel
    | _ => return any

/-- Passes over the tokens that end a document. -/
def skipEnds : Nat → Reader Unit
  | 0 => failure
  | fuel + 1 => do if ← accept .documentEnd then skipEnds fuel

/-- Reads the only document of a text; a text may also hold none. -/
def readDocument (fuel : Nat) : Reader (Option Node) := do
  if (← peek).isNone then return none
  let directives ← readDirectives false false fuel
  let node ←
    if directives || (← nextIs [.documentStart]) then
      expect .documentStart
      match ← peek with
      | none | some (.version _ _) | some (.handle _ _) | some .documentStart
      | some .documentEnd => pure .empty
      | _ => readNode true false fuel
    else readNode true false fuel
  skipEnds fuel
  if (← peek).isSome then failure
  return some node

/-- The document in a list of tokens: `none` when the tokens do not make up one document, and
`some none` when there are no tokens. Reading takes at most three steps for every token. -/
def ofTokens? (tokens : List Token) : Option (Option Node) :=
  ((readDocument (3 * tokens.length + 3)).run ⟨tokens, [], []⟩).map Prod.fst

end Node

end FormSchema.Yaml
