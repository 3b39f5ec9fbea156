import FormSchema.Yaml.Marks
import FormSchema.Yaml.Words

/-!
# From text to tokens

A lexer goes through a text from front to back. It keeps the columns of the block collections it is
in, and for every flow collection it is in the place where a key may have begun: when a colon
shows that it was a key, the token that announces it is put there after the fact.

* `Yaml.tokens?` — the tokens of a text.
-/

namespace FormSchema.Yaml

/-- A place where a key may have begun. -/
structure KeyPlace where
  -- whether a key has to begin here, because the place is where a block mapping is indented
  required : Bool
  -- the number of tokens before the place
  before : Nat
  line : Nat
  column : Nat

/-- How many characters after its beginning the colon of a key may stand. -/
def keyReach : Nat := 1024

structure Lexer where
  cursor : Cursor
  -- the tokens so far, last first
  tokens : List Token
  -- the number of tokens so far
  count : Nat
  -- one more than the column of the block collection around the cursor; zero outside
  margin : Nat
  -- the margins of the collections around that one, innermost first
  outerMargins : List Nat
  -- whether a key may begin at the cursor
  keyAllowed : Bool
  -- where a key may have begun in the collection around the cursor
  keyPlace : Option KeyPlace
  -- the same for the collections around that one; there is one for every flow collection
  outerPlaces : List (Option KeyPlace)

namespace Lexer

def start (cs : List Char) : Lexer := ⟨.start cs, [], 0, 0, [], true, none, []⟩

def inFlow (l : Lexer) : Bool := !l.outerPlaces.isEmpty

def emit (t : Token) (l : Lexer) : Lexer := { l with tokens := t :: l.tokens, count := l.count + 1 }

def emitAt (before : Nat) (t : Token) (l : Lexer) : Lexer :=
  { l with tokens := l.tokens.insertIdx (l.count - before) t, count := l.count + 1 }

def goTo (c : Cursor) (l : Lexer) : Lexer := { l with cursor := c }

def allowKey (allowed : Bool) (l : Lexer) : Lexer := { l with keyAllowed := allowed }

/-! ### Places of keys -/

def dropPlace (l : Lexer) : Option Lexer :=
  if l.keyPlace.any KeyPlace.required then none else some { l with keyPlace := none }

/-- Remembers the cursor as the place of a key, if one may begin here. -/
def markPlace (l : Lexer) : Option Lexer :=
  if l.keyAllowed then do
    let required := !l.inFlow && l.margin = l.cursor.column + 1
    let l ← l.dropPlace
    some { l with keyPlace := some ⟨required, l.count, l.cursor.line, l.cursor.column⟩ }
  else some l

/-- Whether a colon at the cursor no longer belongs to a key at a place. -/
def isBeyond (l : Lexer) (p : KeyPlace) : Bool :=
  p.line < l.cursor.line || p.column + keyReach < l.cursor.column

/-- Gives up every place that is out of reach, unless a key has to be there. -/
def dropDistant (l : Lexer) : Option Lexer :=
  if (l.keyPlace :: l.outerPlaces).any fun p => p.any fun p => p.required && l.isBeyond p then none
  else
    let near (p : Option KeyPlace) : Option KeyPlace := p.filter fun p => !l.isBeyond p
    some { l with keyPlace := near l.keyPlace, outerPlaces := l.outerPlaces.map near }

/-! ### Block collections -/

/-- Ends block collections until the margin is no greater than a given one. -/
def closeBlocks (margin : Nat) (l : Lexer) : Lexer :=
  if l.inFlow then l else close l.margin l.outerMargins l
where
  -- Goes outwards through the margins.
  close (current : Nat) : List Nat → Lexer → Lexer
    | [], l => { l with margin := current, outerMargins := [] }
    | outer :: rest, l =>
      if margin < current then close outer rest (l.emit .blockEnd)
      else { l with margin := current, outerMargins := outer :: rest }

/-- Begins a block collection at a column, unless there is one already. -/
def openBlock (column before : Nat) (t : Token) (l : Lexer) : Lexer :=
  if l.inFlow || column < l.margin then l
  else
    emitAt before t { l with margin := column + 1, outerMargins := l.margin :: l.outerMargins }

/-! ### Steps -/

/-- Passes over blanks, comments and line breaks, up to `fuel` lines. At the beginning of a line in
a block a tab is no blank. -/
def skipGap : Nat → Lexer → Lexer
  | 0, l => l
  | fuel + 1, l =>
    let c := l.cursor
    let c := if c.column = 0 && c.rest.head? = some byteOrderMark then c.skip 1 else c
    let c := c.skipWhile fun x => x = ' ' || (x = '\t' && (l.inFlow || !l.keyAllowed))
    let c := if c.rest.head? = some '#' then c.skipWhile fun _ => true else c
    if c.rest.head?.any isBreak then
      skipGap fuel { l with cursor := c.skipBreak, keyAllowed := l.keyAllowed || !l.inFlow }
    else { l with cursor := c }

def take (t : Token) (width : Nat) (l : Lexer) : Lexer := (l.emit t).goTo (l.cursor.skip width)

def takeSeparator (t : Token) (l : Lexer) : Option Lexer := do
  let l ← (l.closeBlocks 0).dropPlace
  some ((l.take t 3).allowKey false)

def takeDirective (l : Lexer) : Option Lexer := do
  let l ← (l.closeBlocks 0).dropPlace
  let (t, c) ← l.cursor.directive
  some (((l.emit t).goTo c).allowKey false)

def takeOpening (t : Token) (l : Lexer) : Option Lexer := do
  let l ← l.markPlace
  let l := { l with keyPlace := none, outerPlaces := l.keyPlace :: l.outerPlaces }
  some ((l.take t 1).allowKey true)

def takeClosing (t : Token) (l : Lexer) : Option Lexer := do
  let l ← l.dropPlace
  let l := match l.outerPlaces with
    | [] => l
    | p :: ps => { l with keyPlace := p, outerPlaces := ps }
  some ((l.take t 1).allowKey false)

def takeComma (l : Lexer) : Option Lexer := do
  let l ← l.dropPlace
  some ((l.take .separator 1).allowKey true)

def takeHyphen (l : Lexer) : Option Lexer :=
  if !l.inFlow && !l.keyAllowed then none
  else do
    let l ← (l.openBlock l.cursor.column l.count .blockSequence).dropPlace
    some ((l.take .item 1).allowKey true)

def takeQuestion (l : Lexer) : Option Lexer :=
  if !l.inFlow && !l.keyAllowed then none
  else do
    let l ← (l.openBlock l.cursor.column l.count .blockMapping).dropPlace
    some ((l.take .key 1).allowKey !l.inFlow)

/-- Takes the colon before a value. If a key may have begun before it, that was a key. -/
def takeColon (l : Lexer) : Option Lexer :=
  match l.keyPlace with
  | some p =>
    let l := (l.emitAt p.before .key).openBlock p.column p.before .blockMapping
    some (({ l with keyPlace := none }.take .value 1).allowKey false)
  | none =>
    if !l.inFlow && !l.keyAllowed then none
    else
      let l := l.openBlock l.cursor.column l.count .blockMapping
      some ((l.take .value 1).allowKey !l.inFlow)

def takeName (t : String → Token) (l : Lexer) : Option Lexer := do
  let l ← l.markPlace
  let (name, c) ← l.cursor.name
  some (((l.emit (t name)).goTo c).allowKey false)

def takeTag (l : Lexer) : Option Lexer := do
  let l ← l.markPlace
  let (t, c) ← l.cursor.tag l.inFlow
  some (((l.emit t).goTo c).allowKey false)

def takeBlock (literal : Bool) (l : Lexer) : Option Lexer := do
  let l ← l.dropPlace
  let (text, c) ← l.cursor.block literal l.margin
  some (((l.emit (.scalar false (String.ofList text))).goTo c).allowKey true)

def takeQuoted (double : Bool) (l : Lexer) : Option Lexer := do
  let l ← l.markPlace
  let (text, c) ← l.cursor.quoted double
  some (((l.emit (.scalar false (String.ofList text))).goTo c).allowKey false)

def takePlain (l : Lexer) : Option Lexer := do
  let l ← l.markPlace
  let (text, lineEnded, c) ← l.cursor.plain l.inFlow l.margin
  some (((l.emit (.scalar true (String.ofList text))).goTo c).allowKey lineEnded)

/-- Characters that plain text does not begin with. -/
def indicators : List Char :=
  ['-', '?', ':', ',', '[', ']', '\x7b', '\x7d', '#', '&', '*', '!', '|', '>', '\x27', '\x22', '%',
    '@', '\x60']

/-- Whether plain text begins with a character. A hyphen can begin it when no blank follows; a
question mark or a colon can too, but not in flow collections. -/
def beginsPlain (inFlow : Bool) (c : Char) (rest : List Char) : Bool :=
  !(isBlank c || indicators.contains c) ||
    (c = '-' && !startsBlank rest) || (!inFlow && (c = '?' || c = ':') && !startsBlank rest)

/-- Takes the token that begins with a character. -/
def step (l : Lexer) (c : Char) (rest : List Char) : Option Lexer :=
  if l.cursor.column = 0 && c = '%' then l.takeDirective
  else if l.cursor.atMarker '-' then l.takeSeparator .documentStart
  else if l.cursor.atMarker '.' then l.takeSeparator .documentEnd
  else if c = '[' then l.takeOpening .flowSequence
  else if c = '\x7b' then l.takeOpening .flowMapping
  else if c = ']' then l.takeClosing .flowSequenceEnd
  else if c = '\x7d' then l.takeClosing .flowMappingEnd
  else if c = ',' then l.takeComma
  else if c = '-' && startsBlank rest then l.takeHyphen
  else if c = '?' && (l.inFlow || startsBlank rest) then l.takeQuestion
  else if c = ':' && (l.inFlow || startsBlank rest) then l.takeColon
  else if c = '*' then l.takeName .alias
  else if c = '&' then l.takeName .anchor
  else if c = '!' then l.takeTag
  else if c = '|' && !l.inFlow then l.takeBlock true
  else if c = '>' && !l.inFlow then l.takeBlock false
  else if c = '\x27' then l.takeQuoted false
  else if c = '\x22' then l.takeQuoted true
  else if beginsPlain l.inFlow c rest then l.takePlain
  else none

/-- Takes tokens up to the end of the text. Every token takes at least one character. -/
def run : Nat → Lexer → Option (List Token)
  | 0, _ => none
  | fuel + 1, l => do
    let l ← (l.skipGap (fuel + 1)).dropDistant
    match l.cursor.rest with
    | [] => do
      let l ← (l.closeBlocks 0).dropPlace
      some l.tokens.reverse
    | c :: rest => run fuel (← (l.closeBlocks (l.cursor.column + 1)).step c rest)

end Lexer

/-- The tokens of a text; `none` when it has none. -/
def tokens? (text : String) : Option (List Token) := do
  let cs ← characters? text
  (Lexer.start cs).run (cs.length + 1)

end FormSchema.Yaml
