import FormSchema.Decimal.Word
import FormSchema.Yaml.Cursor
import FormSchema.Yaml.Token

/-!
# Anchors, aliases, tags and directives

What may stand beside the contents of a text: names for nodes, types for nodes, and the lines that
set up a document. Each reader takes a cursor and gives the token and the cursor after it.
-/

namespace FormSchema.Yaml

/-! ### Names of nodes -/

/-- Reads the name of an anchor or an alias after its sign. -/
def Cursor.name (c : Cursor) : Option (String × Cursor) :=
  let (name, c) := (c.skip 1).span isNameChar
  if name.isEmpty then none
  else if startsBlank c.rest ||
      startsWithOneOf ['?', ':', ',', ']', '\x7d', '%', '@', '\x60'] c.rest then
    some (String.ofList name, c)
  else none

/-! ### Tags -/

/-- Whether a character may stand in a tag. A verbatim tag admits three more. -/
def isTagChar (verbatim : Bool) (c : Char) : Bool :=
  isNameChar c ||
    [';', '/', '?', ':', '@', '&', '=', '+', '$', '.', '!', '~', '*', '\x27', '(', ')'].contains c ||
    (verbatim && [',', '[', ']'].contains c)

/-- Reads a byte that is written as a percent sign and two digits. -/
def readByte : List Char → Option Nat
  | '%' :: a :: b :: _ => do some ((← hexDigit? a) * 16 + (← hexDigit? b))
  | _ => none

/-- The number of bytes of a character, from the first of them. -/
def byteCount? (first : Nat) : Option Nat :=
  if first < 0x80 then some 1
  else if first < 0xc0 then none
  else if first < 0xe0 then some 2
  else if first < 0xf0 then some 3
  else if first < 0xf8 then some 4
  else none

/-- Reads further bytes of a character onto the number made up so far. -/
def readFurtherBytes : Nat → Nat → List Char → Option Nat
  | 0, n, _ => some n
  | count + 1, n, cs => do
    let byte ← readByte cs
    if 0x80 ≤ byte && byte < 0xc0 then
      readFurtherBytes count (n * 0x40 + (byte - 0x80)) (cs.drop 3)
    else none

/-- Stands for what bytes make up if that is no character in its shortest form. -/
def substitute : Char := '\ufffd'

/-- The character of a code point, unless fewer bytes would have done. -/
def characterOf (count n : Nat) : Char :=
  let least := match count with
    | 1 => 0
    | 2 => 0x80
    | 3 => 0x800
    | _ => 0x10000
  if least ≤ n && n.isValidChar then Char.ofNat n else substitute

/-- Reads a character that is written as bytes: the character and the number of bytes. -/
def readBytes (cs : List Char) : Option (Char × Nat) := do
  let first ← readByte cs
  let count ← byteCount? first
  let lead := if count = 1 then first else first % wordValues (7 - count)
  let n ← readFurtherBytes (count - 1) lead (cs.drop 3)
  some (characterOf count n, count)

/-- Reads the characters of a tag. Gives them and how much of the text they take up. -/
def readTagText (verbatim : Bool) : Nat → List Char → Nat → List Char →
    Option (List Char × Nat)
  | 0, _, _, _ => none
  | fuel + 1, done, taken, cs =>
    match cs with
    | [] => some (done.reverse, taken)
    | c :: rest =>
      if c = '%' then do
        let (x, count) ← readBytes cs
        readTagText verbatim fuel (x :: done) (taken + 3 * count) (cs.drop (3 * count))
      else if isTagChar verbatim c then readTagText verbatim fuel (c :: done) (taken + 1) rest
      else some (done.reverse, taken)

def Cursor.tagText (c : Cursor) (verbatim : Bool) : Option (String × Cursor) := do
  let (text, taken) ← readTagText verbatim (c.rest.length + 1) [] 0 c.rest
  some (String.ofList text, c.skip taken)

/-- Reads tag text of at least one character. -/
def Cursor.someTagText (c : Cursor) (verbatim : Bool) : Option (String × Cursor) := do
  let (text, c) ← c.tagText verbatim
  if text.isEmpty then none else some (text, c)

/-- Reads the handle that starts here with an exclamation mark: a name between two marks. -/
def Cursor.handle? (c : Cursor) : Option (String × Cursor) :=
  let (name, after) := (c.skip 1).span isNameChar
  if after.rest.head? = some '!' then some ("!" ++ String.ofList name ++ "!", after.skip 1)
  else none

/-- Reads a tag, whatever follows it. A tag without text has no handle either. -/
def Cursor.tagToken (c : Cursor) : Option (Token × Cursor) :=
  if c.rest[1]? = some '<' then do
    let (text, c) ← (c.skip 2).someTagText true
    if c.rest.head? = some '>' then some (.tag "" text, c.skip 1) else none
  else
    match c.handle? with
    | some (handle, c) => do
      let (text, c) ← c.someTagText false
      some (.tag handle text, c)
    | none => do
      let (text, c) ← (c.skip 1).tagText false
      some (if text.isEmpty then .tag "" "!" else .tag "!" text, c)

/-- Reads a tag. A blank follows it, or a comma within a flow collection. -/
def Cursor.tag (c : Cursor) (inFlow : Bool) : Option (Token × Cursor) := do
  let (token, c) ← c.tagToken
  if startsBlank c.rest || (inFlow && c.rest.head? = some ',') then some (token, c) else none

/-! ### Directives -/

def versionDigits : Nat := 9

def Cursor.versionNumber (c : Cursor) : Option (Nat × Cursor) :=
  let (digits, c) := c.span Char.isDigit
  if digits.isEmpty || digits.length > versionDigits then none
  else some (digits.foldl (fun n d => n * 10 + (d.toNat - '0'.toNat)) 0, c)

/-- Reads the version that a document asks for. -/
def Cursor.version (c : Cursor) : Option (Token × Cursor) := do
  let (major, c) ← (c.skipWhile isBlank).versionNumber
  if c.rest.head? != some '.' then none
  else
    let (minor, c) ← (c.skip 1).versionNumber
    some (.version major minor, c)

/-- Reads the declaration of a handle. -/
def Cursor.handleDeclaration (c : Cursor) : Option (Token × Cursor) := do
  let c := c.skipWhile isBlank
  if c.rest.head? != some '!' then none
  else
    let (handle, c) := c.handle?.getD ("!", c.skip 1)
    if c.rest.isEmpty || !c.atBlank then none
    else
      let (beginning, c) ← (c.skipWhile isBlank).someTagText true
      if startsBlank c.rest then some (.handle handle beginning, c) else none

/-- Reads a directive, which takes up a line. -/
def Cursor.directive (c : Cursor) : Option (Token × Cursor) := do
  let (name, c) := (c.skip 1).span isNameChar
  if name.isEmpty || !startsBlank c.rest then none
  else
    let (token, c) ←
      if name = "YAML".toList then c.version
      else if name = "TAG".toList then c.handleDeclaration
      else none
    let c := c.skipComment
    if startsBreak c.rest then some (token, if c.rest.isEmpty then c else c.skipBreak) else none

end FormSchema.Yaml
