import FormSchema.Toml.Quoted
import FormSchema.Toml.Scalar
import FormSchema.Toml.Table

/-!
# Reading TOML

`Toml.parse` reads a text as one table. Arrays and tables between braces may be nested in one
another up to a limit, and both may extend over several lines.
-/

namespace FormSchema.Toml

/-- How many arrays and tables between braces may be nested in one another. -/
def nestingLimit : Nat := 80

def dropBlanks (cs : List Char) : List Char := cs.dropWhile isBlank

/-- The text after blanks, line breaks and comments. `inComment` says whether a comment has
begun. -/
def dropFiller : Bool → List Char → List Char
  | _, '\r' :: '\n' :: cs => dropFiller false cs
  | inComment, c :: cs =>
    if c = '\n' then dropFiller false cs
    else if inComment then if isInline c then dropFiller true cs else c :: cs
    else if c = '#' then dropFiller true cs
    else if isBlank c then dropFiller false cs
    else c :: cs
  | _, [] => []

/-- Reads the rest of a line, which may hold a comment. -/
def readLineEnd (cs : List Char) : Parse (List Char) :=
  let cs := match dropBlanks cs with
    | '#' :: r => r.dropWhile isInline
    | r => r
  match cs with
  | [] => .ok []
  | c :: r =>
    match afterBreak? (c :: r) with
    | some r => .ok r
    | none => .error (c :: r)

def expect (c : Char) : List Char → Parse (List Char)
  | [] => .error []
  | x :: cs => if x = c then .ok cs else .error (x :: cs)

/-! ### Keys -/

def isKeyChar (c : Char) : Bool := c.isAlphanum || c = '-' || c = '_'

def readKeyPart (cs : List Char) : Parse (String × List Char) :=
  match cs with
  | '\x22' :: r => (readBasic r).map fun (s, r) => (String.ofList s, r)
  | '\x27' :: r => (readLiteral r).map fun (s, r) => (String.ofList s, r)
  | cs =>
    let word := cs.takeWhile isKeyChar
    if word.isEmpty then .error cs else .ok (String.ofList word, cs.dropWhile isKeyChar)

/-- Reads a key of parts that are separated by dots, and the blanks behind it. -/
def readKey : Nat → List Char → Parse (List String × List Char)
  | 0, cs => .error cs
  | fuel + 1, cs => do
    let (part, cs) ← readKeyPart cs
    match dropBlanks cs with
    | '.' :: r => do
      let (parts, r) ← readKey fuel (dropBlanks r)
      .ok (part :: parts, r)
    | r => .ok ([part], r)

/-! ### Values -/

def endsWord (c : Char) : Bool :=
  isBlank c || c = '\n' || c = '\r' || c = '#' || c = ',' || c = ']' || c = '\x7d'

/-- Splits off the word that begins here. A date and a time with a space between them are one. -/
def takeWord (cs : List Char) : List Char × List Char :=
  let word := cs.takeWhile fun c => !endsWord c
  match cs.drop word.length with
  | ' ' :: d :: r =>
    if d.isDigit && afterDate? word = some [] then
      let time := (d :: r).takeWhile fun c => !endsWord c
      (word ++ ' ' :: time, (d :: r).drop time.length)
    else (word, ' ' :: d :: r)
  | r => (word, r)

/-- The value of a word. A whole number has to fit into 64 bits. -/
def wordValue? (word : List Char) : Option Value :=
  if word = "true".toList || word = "false".toList then
    some (.other s!"boolean `{String.ofList word}`")
  else
    match integer? word with
    | some n => if isWord n then some (.integer n) else none
    | none =>
      match realText? word with
      | some text => some (.other s!"floating point `{text}`")
      | none => if isMoment word then some (.other "map") else none

def readWord (cs : List Char) : Parse (Value × List Char) :=
  let (word, rest) := takeWord cs
  match wordValue? word with
  | some v => .ok (v, rest)
  | none => .error cs

mutual

def readValue (levels : Nat) : Nat → List Char → Parse (Value × List Char)
  | 0, cs => .error cs
  | fuel + 1, cs =>
    match cs with
    | '\x22' :: _ | '\x27' :: _ => (readString cs).map fun (s, r) => (.string (String.ofList s), r)
    | '[' :: r =>
      match levels with
      | 0 => .error cs
      | levels + 1 => (readItems levels fuel r).map fun (items, r) => (.array items, r)
    | '\x7b' :: r =>
      match levels with
      | 0 => .error cs
      | levels + 1 =>
        (readEntries levels fuel ⟨.braces, []⟩ r).map fun (t, r) => (t.value, r)
    | cs => readWord cs

def readItems (levels : Nat) : Nat → List Char → Parse (List Value × List Char)
  | 0, cs => .error cs
  | fuel + 1, cs =>
    match dropFiller false cs with
    | ']' :: r => .ok ([], r)
    | r => do
      let (v, r) ← readValue levels fuel r
      match dropFiller false r with
      | ']' :: r => .ok ([v], r)
      | ',' :: r => do
        let (vs, r) ← readItems levels fuel r
        .ok (v :: vs, r)
      | r => .error r

def readEntries (levels : Nat) : Nat → Table → List Char → Parse (Table × List Char)
  | 0, _, cs => .error cs
  | fuel + 1, t, cs =>
    match dropFiller false cs with
    | '\x7d' :: r => .ok (t, r)
    | start => do
      let (path, r) ← readKey (start.length + 1) start
      let r ← expect '=' r
      let (v, r) ← readValue levels fuel (dropBlanks r)
      match t.put path v with
      | none => .error start
      | some t =>
        match dropFiller false r with
        | '\x7d' :: r => .ok (t, r)
        | ',' :: r => readEntries levels fuel t r
        | r => .error r

end

/-! ### Lines -/

/-- A text that is read in part: the table so far, and the header that counts. -/
structure Progress where
  root : Table
  header : List String

def Progress.put (p : Progress) (path : List String) (v : Value) : Option Progress := do
  let root ← Table.within false (Table.put path v) p.header p.root
  some { p with root := root }

def Progress.openSection (p : Progress) (item : Bool) (path : List String) : Option Progress := do
  let root ← p.root.openHeader item path
  some ⟨root, path⟩

/-- What a line does to what was read before, or the rest of the text where that is wrong. -/
def orStop (rest : List Char) : Option Progress → Parse Progress
  | some p => .ok p
  | none => .error rest

def readHeader (p : Progress) (cs : List Char) : Parse (Progress × List Char) := do
  let (item, r) := match cs with
    | '[' :: r => (true, r)
    | r => (false, r)
  let (path, r) ← readKey (r.length + 1) (dropBlanks r)
  let r ← expect ']' r
  let r ← if item then expect ']' r else .ok r
  let p ← orStop cs (p.openSection item path)
  .ok (p, r)

def readPair (p : Progress) (cs : List Char) : Parse (Progress × List Char) := do
  let (path, r) ← readKey (cs.length + 1) cs
  let r ← expect '=' r
  let (v, r) ← readValue nestingLimit (r.length + 1) (dropBlanks r)
  let p ← orStop cs (p.put path v)
  .ok (p, r)

/-- Reads lines up to the end of the text. -/
def readLines : Nat → Progress → List Char → Parse Table
  | 0, _, cs => .error cs
  | fuel + 1, p, cs =>
    match dropFiller false cs with
    | [] => .ok p.root
    | cs => do
      let (p, r) ← match cs with
        | '[' :: r => readHeader p r
        | cs => readPair p cs
      readLines fuel p (← readLineEnd r)

/-- A place in a text, with lines and columns counted from one. -/
structure Place where
  line : Nat
  column : Nat
deriving DecidableEq

def Place.after (cs : List Char) : Place :=
  ⟨cs.count '\n' + 1, (cs.reverse.takeWhile (· != '\n')).length + 1⟩

/-- Reads a text; or else gives the place where it is wrong. A mark may precede the text. -/
def parse (text : String) : Except Place Table :=
  let cs := text.toList
  let body := if cs.head? = some '\ufeff' then cs.tail else cs
  match readLines (body.length + 1) ⟨Table.root, []⟩ body with
  | .ok t => .ok t
  | .error rest => .error (.after (cs.take (cs.length - rest.length)))

end FormSchema.Toml
