import FormSchema.Yaml.Cursor
import FormSchema.Yaml.Value

/-!
# YAML text

Outlines, the nested records that are written as YAML, and their text. Collections are written as
blocks, indented by two spaces a level; the items of a sequence stand as deep as the key they
belong to. A string is written plain where it would read back as that string, and otherwise in the
simplest of the other styles that can hold it; lines are never folded.
-/

namespace FormSchema.Yaml

/-- A nested record of strings. -/
inductive Outline where
  | text (value : String)
  | sequence (items : List Outline)
  | mapping (entries : List (String × Outline))
deriving Inhabited

/-! ### Styles -/

/-- The styles in which a string can be written. -/
inductive Style where
  | plain
  | single
  | double
  -- a block of lines
  | literal
deriving DecidableEq

def endsLine (c : Char) : Bool := isBreak c || c = '\r' || c = '\u0085'

/-- Whether a character can be written as it is. -/
def isPrintable (c : Char) : Bool :=
  c = '\n' || (' ' ≤ c && c ≤ '~') || ('\u00a0' ≤ c && c ≤ '\ud7ff') ||
    ('\ue000' ≤ c && c ≤ '\ufffd' && c != byteOrderMark) || 0x10000 ≤ c.toNat

/-- Whether what follows a character is a blank, a line break or the end. -/
def startsGap : List Char → Bool
  | [] => true
  | c :: _ => isBlank c || endsLine c

/-- Whether a string that begins so would not read as a plain one. -/
def opensIndicator : List Char → Bool
  | [] => false
  | c :: cs =>
    ['#', ',', '[', ']', '\x7b', '\x7d', '&', '*', '!', '|', '>', '\x27', '\x22', '%', '@',
      '\x60'].contains c ||
      (['?', ':', '-'].contains c && startsGap cs) ||
      ['-', '-', '-'].isPrefixOf (c :: cs) || ['.', '.', '.'].isPrefixOf (c :: cs)

/-- Whether a colon before a gap, or a number sign behind one, stands after the first character. -/
def holdsIndicator : List Char → Bool
  | a :: b :: cs =>
    (b = ':' && startsGap cs) || (b = '#' && (isBlank a || endsLine a)) || holdsIndicator (b :: cs)
  | _ => false

/-- Whether two characters that satisfy two conditions stand next to each other. -/
def holdsPair (p q : Char → Bool) : List Char → Bool
  | a :: b :: cs => (p a && q b) || holdsPair p q (b :: cs)
  | _ => false

def isSpace (c : Char) : Bool := c = ' '

def needsEscapes (cs : List Char) : Bool :=
  !cs.all isPrintable || holdsPair isSpace endsLine cs

/-- Whether a string can be written plain. -/
def admitsPlain (cs : List Char) : Bool :=
  !(needsEscapes cs || cs.any endsLine || opensIndicator cs || holdsIndicator cs ||
    cs.head? = some ' ' || cs.getLast? = some ' ')

def admitsSingle (cs : List Char) : Bool := !(needsEscapes cs || holdsPair endsLine isSpace cs)

def admitsLiteral (cs : List Char) : Bool := !(needsEscapes cs || cs.getLast? = some ' ')

/-- Whether plain text reads back as a string. A padded numeral does, but is quoted all the same. -/
def readsAsString (text : String) : Bool :=
  match plainValue? text with
  | some (.string _) => !isPadded text.toList
  | _ => false

def styleOf (text : String) : Style :=
  let cs := text.toList
  if cs.contains '\n' then if admitsLiteral cs then .literal else .double
  else if readsAsString text && admitsPlain cs then .plain
  else if admitsSingle cs then .single
  else .double

/-! ### Strings -/

def spaces (n : Nat) : String := String.ofList (List.replicate n ' ')

/-- Lines, of which all that are not empty are indented. `fresh` says whether a line begins. -/
def indentLines (indent : Nat) (fresh : Bool) : List Char → List Char
  | [] => []
  | c :: cs =>
    if endsLine c then c :: indentLines indent true cs
    else if fresh then List.replicate indent ' ' ++ c :: indentLines indent false cs
    else c :: indentLines indent false cs

def endsWithBreak (cs : List Char) : Bool := cs.getLast?.any endsLine

/-- A string in single quotes, where a quote is doubled. -/
def singleQuoted (indent : Nat) (cs : List Char) : String :=
  let doubled := (indentLines indent false cs).flatMap fun c => if c = '\x27' then [c, c] else [c]
  "'" ++ String.ofList doubled ++ (if endsWithBreak cs then spaces indent else "") ++ "'"

/-- The letter that stands for a character behind a backslash. -/
def escapeLetter? : Char → Option Char
  | '\x00' => some '0'
  | '\x07' => some 'a'
  | '\x08' => some 'b'
  | '\t' => some 't'
  | '\n' => some 'n'
  | '\x0b' => some 'v'
  | '\x0c' => some 'f'
  | '\r' => some 'r'
  | '\x1b' => some 'e'
  | '\x22' => some '\x22'
  | '\\' => some '\\'
  | '\u0085' => some 'N'
  | '\u2028' => some 'L'
  | '\u2029' => some 'P'
  | _ => none

/-- Hexadecimal digits in upper case, padded to a width. -/
def hexText (width n : Nat) : List Char :=
  let digits := (Nat.toDigits 16 n).map Char.toUpper
  List.replicate (width - digits.length) '0' ++ digits

/-- A character behind a backslash. -/
def escaped (c : Char) : List Char :=
  '\\' :: match escapeLetter? c with
    | some letter => [letter]
    | none =>
      if c.toNat ≤ 0xff then 'x' :: hexText 2 c.toNat
      else if c.toNat ≤ 0xffff then 'u' :: hexText 4 c.toNat
      else 'U' :: hexText 8 c.toNat

/-- A string in double quotes. -/
def doubleQuoted (cs : List Char) : String :=
  let body := cs.flatMap fun c =>
    if !isPrintable c || endsLine c || c = '\x22' || c = '\\' then escaped c else [c]
  "\"" ++ String.ofList body ++ "\""

/-- The signs behind the mark of a block: a depth where the first line cannot show it, and what
happens to the line breaks at the end. -/
def blockSigns (cs : List Char) : String :=
  let depth := if cs.head?.any fun c => isSpace c || endsLine c then "2" else ""
  let chomping :=
    match cs.reverse with
    | [] => "-"
    | [c] => if endsLine c then "+" else "-"
    | c :: b :: _ => if !endsLine c then "-" else if endsLine b then "+" else ""
  depth ++ chomping

/-- A string as it stands after a key or a hyphen, with the line break that ends it. -/
def textLines (indent : Nat) (text : String) : String :=
  let cs := text.toList
  match styleOf text with
  | .plain => text ++ "\n"
  | .single => singleQuoted indent cs ++ "\n"
  | .double => doubleQuoted cs ++ "\n"
  | .literal =>
    "|" ++ blockSigns cs ++ "\n" ++ String.ofList (indentLines indent true cs) ++
      (if endsWithBreak cs then "" else "\n")

/-! ### Collections -/

def keyBytes : Nat := 128

/-- Whether a key can stand before its colon. Another one is marked, and its colon begins a
line. -/
def isSimpleKey (key : String) : Bool := !key.toList.any endsLine && key.utf8ByteSize ≤ keyBytes

/-- A key that stands before its colon. -/
def keyText (key : String) : String :=
  let cs := key.toList
  match styleOf key with
  | .plain => key
  | .single => singleQuoted 0 cs
  | .double | .literal => doubleQuoted cs

namespace Outline

/-- Whether an outline is a collection with contents, which takes up lines of its own. -/
def isBlock : Outline → Bool
  | .text _ => false
  | .sequence items => !items.isEmpty
  | .mapping entries => !entries.isEmpty

mutual

/-- The lines of a collection at a depth, without the indentation of the first; any other outline
as it stands after a key. -/
def lines (indent : Nat) : Outline → String
  | .text s => textLines (indent + 2) s
  | .sequence [] => "[]\n"
  | .mapping [] => "\x7b\x7d\n"
  | .sequence (v :: vs) => itemLines indent (v :: vs)
  | .mapping (e :: es) => entryLines indent (e :: es)

def itemLines (indent : Nat) : List Outline → String
  | [] => ""
  | [v] => "- " ++ lines (if v.isBlock then indent + 2 else indent) v
  | v :: vs =>
    "- " ++ lines (if v.isBlock then indent + 2 else indent) v ++ spaces indent ++
      itemLines indent vs

def entryLines (indent : Nat) : List (String × Outline) → String
  | [] => ""
  | [(k, v)] => entryLine indent k v
  | (k, v) :: es => entryLine indent k v ++ spaces indent ++ entryLines indent es

def entryLine (indent : Nat) (k : String) (v : Outline) : String :=
  if isSimpleKey k then
    match v with
    | .sequence (w :: ws) => keyText k ++ ":\n" ++ spaces indent ++ itemLines indent (w :: ws)
    | .mapping (e :: es) =>
      keyText k ++ ":\n" ++ spaces (indent + 2) ++ entryLines (indent + 2) (e :: es)
    | v => keyText k ++ ": " ++ lines indent v
  else
    "? " ++ textLines (indent + 2) k ++ spaces indent ++ ": " ++
      lines (if v.isBlock then indent + 2 else indent) v

end

def toText (v : Outline) : String := lines 0 v

end Outline

end FormSchema.Yaml
