/-!
# Places in a YAML text

A YAML text is read as a list of characters in which every line break but the two separators of
Unicode is a line feed. A cursor is what is left of the text, with the line and the column where it
starts.

* `Yaml.characters?` — the characters of a text, unless one of them is not allowed.
-/

namespace FormSchema.Yaml

/-! ### Characters -/

/-- Whether a character may stand in a YAML text at all. -/
def isAllowed (c : Char) : Bool :=
  c = '\t' || c = '\n' || c = '\r' || (' ' ≤ c && c ≤ '~') || c = '\u0085' ||
    ('\u00a0' ≤ c && c ≤ '\ud7ff') || ('\ue000' ≤ c && c ≤ '\ufffd') || 0x10000 ≤ c.toNat

def byteOrderMark : Char := '\ufeff'

/-- Makes a line feed of every line break but the separators of Unicode. -/
def unifyBreaks : List Char → List Char
  | '\r' :: '\n' :: cs => '\n' :: unifyBreaks cs
  | c :: cs => (if c = '\r' || c = '\u0085' then '\n' else c) :: unifyBreaks cs
  | [] => []

/-- The characters of a text; `none` when one of them is not allowed. -/
def characters? (text : String) : Option (List Char) :=
  if text.toList.all isAllowed then some (unifyBreaks text.toList) else none

def isBlank (c : Char) : Bool := c = ' ' || c = '\t'

def isBreak (c : Char) : Bool := c = '\n' || c = '\u2028' || c = '\u2029'

/-- A character of names: a letter or digit of ASCII, a hyphen or a low line. -/
def isNameChar (c : Char) : Bool := c.isAlphanum || c = '-' || c = '_'

def hexDigit? (c : Char) : Option Nat :=
  if c.isDigit then some (c.toNat - '0'.toNat)
  else if 'a' ≤ c && c ≤ 'f' then some (c.toNat - 'a'.toNat + 10)
  else if 'A' ≤ c && c ≤ 'F' then some (c.toNat - 'A'.toNat + 10)
  else none

/-- Whether a text begins with a blank or a line break, or is at its end. -/
def startsBlank : List Char → Bool
  | [] => true
  | c :: _ => isBlank c || isBreak c

def startsBreak : List Char → Bool
  | [] => true
  | c :: _ => isBreak c

def startsWithOneOf (options : List Char) : List Char → Bool
  | [] => false
  | c :: _ => options.contains c

/-! ### Cursors -/

/-- What is left of a text, and where it starts. -/
structure Cursor where
  rest : List Char
  line : Nat
  column : Nat
deriving Inhabited

namespace Cursor

def start (cs : List Char) : Cursor := ⟨cs, 0, 0⟩

def skip (c : Cursor) (n : Nat) : Cursor := { c with rest := c.rest.drop n, column := c.column + n }

def skipBreak (c : Cursor) : Cursor := ⟨c.rest.drop 1, c.line + 1, 0⟩

/-- The characters of the same line that satisfy a condition, and the cursor after them. -/
def span (c : Cursor) (p : Char → Bool) : List Char × Cursor :=
  let taken := c.rest.takeWhile fun x => p x && !isBreak x
  (taken, c.skip taken.length)

def skipWhile (c : Cursor) (p : Char → Bool) : Cursor := (c.span p).2

/-- The cursor after blanks and a comment, which here needs no blank before it. -/
def skipComment (c : Cursor) : Cursor :=
  let c := c.skipWhile isBlank
  if c.rest.head? = some '#' then c.skipWhile fun _ => true else c

/-- Whether a line starts here with three of the given characters and a blank. -/
def atMarker (c : Cursor) (mark : Char) : Bool :=
  c.column = 0 && [mark, mark, mark].isPrefixOf c.rest && startsBlank (c.rest.drop 3)

def atSeparator (c : Cursor) : Bool := c.atMarker '-' || c.atMarker '.'

def atTab (c : Cursor) : Bool := c.rest.head? = some '\t'

def atBlank (c : Cursor) : Bool := c.rest.head?.any isBlank

end Cursor

/-! ### Gaps -/

/-- What stands between two words of a text. -/
inductive Gap where
  -- blanks within a line, which are kept
  | blanks (text : List Char)
  -- line breaks: the first one, unless it was taken back by an escape, and the others
  | broken (first : Option Char) (more : List Char)

/-- The gap with a further blank. After a line break blanks are dropped. -/
def Gap.blank (c : Char) : Gap → Gap
  | .blanks text => .blanks (text ++ [c])
  | g => g

/-- The gap with a further line break. Blanks before a line break are dropped. -/
def Gap.break (c : Char) : Gap → Gap
  | .blanks _ => .broken (some c) []
  | .broken first more => .broken first (more ++ [c])

def Gap.isBroken : Gap → Bool
  | .blanks _ => false
  | .broken _ _ => true

/-- What a gap adds to a text: blanks as they are, one line feed as a space, and of several line
breaks all but a line feed that is the first. -/
def Gap.text : Gap → List Char
  | .blanks text => text
  | .broken (some '\n') [] => [' ']
  | .broken (some '\n') more => more
  | .broken first more => first.toList ++ more

/-- Reads a gap from a given state. After a line break, tabs are refused left of the margin. -/
def readGap (margin : Nat) (g : Gap) (line column : Nat) : List Char → Option (Gap × Cursor)
  | [] => some (g, ⟨[], line, column⟩)
  | c :: cs =>
    if isBreak c then readGap margin (g.break c) (line + 1) 0 cs
    else if isBlank c then
      if c = '\t' && g.isBroken && column < margin then none
      else readGap margin (g.blank c) line (column + 1) cs
    else some (g, ⟨c :: cs, line, column⟩)

def Cursor.gap (c : Cursor) (margin : Nat) (g : Gap) : Option (Gap × Cursor) :=
  readGap margin g c.line c.column c.rest

end FormSchema.Yaml
