import FormSchema.Json.Value

/-!
# JSON text

Values are printed in two ways: compactly, without any blank, and indented by two spaces a level.
In strings the quote, the backslash and the control characters are escaped, and nothing else is.
-/

namespace FormSchema

namespace Json

def hexDigit (n : Nat) : Char := Nat.digitChar (n % 16)

/-- How a character stands within a string. -/
def escapeChar (c : Char) : List Char :=
  if c = '\x22' then ['\\', '\x22']
  else if c = '\\' then ['\\', '\\']
  else if c = '\n' then ['\\', 'n']
  else if c = '\r' then ['\\', 'r']
  else if c = '\t' then ['\\', 't']
  else if c = '\x08' then ['\\', 'b']
  else if c = '\x0c' then ['\\', 'f']
  else if c.toNat < 0x20 then
    ['\\', 'u', '0', '0', hexDigit (c.toNat / 16), hexDigit c.toNat]
  else [c]

def quoted (s : String) : String :=
  "\"" ++ String.ofList (s.toList.flatMap escapeChar) ++ "\""

mutual

/-- The text of a value without blanks. -/
def compact : Json → String
  | .null => "null"
  | .bool b => if b then "true" else "false"
  | .number n => n.text
  | .string s => quoted s
  | .array items => "[" ++ compactItems items ++ "]"
  | .object members => "\x7b" ++ compactMembers members ++ "\x7d"

def compactItems : List Json → String
  | [] => ""
  | [v] => v.compact
  | v :: vs => v.compact ++ "," ++ compactItems vs

def compactMembers : List (String × Json) → String
  | [] => ""
  | [(n, v)] => quoted n ++ ":" ++ v.compact
  | (n, v) :: ms => quoted n ++ ":" ++ v.compact ++ "," ++ compactMembers ms

end

def newline (level : Nat) : String := "\n" ++ String.ofList (List.replicate (2 * level) ' ')

mutual

/-- The indented text of a value that starts at a level. -/
def indented (level : Nat) : Json → String
  | .null => "null"
  | .bool b => if b then "true" else "false"
  | .number n => n.text
  | .string s => quoted s
  | .array [] => "[]"
  | .array (v :: vs) =>
    "[" ++ indentedItems (level + 1) (v :: vs) ++ newline level ++ "]"
  | .object [] => "\x7b\x7d"
  | .object (m :: ms) =>
    "\x7b" ++ indentedMembers (level + 1) (m :: ms) ++ newline level ++ "\x7d"

def indentedItems (level : Nat) : List Json → String
  | [] => ""
  | [v] => newline level ++ indented level v
  | v :: vs => newline level ++ indented level v ++ "," ++ indentedItems level vs

def indentedMembers (level : Nat) : List (String × Json) → String
  | [] => ""
  | [(n, v)] => newline level ++ quoted n ++ ": " ++ indented level v
  | (n, v) :: ms =>
    newline level ++ quoted n ++ ": " ++ indented level v ++ "," ++ indentedMembers level ms

end

def pretty (v : Json) : String := indented 0 v

end Json

end FormSchema
