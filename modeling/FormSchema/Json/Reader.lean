import FormSchema.Json.Numeral

/-!
# Reading JSON

`Json.parse?` reads one value with blanks around it. Collections may be nested up to a limit, and
of members with one name the last counts.
-/

namespace FormSchema

namespace Json

def nestingLimit : Nat := 127

def isBlank (c : Char) : Bool := c = ' ' || c = '\n' || c = '\t' || c = '\r'

def skipBlanks (cs : List Char) : List Char := cs.dropWhile isBlank

def hexValue? (c : Char) : Option Nat :=
  if c.isDigit then some (c.toNat - '0'.toNat)
  else if 'a' ≤ c ∧ c ≤ 'f' then some (c.toNat - 'a'.toNat + 10)
  else if 'A' ≤ c ∧ c ≤ 'F' then some (c.toNat - 'A'.toNat + 10)
  else none

def readUnit : List Char → Option (Nat × List Char)
  | a :: b :: c :: d :: rest => do
    let n := (((← hexValue? a) * 16 + (← hexValue? b)) * 16 + (← hexValue? c)) * 16 + (← hexValue? d)
    some (n, rest)
  | _ => none

/-- Reads the character of an escape written as a code unit, with its second half where the unit is
the first half of a pair. A half without its counterpart is refused. -/
def readEscapedUnit (cs : List Char) : Option (Char × List Char) := do
  let (n, rest) ← readUnit cs
  if 0xDC00 ≤ n ∧ n ≤ 0xDFFF then none
  else if 0xD800 ≤ n ∧ n ≤ 0xDBFF then
    match rest with
    | '\\' :: 'u' :: r => do
      let (m, r) ← readUnit r
      if 0xDC00 ≤ m ∧ m ≤ 0xDFFF then
        some (Char.ofNat (0x10000 + (n - 0xD800) * 0x400 + (m - 0xDC00)), r)
      else none
    | _ => none
  else some (Char.ofNat n, rest)

/-- The character a one-letter escape stands for. -/
def simpleEscape? (c : Char) : Option Char :=
  if c = '\x22' || c = '\\' || c = '/' then some c
  else if c = 'b' then some '\x08'
  else if c = 'f' then some '\x0c'
  else if c = 'n' then some '\n'
  else if c = 'r' then some '\r'
  else if c = 't' then some '\t'
  else none

/-- Reads the rest of a string after its opening quote; `done` holds what was read, last first. -/
def readString : Nat → List Char → List Char → Option (String × List Char)
  | 0, _, _ => none
  | _, _, [] => none
  | fuel + 1, done, c :: cs =>
    if c = '\x22' then some (String.ofList done.reverse, cs)
    else if c = '\\' then
      match cs with
      | 'u' :: r => do
        let (ch, r) ← readEscapedUnit r
        readString fuel (ch :: done) r
      | e :: r => do
        let ch ← simpleEscape? e
        readString fuel (ch :: done) r
      | [] => none
    else if c.toNat < 0x20 then none
    else readString fuel (c :: done) cs

def readWord (word : String) (value : Json) (cs : List Char) : Option (Json × List Char) :=
  if word.toList.isPrefixOf cs then some (value, cs.drop word.length) else none

mutual

/-- Reads a value that starts at the head of the text. -/
def readValue (fuel levels : Nat) (cs : List Char) : Option (Json × List Char) :=
  match fuel, cs with
  | 0, _ | _, [] => none
  | fuel + 1, c :: rest =>
    if c = 'n' then readWord "null" .null cs
    else if c = 't' then readWord "true" (.bool true) cs
    else if c = 'f' then readWord "false" (.bool false) cs
    else if c = '\x22' then
      (readString (rest.length + 1) [] rest).map fun (s, r) => (.string s, r)
    else if c = '[' then
      match levels with
      | 0 => none
      | levels + 1 =>
        match skipBlanks rest with
        | ']' :: r => some (.array [], r)
        | r => (readItems fuel levels [] r).map fun (items, r) => (.array items, r)
    else if c = '\x7b' then
      match levels with
      | 0 => none
      | levels + 1 =>
        match skipBlanks rest with
        | '\x7d' :: r => some (.object [], r)
        | r => (readMembers fuel levels [] r).map fun (ms, r) => (ofMembers ms, r)
    else (readNumber cs).map fun (n, r) => (.number n, r)

/-- Reads the items of an array up to its end; `done` holds those before, last first. -/
def readItems (fuel levels : Nat) (done : List Json) (cs : List Char) :
    Option (List Json × List Char) :=
  match fuel with
  | 0 => none
  | fuel + 1 => do
    let (v, rest) ← readValue fuel levels cs
    match skipBlanks rest with
    | ',' :: r => readItems fuel levels (v :: done) (skipBlanks r)
    | ']' :: r => some ((v :: done).reverse, r)
    | _ => none

/-- Reads the members of an object up to its end; `done` holds those before, last first. -/
def readMembers (fuel levels : Nat) (done : List (String × Json)) (cs : List Char) :
    Option (List (String × Json) × List Char) :=
  match fuel, cs with
  | fuel + 1, '\x22' :: rest => do
    let (name, rest) ← readString (rest.length + 1) [] rest
    match skipBlanks rest with
    | ':' :: r => do
      let (v, rest) ← readValue fuel levels (skipBlanks r)
      match skipBlanks rest with
      | ',' :: r => readMembers fuel levels ((name, v) :: done) (skipBlanks r)
      | '\x7d' :: r => some (((name, v) :: done).reverse, r)
      | _ => none
    | _ => none
  | _, _ => none

end

/-- Reads a text that holds one value and nothing else. Reading a value takes at most two steps for
every character. -/
def parse? (text : String) : Option Json := do
  let cs := skipBlanks text.toList
  let (v, rest) ← readValue (2 * cs.length + 2) nestingLimit cs
  if (skipBlanks rest).isEmpty then some v else none

end Json

end FormSchema
