/-!
# TOML strings

The four ways of writing a string: in quotes with escapes or in apostrophes without, and each on
one line or, with three marks, on several. A string is written in the first way in which it can
stand as it is, and with escapes where there is none.

* `Toml.readString` — reads a string in any of the four ways.
* `Toml.stringText` — writes a string.
-/

namespace FormSchema.Toml

/-- What a reader finds; or else the rest of the text where it stopped. -/
abbrev Parse := Except (List Char)

def isBlank (c : Char) : Bool := c = ' ' || c = '\t'

def isControl (c : Char) : Bool := (c.toNat < 0x20 && c != '\t' && c != '\n') || c = '\x7f'

/-- A character that may stand in a line of a string or a comment. -/
def isInline (c : Char) : Bool := !isControl c && c != '\n'

/-! ### Reading -/

def hexValue? (c : Char) : Option Nat :=
  if c.isDigit then some (c.toNat - '0'.toNat)
  else if 'a' ≤ c && c ≤ 'f' then some (c.toNat - 'a'.toNat + 10)
  else if 'A' ≤ c && c ≤ 'F' then some (c.toNat - 'A'.toNat + 10)
  else none

/-- The character whose code is given by as many hexadecimal digits as asked for. -/
def coded? (width : Nat) (cs : List Char) : Option Char := do
  let digits := cs.take width
  let n ← digits.foldlM (fun n c => (hexValue? c).map (n * 16 + ·)) 0
  if digits.length = width && n.isValidChar then some (Char.ofNat n) else none

/-- Reads what follows a backslash: the character, and how much of the text it takes up. -/
def readEscape : List Char → Option (Char × Nat)
  | [] => none
  | c :: cs =>
    match c with
    | 'b' => some ('\x08', 1)
    | 't' => some ('\t', 1)
    | 'n' => some ('\n', 1)
    | 'f' => some ('\x0c', 1)
    | 'r' => some ('\r', 1)
    | 'e' => some ('\x1b', 1)
    | '\x22' => some ('\x22', 1)
    | '\\' => some ('\\', 1)
    | 'x' => (coded? 2 cs).map (·, 3)
    | 'u' => (coded? 4 cs).map (·, 5)
    | 'U' => (coded? 8 cs).map (·, 9)
    | _ => none

def Parse.cons (c : Char) (r : Parse (List Char × List Char)) : Parse (List Char × List Char) :=
  r.map fun (s, rest) => (c :: s, rest)

/-- Reads a string in quotes on one line, after the quote that opens it. -/
def readBasic : List Char → Parse (List Char × List Char)
  | [] => .error []
  | c :: cs =>
    if c = '\x22' then .ok ([], cs)
    else if c = '\\' then
      match readEscape cs with
      | some (x, n) => .cons x (readBasic (cs.drop n))
      | none => .error (c :: cs)
    else if isInline c then .cons c (readBasic cs)
    else .error (c :: cs)
termination_by cs => cs.length
decreasing_by all_goals simp only [List.length_drop, List.length_cons]; omega

/-- Reads a string in apostrophes on one line, after the mark that opens it. -/
def readLiteral : List Char → Parse (List Char × List Char)
  | [] => .error []
  | c :: cs =>
    if c = '\x27' then .ok ([], cs)
    else if isInline c then .cons c (readLiteral cs)
    else .error (c :: cs)

/-- The text after a line break, if it begins with one. -/
def afterBreak? : List Char → Option (List Char)
  | '\n' :: cs => some cs
  | '\r' :: '\n' :: cs => some cs
  | _ => none

/-- The text after a line break that may open a string of several lines. -/
def dropBreak (cs : List Char) : List Char := (afterBreak? cs).getD cs

/-- The text after blanks and line breaks. -/
def dropSpace : List Char → List Char
  | '\r' :: '\n' :: cs => dropSpace cs
  | c :: cs => if isBlank c || c = '\n' then dropSpace cs else c :: cs
  | [] => []

theorem length_dropSpace_le (cs : List Char) : (dropSpace cs).length ≤ cs.length := by
  fun_induction dropSpace cs with
  | case1 cs ih => exact Nat.le_succ_of_le (Nat.le_succ_of_le ih)
  | case2 c cs _ _ ih => exact Nat.le_succ_of_le ih
  | case3 => exact Nat.le_refl _
  | case4 => exact Nat.le_refl _

/-- The end of a string of several lines, after its three marks: up to two more marks belong to the
string. -/
def readEnd (mark : Char) (cs : List Char) : List Char × List Char :=
  let extra := min 2 (cs.takeWhile (· = mark)).length
  (List.replicate extra mark, cs.drop extra)

/-- Reads a string in quotes on several lines, after what opens it. A backslash at the end of a
line joins it to the next text. -/
def readBasicLines : List Char → Parse (List Char × List Char)
  | [] => .error []
  | '\x22' :: '\x22' :: '\x22' :: cs => .ok (readEnd '\x22' cs)
  | '\r' :: '\n' :: cs => .cons '\n' (readBasicLines cs)
  | c :: cs =>
    if c = '\\' then
      if (afterBreak? (cs.dropWhile isBlank)).isSome then readBasicLines (dropSpace cs)
      else
        match readEscape cs with
        | some (x, n) => .cons x (readBasicLines (cs.drop n))
        | none => .error (c :: cs)
    else if isControl c then .error (c :: cs)
    else .cons c (readBasicLines cs)
termination_by cs => cs.length
decreasing_by
  · simp only [List.length_cons]; omega
  · exact Nat.lt_succ_of_le (length_dropSpace_le cs)
  · simp only [List.length_drop, List.length_cons]; omega
  · simp

/-- Reads a string in apostrophes on several lines, after what opens it. -/
def readLiteralLines : List Char → Parse (List Char × List Char)
  | [] => .error []
  | '\x27' :: '\x27' :: '\x27' :: cs => .ok (readEnd '\x27' cs)
  | '\r' :: '\n' :: cs => .cons '\n' (readLiteralLines cs)
  | c :: cs => if isControl c then .error (c :: cs) else .cons c (readLiteralLines cs)

/-- Reads a string that begins here. -/
def readString : List Char → Parse (List Char × List Char)
  | '\x22' :: '\x22' :: '\x22' :: cs => readBasicLines (dropBreak cs)
  | '\x22' :: cs => readBasic cs
  | '\x27' :: '\x27' :: '\x27' :: cs => readLiteralLines (dropBreak cs)
  | '\x27' :: cs => readLiteral cs
  | cs => .error cs

/-! ### Writing -/

/-- The length of the longest run of a character. `run` is the length of the run so far. -/
def longestRun (mark : Char) : Nat → List Char → Nat
  | run, [] => run
  | run, c :: cs =>
    if c = mark then longestRun mark (run + 1) cs else max run (longestRun mark 0 cs)

def hexDigit (n : Nat) : Char := (Nat.digitChar (n % 16)).toUpper

/-- A character behind a backslash. -/
def escaped (c : Char) : List Char :=
  '\\' :: match c with
    | '\x08' => ['b']
    | '\t' => ['t']
    | '\n' => ['n']
    | '\x0c' => ['f']
    | '\r' => ['r']
    | '\x22' => ['\x22']
    | '\\' => ['\\']
    | c => ['u', '0', '0', hexDigit (c.toNat / 16), hexDigit c.toNat]

/-- A string with the escapes it needs. On several lines a line feed needs none, and neither does
a quote unless two stand before it; `quotes` counts those. -/
def escapeAll (lines : Bool) : Nat → List Char → List Char
  | _, [] => []
  | quotes, c :: cs =>
    if c = '\x22' then
      if lines && quotes < 2 then c :: escapeAll lines (quotes + 1) cs
      else escaped c ++ escapeAll lines 0 cs
    else if isControl c || c = '\\' || c = '\t' || (c = '\n' && !lines) then
      escaped c ++ escapeAll lines 0 cs
    else c :: escapeAll lines 0 cs

/-- A text between marks. On several lines a line feed comes first if the text holds one. -/
def between (mark : List Char) (lines : Bool) (cs body : List Char) : List Char :=
  let marks := if lines then mark ++ mark ++ mark else mark
  marks ++ (if lines && cs.contains '\n' then ['\n'] else []) ++ body ++ marks

/-- A string as it is written. -/
def stringChars (cs : List Char) : List Char :=
  let quotes := longestRun '\x22' 0 cs
  let apostrophes := longestRun '\x27' 0 cs
  let broken := cs.contains '\n'
  let controlled := cs.any isControl
  let backslash := cs.contains '\\'
  if !controlled && !backslash && quotes = 0 && !broken then
    between ['\x22'] false cs (escapeAll false 0 cs)
  else if !controlled && apostrophes = 0 && !broken then between ['\x27'] false cs cs
  else if !controlled && !backslash && quotes ≤ 2 then
    between ['\x22'] true cs (escapeAll true 0 cs)
  else if !controlled && apostrophes ≤ 2 then between ['\x27'] true cs cs
  else between ['\x22'] broken cs (escapeAll broken 0 cs)

def stringText (s : String) : String := String.ofList (stringChars s.toList)

end FormSchema.Toml
