import FormSchema.Yaml.Cursor

/-!
# Scalar texts

The four ways of writing the text of a scalar: plain, in single quotes, in double quotes, and as a
block of lines. Each reader takes a cursor and gives the text and the cursor after it.
-/

namespace FormSchema.Yaml

abbrev Reading := Option (List Char × Cursor)

/-! ### Plain text -/

/-- Whether plain text ends before the first character: at a colon that is followed by a blank, and
within flow collections at a comma or a bracket. -/
def endsPlain (inFlow : Bool) : List Char → Bool
  | [] => true
  | c :: cs =>
    (c = ':' && startsBlank cs) || (inFlow && [',', '[', ']', '\x7b', '\x7d'].contains c)

/-- A colon within a flow collection that is followed by an indicator belongs to nothing. -/
def straysPlain (inFlow : Bool) : List Char → Bool
  | ':' :: cs => inFlow && startsWithOneOf [',', '?', '[', ']', '\x7b', '\x7d'] cs
  | _ => false

/-- The characters up to the next blank or to the end of plain text. -/
def plainWord (inFlow : Bool) : List Char → Option (List Char)
  | [] => some []
  | c :: cs =>
    if isBlank c || isBreak c then some []
    else if straysPlain inFlow (c :: cs) then none
    else if endsPlain inFlow (c :: cs) then some []
    else (plainWord inFlow cs).map (c :: ·)

/-- Plain text of words that were read last first, ended by a gap before the cursor. Also says
whether a line ended after the last word. -/
def plainOf (words : List (List Char)) (gap : Gap) (c : Cursor) : List Char × Bool × Cursor :=
  (words.reverse.flatten, gap.isBroken, c)

/-- Reads plain text. `pending` is the gap before the cursor, which counts only if a word follows;
`words` is what was read, last first. -/
def readPlain (inFlow : Bool) (margin : Nat) :
    Nat → List (List Char) → Gap → Cursor → Option (List Char × Bool × Cursor)
  | 0, _, _, _ => none
  | fuel + 1, words, pending, c =>
    if c.atSeparator || c.rest.head? = some '#' then some (plainOf words pending c)
    else do
      let word ← plainWord inFlow c.rest
      if word.isEmpty then some (plainOf words pending c)
      else
        let words := word :: pending.text :: words
        let c := c.skip word.length
        if !startsBlank c.rest || c.rest.isEmpty then some (plainOf words (.blanks []) c)
        else
          let (gap, c) ← c.gap margin (.blanks [])
          if !inFlow && c.column < margin then some (plainOf words gap c)
          else readPlain inFlow margin fuel words gap c

/-- Reads the plain text that starts here. -/
def Cursor.plain (c : Cursor) (inFlow : Bool) (margin : Nat) :
    Option (List Char × Bool × Cursor) :=
  readPlain inFlow margin (c.rest.length + 1) [] (.blanks []) c

/-! ### Quoted text -/

/-- The character a one-letter escape stands for. -/
def namedEscape? : Char → Option Char
  | '0' => some '\x00'
  | 'a' => some '\x07'
  | 'b' => some '\x08'
  | 't' | '\t' => some '\t'
  | 'n' => some '\n'
  | 'v' => some '\x0b'
  | 'f' => some '\x0c'
  | 'r' => some '\r'
  | 'e' => some '\x1b'
  | ' ' => some ' '
  | '\x22' => some '\x22'
  | '/' => some '/'
  | '\\' => some '\\'
  | 'N' => some '\u0085'
  | '_' => some '\u00a0'
  | 'L' => some '\u2028'
  | 'P' => some '\u2029'
  | _ => none

/-- The number of hexadecimal digits an escape asks for. -/
def escapeWidth? : Char → Option Nat
  | 'x' => some 2
  | 'u' => some 4
  | 'U' => some 8
  | _ => none

def hexNumber? (cs : List Char) : Option Nat :=
  cs.foldlM (fun n c => (hexDigit? c).map (n * 16 + ·)) 0

/-- Reads what follows a backslash: the character it stands for, and how many characters make it
up. -/
def readEscape : List Char → Option (Char × Nat)
  | [] => none
  | c :: cs =>
    match escapeWidth? c with
    | none => (namedEscape? c).map (·, 1)
    | some width => do
      if cs.length < width then none
      else
        let n ← hexNumber? (cs.take width)
        if n.isValidChar then some (Char.ofNat n, width + 1) else none

/-- Reads text in quotes up to its end. `done` holds the characters so far, last first. -/
def readQuoted (double : Bool) : Nat → List Char → Cursor → Reading
  | 0, _, _ => none
  | fuel + 1, done, c =>
    if c.atSeparator then none
    else
      let resume (g : Gap) (c : Cursor) : Reading := do
        let (gap, c) ← c.gap 0 g
        readQuoted double fuel (gap.text.reverse ++ done) c
      match c.rest with
      | [] => none
      | '\x27' :: cs =>
        if double then readQuoted double fuel ('\x27' :: done) (c.skip 1)
        else if cs.head? = some '\x27' then readQuoted double fuel ('\x27' :: done) (c.skip 2)
        else some (done.reverse, c.skip 1)
      | '\x22' :: _ =>
        if double then some (done.reverse, c.skip 1)
        else readQuoted double fuel ('\x22' :: done) (c.skip 1)
      | x :: cs =>
        if isBlank x || isBreak x then resume (.blanks []) c
        else if double && x = '\\' then
          if cs.head?.any isBreak then resume (.broken none []) (c.skip 1).skipBreak
          else do
            let (y, width) ← readEscape cs
            readQuoted double fuel (y :: done) (c.skip (width + 1))
        else readQuoted double fuel (x :: done) (c.skip 1)

def Cursor.quoted (c : Cursor) (double : Bool) : Reading :=
  readQuoted double (c.rest.length + 1) [] (c.skip 1)

/-! ### Blocks of lines -/

/-- What happens to the line breaks at the end of a block. -/
inductive Chomping where
  -- none is kept
  | strip
  -- one is kept
  | clip
  -- all are kept
  | keep
deriving DecidableEq

/-- The sign that chooses a chomping. -/
def chomping? : Char → Option Chomping
  | '-' => some .strip
  | '+' => some .keep
  | _ => none

def depth? (c : Char) : Option Nat :=
  if c.isDigit && c != '0' then some (c.toNat - '0'.toNat) else none

/-- Reads the signs after the mark of a block: a chomping and a depth, in either order. Also gives
how many there are. -/
def readBlockSigns (cs : List Char) : Chomping × Option Nat × Nat :=
  let first := cs[0]?
  let second := cs[1]?
  match first >>= chomping?, first >>= depth? with
  | some k, _ => match second >>= depth? with
    | some n => (k, some n, 2)
    | none => (k, none, 1)
  | none, some n => match second >>= chomping? with
    | some k => (k, some n, 2)
    | none => (.clip, some n, 1)
  | none, none => (.clip, none, 0)

/-- Passes over the indentation of a block and its empty lines. Until the depth is known, all
spaces count as indentation. Gives the breaks, the greatest column seen and the cursor after it. -/
def readIndentation (depth : Option Nat) :
    Nat → List Char → Nat → Cursor → Option (List Char × Nat × Cursor)
  | 0, _, _, _ => none
  | fuel + 1, breaks, widest, c =>
    let limit := (c.rest.takeWhile (· = ' ')).length
    let c := c.skip (depth.elim limit fun d => min limit (d - c.column))
    let widest := max widest c.column
    if c.atTab && depth.all (c.column < ·) then none
    else
      match c.rest with
      | x :: _ =>
        if isBreak x then readIndentation depth fuel (breaks ++ [x]) widest c.skipBreak
        else some (breaks, widest, c)
      | [] => some (breaks, widest, c)

/-- Reads the lines of a block. `done` is the text so far, `ending` the break after its last line,
`empties` the breaks of the empty lines behind that, and `indented` says whether the last line
began with a blank. -/
def readLines (literal : Bool) (chomping : Chomping) (depth : Nat) :
    Nat → List (List Char) → List Char → List Char → Bool → Cursor → Reading
  | 0, _, _, _, _, _ => none
  | fuel + 1, done, ending, empties, indented, c =>
    if c.column = depth && !c.rest.isEmpty then do
      let folds := !literal && ending = ['\n'] && !indented && !c.atBlank
      let joint := if folds then (if empties.isEmpty then [' '] else []) else ending
      let (line, after) := c.span fun _ => true
      let ending := after.rest.take 1
      let after := if ending.isEmpty then after else after.skipBreak
      let (empties', _, next) ← readIndentation (some depth) (after.rest.length + 1) [] 0 after
      readLines literal chomping depth fuel (line :: empties :: joint :: done) ending empties'
        c.atBlank next
    else
      let tail := match chomping with
        | .strip => []
        | .clip => ending
        | .keep => ending ++ empties
      some (done.reverse.flatten ++ tail, c)

/-- Reads the block that starts here with its mark. `margin` is one more than the column of the
collection around it. -/
def Cursor.block (c : Cursor) (literal : Bool) (margin : Nat) : Reading := do
  let (chomping, increment, width) := readBlockSigns (c.rest.drop 1)
  let c := (c.skip (width + 1)).skipComment
  if !startsBreak c.rest then none
  else
    let c := if c.rest.isEmpty then c else c.skipBreak
    let given := increment.map (margin - 1 + ·)
    let (empties, widest, c) ← readIndentation given (c.rest.length + 1) [] 0 c
    let depth := given.getD (max widest (max margin 1))
    readLines literal chomping depth (c.rest.length + 2) [] [] empties false c

end FormSchema.Yaml
