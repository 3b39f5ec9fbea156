import FormSchema.Decimal.Shortest

/-!
# TOML scalars

What a word of a TOML text is: a whole number, a real number, or a point in time. Underscores may
stand between the digits of numbers. No setting has a real number or a point in time for its value,
so of the former only a text is kept for messages, and of the latter nothing.
-/

namespace FormSchema.Toml

/-! ### Whole numbers -/

/-- The value of a digit of a base, in either case of letters. -/
def digitValue? (base : Nat) (c : Char) : Option Nat :=
  let value :=
    if c.isDigit then some (c.toNat - '0'.toNat)
    else if c.isLower then some (c.toNat - 'a'.toNat + 10)
    else if c.isUpper then some (c.toNat - 'A'.toNat + 10)
    else none
  value.filter (· < base)

/-- The number of a row of digits onto which more digits follow. `fresh` says that a digit has to
come next. -/
def digits? (base : Nat) : Nat → Bool → List Char → Option Nat
  | n, fresh, [] => if fresh then none else some n
  | n, fresh, c :: cs =>
    if c = '_' then if fresh then none else digits? base n true cs
    else (digitValue? base c).bind fun d => digits? base (n * base + d) false cs

/-- The number of a decimal numeral without a sign. A zero only begins it if it is the only
digit. -/
def decimal? : List Char → Option Nat
  | '0' :: _ :: _ => none
  | cs => digits? 10 0 true cs

/-- The whole number of a word, whatever its size. A sign goes with decimal numerals only. -/
def integer? : List Char → Option Int
  | '0' :: 'x' :: cs => (digits? 16 0 true cs).map fun n => (n : Int)
  | '0' :: 'o' :: cs => (digits? 8 0 true cs).map fun n => (n : Int)
  | '0' :: 'b' :: cs => (digits? 2 0 true cs).map fun n => (n : Int)
  | '-' :: cs => (decimal? cs).map fun n => -(n : Int)
  | '+' :: cs => (decimal? cs).map fun n => (n : Int)
  | cs => (decimal? cs).map fun n => (n : Int)

def isWord (n : Int) : Bool := fitsWord 64 n

/-! ### Real numbers -/

def isDigitOrJoint (c : Char) : Bool := c.isDigit || c = '_'

/-- The text after a sign, if there is one. -/
def dropSign : List Char → List Char
  | '-' :: cs | '+' :: cs => cs
  | cs => cs

/-- The exponent at the end of a numeral. -/
def exponent? : List Char → Option Int
  | 'e' :: cs | 'E' :: cs =>
    (digits? 10 0 true (dropSign cs)).map fun n => if cs.head? = some '-' then -(n : Int) else n
  | _ => none

def realLayout : Binary64.Layout := ⟨400, 400, ""⟩

/-- The text of a real number within the 64-bit format, of an infinity or of what is not a number,
if a word is one of these. -/
def realText? (cs : List Char) : Option String :=
  let negative := cs.head? = some '-'
  let cs := dropSign cs
  if cs = "inf".toList then some (if negative then "-inf" else "inf")
  else if cs = "nan".toList then some "NaN"
  else
    (numeral negative (cs.takeWhile isDigitOrJoint) (cs.dropWhile isDigitOrJoint)).map
      (Binary64.text realLayout)
where
  -- The number of a numeral from what stands before the point or the exponent, and the rest.
  numeral (negative : Bool) (whole rest : List Char) : Option Binary64 := do
    let _ ← decimal? whole
    match rest with
    | '.' :: r => do
      let fraction := r.takeWhile isDigitOrJoint
      let _ ← digits? 10 0 true fraction
      let digits ← digits? 10 0 true ((whole ++ fraction).filter Char.isDigit)
      let places := (fraction.filter Char.isDigit).length
      let exponent ← match r.dropWhile isDigitOrJoint with
        | [] => some 0
        | tail => exponent? tail
      Binary64.ofDecimal? negative digits (exponent - places)
    | tail => do Binary64.ofDecimal? negative (← decimal? whole) (← exponent? tail)

/-! ### Points in time -/

/-- The number of a fixed count of digits, and the text after them. -/
def fixed? (count : Nat) (cs : List Char) : Option (Nat × List Char) :=
  let digits := cs.take count
  if digits.length = count && digits.all Char.isDigit then
    (digits? 10 0 true digits).map (·, cs.drop count)
  else none

def after? (c : Char) : List Char → Option (List Char)
  | x :: cs => if x = c then some cs else none
  | [] => none

def daysOf (year month : Nat) : Nat :=
  if month = 2 then
    if year % 4 = 0 && (year % 100 ≠ 0 || year % 400 = 0) then 29 else 28
  else if month = 4 || month = 6 || month = 9 || month = 11 then 30
  else 31

/-- The text after a date. -/
def afterDate? (cs : List Char) : Option (List Char) := do
  let (year, cs) ← fixed? 4 cs
  let (month, cs) ← fixed? 2 (← after? '-' cs)
  let (day, cs) ← fixed? 2 (← after? '-' cs)
  if 1 ≤ month && month ≤ 12 && 1 ≤ day && day ≤ daysOf year month then some cs else none

/-- The text after the seconds of a time, which may be left out, and their fraction. -/
def afterSeconds? (cs : List Char) : Option (List Char) :=
  match cs with
  | ':' :: cs => do
    let (second, cs) ← fixed? 2 cs
    if second > 60 then none
    else
      match cs with
      | '.' :: cs =>
        let rest := cs.dropWhile Char.isDigit
        if rest.length < cs.length then some rest else none
      | cs => some cs
  | cs => some cs

/-- The text after a time of the day. -/
def afterTime? (cs : List Char) : Option (List Char) := do
  let (hour, cs) ← fixed? 2 cs
  let (minute, cs) ← fixed? 2 (← after? ':' cs)
  if hour ≤ 23 && minute ≤ 59 then afterSeconds? cs else none

/-- Whether a text is empty or the distance of a time from the universal one. -/
def isOffset : List Char → Bool
  | [] => true
  | 'Z' :: cs | 'z' :: cs => cs.isEmpty
  | c :: cs =>
    (c = '+' || c = '-') && (do
      let (hour, cs) ← fixed? 2 cs
      let (minute, cs) ← fixed? 2 (← after? ':' cs)
      if hour ≤ 23 && minute ≤ 59 && cs.isEmpty then some () else none).isSome

def isTimeMark (c : Char) : Bool := c = 'T' || c = 't' || c = ' '

/-- Whether a word is a date, a time, or both. -/
def isMoment (cs : List Char) : Bool :=
  match afterDate? cs with
  | some [] => true
  | some (c :: rest) => isTimeMark c && (afterTime? rest).any isOffset
  | none => (afterTime? cs).any List.isEmpty

end FormSchema.Toml
