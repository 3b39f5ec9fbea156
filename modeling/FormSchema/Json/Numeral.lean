import FormSchema.Json.Value

/-!
# JSON numerals

A numeral with neither point nor exponent is a whole number if 64 bits can hold it. Any other
numeral is a floating-point number, found in two roundings: as many leading digits as 64 bits can
hold are rounded to a number of the format, and that number is multiplied or divided by a power of
ten. The result can differ in the last place from the number nearest to the numeral.
-/

namespace FormSchema

namespace Json

def greatestWord : Nat := wordValues 64 - 1

def greatestPower : Nat := wordValues 31 - 1

def digit? (c : Char) : Option Nat := if c.isDigit then some (c.toNat - '0'.toNat) else none

/-- Appends digits to `value` while it stays within `bound`. Gives the value, how many digits were
taken, and what is left. -/
def digitsWithin (bound : Nat) : Nat → Nat → List Char → Nat × Nat × List Char
  | value, taken, [] => (value, taken, [])
  | value, taken, c :: cs =>
    match digit? c with
    | none => (value, taken, c :: cs)
    | some d =>
      if value * 10 + d ≤ bound then digitsWithin bound (value * 10 + d) (taken + 1) cs
      else (value, taken, c :: cs)

def startsWithDigit : List Char → Bool
  | c :: _ => c.isDigit
  | [] => false

/-- The exponent left after dividing by ten to the 308, once for every such step that is needed. A
number that has become zero is not divided further, so two or three steps are enough. -/
def divideDown : Nat → Binary64 → Nat → Option (Binary64 × Nat)
  | 0, x, power => some (x, power)
  | fuel + 1, x, power =>
    if power ≤ 308 then some (x, power)
    else if x.isZero then some (x, 0)
    else do
      let step ← Binary64.powerOfTen? 308
      let y ← x.div? step
      divideDown fuel y (power - 308)

/-- The significand times a power of ten, in two roundings; `none` when it exceeds the format. -/
def scale? (negative : Bool) (significand : Nat) (power : Int) : Option Binary64 := do
  let x ← Binary64.ofNat? negative significand
  if 0 ≤ power then
    if power ≤ 308 then x.mul? (← Binary64.powerOfTen? power.toNat)
    else if x.isZero then some x
    else none
  else
    let (y, rest) ← divideDown 4 x power.natAbs
    y.div? (← Binary64.powerOfTen? rest)

/-- Reads an exponent after its letter and applies it to a significand with a power so far. -/
def readExponent (negative : Bool) (significand : Nat) (power : Int) (cs : List Char) :
    Option (Binary64 × List Char) :=
  let (down, cs) := match cs with
    | '+' :: r => (false, r)
    | '-' :: r => (true, r)
    | r => (false, r)
  if startsWithDigit cs then
    let (value, _, rest) := digitsWithin greatestPower 0 0 cs
    if startsWithDigit rest then
      if significand ≠ 0 && !down then none
      else some (.zero negative, rest.dropWhile Char.isDigit)
    else
      let power := if down then power - value else power + value
      (scale? negative significand power).map fun x => (x, rest)
  else none

/-- What follows the digits of a numeral: an exponent or nothing. -/
def readTail (negative : Bool) (significand : Nat) (power : Int) (cs : List Char) :
    Option (Binary64 × List Char) :=
  match cs with
  | 'e' :: r | 'E' :: r => readExponent negative significand power r
  | r => (scale? negative significand power).map fun x => (x, r)

/-- Reads the digits after a point. Once a digit no longer fits, it and those after it are passed
over. -/
def readFraction (negative : Bool) (significand : Nat) (power : Int) (cs : List Char) :
    Option (Binary64 × List Char) :=
  let (significand, taken, rest) := digitsWithin greatestWord significand 0 cs
  if startsWithDigit rest then
    readTail negative significand (power - taken) (rest.dropWhile Char.isDigit)
  else if taken = 0 then none
  else readTail negative significand (power - taken) rest

/-- A whole number, as an integer when 64 bits can hold it. A negative zero is no integer. -/
def wholeNumber (negative : Bool) (n : Nat) : Option JsonNumber :=
  if !negative then some (.integer n)
  else if n = 0 || n > wordValues 63 then (Binary64.ofNat? true n).map .real
  else some (.integer (-n))

/-- Reads a numeral. A leading zero stands alone. -/
def readNumber (cs : List Char) : Option (JsonNumber × List Char) :=
  let (negative, cs) := match cs with
    | '-' :: r => (true, r)
    | r => (false, r)
  if !startsWithDigit cs then none
  else
    let (value, taken, rest) := match cs with
      | '0' :: r => (0, 1, r)
      | r => digitsWithin greatestWord 0 0 r
    let long := rest.takeWhile Char.isDigit
    if value = 0 && taken = 1 && startsWithDigit rest then none
    else
      let after := rest.drop long.length
      match after with
      | '.' :: r => (readFraction negative value long.length r).map fun (x, t) => (.real x, t)
      | 'e' :: _ | 'E' :: _ =>
        (readTail negative value long.length after).map fun (x, t) => (.real x, t)
      | _ =>
        if long.isEmpty then (wholeNumber negative value).map fun n => (n, after)
        else (scale? negative value long.length).map fun x => (.real x, after)

end Json

end FormSchema
