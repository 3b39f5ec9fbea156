import FormSchema.Decimal.Binary64

/-!
# Shortest decimal text

The decimal text of a finite number: the fewest digits that still round to the number, and of
those the digits nearest to it, an exact tie going to the even digit. A `Layout` says which numbers
are written out with a point; the others are written with an exponent.
-/

namespace FormSchema

namespace Binary64

/-- The reals that round to a number, as quotients over a common denominator. -/
structure Neighbourhood where
  -- the least of them
  low : Nat
  -- the number itself
  middle : Nat
  -- the greatest of them
  high : Nat
  -- the common denominator
  denominator : Nat
  -- whether the two ends belong to them
  closed : Bool

/-- The neighbourhood of a number. The gap below a power of two is half as wide. -/
def neighbourhood (x : Binary64) : Neighbourhood :=
  let narrow := x.significand = Nat.pow 2 (precision - 1) && leastExponent < x.exponent
  let middle := 4 * x.significand
  let low := if narrow then middle - 1 else middle - 2
  let (scale, denominator) :=
    if 2 ≤ x.exponent then (Nat.pow 2 (x.exponent - 2).toNat, 1)
    else (1, Nat.pow 2 (2 - x.exponent).toNat)
  ⟨low * scale, middle * scale, (middle + 2) * scale, denominator, x.significand % 2 = 0⟩

/-- Whether `digits * 10 ^ place` rounds to the number. -/
def Neighbourhood.admits (b : Neighbourhood) (digits : Nat) (place : Int) : Bool :=
  let (value, unit) :=
    if 0 ≤ place then (digits * Nat.pow 10 place.toNat * b.denominator, 1)
    else (digits * b.denominator, Nat.pow 10 (-place).toNat)
  if b.closed then b.low * unit ≤ value && value ≤ b.high * unit
  else b.low * unit < value && value < b.high * unit

/-- The multiples of `10 ^ place` on both sides of the number: the lower one, and whether the
upper one is nearer. -/
def Neighbourhood.around (b : Neighbourhood) (place : Int) : Nat × Bool :=
  let (num, den) :=
    if 0 ≤ place then (b.middle, b.denominator * Nat.pow 10 place.toNat)
    else (b.middle * Nat.pow 10 (-place).toNat, b.denominator)
  let q := num / den
  let r := num % den
  (q, 2 * r > den || (2 * r = den && q % 2 = 1))

/-- The digits on the grid of `10 ^ place`, if one of the two neighbours rounds to the number. -/
def Neighbourhood.digitsAt? (b : Neighbourhood) (place : Int) : Option Nat :=
  let (lower, upperNearer) := b.around place
  let (first, second) := if upperNearer then (lower + 1, lower) else (lower, lower + 1)
  if b.admits first place then some first
  else if b.admits second place then some second
  else none

/-- The coarsest grid from `place` downwards on which a neighbour rounds to the number. -/
def Neighbourhood.shortest (b : Neighbourhood) : Nat → Int → Nat × Int
  | 0, place => ((b.around place).1, place)
  | fuel + 1, place =>
    match b.digitsAt? place with
    | some digits => (digits, place)
    | none => b.shortest fuel (place - 1)

/-- Drops zeros at the end of a numeral, up to `fuel` of them. -/
def stripZeros : Nat → Nat → Int → Nat × Int
  | 0, digits, place => (digits, place)
  | fuel + 1, digits, place =>
    if digits % 10 = 0 && digits != 0 then stripZeros fuel (digits / 10) (place + 1)
    else (digits, place)

/-- The shortest numeral `digits * 10 ^ place` of a positive number. The search starts above the
number's magnitude; seventeen digits always suffice. -/
def shortestDigits (x : Binary64) : Nat × Int :=
  let b := x.neighbourhood
  let top : Int := (Nat.toDigits 10 (b.middle / b.denominator + 1)).length
  let lead : Int :=
    if b.middle ≥ b.denominator then top
    else -((Nat.toDigits 10 (b.denominator / b.middle)).length : Int) + 2
  let (digits, place) := b.shortest 24 lead
  stripZeros 24 digits place

/-- How a numeral is laid out. -/
structure Layout where
  -- the greatest number of digits before the point that are written out
  mostBefore : Int
  -- the greatest number of zeros after the point that are written out
  mostZeros : Int
  -- the sign of an exponent that is not negative
  plus : String

def zeros (n : Nat) : String := String.ofList (List.replicate n '0')

/-- A numeral with its point, or with an exponent when the point is far away. -/
def render (l : Layout) (digits : Nat) (place : Int) : String :=
  let text := Nat.repr digits
  let count : Int := text.length
  let point := count + place
  if 0 ≤ place && point ≤ l.mostBefore then text ++ zeros place.toNat ++ ".0"
  else if 0 < point && point ≤ l.mostBefore then
    let (whole, fraction) := text.toList.splitAt point.toNat
    String.ofList whole ++ "." ++ String.ofList fraction
  else if point ≤ 0 && -l.mostZeros ≤ point then "0." ++ zeros (-point).toNat ++ text
  else
    let exponent := point - 1
    let power := "e" ++ (if exponent < 0 then "-" else l.plus) ++ Nat.repr exponent.natAbs
    match text.toList with
    | [] => power
    | [c] => c.toString ++ power
    | c :: rest => c.toString ++ "." ++ String.ofList rest ++ power

def text (l : Layout) (x : Binary64) : String :=
  let sign := if x.negative then "-" else ""
  if x.isZero then sign ++ "0.0"
  else
    let (digits, place) := x.shortestDigits
    sign ++ render l digits place

end Binary64

end FormSchema
