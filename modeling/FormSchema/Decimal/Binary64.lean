import FormSchema.Decimal.Word

/-!
# Finite binary floating-point numbers

A finite number of the 64-bit binary format: a sign and `significand * 2 ^ exponent`. Arithmetic
is exact: a quotient of natural numbers is rounded once, to the nearest number of the format, a
tie going to the even significand.

* `Binary64.ofRatio?` — the rounded quotient, unless it is too large for the format.
* `Binary64.ofDecimal?` — the rounded value of a decimal numeral.
-/

namespace FormSchema

/-- A finite number of the format. In the canonical form the significand has 53 bits, or fewer at
the least exponent. -/
structure Binary64 where
  negative : Bool
  significand : Nat
  exponent : Int
deriving DecidableEq, Inhabited

namespace Binary64

def precision : Nat := 53

def leastExponent : Int := -1074

def greatestExponent : Int := 971

def zero (negative : Bool) : Binary64 := ⟨negative, 0, leastExponent⟩

def isZero (x : Binary64) : Bool := x.significand = 0

/-- Whether two numbers have the same value: the zeros of both signs have. -/
def sameValue (x y : Binary64) : Bool := x = y || (x.isZero && y.isZero)

/-- The magnitude as a quotient of natural numbers. -/
def ratio (x : Binary64) : Nat × Nat :=
  if 0 ≤ x.exponent then (x.significand * Nat.pow 2 x.exponent.toNat, 1)
  else (x.significand, Nat.pow 2 (-x.exponent).toNat)

/-- `num / den` divided by `2 ^ e`, as a quotient of natural numbers. -/
def scaled (num den : Nat) (e : Int) : Nat × Nat :=
  if 0 ≤ e then (num, den * Nat.pow 2 e.toNat) else (num * Nat.pow 2 (-e).toNat, den)

/-- The nearest natural number to a quotient; a tie goes to the even one. -/
def roundHalfEven (num den : Nat) : Nat :=
  let q := num / den
  let r := num % den
  if 2 * r > den || (2 * r = den && q % 2 = 1) then q + 1 else q

/-- The exponent at which the quotient has a significand of 53 bits, but not below the least. -/
def exponentFor (num den : Nat) : Int :=
  let e : Int := (num.log2 : Int) - (den.log2 : Int) - precision
  let (n, d) := scaled num den e
  let e := if n / d ≥ Nat.pow 2 precision then e + 1 else e
  max e leastExponent

/-- The number nearest to `num / den`, for `den ≠ 0`; `none` when it exceeds the format. -/
def ofRatio? (negative : Bool) (num den : Nat) : Option Binary64 :=
  if num = 0 then some (zero negative)
  else
    let e := exponentFor num den
    let (n, d) := scaled num den e
    let s := roundHalfEven n d
    let (s, e) := if s ≥ Nat.pow 2 precision then (s / 2, e + 1) else (s, e)
    if e > greatestExponent then none else some ⟨negative, s, e⟩

def ofNat? (negative : Bool) (n : Nat) : Option Binary64 := ofRatio? negative n 1

/-- Beyond this many places from the point a numeral is above or below every number of the
format, whatever its digits are. -/
def placesBound : Int := 400

/-- The number nearest to `digits * 10 ^ exponent`. The magnitude is judged before the power is
formed, so a huge exponent costs nothing. -/
def ofDecimal? (negative : Bool) (digits : Nat) (exponent : Int) : Option Binary64 :=
  if digits = 0 then some (zero negative)
  else
    let places : Int := (Nat.toDigits 10 digits).length + exponent
    if places > placesBound then none
    else if places < -placesBound then some (zero negative)
    else if 0 ≤ exponent then ofRatio? negative (digits * Nat.pow 10 exponent.toNat) 1
    else ofRatio? negative digits (Nat.pow 10 (-exponent).toNat)

/-- The rounded product of a number with a positive number. -/
def mul? (x y : Binary64) : Option Binary64 :=
  let (a, b) := x.ratio
  let (c, d) := y.ratio
  ofRatio? x.negative (a * c) (b * d)

/-- The rounded quotient of a number by a positive number. -/
def div? (x y : Binary64) : Option Binary64 :=
  let (a, b) := x.ratio
  let (c, d) := y.ratio
  if c = 0 then none else ofRatio? x.negative (a * d) (b * c)

def powerOfTen? (n : Nat) : Option Binary64 := ofRatio? false (Nat.pow 10 n) 1

end Binary64

end FormSchema
