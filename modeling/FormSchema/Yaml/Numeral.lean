import FormSchema.Decimal.Shortest

/-!
# YAML numerals

What a plain text is as a number. A whole number is decimal, or has the mark of base 16, 8 or 2; a
decimal numeral of several digits that begins with a zero is not a number at all. A real number is
a decimal numeral with a point or an exponent, or the name of an infinity or of no number.
-/

namespace FormSchema.Yaml

/-- A real number of the 64-bit format, with the values that are not finite. -/
inductive Real where
  | finite (value : Binary64)
  | infinite (negative : Bool)
  | notNumber
deriving DecidableEq, Inhabited

/-- Whether two real numbers are equal; the zeros of both signs are. -/
def Real.same : Real → Real → Bool
  | .finite x, .finite y => x.sameValue y
  | x, y => x = y

/-- Numbers from `1e-5` up to below `1e16` are written out; no exponent carries a plus sign. -/
def Real.layout : Binary64.Layout := ⟨16, 4, ""⟩

/-- The decimal text of a real number, or its name. -/
def Real.text : Real → String
  | .finite x => x.text layout
  | .infinite negative => if negative then "-.inf" else ".inf"
  | .notNumber => ".nan"

def digitValue? (c : Char) : Option Nat :=
  if c.isDigit then some (c.toNat - '0'.toNat)
  else if c.isLower then some (c.toNat - 'a'.toNat + 10)
  else if c.isUpper then some (c.toNat - 'A'.toNat + 10)
  else none

/-- The number that at least one digit of a base stands for. -/
def digits? (base : Nat) (cs : List Char) : Option Nat :=
  if cs.isEmpty then none
  else cs.foldlM (fun n c => do
    let d ← digitValue? c
    if d < base then some (n * base + d) else none) 0

/-- The number of a numeral without a sign, in the base that its mark shows. -/
def natural? : List Char → Option Nat
  | '0' :: 'x' :: cs => digits? 16 cs
  | '0' :: 'o' :: cs => digits? 8 cs
  | '0' :: 'b' :: cs => digits? 2 cs
  | cs => digits? 10 cs

/-- Whether a text is digits only, more than one, and the first is a zero. A sign may precede. -/
def isPadded (cs : List Char) : Bool :=
  match cs with
  | '+' :: cs | '-' :: cs => digitsBehindZero cs
  | cs => digitsBehindZero cs
where
  -- The same without a sign.
  digitsBehindZero : List Char → Bool
    | '0' :: c :: cs => (c :: cs).all Char.isDigit
    | _ => false

/-- The whole number of a text, whatever its size. -/
def whole? (cs : List Char) : Option Int :=
  if isPadded cs then none
  else
    match cs with
    | '-' :: cs => (natural? cs).map fun n => -(n : Int)
    | '+' :: cs | cs => (natural? cs).map fun n => (n : Int)

/-- Splits an exponent off a decimal numeral. Without a mark it is zero. -/
def exponent? : List Char → Option Int
  | [] => some 0
  | mark :: cs =>
    if mark = 'e' || mark = 'E' then
      match cs with
      | '-' :: cs => (digits? 10 cs).map fun n => -(n : Int)
      | '+' :: cs | cs => (digits? 10 cs).map fun n => (n : Int)
    else none

/-- The number of a decimal numeral without a sign. The point may stand before or behind all of the
digits. A numeral beyond the format is none. -/
def decimal? (negative : Bool) (cs : List Char) : Option Binary64 := do
  let whole := cs.takeWhile Char.isDigit
  let (fraction, rest) := match cs.dropWhile Char.isDigit with
    | '.' :: cs => (cs.takeWhile Char.isDigit, cs.dropWhile Char.isDigit)
    | cs => ([], cs)
  let digits ← digits? 10 (whole ++ fraction)
  let exponent ← exponent? rest
  Binary64.ofDecimal? negative digits (exponent - fraction.length)

def isInfinity (cs : List Char) : Bool :=
  [".inf", ".Inf", ".INF"].contains (String.ofList cs)

def isNotNumber (cs : List Char) : Bool :=
  [".nan", ".NaN", ".NAN"].contains (String.ofList cs)

/-- The real number of a text. -/
def real? (cs : List Char) : Option Real :=
  if isNotNumber cs then some .notNumber
  else
    match cs with
    | '-' :: cs =>
      if isInfinity cs then some (.infinite true) else (decimal? true cs).map .finite
    | '+' :: cs | cs =>
      if isInfinity cs then some (.infinite false) else (decimal? false cs).map .finite

end FormSchema.Yaml
