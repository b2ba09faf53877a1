/-!
# Shortest decimals of doubles

A double stands for all reals that round to it.  `Decimal.shortest` picks from
that interval a decimal with the fewest digits, and among those the nearest to
the double.  The search goes through the decimal grids of one to seventeen digits;
if a point of a grid lies in the interval, so does one of the two grid points next
to the double, hence only those two are looked at.

`DecimalLayout` says which decimals a text writes out in full and which with an
exponent.
-/

namespace EscapePlan

/-- The decimal `digits · 10 ^ exponent`. -/
structure Decimal where
  digits : Nat
  exponent : Int
  deriving DecidableEq, Repr

/-- The dyadic number `mantissa · 2 ^ exponent`. -/
structure Dyadic where
  mantissa : Nat
  exponent : Int
  deriving DecidableEq, Repr

namespace Dyadic

/-- The numerator over a power of two. -/
def numerator (value : Dyadic) : Nat :=
  value.mantissa * Nat.pow 2 value.exponent.toNat

/-- The power of two under the numerator. -/
def denominator (value : Dyadic) : Nat :=
  Nat.pow 2 (-value.exponent).toNat

/-- Whether a dyadic number is at most a decimal. -/
def leDecimal (value : Dyadic) (decimal : Decimal) : Bool :=
  value.numerator * Nat.pow 10 (-decimal.exponent).toNat ≤
    decimal.digits * Nat.pow 10 decimal.exponent.toNat * value.denominator

/-- Whether a dyadic number is at least a decimal. -/
def geDecimal (value : Dyadic) (decimal : Decimal) : Bool :=
  decimal.digits * Nat.pow 10 decimal.exponent.toNat * value.denominator ≤
    value.numerator * Nat.pow 10 (-decimal.exponent).toNat

/-- The distance between a dyadic number and a decimal, in a unit that depends on
the two exponents only. -/
def distance (value : Dyadic) (decimal : Decimal) : Nat :=
  let left := value.numerator * Nat.pow 10 (-decimal.exponent).toNat
  let right := decimal.digits * Nat.pow 10 decimal.exponent.toNat * value.denominator
  (left - right) + (right - left)

/-- The number of multiples of a power of ten below a dyadic number. -/
def floorAt (value : Dyadic) (exponent : Int) : Nat :=
  (value.numerator * Nat.pow 10 (-exponent).toNat) / (value.denominator * Nat.pow 10 exponent.toNat)

end Dyadic

/-- The number of decimal digits of a number; zero has none. -/
def digitCount (value : Nat) : Nat :=
  if value = 0 then 0 else (Nat.toDigits 10 value).length

/-- A finite positive double: its value and the ends of its rounding interval. -/
structure RoundingInterval where
  lower : Dyadic
  value : Dyadic
  upper : Dyadic
  /-- Whether the ends round to the double too. -/
  closed : Bool

namespace RoundingInterval

/-- The rounding interval of `mantissa · 2 ^ exponent`.  Below a power of two,
`narrow`, the doubles lie twice as dense. -/
def ofDyadic (mantissa : Nat) (exponent : Int) (narrow : Bool) : RoundingInterval where
  lower := ⟨4 * mantissa - (if narrow then 1 else 2), exponent - 2⟩
  value := ⟨4 * mantissa, exponent - 2⟩
  upper := ⟨4 * mantissa + 2, exponent - 2⟩
  closed := mantissa % 2 = 0

/-- Whether a decimal rounds to the double. -/
def contains (interval : RoundingInterval) (decimal : Decimal) : Bool :=
  if interval.closed then
    interval.lower.leDecimal decimal && interval.upper.geDecimal decimal
  else
    !interval.lower.geDecimal decimal && !interval.upper.leDecimal decimal

/-- The exponent of the leading decimal digit. -/
def leadingExponent (interval : RoundingInterval) : Int :=
  let numerator := interval.value.numerator
  let denominator := interval.value.denominator
  if denominator ≤ numerator then
    (digitCount (numerator / denominator) : Int) - 1
  else
    -(digitCount ((denominator + numerator - 1) / numerator - 1) : Int)

/-- The nearest decimal in the interval among the two grid points next to the
double; of two equally near ones the even one. -/
def onGrid (interval : RoundingInterval) (exponent : Int) : Option Decimal :=
  let below := interval.value.floorAt exponent
  let low : Decimal := ⟨below, exponent⟩
  let high : Decimal := ⟨below + 1, exponent⟩
  let lowDistance := interval.value.distance low
  let highDistance := interval.value.distance high
  match interval.contains low, interval.contains high with
  | true, true =>
      if lowDistance < highDistance ∨ (lowDistance = highDistance ∧ below % 2 = 0)
      then some low else some high
  | true, false => some low
  | false, true => some high
  | false, false => none

/-- The shortest decimal of a positive double. -/
def shortest (interval : RoundingInterval) : Decimal :=
  let leading := interval.leadingExponent
  ((List.range 17).findSome? fun (places : Nat) => interval.onGrid (leading - (places : Int))).getD
    ⟨interval.value.floorAt (leading - 17), leading - 17⟩

end RoundingInterval

/-- A double taken apart. -/
structure FloatParts where
  negative : Bool
  /-- `none` for zero. -/
  interval : Option RoundingInterval

/-- Takes a finite double apart. -/
def FloatParts.ofFloat (value : Float) : FloatParts :=
  let bits : Nat := value.toBits.toNat
  let negative := bits / Nat.pow 2 63 = 1
  let biased : Nat := bits / Nat.pow 2 52 % Nat.pow 2 11
  let fraction := bits % Nat.pow 2 52
  if biased = 0 then
    if fraction = 0 then ⟨negative, none⟩
    else ⟨negative, some (.ofDyadic fraction (-1074) false)⟩
  else
    ⟨negative, some (.ofDyadic (Nat.pow 2 52 + fraction) ((biased : Int) - 1075)
      (fraction = 0 ∧ 1 < biased))⟩

namespace Decimal

/-- Drops trailing zeros from the digits. -/
def trimmed (decimal : Decimal) : Decimal :=
  let digits := Nat.toDigits 10 decimal.digits
  let zeros := (digits.reverse.takeWhile (· = '0')).length
  if decimal.digits = 0 then ⟨0, 0⟩
  else ⟨decimal.digits / Nat.pow 10 zeros, decimal.exponent + zeros⟩

/-- The decimal written out in full, with at least one digit on either side of the
point. -/
def full (decimal : Decimal) : List Char :=
  let digits := Nat.toDigits 10 decimal.digits
  if 0 ≤ decimal.exponent then
    digits ++ List.replicate decimal.exponent.toNat '0' ++ ['.', '0']
  else
    let places := (-decimal.exponent).toNat
    let padded := List.replicate (places + 1 - digits.length) '0' ++ digits
    padded.take (padded.length - places) ++ '.' :: padded.drop (padded.length - places)

/-- The exponent of the leading digit. -/
def leadingExponent (decimal : Decimal) : Int :=
  decimal.exponent + ((Nat.toDigits 10 decimal.digits).length - 1 : Nat)

/-- The decimal with one digit before the point and a signed exponent. -/
def scientific (decimal : Decimal) : List Char :=
  let exponent := decimal.leadingExponent
  let sign := if exponent < 0 then '-' else '+'
  let power := 'e' :: sign :: Nat.toDigits 10 exponent.natAbs
  match Nat.toDigits 10 decimal.digits with
  | first :: second :: rest => first :: '.' :: second :: rest ++ power
  | digits => digits ++ power

end Decimal

/-- Which decimals are written out in full: those whose leading digit has an
exponent between two bounds, both included; no bounds admit all. -/
structure DecimalLayout where
  bounds : Option (Int × Int)

namespace DecimalLayout

/-- Writes a finite double. -/
def render (layout : DecimalLayout) (value : Float) : String :=
  let parts := FloatParts.ofFloat value
  let decimal := (parts.interval.map (·.shortest.trimmed)).getD ⟨0, 0⟩
  let isFull :=
    match layout.bounds with
    | none => true
    | some (lowest, highest) =>
        lowest ≤ decimal.leadingExponent && decimal.leadingExponent ≤ highest
  let body := if isFull then decimal.full else decimal.scientific
  String.ofList (if parts.negative then '-' :: body else body)

end DecimalLayout

end EscapePlan
