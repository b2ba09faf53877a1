import EscapePlan.Decimal.Shortest

/-!
# Doubles nearest to decimals

A decimal is rounded once, to the double nearest to it.  Exponents beyond the range of
doubles are recognized beforehand, so that no power of ten is computed in vain.
-/

namespace EscapePlan

namespace Decimal

/-- An exponent such that every decimal with a greater leading exponent is infinite when
rounded, and every positive one with a lesser exponent than its negative is zero. -/
def extremeExponent : Int :=
  400

/-- The double nearest to a decimal, with a sign. -/
def nearest (decimal : Decimal) (negative : Bool) : Float :=
  let magnitude : Float :=
    if decimal.digits = 0 ∨ decimal.leadingExponent < -extremeExponent then 0
    else if extremeExponent < decimal.leadingExponent then 1 / 0
    else Float.ofScientific decimal.digits (decimal.exponent < 0) decimal.exponent.natAbs
  if negative then -magnitude else magnitude

end Decimal

end EscapePlan
