import EscapePlan.Json.Draft
import EscapePlan.Decimal.Nearest

/-!
# What plain scalars of YAML documents mean

A plain scalar without a tag means nothing, a truth value, a number or itself,
whichever it is first the word for.  Digits after a leading zero are no number.
-/

namespace EscapePlan.Yaml

namespace Word

/-- Whether a word stands for nothing. -/
def isNull (word : String) : Bool :=
  ["~", "null", "Null", "NULL"].contains word

/-- The truth value of a word. -/
def bool? (word : String) : Option Bool :=
  if ["true", "True", "TRUE"].contains word then some true
  else if ["false", "False", "FALSE"].contains word then some false
  else none

/-- The number that digits of a base denote. -/
def digits? (base : Nat) (digits : List Char) : Option Nat :=
  if digits.isEmpty then none
  else
    digits.foldlM (fun value digit => do
      let digit ← hexValue? digit
      guard (digit < base)
      return value * base + digit) 0

/-- A number without a sign: decimal digits, or digits of a base that is named first. -/
def unsigned? (word : List Char) : Option Nat :=
  match word with
  | '0' :: 'x' :: digits => digits? 16 digits
  | '0' :: 'o' :: digits => digits? 8 digits
  | '0' :: 'b' :: digits => digits? 2 digits
  | '0' :: _ :: _ => none
  | digits => digits? 10 digits

/-- A number that has no minus sign. -/
def natural? (word : String) : Option Nat :=
  match word.toList with
  | '+' :: digits => unsigned? digits
  | digits => unsigned? digits

/-- An integer. -/
def integer? (word : String) : Option Int :=
  match word.toList with
  | '-' :: digits => (unsigned? digits).map fun value => -value
  | _ => (natural? word).map Int.ofNat

/-- Whether a word consists of a sign, if any, a zero and further digits. -/
def hasLeadingZero (word : String) : Bool :=
  let digits :=
    match word.toList with
    | '-' :: digits => digits
    | '+' :: digits => digits
    | digits => digits
  digits.head? = some '0' && 1 < digits.length && digits.all Char.isDigit

/-- Splits off a sign; answers whether it is a minus sign. -/
def splitSign : List Char → Bool × List Char
  | '-' :: rest => (true, rest)
  | '+' :: rest => (false, rest)
  | word => (false, word)

/-- The exponent after the mantissa of a float, zero if there is none. -/
def exponent? : List Char → Option Int
  | [] => some 0
  | mark :: word =>
      let (negative, digits) := splitSign word
      if (mark = 'e' || mark = 'E') && !digits.isEmpty && digits.all Char.isDigit then
        let magnitude : Int := naturalOfDigits digits
        some (if negative then -magnitude else magnitude)
      else none

/-- A finite float in decimal notation; the point may come first or last. -/
def decimal? (word : List Char) : Option Float :=
  let (negative, body) := splitSign word
  let (whole, rest) := splitDigits body
  let (fraction, rest) :=
    match rest with
    | '.' :: rest => splitDigits rest
    | rest => ([], rest)
  if whole.isEmpty && fraction.isEmpty then none
  else do
    let exponent ← exponent? rest
    let value := (Decimal.mk (naturalOfDigits (whole ++ fraction))
      (exponent - fraction.length)).nearest negative
    guard value.isFinite
    return value

/-- A float. -/
def float? (word : String) : Option Float :=
  if [".inf", ".Inf", ".INF", "+.inf", "+.Inf", "+.INF"].contains word then some (1 / 0)
  else if ["-.inf", "-.Inf", "-.INF"].contains word then some (-1 / 0)
  else if [".nan", ".NaN", ".NAN"].contains word then some (0 / 0)
  else decimal? word.toList

/-- Whether an integer fits into sixty-four bits, signed or not. -/
def isShort (value : Int) : Bool :=
  lowestInt64 ≤ value && value < UInt64.size

/-- Whether an integer fits into twice as many bits. -/
def isLong (value : Int) : Bool :=
  -170141183460469231731687303715884105728 ≤ value &&
    value < 340282366920938463463374607431768211456

/-- What a word means that is no integer. -/
def floatOrText (word : String) : Draft :=
  if hasLeadingZero word then .text (some word)
  else
    match float? word with
    | some value => .number (.float value)
    | none => .text (some word)

/-- What a word means.  Integers beyond sixty-four bits are refused, and those beyond
twice as many are floats. -/
def meaning? (word : String) : Option Draft :=
  if word.isEmpty || isNull word then some .null
  else
    match bool? word with
    | some value => some (.bool value)
    | none =>
        match integer? word with
        | some value =>
            if isShort value then some (.number (.integer value))
            else if isLong value then none
            else some (floatOrText word)
        | none => some (floatOrText word)

end Word

end EscapePlan.Yaml
