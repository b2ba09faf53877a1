import EscapePlan.Json.Draft
import EscapePlan.Decimal.Nearest

/-!
# Words of TOML documents

A value that is not quoted and not a container is a word: a truth value, an integer, a
float or a date.  Words are recognized as wholes.
-/

namespace EscapePlan.Toml

/-- Whether digits are written with single underscores between them only. -/
def wellSpaced (accepts : Char → Bool) : List Char → Bool
  | [] => false
  | [digit] => accepts digit
  | digit :: '_' :: rest => accepts digit && wellSpaced accepts rest
  | digit :: rest => accepts digit && wellSpaced accepts rest

/-- Digits without the underscores between them. -/
def withoutUnderscores (digits : List Char) : List Char :=
  digits.filter (· ≠ '_')

/-- Splits off an optional sign. -/
def splitSign : List Char → Bool × List Char
  | '+' :: rest => (false, rest)
  | '-' :: rest => (true, rest)
  | word => (false, word)

/-- Whether a word is the integral part of a decimal number. -/
def isWhole (word : List Char) : Bool :=
  match word with
  | ['0'] => true
  | '0' :: _ => false
  | _ => wellSpaced Char.isDigit word

/-- The number that digits of some base denote. -/
def naturalIn (base : Nat) (digits : List Char) : Nat :=
  digits.foldl (fun value digit => value * base + (hexValue? digit).getD 0) 0

/-- Whether a character is a digit of a base up to sixteen. -/
def isDigitOf (base : Nat) (char : Char) : Bool :=
  (hexValue? char).any (· < base)

/-- An integer that fits into sixty-four bits. -/
def boundedInteger (value : Int) : Option Draft :=
  if lowestInt64 ≤ value ∧ value ≤ highestInt64 then some (.number (.integer value)) else none

/-- An unsigned integer of a base other than ten. -/
def basedInteger (base : Nat) (digits : List Char) : Option Draft :=
  if wellSpaced (isDigitOf base) digits then
    boundedInteger (naturalIn base (withoutUnderscores digits))
  else none

/-- An integer. -/
def integer? (word : List Char) : Option Draft :=
  match word with
  | '0' :: 'x' :: digits => basedInteger 16 digits
  | '0' :: 'o' :: digits => basedInteger 8 digits
  | '0' :: 'b' :: digits => basedInteger 2 digits
  | word =>
      let (negative, digits) := splitSign word
      if isWhole digits then
        let value := naturalOfDigits (withoutUnderscores digits)
        boundedInteger (if negative then -value else value)
      else none

/-- A float, apart from the words for infinity and for no number. -/
def float? (word : List Char) : Option Draft :=
  let (negative, word) := splitSign word
  let isExponent (char : Char) : Bool := char = 'e' || char = 'E'
  let mantissa := word.takeWhile fun char => !isExponent char
  let power := word.dropWhile fun char => !isExponent char
  let whole := mantissa.takeWhile (· ≠ '.')
  let fraction := mantissa.dropWhile (· ≠ '.')
  let fractionDigits := fraction.drop 1
  let (exponentNegative, exponentDigits) := splitSign (power.drop 1)
  if isWhole whole
      && (fraction.isEmpty || wellSpaced Char.isDigit fractionDigits)
      && (power.isEmpty || wellSpaced Char.isDigit exponentDigits)
      && !(fraction.isEmpty && power.isEmpty) then
    let places := withoutUnderscores fractionDigits
    let exponent : Int := naturalOfDigits (withoutUnderscores exponentDigits)
    let power := if exponentNegative then -exponent else exponent
    some (.number (.float ((Decimal.mk (naturalOfDigits (withoutUnderscores whole ++ places))
      (power - places.length)).nearest negative)))
  else none

/-- The words for infinity and for no number. -/
def specialFloat? (word : List Char) : Option Draft :=
  let (negative, word) := splitSign word
  if word = ['i', 'n', 'f'] then
    some (.number (.float (if negative then -1.0 / 0.0 else 1.0 / 0.0)))
  else if word = ['n', 'a', 'n'] then some (.number (.float (0.0 / 0.0)))
  else none

/-- Whether two digits denote a number between two bounds. -/
def isPair (lowest highest : Nat) (word : List Char) : Bool :=
  word.length = 2 && word.all Char.isDigit && lowest ≤ naturalOfDigits word &&
    naturalOfDigits word ≤ highest

/-- The number of days in a month. -/
def daysIn (year month : Nat) : Nat :=
  if month = 2 then
    if (year % 4 = 0 ∧ year % 100 ≠ 0) ∨ year % 400 = 0 then 29 else 28
  else if month = 4 ∨ month = 6 ∨ month = 9 ∨ month = 11 then 30
  else 31

/-- Whether a word of ten characters is a date. -/
def isDate (word : List Char) : Bool :=
  match word with
  | [y₁, y₂, y₃, y₄, '-', m₁, m₂, '-', d₁, d₂] =>
      [y₁, y₂, y₃, y₄].all Char.isDigit && isPair 1 12 [m₁, m₂] &&
        isPair 1 (daysIn (naturalOfDigits [y₁, y₂, y₃, y₄]) (naturalOfDigits [m₁, m₂])) [d₁, d₂]
  | _ => false

/-- Whether a word is what may follow the seconds: nothing, or a fraction. -/
def isSecondFraction (word : List Char) : Bool :=
  match word with
  | [] => true
  | '.' :: digits => !digits.isEmpty && digits.all Char.isDigit
  | _ => false

/-- Whether a word is a time of day. -/
def isTime (word : List Char) : Bool :=
  match word with
  | h₁ :: h₂ :: ':' :: m₁ :: m₂ :: ':' :: s₁ :: s₂ :: rest =>
      isPair 0 23 [h₁, h₂] && isPair 0 59 [m₁, m₂] && isPair 0 60 [s₁, s₂] &&
        isSecondFraction rest
  | _ => false

/-- Whether a word is a distance from universal time. -/
def isOffset (word : List Char) : Bool :=
  match word with
  | [] => true
  | ['Z'] => true
  | ['z'] => true
  | [sign, h₁, h₂, ':', m₁, m₂] =>
      (sign = '+' || sign = '-') && isPair 0 23 [h₁, h₂] && isPair 0 59 [m₁, m₂]
  | _ => false

/-- Whether a word is a date, a time, or both. -/
def isDatetime (word : List Char) : Bool :=
  let isZone (char : Char) : Bool :=
    char = 'Z' || char = 'z' || char = '+' || char = '-'
  if isTime word then true
  else
    isDate (word.take 10) &&
      match word.drop 10 with
      | [] => true
      | separator :: rest =>
          (separator = 'T' || separator = 't' || separator = ' ') &&
            isTime (rest.takeWhile fun char => !isZone char) &&
            isOffset (rest.dropWhile fun char => !isZone char)

/-- The key under which a date stands when it is taken for a table. -/
def datetimeKey : String :=
  "$__toml_private_datetime"

/-- A date. -/
def datetime? (word : List Char) : Option Draft :=
  if isDatetime word then
    some (.object [(some datetimeKey, .text (some (String.ofList word)))] true)
  else none

/-- The value of a word. -/
def wordValue? (word : List Char) : Option Draft :=
  if word = ['t', 'r', 'u', 'e'] then some (.bool true)
  else if word = ['f', 'a', 'l', 's', 'e'] then some (.bool false)
  else
    match integer? word with
    | some draft => some draft
    | none =>
        match float? word with
        | some draft => some draft
        | none => (specialFloat? word).or (datetime? word)

end EscapePlan.Toml
