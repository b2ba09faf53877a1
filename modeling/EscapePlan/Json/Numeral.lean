/-!
# Numerals of JSON texts

A numeral is an optional minus sign, digits without a leading zero, and
optionally a fraction and an exponent.  Reading it is separate from valuing it:
`Numeral.read` takes the longest numeral off the front of a text, and
`Numeral.value` says which number it denotes.

A numeral with neither fraction nor exponent denotes an integer as long as it
fits into sixty-four bits.  Everything else denotes a double, computed from the
leading digits that fit into sixty-four bits and one scaling by a power of ten;
a double beyond the finite range has no value.
-/

namespace EscapePlan

/-- The value of a numeral. -/
inductive Number where
  | integer (value : Int)
  | float (value : Float)
  /-- The magnitude lies beyond every finite double. -/
  | excessive
  deriving Inhabited

/-- The parts of a numeral as they are written. -/
structure Numeral where
  negative : Bool
  whole : List Char
  fraction : Option (List Char)
  /-- Whether the exponent is negative, and its digits. -/
  exponent : Option (Bool × List Char)
  deriving DecidableEq, Repr

/-- The lowest signed integer of sixty-four bits. -/
def lowestInt64 : Int :=
  -9223372036854775808

/-- The highest signed integer of sixty-four bits. -/
def highestInt64 : Int :=
  9223372036854775807

/-- The value of a decimal digit. -/
def digitValue (digit : Char) : Nat :=
  digit.toNat - '0'.toNat

/-- The number that a sequence of decimal digits denotes. -/
def naturalOfDigits (digits : List Char) : Nat :=
  digits.foldl (fun value digit => value * 10 + digitValue digit) 0

/-- Splits a text after its leading decimal digits. -/
def splitDigits (input : List Char) : List Char × List Char :=
  (input.takeWhile Char.isDigit, input.dropWhile Char.isDigit)

theorem length_of_splitDigits {input digits rest : List Char}
    (split : splitDigits input = (digits, rest)) :
    digits.length + rest.length = input.length := by
  cases split
  rw [← List.length_append, List.takeWhile_append_dropWhile]

namespace Numeral

/-- Splits off an optional minus sign. -/
def readSign : List Char → Bool × List Char
  | '-' :: rest => (true, rest)
  | text => (false, text)

/-- Splits off the digits before the point: a lone zero, or digits that do not
begin with one. -/
def readWhole (text : List Char) : Option (List Char × List Char) :=
  match splitDigits text with
  | ([], _) => none
  | (['0'], rest) => some (['0'], rest)
  | ('0' :: _, _) => none
  | (digits, rest) => some (digits, rest)

/-- Splits off an optional fraction, which needs a digit. -/
def readFraction : List Char → Option (Option (List Char) × List Char)
  | '.' :: text =>
      match splitDigits text with
      | ([], _) => none
      | (digits, rest) => some (some digits, rest)
  | text => some (none, text)

/-- Splits off the digits of an exponent of the given sign. -/
def readExponentDigits (negative : Bool) (text : List Char) :
    Option (Option (Bool × List Char) × List Char) :=
  match splitDigits text with
  | ([], _) => none
  | (digits, rest) => some (some (negative, digits), rest)

/-- Splits off the sign and the digits of an exponent. -/
def readSignedExponent : List Char → Option (Option (Bool × List Char) × List Char)
  | '-' :: text => readExponentDigits true text
  | '+' :: text => readExponentDigits false text
  | text => readExponentDigits false text

/-- Splits off an optional exponent, which needs a digit. -/
def readExponent : List Char → Option (Option (Bool × List Char) × List Char)
  | 'e' :: text => readSignedExponent text
  | 'E' :: text => readSignedExponent text
  | text => some (none, text)

/-- Takes a numeral off the front of a text. -/
def read (text : List Char) : Option (Numeral × List Char) :=
  let (negative, text) := readSign text
  match readWhole text with
  | none => none
  | some (whole, text) =>
      match readFraction text with
      | none => none
      | some (fraction, text) =>
          match readExponent text with
          | none => none
          | some (exponent, text) => some (⟨negative, whole, fraction, exponent⟩, text)

theorem length_of_readWhole {input whole rest : List Char}
    (taken : readWhole input = some (whole, rest)) : rest.length < input.length := by
  unfold readWhole at taken
  split at taken
  · simp at taken
  · rename_i split
    have lengths := length_of_splitDigits split
    cases taken
    simp at lengths
    omega
  · simp at taken
  · rename_i digits _ nonempty _ _ split
    have lengths := length_of_splitDigits split
    cases taken
    have := List.length_pos_iff.2 nonempty
    omega

theorem length_of_readFraction {input rest : List Char} {fraction : Option (List Char)}
    (taken : readFraction input = some (fraction, rest)) : rest.length ≤ input.length := by
  unfold readFraction at taken
  split at taken
  · split at taken
    · simp at taken
    · rename_i split
      have lengths := length_of_splitDigits split
      cases taken
      simp only [List.length_cons]
      omega
  · cases taken
    exact Nat.le_refl _

theorem length_of_readExponentDigits {input rest : List Char} {negative : Bool}
    {exponent : Option (Bool × List Char)}
    (taken : readExponentDigits negative input = some (exponent, rest)) :
    rest.length ≤ input.length := by
  unfold readExponentDigits at taken
  split at taken
  · simp at taken
  · rename_i split
    have lengths := length_of_splitDigits split
    cases taken
    omega

theorem length_of_readSignedExponent {input rest : List Char}
    {exponent : Option (Bool × List Char)}
    (taken : readSignedExponent input = some (exponent, rest)) :
    rest.length ≤ input.length := by
  unfold readSignedExponent at taken
  split at taken
  · exact Nat.le_trans (length_of_readExponentDigits taken) (by simp)
  · exact Nat.le_trans (length_of_readExponentDigits taken) (by simp)
  · exact length_of_readExponentDigits taken

theorem length_of_readExponent {input rest : List Char}
    {exponent : Option (Bool × List Char)}
    (taken : readExponent input = some (exponent, rest)) : rest.length ≤ input.length := by
  unfold readExponent at taken
  split at taken
  · exact Nat.le_trans (length_of_readSignedExponent taken) (by simp)
  · exact Nat.le_trans (length_of_readSignedExponent taken) (by simp)
  · cases taken
    exact Nat.le_refl _

theorem length_of_readSign {input rest : List Char} {negative : Bool}
    (taken : readSign input = (negative, rest)) : rest.length ≤ input.length := by
  unfold readSign at taken
  split at taken <;> cases taken <;> simp

/-- A numeral takes up at least one character. -/
theorem length_of_read {input rest : List Char} {numeral : Numeral}
    (taken : read input = some (numeral, rest)) : rest.length < input.length := by
  unfold read at taken
  split at taken
  rename_i sign
  have signLength := length_of_readSign sign
  split at taken
  · simp at taken
  · rename_i whole
    have wholeLength := length_of_readWhole whole
    split at taken
    · simp at taken
    · rename_i fraction
      have fractionLength := length_of_readFraction fraction
      split at taken
      · simp at taken
      · rename_i exponent
        have exponentLength := length_of_readExponent exponent
        cases taken
        omega

/-- Appends digits to a significand while it fits into sixty-four bits; answers
the significand and the digits that did not fit. -/
def absorb (significand : Nat) : List Char → Nat × List Char
  | [] => (significand, [])
  | digit :: digits =>
      let extended := significand * 10 + digitValue digit
      if extended < UInt64.size then absorb extended digits else (significand, digit :: digits)

/-- The largest power of ten by which a double is scaled in one step. -/
def largestScale : Nat := 308

/-- The double nearest to ten to the given power. -/
def powerOfTen (exponent : Nat) : Float :=
  Float.ofScientific 1 false exponent

/-- Scales a double by a power of ten, in steps where the power itself is too
small to be a double. -/
def scale (value : Float) (exponent : Int) : Number :=
  if exponent.natAbs ≤ largestScale then
    if 0 ≤ exponent then
      let scaled := value * powerOfTen exponent.natAbs
      if scaled.isInf then .excessive else .float scaled
    else
      .float (value / powerOfTen exponent.natAbs)
  else if value == 0 then
    .float value
  else if 0 ≤ exponent then
    .excessive
  else
    scale (value / powerOfTen largestScale) (exponent + largestScale)
termination_by exponent.natAbs
decreasing_by simp only [largestScale] at *; omega

/-- The exponent a numeral states, or `none` when its magnitude exceeds
thirty-two bits. -/
def statedExponent : Option (Bool × List Char) → Option Int
  | none => some 0
  | some (negative, digits) =>
      let magnitude := naturalOfDigits digits
      if magnitude < 2147483648 then some (if negative then -magnitude else magnitude) else none

/-- The double a numeral denotes without its sign. -/
def magnitude (numeral : Numeral) : Number :=
  let (significand, dropped) := absorb 0 numeral.whole
  let fraction := numeral.fraction.getD []
  let (significand, droppedFraction) := absorb significand fraction
  let shift : Int := dropped.length - (fraction.length - droppedFraction.length : Nat)
  match statedExponent numeral.exponent with
  | some exponent => scale significand.toUInt64.toFloat (shift + exponent)
  | none =>
      match numeral.exponent with
      | some (false, _) => if significand = 0 then .float 0 else .excessive
      | _ => .float 0

/-- The number a numeral denotes.  A negative zero is a double. -/
def value (numeral : Numeral) : Number :=
  let whole := naturalOfDigits numeral.whole
  let asDouble :=
    match numeral.magnitude with
    | .float value => .float (if numeral.negative then -value else value)
    | other => other
  if numeral.fraction.isSome || numeral.exponent.isSome then
    asDouble
  else if numeral.negative then
    if 0 < whole ∧ lowestInt64 ≤ -whole then .integer (-whole) else asDouble
  else
    if whole < UInt64.size then .integer whole else asDouble

end Numeral

end EscapePlan
