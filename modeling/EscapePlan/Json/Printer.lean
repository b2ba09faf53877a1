import EscapePlan.Json.Value
import EscapePlan.Decimal.Shortest

/-!
# Printing JSON values

Values are laid out over several lines, indented by two spaces a level.  Empty
containers stay on one line, and a member's name and value stand on one line,
separated by a colon and a space.

Inside strings only the quote, the backslash and control characters are escaped.
Doubles that are not finite have no numeral and are written as `null`.
-/

namespace EscapePlan.Json

/-- Doubles are written out in full from a hundred-thousandth up to below ten to
the sixteenth, and with an exponent elsewhere. -/
def floatLayout : DecimalLayout :=
  ⟨some (-5, 15)⟩

/-- The hexadecimal digit of a number below sixteen. -/
def hexDigit (value : Nat) : Char :=
  if value < 10 then Char.ofNat ('0'.toNat + value) else Char.ofNat ('a'.toNat + (value - 10))

/-- How a character is written inside a string. -/
def escapeChar (char : Char) : List Char :=
  if char = '"' then ['\\', '"']
  else if char = '\\' then ['\\', '\\']
  else if char = '\x08' then ['\\', 'b']
  else if char = '\t' then ['\\', 't']
  else if char = '\n' then ['\\', 'n']
  else if char = '\x0c' then ['\\', 'f']
  else if char = '\r' then ['\\', 'r']
  else if char.toNat < 0x20 then
    ['\\', 'u', '0', '0', hexDigit (char.toNat / 16), hexDigit (char.toNat % 16)]
  else [char]

/-- A string between quotes, followed by the given characters. -/
def quote (text : String) (after : List Char) : List Char :=
  '"' :: text.toList.foldr (fun char rest => escapeChar char ++ rest) ('"' :: after)

/-- The decimal digits of an integer, after a minus sign if it is negative. -/
def integerDigits (value : Int) : List Char :=
  if value < 0 then '-' :: Nat.toDigits 10 value.natAbs else Nat.toDigits 10 value.natAbs

/-- A line break and the indentation of the given level. -/
def newLine (level : Nat) (after : List Char) : List Char :=
  '\n' :: (List.replicate (2 * level) ' ' ++ after)

mutual

/-- A value at the given level of indentation, followed by the given characters. -/
def layOut (level : Nat) : Json → List Char → List Char
  | .null, after => 'n' :: 'u' :: 'l' :: 'l' :: after
  | .bool true, after => 't' :: 'r' :: 'u' :: 'e' :: after
  | .bool false, after => 'f' :: 'a' :: 'l' :: 's' :: 'e' :: after
  | .integer value, after => integerDigits value ++ after
  | .float value, after =>
      if value.isFinite then (floatLayout.render value).toList ++ after
      else 'n' :: 'u' :: 'l' :: 'l' :: after
  | .text value, after => quote value after
  | .array [], after => '[' :: ']' :: after
  | .array (item :: items), after =>
      '[' :: newLine (level + 1)
        (layOut (level + 1) item (layOutItems (level + 1) items (newLine level (']' :: after))))
  | .object [], after => '\x7b' :: '\x7d' :: after
  | .object ((name, value) :: members), after =>
      '\x7b' :: newLine (level + 1) (quote name (':' :: ' ' ::
        layOut (level + 1) value
          (layOutMembers (level + 1) members (newLine level ('\x7d' :: after)))))

/-- Further items of an array, each after a comma and a line break. -/
def layOutItems (level : Nat) : List Json → List Char → List Char
  | [], after => after
  | item :: items, after =>
      ',' :: newLine level (layOut level item (layOutItems level items after))

/-- Further members of an object, each after a comma and a line break. -/
def layOutMembers (level : Nat) : List (String × Json) → List Char → List Char
  | [], after => after
  | (name, value) :: members, after =>
      ',' :: newLine level (quote name (':' :: ' ' ::
        layOut level value (layOutMembers level members after)))

end

/-- The text of a value. -/
def print (value : Json) : String :=
  String.ofList (value.layOut 0 [])

end EscapePlan.Json
