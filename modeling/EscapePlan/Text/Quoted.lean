import EscapePlan.Text.Concealed

/-!
# Quoted text

A quoted text stands between double quotes.  Quotes, backslashes and the usual
control characters are written with a backslash, and every other concealed
character by its code point.
-/

namespace EscapePlan.Text

/-- The hexadecimal digits of a code point, in small letters. -/
def hexDigits (value : Nat) : String :=
  String.ofList (Nat.toDigits 16 value)

/-- How a character is written inside quotes. -/
def quotedChar (char : Char) : String :=
  match char with
  | '"' => "\\\""
  | '\\' => "\\\\"
  | '\n' => "\\n"
  | '\r' => "\\r"
  | '\t' => "\\t"
  | '\x00' => "\\0"
  | char =>
      if isConcealed char then "\\u\x7b" ++ hexDigits char.toNat ++ "\x7d"
      else char.toString

/-- A text between quotes. -/
def quoted (text : String) : String :=
  "\"" ++ String.join (text.toList.map quotedChar) ++ "\""

end EscapePlan.Text
