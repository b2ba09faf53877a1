import EscapePlan.Json.Numeral

/-!
# Tokens of JSON texts

`Token.scan` cuts a text into tokens.  It never fails: a text that leaves the
grammar of tokens ends in the token `stray`, so a reader can still act on what
stands before the damage.

String contents are cut in two steps.  `Piece.scan` finds the end of a string and
lists its pieces, plain characters and `\u` units; `Piece.join` pairs the units
that are surrogates.  A string whose surrogates do not pair up is a token all the
same, but it denotes no text.
-/

namespace EscapePlan

/-- The value of a hexadecimal digit. -/
def hexValue? (digit : Char) : Option Nat :=
  if digit.isDigit then some (digit.toNat - '0'.toNat)
  else if 'a' ≤ digit ∧ digit ≤ 'f' then some (digit.toNat - 'a'.toNat + 10)
  else if 'A' ≤ digit ∧ digit ≤ 'F' then some (digit.toNat - 'A'.toNat + 10)
  else none

/-- The number that four hexadecimal digits denote. -/
def hexUnit? (first second third fourth : Char) : Option Nat := do
  let first ← hexValue? first
  let second ← hexValue? second
  let third ← hexValue? third
  let fourth ← hexValue? fourth
  return ((first * 16 + second) * 16 + third) * 16 + fourth

/-- A piece of the inside of a string. -/
inductive Piece where
  | plain (char : Char)
  /-- A sixteen-bit unit written as a `\u` escape. -/
  | unit (value : Nat)
  deriving DecidableEq, Repr

namespace Piece

/-- The character that a one-letter escape stands for. -/
def ofEscape? : Char → Option Char
  | '"' => some '"'
  | '\\' => some '\\'
  | '/' => some '/'
  | 'b' => some '\x08'
  | 'f' => some '\x0c'
  | 'n' => some '\n'
  | 'r' => some '\r'
  | 't' => some '\t'
  | _ => none

/-- Lists the pieces of a string up to its closing quote, and what follows it.
Control characters must be escaped. -/
def scan : List Char → Option (List Piece × List Char)
  | [] => none
  | '"' :: rest => some ([], rest)
  | '\\' :: 'u' :: first :: second :: third :: fourth :: rest =>
      match hexUnit? first second third fourth with
      | none => none
      | some value => (scan rest).map fun (pieces, rest) => (.unit value :: pieces, rest)
  | '\\' :: escape :: rest =>
      match ofEscape? escape with
      | none => none
      | some char => (scan rest).map fun (pieces, rest) => (.plain char :: pieces, rest)
  | char :: rest =>
      if char = '\\' ∨ char.toNat < 0x20 then none
      else (scan rest).map fun (pieces, rest) => (.plain char :: pieces, rest)

/-- Whether a unit is the first half of a surrogate pair. -/
def isHigh (value : Nat) : Bool :=
  0xD800 ≤ value && value < 0xDC00

/-- Whether a unit is the second half of a surrogate pair. -/
def isLow (value : Nat) : Bool :=
  0xDC00 ≤ value && value < 0xE000

/-- The character that a surrogate pair stands for. -/
def pairChar (high low : Nat) : Char :=
  Char.ofNat (0x10000 + (high - 0xD800) * 0x400 + (low - 0xDC00))

/-- The characters of a string, or `none` if a surrogate stands alone. -/
def join : List Piece → Option (List Char)
  | [] => some []
  | .plain char :: pieces => (join pieces).map (char :: ·)
  | .unit high :: .unit low :: pieces =>
      if isHigh high && isLow low then (join pieces).map (pairChar high low :: ·)
      else if isHigh high || isLow high then none
      else (join (.unit low :: pieces)).map (Char.ofNat high :: ·)
  | .unit value :: pieces =>
      if isHigh value || isLow value then none
      else (join pieces).map (Char.ofNat value :: ·)

end Piece

/-- A token of a JSON text. -/
inductive Token where
  | openObject
  | closeObject
  | openArray
  | closeArray
  | colon
  | comma
  | null
  | bool (value : Bool)
  | number (value : Number)
  /-- A string; `none` when its surrogates do not pair up. -/
  | text (value : Option String)
  /-- The text leaves the grammar of tokens here. -/
  | stray
  deriving Inhabited

namespace Token

/-- The white space of JSON. -/
def isBlank (char : Char) : Bool :=
  char = ' ' || char = '\t' || char = '\n' || char = '\r'

/-- The token written with a single sign. -/
def ofSign? : Char → Option Token
  | '\x7b' => some .openObject
  | '\x7d' => some .closeObject
  | '[' => some .openArray
  | ']' => some .closeArray
  | ':' => some .colon
  | ',' => some .comma
  | _ => none

/-- Takes a word, a string or a numeral off the front of a text. -/
def scanScalar : List Char → Option (Token × List Char)
  | 'n' :: 'u' :: 'l' :: 'l' :: rest => some (.null, rest)
  | 't' :: 'r' :: 'u' :: 'e' :: rest => some (.bool true, rest)
  | 'f' :: 'a' :: 'l' :: 's' :: 'e' :: rest => some (.bool false, rest)
  | '"' :: rest =>
      (Piece.scan rest).map fun (pieces, rest) =>
        (.text ((Piece.join pieces).map String.ofList), rest)
  | input => (Numeral.read input).map fun (numeral, rest) => (.number numeral.value, rest)

end Token

namespace Piece

/-- What follows a string is shorter than what its opening quote was followed by. -/
theorem length_of_scan {input rest : List Char} {pieces : List Piece}
    (scanned : scan input = some (pieces, rest)) : rest.length < input.length := by
  fun_induction scan input generalizing pieces rest with
  | case1 => simp at scanned
  | case2 => simp_all
  | case3 => simp at scanned
  | case4 _ _ _ _ _ _ _ inductionHypothesis =>
      obtain ⟨⟨_, _⟩, scanned', equation⟩ := Option.map_eq_some_iff.1 scanned
      have shorter := inductionHypothesis scanned'
      cases equation
      simp only [List.length_cons]
      omega
  | case5 => simp at scanned
  | case6 _ _ _ _ _ inductionHypothesis =>
      obtain ⟨⟨_, _⟩, scanned', equation⟩ := Option.map_eq_some_iff.1 scanned
      have shorter := inductionHypothesis scanned'
      cases equation
      simp only [List.length_cons]
      omega
  | case7 => simp at scanned
  | case8 _ _ _ _ _ _ inductionHypothesis =>
      obtain ⟨⟨_, _⟩, scanned', equation⟩ := Option.map_eq_some_iff.1 scanned
      have shorter := inductionHypothesis scanned'
      cases equation
      simp only [List.length_cons]
      omega

end Piece

namespace Token

/-- A scalar takes up at least one character. -/
theorem length_of_scanScalar {input rest : List Char} {token : Token}
    (scanned : scanScalar input = some (token, rest)) : rest.length < input.length := by
  unfold scanScalar at scanned
  split at scanned
  · cases scanned; simp only [List.length_cons]; omega
  · cases scanned; simp only [List.length_cons]; omega
  · cases scanned; simp only [List.length_cons]; omega
  · obtain ⟨⟨_, _⟩, scanned', equation⟩ := Option.map_eq_some_iff.1 scanned
    have shorter := Piece.length_of_scan scanned'
    cases equation
    simp only [List.length_cons]
    omega
  · obtain ⟨⟨_, _⟩, scanned', equation⟩ := Option.map_eq_some_iff.1 scanned
    cases equation
    exact Numeral.length_of_read scanned'

/-- Cuts a text into tokens. -/
def scan : List Char → List Token
  | [] => []
  | char :: rest =>
      if isBlank char then scan rest
      else
        match ofSign? char with
        | some token => token :: scan rest
        | none =>
            match _ : scanScalar (char :: rest) with
            | some (token, remaining) => token :: scan remaining
            | none => [.stray]
termination_by input => input.length
decreasing_by
  · simp
  · simp
  · exact length_of_scanScalar (by assumption)

end Token

end EscapePlan
