import EscapePlan.Json.Printer
import EscapePlan.Json.Token

/-!
# The tokens of a printed value

Cutting the text of a value into tokens gives the tokens of the value: `Token.scan_layOut`.
Strings come back character by character and integers digit by digit.  Doubles are left out, and so
are integers that do not fit into sixty-four bits.
-/

namespace EscapePlan

/-- What may follow a value in a printed text. -/
inductive Ends : List Char → Prop where
  | nil : Ends []
  | comma (rest : List Char) : Ends (',' :: rest)
  | newLine (rest : List Char) : Ends ('\n' :: rest)

/-! ## Numerals -/

theorem naturalOfDigits_toDigits (value : Nat) : naturalOfDigits (Nat.toDigits 10 value) = value := by
  have read := @Nat.ofDigitChars_toDigits 10 value (by decide) (by decide)
  rw [Nat.ofDigitChars_eq_foldl] at read
  simpa [naturalOfDigits, digitValue, Nat.mul_comm] using read

theorem digitChar_ne_zero : ∀ digit < 10, 0 < digit → digit.digitChar ≠ '0' := by
  decide

/-- The digits of a number begin with a zero only if it is zero. -/
theorem head?_toDigits_ne {value : Nat} (pos : 0 < value) :
    (Nat.toDigits 10 value).head? ≠ some '0' := by
  induction value using Nat.strongRecOn with
  | ind value inductionHypothesis =>
      rw [Nat.toDigits_eq_if (by decide)]
      split
      next small => simpa using digitChar_ne_zero value small pos
      next large =>
        have nonempty := @Nat.toDigits_ne_nil (value / 10) 10
        have first := inductionHypothesis (value / 10) (by omega) (by omega)
        cases digits : Nat.toDigits 10 (value / 10) with
        | nil => contradiction
        | cons digit rest => simpa [digits] using first

theorem isDigit_of_mem_toDigits {value : Nat} {char : Char} (member : char ∈ Nat.toDigits 10 value) :
    char.isDigit = true :=
  Nat.isDigit_of_mem_toDigits (by decide) (by decide) member

/-- A number has a first digit. -/
theorem exists_toDigits_eq_cons (value : Nat) :
    ∃ digit rest, Nat.toDigits 10 value = digit :: rest ∧ digit.isDigit = true := by
  cases digits : Nat.toDigits 10 value with
  | nil => exact absurd digits Nat.toDigits_ne_nil
  | cons digit rest =>
      have member : digit ∈ Nat.toDigits 10 value := by simp [digits]
      exact ⟨digit, rest, rfl, isDigit_of_mem_toDigits member⟩

theorem splitDigits_toDigits {after : List Char} (ends : Ends after) (value : Nat) :
    splitDigits (Nat.toDigits 10 value ++ after) = (Nat.toDigits 10 value, after) := by
  have digits := fun char => @isDigit_of_mem_toDigits value char
  rw [splitDigits, List.takeWhile_append_of_pos digits, List.dropWhile_append_of_pos digits]
  cases ends <;> simp [Char.isDigit]

namespace Numeral

theorem readWhole_toDigits {after : List Char} (ends : Ends after) (value : Nat) :
    readWhole (Nat.toDigits 10 value ++ after) = some (Nat.toDigits 10 value, after) := by
  rw [readWhole, splitDigits_toDigits ends]
  split
  next empty => simp [Nat.toDigits_ne_nil] at empty
  next zero => simp_all
  next tail noTail leading =>
    simp only [Prod.mk.injEq] at leading
    cases value with
    | zero => simp_all
    | succ value =>
        have first := @head?_toDigits_ne (value + 1) (Nat.succ_pos value)
        simp [leading.1] at first
  next => simp_all

theorem readSign_toDigits (value : Nat) (after : List Char) :
    readSign (Nat.toDigits 10 value ++ after) = (false, Nat.toDigits 10 value ++ after) := by
  obtain ⟨digit, rest, digits, isDigit⟩ := exists_toDigits_eq_cons value
  have unsigned : digit ≠ '-' := by
    rintro rfl
    simp [Char.isDigit] at isDigit
  simp [digits, readSign, unsigned]

/-- An integer is read up to its last digit. -/
theorem read_integerDigits {after : List Char} (ends : Ends after) (value : Int) :
    read (Json.integerDigits value ++ after) =
      some (⟨decide (value < 0), Nat.toDigits 10 value.natAbs, none, none⟩, after) := by
  have sign : readSign (Json.integerDigits value ++ after) =
      (decide (value < 0), Nat.toDigits 10 value.natAbs ++ after) := by
    rw [Json.integerDigits]
    split
    next negative => simp [readSign, negative]
    next natural => simp [readSign_toDigits, natural]
  have fraction : readFraction after = some (none, after) := by
    cases ends <;> rfl
  have exponent : readExponent after = some (none, after) := by
    cases ends <;> rfl
  simp [read, sign, readWhole_toDigits ends, fraction, exponent]

/-- An integer of sixty-four bits keeps its value. -/
theorem value_integerDigits {value : Int} (lowest : lowestInt64 ≤ value)
    (highest : value < UInt64.size) :
    Numeral.value ⟨decide (value < 0), Nat.toDigits 10 value.natAbs, none, none⟩ =
      .integer value := by
  simp only [Numeral.value, naturalOfDigits_toDigits, Option.isSome_none, Bool.or_self,
    Bool.false_eq_true, if_false]
  by_cases negative : value < 0
  · have magnitude : -(value.natAbs : Int) = value := by omega
    have inRange : 0 < value.natAbs ∧ lowestInt64 ≤ -(value.natAbs : Int) := by omega
    rw [if_pos (by simpa using negative), if_pos inRange, magnitude]
  · have magnitude : (value.natAbs : Int) = value := by omega
    have small : value.natAbs < UInt64.size := by omega
    rw [if_neg (by simpa using negative), if_pos small, magnitude]

end Numeral

/-! ## Strings -/

namespace Piece

/-- The piece that a character is written as. -/
def ofChar (char : Char) : Piece :=
  if char.toNat < 0x20 ∧ char ∉ ['\x08', '\t', '\n', '\x0c', '\r'] then .unit char.toNat
  else .plain char

/-- Control characters without an escape of their own are written as hexadecimal units. -/
theorem hexUnit?_hexDigit : ∀ value < 32,
    hexUnit? '0' '0' (Json.hexDigit (value / 16)) (Json.hexDigit (value % 16)) = some value := by
  decide

theorem scan_escapeChar (char : Char) (rest : List Char) :
    scan (Json.escapeChar char ++ rest) =
      (scan rest).map fun (pieces, rest) => (ofChar char :: pieces, rest) := by
  simp only [Json.escapeChar]
  split
  next quote => subst quote; rfl
  split
  next backslash => subst backslash; rfl
  split
  next backspace => subst backspace; rfl
  split
  next tabulator => subst tabulator; rfl
  split
  next lineFeed => subst lineFeed; rfl
  split
  next formFeed => subst formFeed; rfl
  split
  next carriageReturn => subst carriageReturn; rfl
  next noQuote noBackslash noBackspace noTabulator noLineFeed noFormFeed noReturn =>
    split
    next control =>
      simp [scan, hexUnit?_hexDigit _ control, ofChar, *]
    next printable =>
      simp [scan, ofChar, *]

/-- The pieces of a quoted text are those of its characters. -/
theorem scan_quoted (chars after : List Char) :
    scan (chars.foldr (fun char rest => Json.escapeChar char ++ rest) ('"' :: after)) =
      some (chars.map ofChar, after) := by
  induction chars with
  | nil => rfl
  | cons char chars inductionHypothesis =>
      rw [List.foldr_cons, scan_escapeChar, inductionHypothesis]
      rfl

/-- No control character is half of a pair. -/
theorem join_ofChar (char : Char) (pieces : List Piece) :
    join (ofChar char :: pieces) = (join pieces).map (char :: ·) := by
  rw [ofChar]
  split
  next control =>
    have high : isHigh char.toNat = false := by simp [isHigh]; omega
    have low : isLow char.toNat = false := by simp [isLow]; omega
    cases pieces with
    | nil => simp [join, high, low]
    | cons piece pieces => cases piece <;> simp [join, high, low]
  next => rfl

theorem join_map_ofChar (chars : List Char) : join (chars.map ofChar) = some chars := by
  induction chars with
  | nil => rfl
  | cons char chars inductionHypothesis =>
      rw [List.map_cons, join_ofChar, inductionHypothesis]
      rfl

end Piece

/-! ## Tokens -/

namespace Token

variable {char : Char} {rest remaining : List Char} {token : Token}

theorem scan_nil : scan [] = [] := by
  rw [scan]

theorem scan_blank (blank : isBlank char = true) : scan (char :: rest) = scan rest := by
  rw [scan, if_pos blank]

theorem scan_sign (visible : isBlank char = false) (sign : ofSign? char = some token) :
    scan (char :: rest) = token :: scan rest := by
  rw [scan, if_neg (by simp [visible]), sign]

theorem scan_scalar (visible : isBlank char = false) (noSign : ofSign? char = none)
    (scalar : scanScalar (char :: rest) = some (token, remaining)) :
    scan (char :: rest) = token :: scan remaining := by
  rw [scan, if_neg (by simp [visible]), noSign]
  dsimp only
  split
  next found =>
    cases scalar.symm.trans found
    rfl
  next absent => simp [scalar] at absent

theorem scan_newLine (level : Nat) (after : List Char) : scan (Json.newLine level after) = scan after := by
  rw [Json.newLine, scan_blank (by decide)]
  induction 2 * level with
  | zero => rfl
  | succ count inductionHypothesis =>
      rw [List.replicate_succ, List.cons_append, scan_blank (by decide), inductionHypothesis]

theorem scan_quote (text : String) (after : List Char) :
    scan (Json.quote text after) = .text (some text) :: scan after := by
  have pieces := Piece.scan_quoted text.toList after
  refine scan_scalar (by decide) (by decide) ?_
  rw [scanScalar, pieces]
  simp [Piece.join_map_ofChar]

/-- An integer begins with a digit or a minus sign. -/
theorem exists_integerDigits_eq_cons (value : Int) :
    ∃ first rest, Json.integerDigits value = first :: rest ∧
      (first.isDigit = true ∨ first = '-') := by
  rw [Json.integerDigits]
  split
  next => exact ⟨_, _, rfl, .inr rfl⟩
  next =>
    obtain ⟨digit, rest, digits, isDigit⟩ := exists_toDigits_eq_cons value.natAbs
    exact ⟨digit, rest, digits, .inl isDigit⟩

/-- What begins a numeral begins nothing else. -/
theorem scanScalar_of_digit (first : char.isDigit = true ∨ char = '-') (rest : List Char) :
    isBlank char = false ∧ ofSign? char = none ∧ scanScalar (char :: rest) =
      (Numeral.read (char :: rest)).map fun (numeral, rest) => (.number numeral.value, rest) := by
  refine ⟨?_, ?_, ?_⟩
  · cases blank : isBlank char with
    | false => rfl
    | true =>
        simp only [isBlank, Bool.or_eq_true, decide_eq_true_eq] at blank
        obtain ((rfl | rfl) | rfl) | rfl := blank <;> simp [Char.isDigit] at first
  · unfold ofSign?
    split <;> simp_all [Char.isDigit]
  · generalize inputEq : char :: rest = input
    unfold scanScalar
    split <;> simp_all [Char.isDigit]

theorem scan_integerDigits {after : List Char} (ends : Ends after) {value : Int}
    (lowest : lowestInt64 ≤ value) (highest : value < UInt64.size) :
    scan (Json.integerDigits value ++ after) = .number (.integer value) :: scan after := by
  have read := Numeral.read_integerDigits ends value
  obtain ⟨first, rest, digits, leading⟩ := exists_integerDigits_eq_cons value
  rw [digits, List.cons_append] at read ⊢
  obtain ⟨visible, noSign, scalar⟩ := scanScalar_of_digit leading (rest ++ after)
  refine scan_scalar visible noSign ?_
  rw [scalar, read, ← Numeral.value_integerDigits lowest highest]
  rfl

end Token

namespace Json

mutual

/-- Whether a value is free of doubles and of integers beyond sixty-four bits. -/
def Exact : Json → Prop
  | .integer value => lowestInt64 ≤ value ∧ value < UInt64.size
  | .float _ => False
  | .array items => ExactItems items
  | .object members => ExactMembers members
  | _ => True

def ExactItems : List Json → Prop
  | [] => True
  | item :: items => item.Exact ∧ ExactItems items

def ExactMembers : List (String × Json) → Prop
  | [] => True
  | (_, value) :: members => value.Exact ∧ ExactMembers members

end

mutual

/-- The tokens of a value, followed by the given ones. -/
def tokens : Json → List Token → List Token
  | .null, after => .null :: after
  | .bool value, after => .bool value :: after
  | .integer value, after => .number (.integer value) :: after
  | .float value, after => .number (.float value) :: after
  | .text value, after => .text (some value) :: after
  | .array [], after => .openArray :: .closeArray :: after
  | .array (item :: items), after =>
      .openArray :: item.tokens (tokensOfItems items (.closeArray :: after))
  | .object [], after => .openObject :: .closeObject :: after
  | .object ((name, value) :: members), after =>
      .openObject :: .text (some name) :: .colon ::
        value.tokens (tokensOfMembers members (.closeObject :: after))

/-- The tokens of further items. -/
def tokensOfItems : List Json → List Token → List Token
  | [], after => after
  | item :: items, after => .comma :: item.tokens (tokensOfItems items after)

/-- The tokens of further members. -/
def tokensOfMembers : List (String × Json) → List Token → List Token
  | [], after => after
  | (name, value) :: members, after =>
      .comma :: .text (some name) :: .colon :: value.tokens (tokensOfMembers members after)

end

theorem ends_layOutItems (level : Nat) (items : List Json) {after : List Char} (ends : Ends after) :
    Ends (layOutItems level items after) := by
  cases items with
  | nil => exact ends
  | cons => exact .comma _

theorem ends_layOutMembers (level : Nat) (members : List (String × Json)) {after : List Char}
    (ends : Ends after) : Ends (layOutMembers level members after) := by
  cases members with
  | nil => exact ends
  | cons member members => exact .comma _

theorem ends_newLine (level : Nat) (after : List Char) : Ends (newLine level after) :=
  .newLine _

mutual

/-- The text of a value is cut into the tokens of the value. -/
theorem scan_layOut (level : Nat) {after : List Char} (ends : Ends after) : (value : Json) →
    value.Exact → Token.scan (value.layOut level after) = value.tokens (Token.scan after)
  | .null, _ => Token.scan_scalar (by decide) (by decide) rfl
  | .bool true, _ => Token.scan_scalar (by decide) (by decide) rfl
  | .bool false, _ => Token.scan_scalar (by decide) (by decide) rfl
  | .integer value, exact => Token.scan_integerDigits ends exact.1 exact.2
  | .text value, _ => Token.scan_quote value after
  | .array [], _ => by
      rw [layOut, Token.scan_sign (by decide) rfl, Token.scan_sign (by decide) rfl]
      rfl
  | .array (item :: items), exact => by
      have closing := ends_newLine level (']' :: after)
      rw [layOut, Token.scan_sign (by decide) rfl, Token.scan_newLine,
        scan_layOut _ (ends_layOutItems _ items closing) item exact.1,
        scan_layOutItems _ closing items exact.2, Token.scan_newLine,
        Token.scan_sign (by decide) rfl]
      rfl
  | .object [], _ => by
      rw [layOut, Token.scan_sign (by decide) rfl, Token.scan_sign (by decide) rfl]
      rfl
  | .object ((name, value) :: members), exact => by
      have closing := ends_newLine level ('\x7d' :: after)
      rw [layOut, Token.scan_sign (by decide) rfl, Token.scan_newLine, Token.scan_quote,
        Token.scan_sign (by decide) rfl, Token.scan_blank (by decide),
        scan_layOut _ (ends_layOutMembers _ members closing) value exact.1,
        scan_layOutMembers _ closing members exact.2, Token.scan_newLine,
        Token.scan_sign (by decide) rfl]
      rfl

theorem scan_layOutItems (level : Nat) {after : List Char} (ends : Ends after) :
    (items : List Json) → ExactItems items →
      Token.scan (layOutItems level items after) = tokensOfItems items (Token.scan after)
  | [], _ => rfl
  | item :: items, exact => by
      rw [layOutItems, Token.scan_sign (by decide) rfl, Token.scan_newLine,
        scan_layOut _ (ends_layOutItems _ items ends) item exact.1,
        scan_layOutItems _ ends items exact.2]
      rfl

theorem scan_layOutMembers (level : Nat) {after : List Char} (ends : Ends after) :
    (members : List (String × Json)) → ExactMembers members →
      Token.scan (layOutMembers level members after) = tokensOfMembers members (Token.scan after)
  | [], _ => rfl
  | (name, value) :: members, exact => by
      rw [layOutMembers, Token.scan_sign (by decide) rfl, Token.scan_newLine, Token.scan_quote,
        Token.scan_sign (by decide) rfl, Token.scan_blank (by decide),
        scan_layOut _ (ends_layOutMembers _ members ends) value exact.1,
        scan_layOutMembers _ ends members exact.2]
      rfl

end

end Json

end EscapePlan
