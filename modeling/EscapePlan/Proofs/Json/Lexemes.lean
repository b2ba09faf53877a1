import EscapePlan.Proofs.Json.Tokens

/-!
# How tokens are written

`Lexes` is the lexical grammar of JSON: characters make up tokens, with blanks between them.  Just
the texts that keep to it are cut into tokens without anything stray, and they are cut into the
tokens that they make up: `Token.lexes_iff`.
-/

namespace EscapePlan

/-- One or more decimal digits. -/
structure IsDigits (digits : List Char) : Prop where
  nonempty : digits ≠ []
  all : ∀ digit ∈ digits, digit.isDigit = true

/-- What does not begin with a digit. -/
def NoDigit (rest : List Char) : Prop :=
  ∀ char ∈ rest.head?, char.isDigit = false

theorem splitDigits_append {digits rest : List Char} (all : ∀ digit ∈ digits, digit.isDigit = true)
    (noDigit : NoDigit rest) : splitDigits (digits ++ rest) = (digits, rest) := by
  rw [splitDigits, List.takeWhile_append_of_pos all, List.dropWhile_append_of_pos all]
  cases rest with
  | nil => simp
  | cons char rest => simp [noDigit char rfl]

theorem eq_of_splitDigits {text digits rest : List Char} (split : splitDigits text = (digits, rest)) :
    text = digits ++ rest ∧ (∀ digit ∈ digits, digit.isDigit = true) ∧ NoDigit rest := by
  cases split
  refine ⟨List.takeWhile_append_dropWhile.symm, List.all_eq_true.1 List.all_takeWhile, ?_⟩
  intro char first
  have stops := List.head?_dropWhile_not Char.isDigit text
  rw [Option.mem_def.1 first] at stops
  exact stops

namespace Numeral

/-- The digits before the point. -/
inductive Whole : List Char → Prop where
  | zero : Whole ['0']
  | digits {digits : List Char} : IsDigits digits → digits.head? ≠ some '0' → Whole digits

/-- How a fraction is written. -/
inductive Fraction : Option (List Char) → List Char → Prop where
  | none : Fraction none []
  | some {digits : List Char} : IsDigits digits → Fraction (some digits) ('.' :: digits)

/-- How an exponent is written. -/
inductive Exponent : Option (Bool × List Char) → List Char → Prop where
  | none : Exponent none []
  | unsigned {mark : Char} {digits : List Char} : mark = 'e' ∨ mark = 'E' → IsDigits digits →
      Exponent (some (false, digits)) (mark :: digits)
  | plus {mark : Char} {digits : List Char} : mark = 'e' ∨ mark = 'E' → IsDigits digits →
      Exponent (some (false, digits)) (mark :: '+' :: digits)
  | minus {mark : Char} {digits : List Char} : mark = 'e' ∨ mark = 'E' → IsDigits digits →
      Exponent (some (true, digits)) (mark :: '-' :: digits)

/-- How a numeral is written. -/
inductive Written : Numeral → List Char → Prop where
  | mk (negative : Bool) {whole fraction exponent : List Char} {places : Option (List Char)}
      {power : Option (Bool × List Char)} : Whole whole → Fraction places fraction →
      Exponent power exponent →
      Written ⟨negative, whole, places, power⟩
        ((if negative then ['-'] else []) ++ whole ++ fraction ++ exponent)

/-- What goes on neither with digits nor with a fraction nor with an exponent. -/
def Stops (rest : List Char) : Prop :=
  ∀ char ∈ rest.head?, char.isDigit = false ∧ char ≠ '.' ∧ char ≠ 'e' ∧ char ≠ 'E'

variable {whole fraction exponent rest : List Char} {places : Option (List Char)}
  {power : Option (Bool × List Char)}

theorem Stops.noDigit (stops : Stops rest) : NoDigit rest :=
  fun char first => (stops char first).1

theorem Whole.isDigits (written : Whole whole) : IsDigits whole := by
  cases written with
  | zero => exact ⟨by simp, by simp⟩
  | digits isDigits _ => exact isDigits

/-! ## Numerals are read as they are written -/

theorem readWhole_append (written : Whole whole) (noDigit : NoDigit rest) :
    readWhole (whole ++ rest) = some (whole, rest) := by
  rw [readWhole, splitDigits_append written.isDigits.all noDigit]
  cases written with
  | zero => rfl
  | digits isDigits leading =>
      obtain ⟨first, others, rfl⟩ := List.exists_cons_of_ne_nil isDigits.nonempty
      split
      next same => cases same
      next same => cases same; rfl
      next same => cases same; exact absurd rfl leading
      next same => cases same; rfl

theorem readFraction_append (written : Fraction places fraction) (noDigit : NoDigit rest)
    (noPoint : rest.head? ≠ some '.') : readFraction (fraction ++ rest) = some (places, rest) := by
  cases written with
  | none =>
      rw [List.nil_append]
      unfold readFraction
      split
      next => exact absurd rfl noPoint
      next => rfl
  | @some digits isDigits =>
      obtain ⟨first, others, rfl⟩ := List.exists_cons_of_ne_nil isDigits.nonempty
      rw [List.cons_append, readFraction, splitDigits_append isDigits.all noDigit]

theorem readExponentDigits_append {digits : List Char} (isDigits : IsDigits digits)
    (noDigit : NoDigit rest) (negative : Bool) :
    readExponentDigits negative (digits ++ rest) = some (some (negative, digits), rest) := by
  obtain ⟨first, others, rfl⟩ := List.exists_cons_of_ne_nil isDigits.nonempty
  rw [readExponentDigits, splitDigits_append isDigits.all noDigit]

theorem readExponent_append (written : Exponent power exponent) (stops : Stops rest) :
    readExponent (exponent ++ rest) = some (power, rest) := by
  cases written with
  | none =>
      rw [List.nil_append]
      unfold readExponent
      split
      next => exact absurd rfl (stops 'e' rfl).2.2.1
      next => exact absurd rfl (stops 'E' rfl).2.2.2
      next => rfl
  | @unsigned mark digits marks isDigits =>
      have reads : readSignedExponent (digits ++ rest) = some (some (false, digits), rest) := by
        obtain ⟨first, others, rfl⟩ := List.exists_cons_of_ne_nil isDigits.nonempty
        have digit := isDigits.all first List.mem_cons_self
        rw [← readExponentDigits_append isDigits stops.noDigit]
        rw [List.cons_append, readSignedExponent]
        · rintro _ ⟨⟩
          exact absurd digit (by decide)
        · rintro _ ⟨⟩
          exact absurd digit (by decide)
      rcases marks with rfl | rfl <;> exact reads
  | plus marks isDigits =>
      have reads := readExponentDigits_append isDigits stops.noDigit false
      rcases marks with rfl | rfl <;> exact reads
  | minus marks isDigits =>
      have reads := readExponentDigits_append isDigits stops.noDigit true
      rcases marks with rfl | rfl <;> exact reads

/-- An exponent is no fraction, and goes on with no digit. -/
theorem Exponent.head? (written : Exponent power exponent) (stops : Stops rest) :
    NoDigit (exponent ++ rest) ∧ (exponent ++ rest).head? ≠ some '.' := by
  have marked {mark : Char} {others : List Char} (marks : mark = 'e' ∨ mark = 'E') :
      NoDigit (mark :: others) ∧ (mark :: others).head? ≠ some '.' := by
    rcases marks with rfl | rfl <;> refine ⟨?_, by simp⟩ <;> rintro char ⟨⟩ <;> rfl
  cases written with
  | none => exact ⟨stops.noDigit, fun point => (stops '.' point).2.1 rfl⟩
  | unsigned marks => exact marked marks
  | plus marks => exact marked marks
  | minus marks => exact marked marks

theorem read_written {numeral : Numeral} {chars : List Char} (written : numeral.Written chars)
    (stops : Stops rest) : read (chars ++ rest) = some (numeral, rest) := by
  cases written with
  | @mk negative whole fraction exponent places power isWhole isFraction isExponent =>
      obtain ⟨noDigit, noPoint⟩ := isExponent.head? stops
      have afterWhole : NoDigit (fraction ++ (exponent ++ rest)) := by
        cases isFraction with
        | none => exact noDigit
        | some _ => rintro char ⟨⟩; rfl
      have sign : readSign ((if negative then ['-'] else []) ++ whole ++ fraction ++ exponent ++ rest) =
          (negative, whole ++ (fraction ++ (exponent ++ rest))) := by
        cases negative with
        | true => simp [readSign]
        | false =>
            obtain ⟨first, others, rfl⟩ := List.exists_cons_of_ne_nil isWhole.isDigits.nonempty
            have digit := isWhole.isDigits.all first List.mem_cons_self
            have noSign : first ≠ '-' := by
              rintro rfl
              exact absurd digit (by decide)
            simp [readSign, noSign]
      rw [read, sign]
      dsimp only
      rw [readWhole_append isWhole afterWhole]
      dsimp only
      rw [readFraction_append isFraction noDigit noPoint]
      dsimp only
      rw [readExponent_append isExponent stops]

/-! ## Numerals that are read are written -/

variable {text : List Char}

theorem eq_of_readWhole (read : readWhole text = some (whole, rest)) :
    Whole whole ∧ text = whole ++ rest ∧ NoDigit rest := by
  unfold readWhole at read
  split at read
  next => cases read
  next split =>
    obtain ⟨same, -, noDigit⟩ := eq_of_splitDigits split
    cases read
    exact ⟨.zero, same, noDigit⟩
  next => cases read
  next digits others nonempty notZero noLeading split =>
    obtain ⟨same, all, noDigit⟩ := eq_of_splitDigits split
    cases read
    refine ⟨.digits ⟨fun none_ => nonempty none_, all⟩ fun leading => ?_, same, noDigit⟩
    obtain ⟨later, rfl⟩ := List.head?_eq_some_iff.1 leading
    exact noLeading later rfl

theorem eq_of_readFraction (noDigit : NoDigit text) (read : readFraction text = some (places, rest)) :
    ∃ fraction, Fraction places fraction ∧ text = fraction ++ rest ∧ NoDigit rest := by
  unfold readFraction at read
  split at read
  next =>
    split at read
    next => cases read
    next digits _ nonempty split =>
      obtain ⟨same, all, noDigit⟩ := eq_of_splitDigits split
      cases read
      exact ⟨_, .some ⟨fun none_ => nonempty none_, all⟩, by rw [same, List.cons_append], noDigit⟩
  next =>
    cases read
    exact ⟨[], .none, rfl, noDigit⟩

theorem eq_of_readExponentDigits {negative : Bool}
    (read : readExponentDigits negative text = some (power, rest)) :
    ∃ digits, IsDigits digits ∧ power = some (negative, digits) ∧ text = digits ++ rest ∧
      NoDigit rest := by
  unfold readExponentDigits at read
  split at read
  next => cases read
  next digits _ nonempty split =>
    obtain ⟨same, all, noDigit⟩ := eq_of_splitDigits split
    cases read
    exact ⟨_, ⟨fun none_ => nonempty none_, all⟩, rfl, same, noDigit⟩

theorem eq_of_readExponent (noDigit : NoDigit text) (read : readExponent text = some (power, rest)) :
    ∃ exponent, Exponent power exponent ∧ text = exponent ++ rest ∧ NoDigit rest := by
  have signed {mark : Char} {text : List Char} (marks : mark = 'e' ∨ mark = 'E')
      (read : readSignedExponent text = some (power, rest)) :
      ∃ exponent, Exponent power exponent ∧ mark :: text = exponent ++ rest ∧ NoDigit rest := by
    unfold readSignedExponent at read
    split at read
    next =>
      obtain ⟨digits, isDigits, rfl, rfl, noDigit⟩ := eq_of_readExponentDigits read
      exact ⟨_, .minus marks isDigits, rfl, noDigit⟩
    next =>
      obtain ⟨digits, isDigits, rfl, rfl, noDigit⟩ := eq_of_readExponentDigits read
      exact ⟨_, .plus marks isDigits, rfl, noDigit⟩
    next =>
      obtain ⟨digits, isDigits, rfl, rfl, noDigit⟩ := eq_of_readExponentDigits read
      exact ⟨_, .unsigned marks isDigits, rfl, noDigit⟩
  unfold readExponent at read
  split at read
  next => exact signed (.inl rfl) read
  next => exact signed (.inr rfl) read
  next =>
    cases read
    exact ⟨[], .none, rfl, noDigit⟩

theorem exists_written_of_read {numeral : Numeral} (reads : read text = some (numeral, rest)) :
    ∃ chars, numeral.Written chars ∧ text = chars ++ rest ∧ NoDigit rest := by
  have signed : text = (if (readSign text).1 then ['-'] else []) ++ (readSign text).2 := by
    unfold readSign
    split <;> rfl
  unfold read at reads
  dsimp only at reads
  split at reads
  next => cases reads
  next whole afterWhole readWhole =>
    obtain ⟨isWhole, sameWhole, noDigit⟩ := eq_of_readWhole readWhole
    split at reads
    next => cases reads
    next readFraction =>
      obtain ⟨_, isFraction, sameFraction, noDigit⟩ := eq_of_readFraction noDigit readFraction
      split at reads
      next => cases reads
      next readExponent =>
        obtain ⟨_, isExponent, sameExponent, noDigit⟩ := eq_of_readExponent noDigit readExponent
        cases reads
        refine ⟨_, .mk _ isWhole isFraction isExponent, ?_, noDigit⟩
        refine signed.trans ?_
        rw [sameWhole, sameFraction, sameExponent]
        simp only [List.append_assoc]

/-- What could go on with a numeral begins no token. -/
theorem read_eq_none {char : Char} (noDigit : char.isDigit = false) (noSign : char ≠ '-') :
    read (char :: rest) = none := by
  have sign : readSign (char :: rest) = (false, char :: rest) := by
    rw [readSign]
    rintro _ ⟨⟩
    exact noSign rfl
  have none_ : readWhole (char :: rest) = none := by
    rw [readWhole, splitDigits, List.takeWhile_cons_of_neg (by simp [noDigit])]
  rw [read, sign]
  dsimp only
  rw [none_]

end Numeral

/-! ## Strings -/

namespace Piece

/-- How the pieces of a string are written. -/
inductive Written : List Piece → List Char → Prop where
  | nil : Written [] []
  | plain {char : Char} {pieces : List Piece} {chars : List Char} :
      char ≠ '"' → char ≠ '\\' → 0x20 ≤ char.toNat → Written pieces chars →
      Written (.plain char :: pieces) (char :: chars)
  | escape {letter char : Char} {pieces : List Piece} {chars : List Char} :
      ofEscape? letter = some char → Written pieces chars →
      Written (.plain char :: pieces) ('\\' :: letter :: chars)
  | unit {first second third fourth : Char} {value : Nat} {pieces : List Piece} {chars : List Char} :
      hexUnit? first second third fourth = some value → Written pieces chars →
      Written (.unit value :: pieces) ('\\' :: 'u' :: first :: second :: third :: fourth :: chars)

theorem scan_written {pieces : List Piece} {chars : List Char} (written : Written pieces chars)
    (rest : List Char) : scan (chars ++ '"' :: rest) = some (pieces, rest) := by
  induction written with
  | nil => rfl
  | plain noQuote noBackslash visible _ inductionHypothesis =>
      rw [List.cons_append, scan]
      · rw [if_neg (by simp [noBackslash, visible]), inductionHypothesis]
        rfl
      · exact noQuote
      · rintro _ _ _ _ _ rfl _
        exact noBackslash rfl
      · rintro _ _ rfl _
        exact noBackslash rfl
  | escape isEscape _ inductionHypothesis =>
      rw [List.cons_append, List.cons_append, scan]
      · rw [isEscape, inductionHypothesis]
        rfl
      · rintro _ _ _ _ _ rfl _
        cases isEscape
  | unit isUnit _ inductionHypothesis =>
      simp only [List.cons_append]
      rw [scan, isUnit, inductionHypothesis]
      rfl

theorem exists_written_of_scan {text rest : List Char} {pieces : List Piece}
    (scanned : scan text = some (pieces, rest)) :
    ∃ chars, Written pieces chars ∧ text = chars ++ '"' :: rest := by
  fun_induction scan text generalizing pieces with
  | case1 => cases scanned
  | case2 =>
      cases scanned
      exact ⟨[], .nil, rfl⟩
  | case3 => cases scanned
  | case4 first second third fourth later value isUnit inductionHypothesis =>
      obtain ⟨⟨_, _⟩, scanned', equation⟩ := Option.map_eq_some_iff.1 scanned
      cases equation
      obtain ⟨chars, written, rfl⟩ := inductionHypothesis scanned'
      exact ⟨_, .unit isUnit written, rfl⟩
  | case5 => cases scanned
  | case6 letter later char isEscape noUnit inductionHypothesis =>
      obtain ⟨⟨_, _⟩, scanned', equation⟩ := Option.map_eq_some_iff.1 scanned
      cases equation
      obtain ⟨chars, written, rfl⟩ := inductionHypothesis scanned'
      exact ⟨_, .escape noUnit written, rfl⟩
  | case7 => cases scanned
  | case8 char later noQuote _ _ visible inductionHypothesis =>
      obtain ⟨⟨_, _⟩, scanned', equation⟩ := Option.map_eq_some_iff.1 scanned
      cases equation
      obtain ⟨chars, written, rfl⟩ := inductionHypothesis scanned'
      rw [not_or, Nat.not_lt] at visible
      exact ⟨_, .plain noQuote visible.1 visible.2 written, rfl⟩

end Piece

/-! ## Texts -/

namespace Token

/-- How a word, a string or a numeral is written, and what may follow it. -/
inductive Lexeme : List Char → List Char → Token → Prop where
  | null (rest : List Char) : Lexeme ['n', 'u', 'l', 'l'] rest .null
  | true (rest : List Char) : Lexeme ['t', 'r', 'u', 'e'] rest (.bool true)
  | false (rest : List Char) : Lexeme ['f', 'a', 'l', 's', 'e'] rest (.bool false)
  | text {pieces : List Piece} {chars : List Char} (rest : List Char) : Piece.Written pieces chars →
      Lexeme ('"' :: chars ++ ['"']) rest (.text ((Piece.join pieces).map String.ofList))
  | number {numeral : Numeral} {chars rest : List Char} : numeral.Written chars →
      Numeral.Stops rest → Lexeme chars rest (.number numeral.value)

/-- Characters make up tokens, with blanks between them. -/
inductive Lexes : List Char → List Token → Prop where
  | nil : Lexes [] []
  | blank {char : Char} {rest : List Char} {tokens : List Token} : isBlank char = true →
      Lexes rest tokens → Lexes (char :: rest) tokens
  | sign {char : Char} {token : Token} {rest : List Char} {tokens : List Token} :
      ofSign? char = some token → Lexes rest tokens → Lexes (char :: rest) (token :: tokens)
  | lexeme {chars rest : List Char} {token : Token} {tokens : List Token} :
      Lexeme chars rest token → Lexes rest tokens → Lexes (chars ++ rest) (token :: tokens)

variable {char : Char} {chars text rest : List Char} {token : Token} {tokens : List Token}

theorem isBlank_of_ofSign? (sign : ofSign? char = some token) : isBlank char = Bool.false := by
  unfold ofSign? at sign
  split at sign <;> first | rfl | cases sign

/-- A numeral begins with a digit or a minus sign. -/
theorem exists_written_eq_cons {numeral : Numeral} (written : numeral.Written chars) :
    ∃ first others, chars = first :: others ∧ (first.isDigit = Bool.true ∨ first = '-') := by
  cases written with
  | @mk negative whole _ _ _ _ isWhole _ _ =>
      obtain ⟨first, others, rfl⟩ := List.exists_cons_of_ne_nil isWhole.isDigits.nonempty
      cases negative with
      | true => exact ⟨_, _, rfl, .inr rfl⟩
      | false => exact ⟨_, _, rfl, .inl (isWhole.isDigits.all _ List.mem_cons_self)⟩

theorem scan_lexeme (lexeme : Lexeme chars rest token) : scan (chars ++ rest) = token :: scan rest := by
  cases lexeme with
  | null | true | false => exact scan_scalar (by decide) (by decide) rfl
  | text _ written =>
      have pieces := Piece.scan_written written rest
      rw [List.append_assoc, List.cons_append, List.singleton_append]
      refine scan_scalar (by decide) (by decide) ?_
      rw [scanScalar, pieces]
      rfl
  | number written stops =>
      have read := Numeral.read_written written stops
      obtain ⟨first, others, rfl, leading⟩ := exists_written_eq_cons written
      obtain ⟨visible, noSign, scalar⟩ := scanScalar_of_digit leading (others ++ rest)
      rw [List.cons_append] at read ⊢
      refine scan_scalar visible noSign ?_
      rw [scalar, read]
      rfl

/-- A text is cut into the tokens that it makes up. -/
theorem Lexes.scan_eq (lexes : Lexes text tokens) : scan text = tokens := by
  induction lexes with
  | nil => exact scan_nil
  | blank isBlank _ inductionHypothesis => rw [scan_blank isBlank, inductionHypothesis]
  | sign isSign _ inductionHypothesis =>
      rw [scan_sign (isBlank_of_ofSign? isSign) isSign, inductionHypothesis]
  | lexeme isLexeme _ inductionHypothesis => rw [scan_lexeme isLexeme, inductionHypothesis]

/-- What could go on with a numeral, apart from digits, is stray by itself. -/
theorem scan_eq_stray (goesOn : char = '.' ∨ char = 'e' ∨ char = 'E') :
    scan (char :: rest) = [.stray] := by
  have none_ : scanScalar (char :: rest) = none := by
    have read : Numeral.read (char :: rest) = none := by
      rcases goesOn with rfl | rfl | rfl <;> exact Numeral.read_eq_none (by decide) (by decide)
    have scalar : scanScalar (char :: rest) =
        (Numeral.read (char :: rest)).map fun read => (.number read.1.value, read.2) := by
      rcases goesOn with rfl | rfl | rfl <;> rfl
    rw [scalar, read]
    rfl
  have visible : isBlank char = Bool.false := by
    rcases goesOn with rfl | rfl | rfl <;> rfl
  have noSign : ofSign? char = none := by
    rcases goesOn with rfl | rfl | rfl <;> rfl
  rw [scan, if_neg (by simp [visible]), noSign]
  dsimp only
  split
  next found => cases none_.symm.trans found
  next => rfl

theorem exists_lexeme_of_scanScalar (scanned : scanScalar text = some (token, rest))
    (noStray : .stray ∉ scan rest) : ∃ chars, Lexeme chars rest token ∧ text = chars ++ rest := by
  unfold scanScalar at scanned
  split at scanned
  next =>
    cases scanned
    exact ⟨_, .null rest, rfl⟩
  next =>
    cases scanned
    exact ⟨_, .true rest, rfl⟩
  next =>
    cases scanned
    exact ⟨_, .false rest, rfl⟩
  next =>
    obtain ⟨⟨_, _⟩, pieces, equation⟩ := Option.map_eq_some_iff.1 scanned
    cases equation
    obtain ⟨chars, written, rfl⟩ := Piece.exists_written_of_scan pieces
    exact ⟨_, .text rest written, by simp⟩
  next =>
    obtain ⟨⟨numeral, _⟩, read, equation⟩ := Option.map_eq_some_iff.1 scanned
    cases equation
    obtain ⟨chars, written, rfl, noDigit⟩ := Numeral.exists_written_of_read read
    refine ⟨chars, .number written fun char first => ⟨noDigit char first, ?_⟩, rfl⟩
    obtain ⟨later, rfl⟩ := List.head?_eq_some_iff.1 first
    refine ⟨?_, ?_, ?_⟩ <;> rintro rfl <;> apply noStray
    · rw [scan_eq_stray (.inl rfl)]
      exact List.mem_singleton.2 rfl
    · rw [scan_eq_stray (.inr (.inl rfl))]
      exact List.mem_singleton.2 rfl
    · rw [scan_eq_stray (.inr (.inr rfl))]
      exact List.mem_singleton.2 rfl

theorem lexes_scan (noStray : .stray ∉ scan text) : Lexes text (scan text) := by
  fun_induction scan text with
  | case1 => exact .nil
  | case2 char rest isBlank inductionHypothesis =>
      exact .blank isBlank (inductionHypothesis noStray)
  | case3 char rest _ token isSign inductionHypothesis =>
      exact .sign isSign (inductionHypothesis fun later => noStray (List.mem_cons_of_mem _ later))
  | case4 char rest _ _ token remaining scanned inductionHypothesis =>
      have noStray := fun later => noStray (List.mem_cons_of_mem _ later)
      obtain ⟨chars, isLexeme, same⟩ := exists_lexeme_of_scanScalar scanned noStray
      rw [same]
      exact .lexeme isLexeme (inductionHypothesis noStray)
  | case5 => exact absurd (List.mem_singleton.2 rfl) noStray

/-- Just the texts without anything stray make up tokens, those that they are cut into. -/
theorem lexes_iff (noStray : .stray ∉ tokens) : Lexes text tokens ↔ scan text = tokens :=
  ⟨Lexes.scan_eq, by rintro rfl; exact lexes_scan noStray⟩

end Token

end EscapePlan
