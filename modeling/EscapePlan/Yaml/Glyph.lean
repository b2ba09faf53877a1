/-!
# Characters of YAML documents

Indentation carries meaning in YAML, so every character of a document comes with the
place where it stands.  Line breaks are unified beforehand: whichever way a line ends,
it ends in one character.
-/

namespace EscapePlan.Yaml

/-- A character and where it stands; all three counts begin at zero. -/
structure Glyph where
  char : Char
  /-- How many characters come before it. -/
  index : Nat
  line : Nat
  column : Nat
  deriving Repr, Inhabited

/-- A part of a document that has not been read yet. -/
abbrev Text := List Glyph

/-- Whether a character ends a line. -/
def isBreak (char : Char) : Bool :=
  char = '\n' || char = '\u2028' || char = '\u2029'

/-- Whether a character is a blank within a line. -/
def isBlank (char : Char) : Bool :=
  char = ' ' || char = '\t'

/-- Whether a character may stand in a document. -/
def isAllowed (char : Char) : Bool :=
  char = '\t' || char = '\n' || char = '\r' || char = '\x85' ||
    (0x20 ≤ char.toNat && char.toNat ≤ 0x7E) ||
    (0xA0 ≤ char.toNat && char.toNat ≠ 0xFFFE && char.toNat ≠ 0xFFFF)

/-- Writes the line breaks of a text in one way.  The two separators that mean more
than the end of a line stay what they are. -/
def unifyBreaks : List Char → List Char
  | [] => []
  | '\r' :: '\n' :: rest => '\n' :: unifyBreaks rest
  | '\r' :: rest => '\n' :: unifyBreaks rest
  | '\x85' :: rest => '\n' :: unifyBreaks rest
  | char :: rest => char :: unifyBreaks rest

namespace Text

/-- Says of each character where it stands, given the place of the first one. -/
def locate (index line column : Nat) : List Char → Text
  | [] => []
  | char :: rest =>
      ⟨char, index, line, column⟩ ::
        if isBreak char then locate (index + 1) (line + 1) 0 rest
        else locate (index + 1) line (column + 1) rest

/-- The characters of a document, unless one of them may not stand there; a byte order
mark at the beginning does not count. -/
def ofString? (document : String) : Option Text :=
  let chars :=
    match document.toList with
    | '\ufeff' :: chars => chars
    | chars => chars
  if chars.all isAllowed then some (locate 0 0 0 (unifyBreaks chars)) else none

/-- The character so many places ahead. -/
def ahead? (text : Text) (distance : Nat) : Option Char :=
  (text[distance]?).map (·.char)

/-- Whether the character so many places ahead satisfies a condition. -/
def aheadIs (text : Text) (distance : Nat) (condition : Char → Bool) : Bool :=
  (text.ahead? distance).any condition

/-- Whether a word ends so many places ahead: at a blank, a line break or the end. -/
def endsWord (text : Text) (distance : Nat) : Bool :=
  (text.ahead? distance).all fun char => isBlank char || isBreak char

/-- Whether a line begins with a mark of three equal signs, as documents do. -/
def beginsWithMark (sign : Char) (text : Text) : Bool :=
  match text with
  | first :: _ =>
      first.column = 0 && first.char = sign && text.aheadIs 1 (· = sign) &&
        text.aheadIs 2 (· = sign) && text.endsWord 3
  | [] => false

/-- Whether a document begins or ends here. -/
def atDocumentMark (text : Text) : Bool :=
  text.beginsWithMark '-' || text.beginsWithMark '.'

/-- Splits a text before the first character that does not satisfy a condition. -/
def splitWhile (condition : Char → Bool) (text : Text) : List Char × Text :=
  ((text.takeWhile fun glyph => condition glyph.char).map (·.char),
    text.dropWhile fun glyph => condition glyph.char)

/-- Skips blanks within a line. -/
def skipBlanks (text : Text) : Text :=
  (text.splitWhile isBlank).2

/-- Skips a comment, if one begins here. -/
def skipComment : Text → Text
  | glyph :: rest =>
      if glyph.char = '#' then rest.dropWhile fun glyph => !isBreak glyph.char
      else glyph :: rest
  | [] => []

/-- Takes blanks, a comment and the line break; nothing else may stand there. -/
def endLine? (text : Text) : Option Text :=
  match text.skipBlanks.skipComment with
  | [] => some []
  | glyph :: rest => if isBreak glyph.char then some rest else none

end Text

end EscapePlan.Yaml
