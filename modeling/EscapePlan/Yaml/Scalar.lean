import EscapePlan.Yaml.Glyph
import EscapePlan.Json.Token

/-!
# Scalars of YAML documents

A scalar is written plainly, between quotes, or as a block of lines.  Plain and quoted
scalars may go over several lines: a gap between two words is kept as it is within a
line, one line break in it becomes a space, and of several line breaks the first is
dropped.  A folded block follows a similar rule, a literal one keeps its lines.

Every reader takes what is left of a document and answers the scalar and what is then
left, or nothing if the document is malformed.
-/

namespace EscapePlan.Yaml

/-- How a scalar is written. -/
inductive Style where
  | plain
  | quoted
  | literal
  | folded
  deriving DecidableEq, Repr

/-- What stands between two words. -/
inductive Gap where
  | blanks (chars : List Char)
  /-- Line breaks; the first is missing after a backslash that ends a line. -/
  | breaks (first : Option Char) (more : List Char)

namespace Gap

/-- The gap without characters. -/
def empty : Gap :=
  .blanks []

/-- Adds a blank; next to a line break blanks do not count. -/
def addBlank (char : Char) : Gap → Gap
  | .blanks chars => .blanks (chars ++ [char])
  | gap => gap

/-- Adds a line break. -/
def addBreak (char : Char) : Gap → Gap
  | .blanks _ => .breaks (some char) []
  | .breaks first more => .breaks first (more ++ [char])

/-- Whether a gap goes over the end of a line. -/
def isBroken : Gap → Bool
  | .blanks _ => false
  | .breaks _ _ => true

/-- What a gap amounts to. -/
def folded : Gap → List Char
  | .blanks chars => chars
  | .breaks (some '\n') [] => [' ']
  | .breaks (some '\n') more => more
  | .breaks first more => first.toList ++ more

end Gap

namespace Scalar

/-- The character of a one-letter escape. -/
def ofEscape? : Char → Option Char
  | '0' => some '\x00'
  | 'a' => some '\x07'
  | 'b' => some '\x08'
  | 't' => some '\t'
  | '\t' => some '\t'
  | 'n' => some '\n'
  | 'v' => some '\x0b'
  | 'f' => some '\x0c'
  | 'r' => some '\r'
  | 'e' => some '\x1b'
  | ' ' => some ' '
  | '"' => some '"'
  | '/' => some '/'
  | '\\' => some '\\'
  | 'N' => some '\x85'
  | '_' => some '\xa0'
  | 'L' => some '\u2028'
  | 'P' => some '\u2029'
  | _ => none

/-- How many hexadecimal digits follow the letter of an escape. -/
def escapeDigits? : Char → Option Nat
  | 'x' => some 2
  | 'u' => some 4
  | 'U' => some 8
  | _ => none

/-- The number that hexadecimal digits denote. -/
def hexNumber? (digits : List Char) : Option Nat :=
  digits.foldlM (fun value digit => (hexValue? digit).map (value * 16 + ·)) 0

/-- The character of a code point, unless it is a surrogate or out of range. -/
def codePoint? (value : Nat) : Option Char :=
  if value < 0xD800 ∨ (0xDFFF < value ∧ value ≤ 0x10FFFF) then some (Char.ofNat value) else none

/-- Takes an escape, after its backslash. -/
def readEscape : Text → Option (Char × Text)
  | [] => none
  | glyph :: rest =>
      match escapeDigits? glyph.char with
      | none => (ofEscape? glyph.char).map fun char => (char, rest)
      | some count => do
          let digits := (rest.take count).map (·.char)
          guard (digits.length = count)
          return (← codePoint? (← hexNumber? digits), rest.drop count)

/-- Takes the rest of a scalar between double or single quotes, given the gap before it;
takes at most so many characters. -/
def readQuoted (double : Bool) : Nat → Gap → Text → Option (List Char × Text)
  | 0, _, _ => none
  | _ + 1, _, [] => none
  | steps + 1, gap, glyph :: rest =>
      if Text.atDocumentMark (glyph :: rest) then none
      else if isBlank glyph.char then readQuoted double steps (gap.addBlank glyph.char) rest
      else if isBreak glyph.char then readQuoted double steps (gap.addBreak glyph.char) rest
      else
        let resume (chars : List Char) (next : Gap) (rest : Text) :=
          (readQuoted double steps next rest).map fun (more, rest) =>
            (gap.folded ++ chars ++ more, rest)
        if double then
          if glyph.char = '"' then some (gap.folded, rest)
          else if glyph.char = '\\' then
            if Text.aheadIs rest 0 isBreak then resume [] (.breaks none []) (rest.drop 1)
            else do
              let (char, rest) ← readEscape rest
              resume [char] .empty rest
          else resume [glyph.char] .empty rest
        else if glyph.char = '\'' then
          if Text.aheadIs rest 0 (· = '\'') then resume ['\''] .empty (rest.drop 1)
          else some (gap.folded, rest)
        else resume [glyph.char] .empty rest

/-- Whether a character separates values within brackets and braces. -/
def isFlowSign (char : Char) : Bool :=
  char = ',' || char = '[' || char = ']' || char = '\x7b' || char = '\x7d'

/-- Whether a plain scalar ends here, between brackets or not. -/
def endsPlain (inFlow : Bool) (text : Text) : Bool :=
  (text.aheadIs 0 (· = ':') && text.endsWord 1) || (inFlow && text.aheadIs 0 isFlowSign)

/-- Whether a colon stands where a plain scalar can neither go on nor end. -/
def hasStrayColon (inFlow : Bool) (text : Text) : Bool :=
  inFlow && text.aheadIs 0 (· = ':') &&
    text.aheadIs 1 fun char => isFlowSign char || char = '?'

/-- A plain scalar as it is read: its characters, and whether it reaches beyond the end of
its last line. -/
structure Plain where
  chars : List Char
  isBroken : Bool

/-- Takes the rest of a plain scalar whose lines are indented by at least so much, given
the gap before it or nothing within a word. -/
def readPlain (inFlow : Bool) (indent : Int) : Option Gap → Text → Option (Plain × Text)
  | gap, [] => some (⟨[], gap.any Gap.isBroken⟩, [])
  | gap, glyph :: rest =>
      if isBlank glyph.char then
        if gap.any Gap.isBroken && glyph.char = '\t' && glyph.column < indent then none
        else readPlain inFlow indent (some ((gap.getD .empty).addBlank glyph.char)) rest
      else if isBreak glyph.char then
        readPlain inFlow indent (some ((gap.getD .empty).addBreak glyph.char)) rest
      else
        let text := glyph :: rest
        let outside := !inFlow && decide (glyph.column < indent)
        if gap.isSome && (outside || Text.atDocumentMark text || glyph.char = '#') then
          some (⟨[], gap.any Gap.isBroken⟩, text)
        else if hasStrayColon inFlow text then none
        else if endsPlain inFlow text then some (⟨[], gap.any Gap.isBroken⟩, text)
        else
          (readPlain inFlow indent none rest).map fun (plain, rest) =>
            (⟨(gap.getD .empty).folded ++ glyph.char :: plain.chars, plain.isBroken⟩, rest)

/-- What becomes of the line breaks at the end of a block. -/
inductive Chomping where
  | strip
  | clip
  | keep
  deriving DecidableEq, Repr

namespace Chomping

/-- The sign of a chomping. -/
def ofSign? : Char → Option Chomping
  | '-' => some .strip
  | '+' => some .keep
  | _ => none

end Chomping

/-- The head of a block. -/
structure BlockHead where
  chomping : Chomping := .clip
  /-- By how much the lines are indented against their surroundings, if that is said. -/
  indentation : Option Nat := none

/-- Takes a sign of chomping. -/
def readChomping (head : BlockHead) : Text → BlockHead × Text
  | glyph :: rest =>
      match Chomping.ofSign? glyph.char with
      | some chomping => ({ head with chomping }, rest)
      | none => (head, glyph :: rest)
  | [] => (head, [])

/-- Takes a digit of indentation, which is not zero. -/
def readIndentation (head : BlockHead) : Text → Option (BlockHead × Text)
  | glyph :: rest =>
      if glyph.char = '0' then none
      else if glyph.char.isDigit then
        some ({ head with indentation := some (digitValue glyph.char) }, rest)
      else some (head, glyph :: rest)
  | [] => some (head, [])

/-- Takes the head of a block, after its first sign: chomping and indentation in either
order, and the end of the line. -/
def readBlockHead (text : Text) : Option (BlockHead × Text) := do
  let (signed, rest) := readChomping {} text
  let (sized, rest) ← readIndentation signed rest
  let (head, rest) :=
    if signed.chomping = .clip && sized.indentation.isSome then readChomping sized rest
    else (sized, rest)
  return (head, ← rest.endLine?)

/-- Empty lines before the next line of a block. -/
structure EmptyLines where
  breaks : List Char
  /-- The furthest column that their blanks, or the blanks after them, reach. -/
  width : Nat

/-- Skips empty lines and the indentation of the line after them.  With no indentation
given, all blanks are indentation.  A tab may not stand within the indentation. -/
def skipEmptyLines (indent : Option Nat) : EmptyLines → Text → Option (EmptyLines × Text)
  | lines, [] => some (lines, [])
  | lines, glyph :: rest =>
      let within := indent.all (glyph.column < ·)
      if within && glyph.char = ' ' then
        skipEmptyLines indent { lines with width := max lines.width (glyph.column + 1) } rest
      else if within && glyph.char = '\t' then none
      else if isBreak glyph.char then
        skipEmptyLines indent { lines with breaks := lines.breaks ++ [glyph.char] } rest
      else some (lines, glyph :: rest)

/-- What a block leaves open at its end: the break of its last line, and empty lines. -/
structure BlockTail where
  last : List Char
  empty : List Char

/-- The line break before a line of a block, and the empty lines before that line.  A
folded block joins two lines of text by a space. -/
def joinLines (isFolded afterBlank beforeBlank : Bool) (tail : BlockTail) : List Char :=
  if isFolded && tail.last = ['\n'] && !afterBlank && !beforeBlank then
    (if tail.empty.isEmpty then [' '] else []) ++ tail.empty
  else tail.last ++ tail.empty

/-- Takes the lines of a block, at most so many. -/
def readBlockLines (isFolded : Bool) (indent : Nat) :
    Nat → Bool → BlockTail → Text → Option (List Char × BlockTail × Text)
  | 0, _, _, _ => none
  | _ + 1, _, tail, [] => some ([], tail, [])
  | steps + 1, afterBlank, tail, glyph :: rest =>
      if glyph.column = indent then do
        let startsBlank := isBlank glyph.char
        let joint := joinLines isFolded afterBlank startsBlank tail
        let (line, rest) := Text.splitWhile (fun char => !isBreak char) (glyph :: rest)
        let last := (rest.take 1).map (·.char)
        let (lines, rest) ← skipEmptyLines (some indent) ⟨[], 0⟩ (rest.drop 1)
        let (more, tail, rest) ←
          readBlockLines isFolded indent steps startsBlank ⟨last, lines.breaks⟩ rest
        return (joint ++ line ++ more, tail, rest)
      else some ([], tail, glyph :: rest)

/-- Takes a block, after its first sign.  The level of indentation around it is minus one
outside of all collections. -/
def readBlock (isFolded : Bool) (level : Int) (text : Text) : Option (List Char × Text) := do
  let (head, rest) ← readBlockHead text
  let base := level.toNat
  let stated := head.indentation.map (base + ·)
  let (lines, rest) ← skipEmptyLines stated ⟨[], 0⟩ rest
  let indent := stated.getD (max lines.width (max (level + 1).toNat 1))
  let (chars, tail, rest) ←
    readBlockLines isFolded indent (rest.length + 1) false ⟨[], lines.breaks⟩ rest
  let ending :=
    match head.chomping with
    | .strip => []
    | .clip => tail.last
    | .keep => tail.last ++ tail.empty
  return (chars ++ ending, rest)

end Scalar

end EscapePlan.Yaml
