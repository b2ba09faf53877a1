import EscapePlan.Yaml.Scalar

/-!
# Tokens of YAML documents

`Token.scan` cuts a document into tokens.  Indentation becomes tokens too: a block
collection begins where a line is indented deeper than its surroundings and ends where
a later line is not.

A key need not be announced.  Whether a value is a key shows at the colon after it, so
the scanner remembers where a key might have begun, one place for each level of
brackets, and puts the announcement there once the colon comes.  Such a key lies within
one line and is not longer than 1024 characters.
-/

namespace EscapePlan.Yaml

/-- A token of a YAML document. -/
inductive Token where
  | versionDirective (major minor : Nat)
  | tagDirective (handle stem : String)
  | documentStart
  | documentEnd
  | blockSequenceStart
  | blockMappingStart
  | blockEnd
  | flowSequenceStart
  | flowSequenceEnd
  | flowMappingStart
  | flowMappingEnd
  | blockEntry
  | flowEntry
  | key
  | value
  | alias (name : String)
  | anchor (name : String)
  | tag (handle suffix : String)
  | scalar (text : String) (style : Style)
  deriving DecidableEq, Repr, Inhabited

/-- Where a key might have begun. -/
structure PossibleKey where
  /-- The number of tokens before it. -/
  position : Nat
  /-- Whether nothing but a key may stand there. -/
  required : Bool
  /-- Where it stands. -/
  place : Glyph

/-- What the scanner knows. -/
structure Scanner where
  tokens : Array Token := #[]
  /-- The column of the innermost block collection, or minus one. -/
  level : Int := -1
  /-- The columns around it. -/
  levels : List Int := []
  /-- A possible key within the innermost brackets. -/
  possibleKey : Option PossibleKey := none
  /-- Possible keys around the open brackets, the innermost first. -/
  outerKeys : List (Option PossibleKey) := []
  /-- Whether a key may begin here. -/
  keyAllowed : Bool := true

namespace Scanner

/-- Whether brackets are open. -/
def inFlow (scanner : Scanner) : Bool :=
  !scanner.outerKeys.isEmpty

/-- Adds a token. -/
def push (scanner : Scanner) (token : Token) : Scanner :=
  { scanner with tokens := scanner.tokens.push token }

/-- Says whether a key may begin here. -/
def allowKey (scanner : Scanner) (keyAllowed : Bool) : Scanner :=
  { scanner with keyAllowed }

/-- A possible key as far as it is still possible at the given place; a required one
must not be lost. -/
def freshKey (place : Glyph) : Option PossibleKey → Option (Option PossibleKey)
  | none => some none
  | some possible =>
      if possible.place.line < place.line ∨ possible.place.index + 1024 < place.index then
        if possible.required then none else some none
      else some (some possible)

/-- Forgets the keys that are no longer possible at the given place. -/
def refresh (scanner : Scanner) (place : Glyph) : Option Scanner := do
  return { scanner with
    possibleKey := ← freshKey place scanner.possibleKey
    outerKeys := ← scanner.outerKeys.mapM (freshKey place) }

/-- Forgets the possible key within the innermost brackets. -/
def forgetKey (scanner : Scanner) : Option Scanner :=
  if scanner.possibleKey.any (·.required) then none
  else some { scanner with possibleKey := none }

/-- Remembers that a key might begin here. -/
def rememberKey (scanner : Scanner) (place : Glyph) : Option Scanner :=
  if scanner.keyAllowed then
    scanner.forgetKey.map fun scanner =>
      { scanner with
        possibleKey := some
          { position := scanner.tokens.size
            required := !scanner.inFlow && scanner.level = place.column
            place } }
  else some scanner

/-- Opens a block collection at a column, unless it is open already; its token goes to
the given position. -/
def openBlock (scanner : Scanner) (column : Nat) (position : Nat) (token : Token) : Scanner :=
  if !scanner.inFlow && decide (scanner.level < column) then
    { scanner with
      level := column
      levels := scanner.level :: scanner.levels
      tokens := scanner.tokens.insertIdxIfInBounds position token }
  else scanner

/-- Ends block collections, at most one for each of the given columns around them, as
long as they are indented deeper than a column. -/
def closeLevels (column : Int) : List Int → Scanner → Scanner
  | [], scanner => scanner
  | outer :: levels, scanner =>
      if column < scanner.level then
        closeLevels column levels
          { scanner with level := outer, levels, tokens := scanner.tokens.push .blockEnd }
      else scanner

/-- Ends the block collections that are indented deeper than a column. -/
def closeBlocks (scanner : Scanner) (column : Int) : Scanner :=
  if scanner.inFlow then scanner else closeLevels column scanner.levels scanner

/-- Opens brackets. -/
def openFlow (scanner : Scanner) (place : Glyph) (token : Token) : Option Scanner := do
  let scanner ← scanner.rememberKey place
  return { scanner with
    outerKeys := scanner.possibleKey :: scanner.outerKeys
    possibleKey := none
    keyAllowed := true
    tokens := scanner.tokens.push token }

/-- Closes brackets, if any are open. -/
def closeFlow (scanner : Scanner) (token : Token) : Option Scanner := do
  let scanner ← scanner.forgetKey
  let scanner :=
    match scanner.outerKeys with
    | [] => scanner
    | possibleKey :: outerKeys => { scanner with possibleKey, outerKeys }
  return (scanner.allowKey false).push token

/-- Marks the next item within brackets. -/
def nextItem (scanner : Scanner) : Option Scanner :=
  scanner.forgetKey.map fun scanner => (scanner.allowKey true).push .flowEntry

/-- Marks an item of a block sequence. -/
def blockItem (scanner : Scanner) (place : Glyph) : Option Scanner := do
  guard (scanner.inFlow || scanner.keyAllowed)
  let scanner := scanner.openBlock place.column scanner.tokens.size .blockSequenceStart
  return ((← scanner.forgetKey).allowKey true).push .blockEntry

/-- Marks an announced key. -/
def announceKey (scanner : Scanner) (place : Glyph) : Option Scanner := do
  guard (scanner.inFlow || scanner.keyAllowed)
  let scanner := scanner.openBlock place.column scanner.tokens.size .blockMappingStart
  return ((← scanner.forgetKey).allowKey !scanner.inFlow).push .key

/-- Marks a value, and the key before it if that was not announced. -/
def markValue (scanner : Scanner) (place : Glyph) : Option Scanner :=
  match scanner.possibleKey with
  | some possible =>
      let scanner :=
        { scanner with
          possibleKey := none
          tokens := scanner.tokens.insertIdxIfInBounds possible.position .key }
      let scanner := scanner.openBlock possible.place.column possible.position .blockMappingStart
      some ((scanner.allowKey false).push .value)
  | none => do
      guard (scanner.inFlow || scanner.keyAllowed)
      let scanner := scanner.openBlock place.column scanner.tokens.size .blockMappingStart
      return (scanner.allowKey !scanner.inFlow).push .value

/-- Marks the begin or the end of a document, or a directive before it. -/
def markDocument (scanner : Scanner) (token : Token) : Option Scanner :=
  (scanner.closeBlocks (-1)).forgetKey.map fun scanner => (scanner.allowKey false).push token

/-- Ends all that is open at the end of the text. -/
def finish (scanner : Scanner) : Option (Array Token) :=
  (scanner.closeBlocks (-1)).forgetKey.map (·.tokens)

/-- Skips blanks, comments and line breaks before the next token.  After a line break a
key may begin, outside of brackets; there a tab is no blank. -/
def skipToToken (scanner : Scanner) : Bool → Text → Scanner × Text
  | _, [] => (scanner, [])
  | inComment, glyph :: rest =>
      if isBreak glyph.char then
        (if scanner.inFlow then scanner else scanner.allowKey true).skipToToken false rest
      else if inComment || glyph.char = '#' then scanner.skipToToken true rest
      else if glyph.char = ' '
          || (glyph.char = '\t' && (scanner.inFlow || !scanner.keyAllowed)) then
        scanner.skipToToken false rest
      else (scanner, glyph :: rest)

end Scanner

namespace Token

/-- Whether a character may stand in a name. -/
def isNameChar (char : Char) : Bool :=
  char.isAlphanum || char = '_' || char = '-'

/-- Whether a character may follow the name of an anchor. -/
def mayFollowName (char : Char) : Bool :=
  isBlank char || isBreak char || "?:,]\x7d%@`".toList.contains char

/-- Takes the name of an anchor. -/
def readName (text : Text) : Option (String × Text) :=
  let (name, rest) := text.splitWhile isNameChar
  if !name.isEmpty && (rest.ahead? 0).all mayFollowName then some (String.ofList name, rest)
  else none

/-- Whether a character may stand in the suffix of a tag; some only between angle
brackets. -/
def isTagChar (verbatim : Bool) (char : Char) : Bool :=
  isNameChar char || ";/?:@&=+$.!~*'()".toList.contains char ||
    (verbatim && (char = ',' || char = '[' || char = ']'))

/-- The byte that two hexadecimal digits denote. -/
def byte? (text : Text) : Option UInt8 := do
  let digits := (text.take 2).map (·.char)
  guard (digits.length = 2)
  return UInt8.ofNat (← Scalar.hexNumber? digits)

/-- Takes escaped bytes that follow a first one. -/
def readBytes : Nat → Text → Option (List UInt8 × Text)
  | 0, text => some ([], text)
  | count + 1, text => do
      guard (text.aheadIs 0 (· = '%'))
      let byte ← byte? (text.drop 1)
      let (bytes, rest) ← readBytes count (text.drop 3)
      return (byte :: bytes, rest)

/-- How many bytes follow the first byte of a character. -/
def continuation? (byte : UInt8) : Option Nat :=
  if byte < 0x80 then some 0
  else if 0xC0 ≤ byte ∧ byte < 0xE0 then some 1
  else if 0xE0 ≤ byte ∧ byte < 0xF0 then some 2
  else if 0xF0 ≤ byte ∧ byte < 0xF8 then some 3
  else none

/-- Takes a character that is written as bytes, after its first percent sign. -/
def readEscaped (text : Text) : Option (List Char × Text) := do
  let first ← byte? text
  let (bytes, rest) ← readBytes (← continuation? first) (text.drop 2)
  return ((← String.fromUTF8? ⟨(first :: bytes).toArray⟩).toList, rest)

/-- Takes the suffix of a tag, at most so many characters. -/
def readSuffix (verbatim : Bool) : Nat → Text → Option (List Char × Text)
  | 0, _ => none
  | _ + 1, [] => some ([], [])
  | steps + 1, glyph :: rest =>
      if glyph.char = '%' then do
        let (chars, rest) ← readEscaped rest
        let (more, rest) ← readSuffix verbatim steps rest
        return (chars ++ more, rest)
      else if isTagChar verbatim glyph.char then
        (readSuffix verbatim steps rest).map fun (more, rest) => (glyph.char :: more, rest)
      else some ([], glyph :: rest)

/-- Takes the suffix of a tag, which must not be empty. -/
def readFullSuffix (verbatim : Bool) (text : Text) : Option (String × Text) := do
  let (suffix, rest) ← readSuffix verbatim (text.length + 1) text
  guard !suffix.isEmpty
  return (String.ofList suffix, rest)

/-- Takes a name and an exclamation mark, if they stand here. -/
def readHandle (text : Text) : Option (String × Text) :=
  let (name, rest) := text.splitWhile isNameChar
  if rest.aheadIs 0 (· = '!') then some (String.ofList (name ++ ['!']), rest.drop 1) else none

/-- Takes a tag, after its first exclamation mark. -/
def readTag (inFlow : Bool) (text : Text) : Option (Token × Text) := do
  let (token, rest) ←
    if text.aheadIs 0 (· = '<') then do
      let (suffix, rest) ← readFullSuffix true (text.drop 1)
      guard (rest.aheadIs 0 (· = '>'))
      some (Token.tag "" suffix, rest.drop 1)
    else
      match readHandle text with
      | some (handle, rest) => do
          let (suffix, rest) ← readFullSuffix false rest
          some (Token.tag ("!" ++ handle) suffix, rest)
      | none => do
          let (suffix, rest) ← readSuffix false (text.length + 1) text
          some (if suffix.isEmpty then Token.tag "" "!" else .tag "!" (String.ofList suffix), rest)
  guard (Text.endsWord rest 0 || (inFlow && Text.aheadIs rest 0 (· = ',')))
  return (token, rest)

/-- Takes a number of at most nine digits. -/
def readNumber (text : Text) : Option (Nat × Text) :=
  let (digits, rest) := text.splitWhile Char.isDigit
  if digits.isEmpty ∨ 9 < digits.length then none else some (naturalOfDigits digits, rest)

/-- Takes the numbers of a version. -/
def readVersion (text : Text) : Option (Token × Text) := do
  let (major, rest) ← readNumber text.skipBlanks
  guard (rest.aheadIs 0 (· = '.'))
  let (minor, rest) ← readNumber (rest.drop 1)
  return (.versionDirective major minor, rest)

/-- Takes the handle of tags and what it stands for. -/
def readTagDirective (text : Text) : Option (Token × Text) := do
  let rest := text.skipBlanks
  guard (rest.aheadIs 0 (· = '!'))
  let (handle, rest) := ((readHandle (rest.drop 1)).map fun (name, rest) =>
    ("!" ++ name, rest)).getD ("!", rest.drop 1)
  guard (Text.aheadIs rest 0 isBlank)
  let (stem, rest) ← readFullSuffix true (Text.skipBlanks rest)
  guard (rest.endsWord 0)
  return (.tagDirective handle stem, rest)

/-- Takes a directive, after its percent sign, and the line it stands on. -/
def readDirective (text : Text) : Option (Token × Text) := do
  let (name, rest) := text.splitWhile isNameChar
  guard (rest.endsWord 0)
  let (token, rest) ←
    if name = "YAML".toList then readVersion rest
    else if name = "TAG".toList then readTagDirective rest
    else none
  return (token, ← rest.endLine?)

/-- Whether a plain scalar may begin with a character that is followed by the given
text. -/
def beginsPlain (inFlow : Bool) (char : Char) (rest : Text) : Bool :=
  if char = '-' then !Text.aheadIs rest 0 isBlank
  else if char = '?' || char = ':' then !inFlow && !Text.endsWord rest 0
  else !isBlank char && !isBreak char && !",[]\x7b\x7d#&*!|>'\"%@`".toList.contains char

/-- Adds a scalar or a property of a node, which may begin a key. -/
def pushPart (scanner : Scanner) (place : Glyph) (token : Token) : Option Scanner :=
  (scanner.rememberKey place).map fun scanner => (scanner.allowKey false).push token

/-- Takes one token off a text that begins with the given character. -/
def scanNext (scanner : Scanner) (glyph : Glyph) (rest : Text) : Option (Scanner × Text) := do
  let text := glyph :: rest
  let scanner := (← scanner.refresh glyph).closeBlocks glyph.column
  let inFlow := scanner.inFlow
  if glyph.column = 0 ∧ glyph.char = '%' then
    let (token, rest) ← readDirective rest
    return (← scanner.markDocument token, rest)
  else if Text.beginsWithMark '-' text then
    return (← scanner.markDocument .documentStart, text.drop 3)
  else if Text.beginsWithMark '.' text then
    return (← scanner.markDocument .documentEnd, text.drop 3)
  else if glyph.char = '[' then return (← scanner.openFlow glyph .flowSequenceStart, rest)
  else if glyph.char = '\x7b' then return (← scanner.openFlow glyph .flowMappingStart, rest)
  else if glyph.char = ']' then return (← scanner.closeFlow .flowSequenceEnd, rest)
  else if glyph.char = '\x7d' then return (← scanner.closeFlow .flowMappingEnd, rest)
  else if glyph.char = ',' then return (← scanner.nextItem, rest)
  else if glyph.char = '-' ∧ Text.endsWord rest 0 then
    return (← scanner.blockItem glyph, rest)
  else if glyph.char = '?' ∧ (inFlow ∨ Text.endsWord rest 0) then
    return (← scanner.announceKey glyph, rest)
  else if glyph.char = ':' ∧ (inFlow ∨ Text.endsWord rest 0) then
    return (← scanner.markValue glyph, rest)
  else if glyph.char = '*' then
    let (name, rest) ← readName rest
    return (← pushPart scanner glyph (.alias name), rest)
  else if glyph.char = '&' then
    let (name, rest) ← readName rest
    return (← pushPart scanner glyph (.anchor name), rest)
  else if glyph.char = '!' then
    let (token, rest) ← readTag inFlow rest
    return (← pushPart scanner glyph token, rest)
  else if !inFlow ∧ (glyph.char = '|' ∨ glyph.char = '>') then
    let isFolded := glyph.char = '>'
    let (chars, rest) ← Scalar.readBlock isFolded scanner.level rest
    let scanner ← scanner.forgetKey
    let style := if isFolded then Style.folded else .literal
    return ((scanner.allowKey true).push (.scalar (String.ofList chars) style), rest)
  else if glyph.char = '"' ∨ glyph.char = '\'' then
    let (chars, rest) ←
      Scalar.readQuoted (glyph.char = '"') (rest.length + 1) .empty rest
    return (← pushPart scanner glyph (.scalar (String.ofList chars) .quoted), rest)
  else if beginsPlain inFlow glyph.char rest then
    let (plain, rest) ← Scalar.readPlain inFlow (scanner.level + 1) none text
    let scanner ← pushPart scanner glyph (.scalar (String.ofList plain.chars) .plain)
    return (if plain.isBroken then scanner.allowKey true else scanner, rest)
  else none

/-- Takes tokens off a text until it ends, at most so many. -/
def scanAll : Nat → Scanner → Text → Option (Array Token)
  | 0, _, _ => none
  | steps + 1, scanner, text =>
      match scanner.skipToToken false text with
      | (scanner, []) => scanner.finish
      | (scanner, glyph :: rest) => do
          let (scanner, rest) ← scanNext scanner glyph rest
          scanAll steps scanner rest

/-- The tokens of a document, if it can be cut into tokens. -/
def scan (document : String) : Option (List Token) := do
  let text ← Text.ofString? document
  return (← scanAll (text.length + 1) {} text).toList

end Token

end EscapePlan.Yaml
