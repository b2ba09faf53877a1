import EscapePlan.Toml.Scalar
import EscapePlan.Toml.Table

/-!
# Reading TOML documents

A document is a sequence of lines: headers, and keys with values, any of them followed
by a comment.  Arrays go over several lines; everything else that is not a multi-line
string ends with its line.

Every reader takes the characters that are left and answers what it read and what is
then left, or nothing if the text is malformed.
-/

namespace EscapePlan.Toml

/-- Blanks inside a line. -/
def isSpace (char : Char) : Bool :=
  char = ' ' || char = '\t'

/-- Whether a character may stand in a comment or in a literal string. -/
def isPlain (char : Char) : Bool :=
  char = '\t' || (0x20 ≤ char.toNat && char.toNat ≠ 0x7F)

/-- Skips blanks inside a line. -/
def skipSpaces (text : List Char) : List Char :=
  text.dropWhile isSpace

/-- Takes a line break. -/
def readBreak? : List Char → Option (List Char)
  | '\n' :: rest => some rest
  | '\r' :: '\n' :: rest => some rest
  | _ => none

/-- Skips a comment, up to the end of its line. -/
def skipComment : List Char → List Char
  | '#' :: rest => rest.dropWhile isPlain
  | text => text

/-- Takes what may stand at the end of a line: blanks, a comment, a line break. -/
def endLine? (text : List Char) : Option (List Char) :=
  match skipComment (skipSpaces text) with
  | [] => some []
  | rest => readBreak? rest

/-- Skips blanks, comments and line breaks, at most so many. -/
def skipLines : Nat → List Char → List Char
  | 0, text => text
  | steps + 1, text =>
      let rest := skipComment (skipSpaces text)
      match readBreak? rest with
      | some rest => skipLines steps rest
      | none => rest

/-- The character of a code point, unless it is a surrogate or out of range. -/
def scalarValue? (value : Nat) : Option Char :=
  if value < 0xD800 ∨ (0xDFFF < value ∧ value < 0x110000) then some (Char.ofNat value) else none

/-- Takes an escape sequence, without its backslash. -/
def readEscape : List Char → Option (Char × List Char)
  | 'b' :: rest => some ('\x08', rest)
  | 't' :: rest => some ('\t', rest)
  | 'n' :: rest => some ('\n', rest)
  | 'f' :: rest => some ('\x0c', rest)
  | 'r' :: rest => some ('\r', rest)
  | '"' :: rest => some ('"', rest)
  | '\\' :: rest => some ('\\', rest)
  | 'u' :: rest => readCodePoint 4 rest
  | 'U' :: rest => readCodePoint 8 rest
  | _ => none
where
  /-- Takes a code point of so many hexadecimal digits. -/
  readCodePoint (count : Nat) (text : List Char) : Option (Char × List Char) := do
    let digits := text.take count
    guard (digits.length = count && digits.all (isDigitOf 16))
    return (← scalarValue? (naturalIn 16 digits), text.drop count)

/-- Takes the rest of a string between single double quotes. -/
def readBasic : Nat → List Char → Option (List Char × List Char)
  | 0, _ => none
  | _ + 1, [] => none
  | _ + 1, '"' :: rest => some ([], rest)
  | steps + 1, '\\' :: rest => do
      let (char, rest) ← readEscape rest
      let (chars, rest) ← readBasic steps rest
      return (char :: chars, rest)
  | steps + 1, char :: rest => do
      guard (isPlain char)
      let (chars, rest) ← readBasic steps rest
      return (char :: chars, rest)

/-- Takes the rest of a string between single quotes. -/
def readLiteral (text : List Char) : Option (List Char × List Char) :=
  let isInside (char : Char) : Bool := char ≠ '\'' && isPlain char
  match text.dropWhile isInside with
  | '\'' :: rest => some (text.takeWhile isInside, rest)
  | _ => none

/-- Skips blanks and line breaks after a backslash that ends a line. -/
def skipContinuation (text : List Char) : Option (List Char) :=
  match readBreak? (skipSpaces text) with
  | none => none
  | some rest =>
      some (rest.dropWhile fun char => isSpace char || char = '\n' || char = '\r')

/-- Takes the rest of a string between tripled quotes.  Up to two quotes may stand
directly before the closing ones. -/
def readMultiline (quote : Char) : Nat → List Char → Option (List Char × List Char)
  | 0, _ => none
  | steps + 1, text =>
      match readBreak? text with
      | some rest => do
          let (chars, rest) ← readMultiline quote steps rest
          return ('\n' :: chars, rest)
      | none =>
          match text with
          | [] => none
          | char :: rest =>
              if char = quote then
                let quotes := (text.takeWhile (· = quote)).length
                if 3 ≤ quotes then
                  if quotes ≤ 5 then
                    some (List.replicate (quotes - 3) quote, text.drop quotes)
                  else none
                else do
                  let (chars, rest) ← readMultiline quote steps rest
                  return (char :: chars, rest)
              else if char = '\\' ∧ quote = '"' then
                match skipContinuation rest with
                | some rest => readMultiline quote steps rest
                | none => do
                    let (char, rest) ← readEscape rest
                    let (chars, rest) ← readMultiline quote steps rest
                    return (char :: chars, rest)
              else do
                guard (isPlain char)
                let (chars, rest) ← readMultiline quote steps rest
                return (char :: chars, rest)

/-- Skips the line break directly after opening tripled quotes. -/
def skipFirstBreak (text : List Char) : List Char :=
  (readBreak? text).getD text

/-- Takes a string of any kind. -/
def readString? : List Char → Option (List Char × List Char)
  | '"' :: '"' :: '"' :: rest => readMultiline '"' (rest.length + 1) (skipFirstBreak rest)
  | '\'' :: '\'' :: '\'' :: rest => readMultiline '\'' (rest.length + 1) (skipFirstBreak rest)
  | '"' :: rest => readBasic (rest.length + 1) rest
  | '\'' :: rest => readLiteral rest
  | _ => none

/-- Whether a character may stand in a key without quotes. -/
def isBare (char : Char) : Bool :=
  char.isAlphanum || char = '_' || char = '-'

/-- Takes one part of a key. -/
def readKeyPart : List Char → Option (String × List Char)
  | '"' :: rest => do
      let (chars, rest) ← readBasic (rest.length + 1) rest
      return (String.ofList chars, rest)
  | '\'' :: rest => do
      let (chars, rest) ← readLiteral rest
      return (String.ofList chars, rest)
  | text =>
      match text.takeWhile isBare with
      | [] => none
      | chars => some (String.ofList chars, text.dropWhile isBare)

/-- Takes a key, whose parts are separated by dots. -/
def readKey : Nat → List Char → Option (List String × List Char)
  | 0, _ => none
  | steps + 1, text => do
      let (part, rest) ← readKeyPart (skipSpaces text)
      match skipSpaces rest with
      | '.' :: rest =>
          let (parts, rest) ← readKey steps rest
          return (part :: parts, rest)
      | rest => return ([part], rest)

/-- Whether a character may stand in a word. -/
def isWordChar (char : Char) : Bool :=
  char.isAlphanum || char = '_' || char = '-' || char = '+' || char = '.' || char = ':'

/-- Takes a word; a date and a time may be separated by a space. -/
def readWord (text : List Char) : Option (Draft × List Char) :=
  let word := text.takeWhile isWordChar
  let rest := text.dropWhile isWordChar
  match rest with
  | ' ' :: digit :: after =>
      if isDate word && digit.isDigit then
        let time := (digit :: after).takeWhile isWordChar
        (datetime? (word ++ ' ' :: time)).map (·, (digit :: after).dropWhile isWordChar)
      else (wordValue? word).map (·, rest)
  | _ => (wordValue? word).map (·, rest)

mutual

/-- Takes a value. -/
def readValue : Nat → List Char → Option (Draft × List Char)
  | 0, _ => none
  | depth + 1, text =>
      match text with
      | '[' :: rest => do
          let (items, rest) ← readItems depth (skipLines rest.length rest)
          return (.array items true, rest)
      | '\x7b' :: rest =>
          match skipSpaces rest with
          | '\x7d' :: rest => some (.object [] true, rest)
          | rest => do
              let (entries, rest) ← readPairs depth [] rest
              return (.object (membersOf entries) true, rest)
      | '"' :: _ | '\'' :: _ => do
          let (chars, rest) ← readString? text
          return (.text (some (String.ofList chars)), rest)
      | text => readWord text

/-- Takes the items of an array and its closing bracket. -/
def readItems : Nat → List Char → Option (List Draft × List Char)
  | 0, _ => none
  | _ + 1, ']' :: rest => some ([], rest)
  | depth + 1, text => do
      let (item, rest) ← readValue depth text
      match skipLines rest.length rest with
      | ',' :: rest =>
          let (items, rest) ← readItems depth (skipLines rest.length rest)
          return (item :: items, rest)
      | ']' :: rest => return ([item], rest)
      | _ => none

/-- Takes the keys and values of an inline table and its closing brace. -/
def readPairs : Nat → Entries → List Char → Option (Entries × List Char)
  | 0, _, _ => none
  | depth + 1, entries, text => do
      let (keys, rest) ← readKey (text.length + 1) text
      match rest with
      | '=' :: rest =>
          let (value, rest) ← readValue depth (skipSpaces rest)
          let entries ← Entries.insertValue false entries value keys false
          match skipSpaces rest with
          | ',' :: rest => readPairs depth entries rest
          | '\x7d' :: rest => return (entries, rest)
          | _ => none
      | _ => none

end

/-- What has been read of a document: all entries, and the path of the open table. -/
structure Document where
  entries : Entries
  path : List String

/-- Takes a header, after its opening bracket or brackets. -/
def readHeader (document : Document) (isArray : Bool) (text : List Char) :
    Option (Document × List Char) := do
  let (path, rest) ← readKey (text.length + 1) text
  let rest ← match isArray, rest with
    | false, ']' :: rest => some rest
    | true, ']' :: ']' :: rest => some rest
    | _, _ => none
  return (⟨← document.entries.openHeader isArray path, path⟩, rest)

/-- Takes a key and its value. -/
def readPair (document : Document) (text : List Char) : Option (Document × List Char) := do
  let (keys, rest) ← readKey (text.length + 1) text
  match rest with
  | '=' :: rest =>
      let (value, rest) ← readValue (rest.length + 1) (skipSpaces rest)
      let entries ← document.entries.descend
        (fun inner => inner.insertValue false value keys false) document.path
      return ({ document with entries }, rest)
  | _ => none

/-- Takes one line of a document. -/
def readLine (document : Document) (text : List Char) : Option (Document × List Char) :=
  match skipSpaces text with
  | '[' :: '[' :: rest => readHeader document true rest
  | '[' :: rest => readHeader document false rest
  | [] => some (document, [])
  | '#' :: rest => some (document, '#' :: rest)
  | '\n' :: rest => some (document, '\n' :: rest)
  | '\r' :: rest => some (document, '\r' :: rest)
  | text => readPair document text

/-- Reads the lines of a document, at most so many. -/
def readLines : Nat → Document → List Char → Option Document
  | 0, _, _ => none
  | _ + 1, document, [] => some document
  | steps + 1, document, text => do
      let (document, rest) ← readLine document text
      readLines steps document (← endLine? rest)

/-- A document without its byte order mark. -/
def withoutMark : List Char → List Char
  | '\ufeff' :: text => text
  | text => text

/-- Reads a document. -/
def read? (text : String) : Option Draft := do
  let text := withoutMark text.toList
  let document ← readLines (text.length + 1) ⟨[], []⟩ text
  return .object (membersOf document.entries) true

end EscapePlan.Toml
