import EscapePlan.Proofs.Json.Drafts
import EscapePlan.Toml.Reader

/-!
# Reading plain lines of a document

A plain line gives a bare key a word for its value.  `Leads` says that reading some text takes a
document to another one, whatever comes afterwards; plain lines of different keys put their values
one after the other into the open table.
-/

namespace EscapePlan.Toml

/-- A word has the value that a JSON value is read as. -/
structure IsWord (word : List Char) (json : Json) : Prop where
  chars : ∀ char ∈ word, isWordChar char = true
  value : wordValue? word = some json.toDraft

/-- A text that may stand as a key without quotes. -/
structure IsKey (key : String) : Prop where
  nonempty : key.toList ≠ []
  chars : ∀ char ∈ key.toList, isBare char = true

/-! ## Words -/

theorem isWordChar_of_isDigit {char : Char} (digit : char.isDigit = true) :
    isWordChar char = true := by
  simp [isWordChar, Char.isAlphanum, digit]

theorem wellSpaced_of_digits {digits : List Char} (nonempty : digits ≠ [])
    (all : ∀ digit ∈ digits, digit.isDigit = true) : wellSpaced Char.isDigit digits = true := by
  induction digits with
  | nil => contradiction
  | cons digit rest inductionHypothesis =>
      obtain ⟨first, all⟩ := List.forall_mem_cons.1 all
      rcases rest with - | ⟨second, rest⟩
      · exact first
      · have noSpace : second ≠ '_' := by
          rintro rfl
          exact absurd (all _ List.mem_cons_self) (by decide)
        rw [wellSpaced, first, inductionHypothesis (List.cons_ne_nil _ _) all]
        · rfl
        · nofun
        · rintro later ⟨⟩
          exact noSpace rfl

theorem isWhole_toDigits (value : Nat) : isWhole (Nat.toDigits 10 value) = true := by
  unfold isWhole
  split
  next => rfl
  next rest notZero digits =>
    rcases Nat.eq_zero_or_pos value with rfl | pos
    · exact absurd digits (by rw [Nat.toDigits_zero]; rintro ⟨⟩; exact notZero rfl)
    · exact absurd (digits ▸ rfl : (Nat.toDigits 10 value).head? = some '0') (head?_toDigits_ne pos)
  next =>
    exact wellSpaced_of_digits Nat.toDigits_ne_nil fun _ => isDigit_of_mem_toDigits

theorem integer?_toDigits {value : Nat} (small : (value : Int) ≤ highestInt64) :
    integer? (Nat.toDigits 10 value) = some (.number (.integer value)) := by
  have second {first char : Char} {rest : List Char}
      (digits : Nat.toDigits 10 value = first :: char :: rest) :
      char.isDigit = true :=
    isDigit_of_mem_toDigits (digits ▸ List.mem_cons_of_mem _ List.mem_cons_self)
  have unsigned : splitSign (Nat.toDigits 10 value) = (false, Nat.toDigits 10 value) := by
    obtain ⟨first, rest, digits, isDigit⟩ := exists_toDigits_eq_cons value
    rw [digits, splitSign]
    · rintro rest' ⟨⟩
      exact absurd isDigit (by decide)
    · rintro rest' ⟨⟩
      exact absurd isDigit (by decide)
  have together : withoutUnderscores (Nat.toDigits 10 value) = Nat.toDigits 10 value := by
    refine List.filter_eq_self.2 fun char listed => decide_eq_true ?_
    rintro rfl
    exact absurd (isDigit_of_mem_toDigits listed) (by decide)
  have bounded : boundedInteger (value : Int) = some (.number (.integer value)) :=
    if_pos ⟨by simp only [lowestInt64]; omega, small⟩
  unfold integer?
  split
  next digits => exact absurd (second digits) (by decide)
  next digits => exact absurd (second digits) (by decide)
  next digits => exact absurd (second digits) (by decide)
  next =>
    rw [unsigned]
    simpa [isWhole_toDigits, together, naturalOfDigits_toDigits] using bounded

theorem isWord_natural {value : Nat} (small : (value : Int) ≤ highestInt64) :
    IsWord (Nat.toDigits 10 value) (.natural value) where
  chars _ listed := isWordChar_of_isDigit (isDigit_of_mem_toDigits listed)
  value := by
    have noLetter {word : List Char} (char : Char) (listed : char ∈ word)
        (letter : char.isDigit = false) :
        Nat.toDigits 10 value ≠ word := by
      rintro rfl
      exact absurd (isDigit_of_mem_toDigits listed) (by simp [letter])
    rw [wordValue?, if_neg (noLetter 't' (by decide) (by decide)),
      if_neg (noLetter 'f' (by decide) (by decide)), integer?_toDigits small]
    rfl

theorem isWord_bool (value : Bool) :
    IsWord (if value then "true" else "false").toList (.bool value) := by
  cases value <;> exact ⟨List.all_eq_true.1 (by decide), rfl⟩

/-! ## Lines -/

/-- A plain line: a key, the word behind its equals sign, and the value of that word. -/
structure Plain where
  key : String
  word : List Char
  json : Json
  isKey : IsKey key
  isWord : IsWord word json

/-- How a plain line is written. -/
def Plain.line (plain : Plain) : List Char :=
  plain.key.toList ++ ' ' :: '=' :: ' ' :: plain.word

/-- What stands under the key of a plain line. -/
def Plain.entry (plain : Plain) : String × Item :=
  (plain.key, .value plain.json.toDraft)

/-- The member that a plain line amounts to. -/
def Plain.member (plain : Plain) : String × Json :=
  (plain.key, plain.json)

theorem isBare_ne {char other : Char} (bare : isBare char = true) (noBare : isBare other = false) :
    char ≠ other := by
  rintro rfl
  exact absurd bare (by simp [noBare])

theorem isWordChar_ne {char other : Char} (inWord : isWordChar char = true)
    (notInWord : isWordChar other = false) : char ≠ other := by
  rintro rfl
  exact absurd inWord (by simp [notInWord])

theorem readKeyPart_bare {key : String} (isKey : IsKey key) {separator : Char}
    (ends : isBare separator = false) (rest : List Char) :
    readKeyPart (key.toList ++ separator :: rest) = some (key, separator :: rest) := by
  obtain ⟨nonempty, bare⟩ := isKey
  have takes : (key.toList ++ separator :: rest).takeWhile isBare = key.toList := by
    rw [List.takeWhile_append_of_pos bare, List.takeWhile_cons_of_neg (by simp [ends]),
      List.append_nil]
  have drops : (key.toList ++ separator :: rest).dropWhile isBare = separator :: rest := by
    rw [List.dropWhile_append_of_pos bare, List.dropWhile_cons_of_neg (by simp [ends])]
  obtain ⟨first, others, letters⟩ := List.exists_cons_of_ne_nil nonempty
  have firstBare := bare first (letters ▸ List.mem_cons_self)
  have spelled : String.ofList (first :: others) = key := letters ▸ String.ofList_toList
  rw [letters, List.cons_append] at takes drops ⊢
  unfold readKeyPart
  split
  next same => exact absurd (List.cons.inj same).1 (isBare_ne firstBare (by decide))
  next same => exact absurd (List.cons.inj same).1 (isBare_ne firstBare (by decide))
  next =>
    rw [takes, drops]
    exact congrArg (fun read => some (read, separator :: rest)) spelled

theorem skipSpaces_of_ne {char : Char} {rest : List Char} (visible : isSpace char = false) :
    skipSpaces (char :: rest) = char :: rest := by
  simp [skipSpaces, visible]

theorem skipSpaces_key {key : String} (isKey : IsKey key) (rest : List Char) :
    skipSpaces (key.toList ++ rest) = key.toList ++ rest := by
  obtain ⟨first, others, letters⟩ := List.exists_cons_of_ne_nil isKey.nonempty
  have bare := isKey.chars first (letters ▸ List.mem_cons_self)
  rw [letters, List.cons_append]
  exact skipSpaces_of_ne (by simp [isSpace, isBare_ne bare (show isBare ' ' = false by decide),
    isBare_ne bare (show isBare '\t' = false by decide)])

theorem readKey_bare {key : String} (isKey : IsKey key) {steps : Nat} (rest : List Char) :
    readKey (steps + 1) (key.toList ++ ' ' :: '=' :: rest) = some ([key], '=' :: rest) := by
  rw [readKey, skipSpaces_key isKey, readKeyPart_bare isKey (by decide)]
  rfl

theorem readValue_word {word : List Char} {json : Json} (isWord : IsWord word json) (depth : Nat)
    (rest : List Char) :
    readValue (depth + 1) (skipSpaces (' ' :: word ++ '\n' :: rest)) =
      some (json.toDraft, '\n' :: rest) := by
  obtain ⟨chars, value⟩ := isWord
  have takes : (word ++ '\n' :: rest).takeWhile isWordChar = word := by
    rw [List.takeWhile_append_of_pos chars, List.takeWhile_cons_of_neg (by decide), List.append_nil]
  have drops : (word ++ '\n' :: rest).dropWhile isWordChar = '\n' :: rest := by
    rw [List.dropWhile_append_of_pos chars, List.dropWhile_cons_of_neg (by decide)]
  have readsWord : readWord (word ++ '\n' :: rest) = some (json.toDraft, '\n' :: rest) := by
    rw [readWord, takes, drops, value]
    rfl
  have nonempty : word ≠ [] := by
    rintro rfl
    cases value
  obtain ⟨first, others, rfl⟩ := List.exists_cons_of_ne_nil nonempty
  have inWord := chars first List.mem_cons_self
  have visible : isSpace first = false := by
    simp [isSpace, isWordChar_ne inWord (show isWordChar ' ' = false by decide),
      isWordChar_ne inWord (show isWordChar '\t' = false by decide)]
  have skips : skipSpaces (' ' :: (first :: others) ++ '\n' :: rest) =
      first :: others ++ '\n' :: rest :=
    skipSpaces_of_ne visible
  rw [skips, ← readsWord, List.cons_append, readValue]
  · rintro _ ⟨⟩
    exact isWordChar_ne inWord (by decide) rfl
  · rintro _ ⟨⟩
    exact isWordChar_ne inWord (by decide) rfl
  · rintro _ ⟨⟩
    exact isWordChar_ne inWord (by decide) rfl
  · rintro _ ⟨⟩
    exact isWordChar_ne inWord (by decide) rfl

/-- A plain line puts its entry into the open table. -/
theorem readLine_plain (document : Document) (plain : Plain) (rest : List Char) :
    readLine document (plain.line ++ '\n' :: rest) =
      (document.entries.descend (fun inner => inner.insertValue false plain.json.toDraft [plain.key] false)
        document.path).map fun entries => ({ document with entries }, '\n' :: rest) := by
  obtain ⟨first, others, letters⟩ := List.exists_cons_of_ne_nil plain.isKey.nonempty
  have bare := plain.isKey.chars first (letters ▸ List.mem_cons_self)
  have text : plain.line ++ '\n' :: rest =
      plain.key.toList ++ (' ' :: '=' :: ' ' :: plain.word ++ '\n' :: rest) := by
    rw [Plain.line, List.append_assoc]
  have pair : readLine document (plain.line ++ '\n' :: rest) =
      readPair document (plain.line ++ '\n' :: rest) := by
    rw [text, readLine, skipSpaces_key plain.isKey, letters, List.cons_append]
    split
    next same => exact absurd (List.cons.inj same).1 (isBare_ne bare (by decide))
    next same => exact absurd (List.cons.inj same).1 (isBare_ne bare (by decide))
    next same => cases same
    next same => exact absurd (List.cons.inj same).1 (isBare_ne bare (by decide))
    next same => exact absurd (List.cons.inj same).1 (isBare_ne bare (by decide))
    next same => exact absurd (List.cons.inj same).1 (isBare_ne bare (by decide))
    next => rfl
  rw [pair, readPair, text]
  simp only [List.cons_append, readKey_bare plain.isKey]
  have value := readValue_word plain.isWord (' ' :: (plain.word ++ '\n' :: rest)).length rest
  rw [List.cons_append] at value
  show (readValue _ _ >>= _) = _
  rw [value]
  exact Option.map_eq_bind.symm

/-! ## Documents -/

/-- Reading a text takes a document to another one, whatever comes after the text. -/
def Leads (document : Document) (text : List Char) (next : Document) : Prop :=
  ∀ steps rest, (text ++ rest).length < steps →
    ∃ left, rest.length < left ∧ readLines steps document (text ++ rest) = readLines left next rest

variable {document middle next : Document} {text more : List Char}

theorem Leads.nil : Leads document [] document :=
  fun steps _ bound => ⟨steps, bound, rfl⟩

theorem Leads.append (first : Leads document text middle) (second : Leads middle more next) :
    Leads document (text ++ more) next := by
  intro steps rest bound
  rw [List.append_assoc] at bound ⊢
  obtain ⟨left, bound, reads⟩ := first steps (more ++ rest) bound
  obtain ⟨left, bound, readsMore⟩ := second left rest bound
  exact ⟨left, bound, reads.trans readsMore⟩

/-- A line is read with its line break. -/
theorem Leads.line {line : List Char}
    (reads : ∀ rest, readLine document (line ++ '\n' :: rest) = some (next, '\n' :: rest)) :
    Leads document (line ++ ['\n']) next := by
  intro steps rest bound
  rw [List.append_assoc, List.singleton_append] at bound ⊢
  obtain ⟨steps, rfl⟩ := Nat.exists_eq_add_one_of_ne_zero (Nat.ne_zero_of_lt bound)
  refine ⟨steps, ?_, ?_⟩
  · simp only [List.length_append, List.length_cons] at bound
    omega
  · have nonempty : line ++ '\n' :: rest ≠ [] := by simp
    rw [readLines, reads rest]
    · rfl
    · exact nonempty

/-- A text that leads somewhere is read to its end. -/
theorem Leads.readLines (leads : Leads document text next) :
    readLines (text.length + 1) document text = some next := by
  obtain ⟨left, bound, reads⟩ := leads (text.length + 1) [] (by simp)
  obtain ⟨left, rfl⟩ := Nat.exists_eq_add_one_of_ne_zero (Nat.ne_zero_of_lt bound)
  rw [List.append_nil] at reads
  exact reads

/-! ## Tables -/

/-- A place in a document: entries of an open table as part of all entries. -/
structure Place where
  path : List String
  embed : Entries → Entries
  /-- What is changed at the path is changed at the place. -/
  descend_embed : ∀ (change : Entries → Option Entries) (inner : Entries),
    (embed inner).descend change path = (change inner).map embed

/-- The document that is open at a place. -/
def Place.opened (place : Place) (inner : Entries) : Document :=
  ⟨place.embed inner, place.path⟩

/-- The table that no header opens. -/
def Place.outer : Place where
  path := []
  embed := id
  descend_embed change inner := by simp [Entries.descend]

theorem item?_eq_none_iff {entries : Entries} {key : String} :
    entries.item? key = none ↔ key ∉ entries.map (·.1) := by
  rw [Entries.item?, Option.map_eq_none_iff, List.find?_eq_none]
  simp only [decide_eq_true_eq, List.mem_map, not_exists, not_and]

theorem item?_append_of_notMem {before after : Entries} {key : String}
    (isNew : key ∉ before.map (·.1)) : (before ++ after).item? key = after.item? key := by
  have none_ := item?_eq_none_iff.2 isNew
  rw [Entries.item?, Option.map_eq_none_iff] at none_
  rw [Entries.item?, List.find?_append, none_]
  rfl

theorem replace_of_notMem {entries : Entries} {key : String} (isNew : key ∉ entries.map (·.1))
    (item : Item) : entries.replace key item = entries := by
  refine (List.map_congr_left fun entry listed => if_neg ?_).trans (List.map_id _)
  rintro rfl
  exact isNew (List.mem_map_of_mem listed)

/-- The table of a header behind other entries. -/
def Place.table (before : Entries) (key : String) (isNew : key ∉ before.map (·.1)) : Place where
  path := [key]
  embed inner := before ++ [(key, .table .declared inner)]
  descend_embed change inner := by
    let entries : Entries := before ++ [(key, .table .declared inner)]
    have present : entries.item? key = some (.table .declared inner) := by
      rw [item?_append_of_notMem isNew]
      simp [Entries.item?]
    have replaced (item : Item) : entries.replace key item = before ++ [(key, item)] := by
      rw [Entries.replace, List.map_append]
      congr 1
      · exact replace_of_notMem isNew item
      · simp
    show entries.descend change [key] = _
    simp only [Entries.descend, present, replaced]
    exact Option.map_eq_bind.symm

/-- Plain lines, each with its line break. -/
def lay (plains : List Plain) : List Char :=
  plains.flatMap fun plain => plain.line ++ ['\n']

/-- Plain lines of new and different keys put their entries behind those of the open table. -/
theorem leads_plains (place : Place) (plains : List Plain) (inner : Entries)
    (distinct : (inner.map (·.1) ++ plains.map (·.key)).Nodup) :
    Leads (place.opened inner) (lay plains)
      (place.opened (inner ++ plains.map Plain.entry)) := by
  induction plains generalizing inner with
  | nil => simpa [lay] using Leads.nil
  | cons plain plains inductionHypothesis =>
      have isNew : plain.key ∉ inner.map (·.1) := fun listed =>
        (List.nodup_append.1 distinct).2.2 _ listed _ List.mem_cons_self rfl
      have reads (rest : List Char) : readLine (place.opened inner) (plain.line ++ '\n' :: rest) =
          some (place.opened (inner ++ [plain.entry]), '\n' :: rest) := by
        rw [readLine_plain, Place.opened, place.descend_embed, Entries.insertValue,
          item?_eq_none_iff.2 isNew]
        rfl
      have later := inductionHypothesis (inner ++ [plain.entry])
        (by simpa [Plain.entry] using distinct)
      rw [List.append_assoc] at later
      rw [lay, List.flatMap_cons]
      exact (Leads.line reads).append later

/-- The header of a new table opens it. -/
theorem leads_header {entries : Entries} {key : String} (isKey : IsKey key)
    (isNew : key ∉ entries.map (·.1)) :
    Leads (Place.outer.opened entries) ('[' :: key.toList ++ [']', '\n'])
      ((Place.table entries key isNew).opened []) := by
  have reads (rest : List Char) :
      readLine (Place.outer.opened entries) ('[' :: key.toList ++ [']'] ++ '\n' :: rest) =
        some ((Place.table entries key isNew).opened [], '\n' :: rest) := by
    obtain ⟨first, others, letters⟩ := List.exists_cons_of_ne_nil isKey.nonempty
    have bare := isKey.chars first (letters ▸ List.mem_cons_self)
    have noBracket {tail : List Char} : key.toList ++ ']' :: '\n' :: rest ≠ '[' :: tail := by
      rw [letters, List.cons_append]
      exact fun same => absurd (List.cons.inj same).1 (isBare_ne bare (by decide))
    have header : readLine (Place.outer.opened entries) ('[' :: key.toList ++ [']'] ++ '\n' :: rest) =
        readHeader (Place.outer.opened entries) false (key.toList ++ ']' :: '\n' :: rest) := by
      have skips : skipSpaces ('[' :: key.toList ++ [']'] ++ '\n' :: rest) =
          '[' :: (key.toList ++ ']' :: '\n' :: rest) := by
        rw [List.append_assoc]
        rfl
      rw [readLine, skips]
      split
      next same => exact absurd (List.cons.inj same).2 noBracket
      next same => rw [(List.cons.inj same).2]
      next same => cases same
      next same => exact absurd (List.cons.inj same).1 (by decide)
      next same => exact absurd (List.cons.inj same).1 (by decide)
      next same => exact absurd (List.cons.inj same).1 (by decide)
      next noHeader _ _ _ _ => exact absurd rfl (noHeader _)
    have readsKey : readKey ((key.toList ++ ']' :: '\n' :: rest).length + 1)
        (key.toList ++ ']' :: '\n' :: rest) = some ([key], ']' :: '\n' :: rest) := by
      rw [readKey, skipSpaces_key isKey, readKeyPart_bare isKey (by decide)]
      rfl
    have opens : (Place.outer.opened entries).entries.openHeader false [key] =
        some (entries ++ [(key, .table .declared [])]) := by
      show entries.openTable key = _
      rw [Entries.openTable, item?_eq_none_iff.2 isNew]
    rw [header, readHeader, readsKey]
    show (Entries.openHeader _ _ _ >>= _) = _
    rw [opens]
    rfl
  have leads := Leads.line reads
  rwa [List.append_assoc] at leads

/-- A blank line changes nothing. -/
theorem leads_blank (document : Document) : Leads document ['\n'] document := by
  rw [← List.nil_append ['\n']]
  exact Leads.line fun rest => rfl

/-! ## Members -/

theorem membersOf_append (entries more : Entries) :
    membersOf (entries ++ more) = membersOf entries ++ membersOf more := by
  induction entries with
  | nil => rfl
  | cons entry entries inductionHypothesis =>
      rw [List.cons_append, membersOf, membersOf, inductionHypothesis, List.cons_append]

theorem draftsOfMembers_append (members more : List (String × Json)) :
    Json.draftsOfMembers (members ++ more) =
      Json.draftsOfMembers members ++ Json.draftsOfMembers more := by
  induction members with
  | nil => rfl
  | cons member members inductionHypothesis =>
      rw [List.cons_append, Json.draftsOfMembers, Json.draftsOfMembers, inductionHypothesis,
        List.cons_append]

theorem membersOf_plains (plains : List Plain) :
    membersOf (plains.map Plain.entry) = Json.draftsOfMembers (plains.map Plain.member) := by
  induction plains with
  | nil => rfl
  | cons plain plains inductionHypothesis =>
      rw [List.map_cons, List.map_cons, Plain.entry, Plain.member, membersOf, Json.draftsOfMembers,
        inductionHypothesis, Item.toDraft]

theorem withoutMark_of_ne {text : List Char} (plain : ∀ rest, text ≠ '\ufeff' :: rest) :
    withoutMark text = text := by
  unfold withoutMark
  split
  next rest => exact absurd rfl (plain rest)
  next => rfl

/-- A document of plain lines, with a table of further plain lines behind them, has one member for
each line, and one for the table. -/
theorem read?_of_plains (outer inner : List Plain) {key : String} (isKey : IsKey key)
    (isNew : key ∉ outer.map (·.key)) (outerDistinct : (outer.map (·.key)).Nodup)
    (innerDistinct : (inner.map (·.key)).Nodup) :
    read? (String.ofList (lay outer ++ '\n' :: '[' :: key.toList ++ [']', '\n'] ++ lay inner)) =
      some (.object (Json.draftsOfMembers
        (outer.map Plain.member ++ [(key, .object (inner.map Plain.member))])) true) := by
  have isNew : key ∉ (outer.map Plain.entry).map (·.1) := by
    rwa [List.map_map]
  have leads : Leads (Place.outer.opened [])
      (lay outer ++ '\n' :: '[' :: key.toList ++ [']', '\n'] ++ lay inner)
      ((Place.table _ key isNew).opened (inner.map Plain.entry)) := by
    have first := leads_plains Place.outer outer [] (by simpa using outerDistinct)
    have second := (leads_blank _).append (leads_header isKey isNew)
    have third := leads_plains (Place.table _ key isNew) inner [] (by simpa using innerDistinct)
    have all := (first.append second).append third
    simpa [lay, List.append_assoc] using all
  have unmarked : withoutMark (lay outer ++ '\n' :: '[' :: key.toList ++ [']', '\n'] ++ lay inner) =
      lay outer ++ '\n' :: '[' :: key.toList ++ [']', '\n'] ++ lay inner := by
    refine withoutMark_of_ne fun rest same => ?_
    cases outer with
    | nil => exact absurd (List.cons.inj same).1 (by decide)
    | cons plain outer =>
        obtain ⟨first, others, letters⟩ := List.exists_cons_of_ne_nil plain.isKey.nonempty
        have bare := plain.isKey.chars first (letters ▸ List.mem_cons_self)
        rw [lay, List.flatMap_cons, Plain.line, letters] at same
        exact absurd (List.cons.inj same).1 (isBare_ne bare (by decide))
  have members : membersOf (outer.map Plain.entry ++
      [(key, .table .declared (inner.map Plain.entry))]) = Json.draftsOfMembers
        (outer.map Plain.member ++ [(key, .object (inner.map Plain.member))]) := by
    rw [membersOf_append, membersOf_plains, membersOf, membersOf, Item.toDraft, membersOf_plains,
      draftsOfMembers_append, Json.draftsOfMembers, Json.draftsOfMembers, Json.toDraft]
  rw [read?, String.toList_ofList, unmarked]
  show (readLines _ (Place.outer.opened []) _ >>= _) = _
  rw [leads.readLines]
  exact congrArg (fun members => some (Draft.object members true)) members

end EscapePlan.Toml
