import EscapePlan.Json.Draft

/-!
# Tables of TOML documents

A TOML document is a tree of tables that its lines build piece by piece.  Each table
remembers how it came about, since that decides what may still be added to it: a table
with a header of its own is not opened a second time, and a table that came about
through dotted keys is extended by dotted keys only.

Finished values and documents are drafts, so that what reads a record from JSON reads
it from TOML as well.
-/

namespace EscapePlan.Toml

/-- How a table came about. -/
inductive Standing where
  /-- By a header of its own. -/
  | declared
  /-- As a prefix of another header. -/
  | implied
  /-- By dotted keys. -/
  | dotted
  deriving DecidableEq, Repr

/-- What a key stands for. -/
inductive Item where
  | value (draft : Draft)
  | table (standing : Standing) (entries : List (String × Item))
  /-- An array of tables, the last of which is open. -/
  | tables (closed : List (List (String × Item))) (last : List (String × Item))
  deriving Inhabited

/-- The entries of a table in order. -/
abbrev Entries := List (String × Item)

namespace Entries

/-- What a key stands for. -/
def item? (entries : Entries) (key : String) : Option Item :=
  (List.find? (fun entry => entry.1 = key) entries).map (·.2)

/-- Lets a key that is present stand for something else. -/
def replace (entries : Entries) (key : String) (item : Item) : Entries :=
  entries.map fun entry => if entry.1 = key then (key, item) else entry

/-- Gives a dotted key a value; the first argument says whether this table came about
through dotted keys. -/
def insertValue (isDotted : Bool) (entries : Entries) (value : Draft) :
    List String → Bool → Option Entries
  | [], _ => none
  | [key], viaDots =>
      if viaDots && !isDotted then none
      else if (item? entries key).isSome then none
      else some (entries ++ [(key, .value value)])
  | key :: keys, _ =>
      match item? entries key with
      | none => do
          let inner ← insertValue true [] value keys true
          return entries ++ [(key, .table .dotted inner)]
      | some (.table .declared _) => none
      | some (.table standing inner) => do
          let inner ← insertValue (standing = .dotted) inner value keys true
          return replace entries key (.table standing inner)
      | some _ => none

/-- Opens the table of a header. -/
def openTable (entries : Entries) (key : String) : Option Entries :=
  match item? entries key with
  | none => some (entries ++ [(key, .table .declared [])])
  | some (.table .implied inner) => some (replace entries key (.table .declared inner))
  | some _ => none

/-- Opens the next table of an array of tables. -/
def openElement (entries : Entries) (key : String) : Option Entries :=
  match item? entries key with
  | none => some (entries ++ [(key, .tables [] [])])
  | some (.tables closed last) => some (replace entries key (.tables (closed ++ [last]) []))
  | some _ => none

/-- Changes the table at the end of a path of keys; tables that are missing on the way
are implied. -/
def descend (change : Entries → Option Entries) : List String → Entries → Option Entries
  | [], entries => change entries
  | key :: path, entries =>
      match item? entries key with
      | none => do return entries ++ [(key, .table .implied (← descend change path []))]
      | some (.table standing inner) => do
          return replace entries key (.table standing (← descend change path inner))
      | some (.tables closed last) => do
          return replace entries key (.tables closed (← descend change path last))
      | some (.value _) => none

/-- Opens what a header names. -/
def openHeader (entries : Entries) (isArray : Bool) (path : List String) : Option Entries :=
  match path.getLast? with
  | none => none
  | some key =>
      descend (fun inner => if isArray then openElement inner key else openTable inner key)
        path.dropLast entries

end Entries

mutual

/-- What a key stands for, as a draft. -/
def Item.toDraft : Item → Draft
  | .value draft => draft
  | .table _ entries => .object (membersOf entries) true
  | .tables closed last => .array (draftsOf closed ++ [.object (membersOf last) true]) true

/-- The entries of a table as members of an object. -/
def membersOf : List (String × Item) → List (Option String × Draft)
  | [] => []
  | (key, item) :: entries => (some key, item.toDraft) :: membersOf entries

/-- Tables as drafts. -/
def draftsOf : List (List (String × Item)) → List Draft
  | [] => []
  | entries :: tables => .object (membersOf entries) true :: draftsOf tables

end

end EscapePlan.Toml
