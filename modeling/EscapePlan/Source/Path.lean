/-!
# Paths as text

A path is a text whose segments stand between slashes.  Its components say where it leads;
they are looked at without consulting any file system.  Its extension is what follows the
last dot of its last component, unless the component begins with that dot.
-/

namespace EscapePlan.Path

/-- The segments of a path: what stands between its slashes. -/
def segments (path : String) : List String :=
  (split path.toList).map String.ofList
where
  /-- Splits a text at its slashes. -/
  split : List Char → List (List Char)
    | [] => [[]]
    | char :: rest =>
        if char = '/' then [] :: split rest
        else
          match split rest with
          | [] => [[char]]
          | segment :: segments => (char :: segment) :: segments

/-- A step on the way that a path leads. -/
inductive Component where
  /-- The slash that a path begins with. -/
  | root
  /-- The place where one is, if a path begins with it. -/
  | current
  | parent
  | normal (name : String)
  deriving DecidableEq, Repr

/-- The component that a segment stands for.  An empty segment and one that stays where it is
lead nowhere. -/
def Component.ofSegment? : String → Option Component
  | "" => none
  | "." => none
  | ".." => some .parent
  | name => some (.normal name)

/-- The components of a path.  Segments that lead nowhere are passed over, unless the path
begins with one. -/
def components (path : String) : List Component :=
  start (segments path) ++ (segments path).filterMap Component.ofSegment?
where
  /-- What a path begins with apart from the components of its segments. -/
  start : List String → List Component
    | "" :: _ :: _ => [.root]
    | "." :: _ => [.current]
    | _ => []

/-- The name of the file that a path leads to: its last component, unless that is no name. -/
def fileName? (path : String) : Option String :=
  match (components path).getLast? with
  | some (.normal name) => some name
  | _ => none

/-- What follows the last dot of a file name that does not begin with it. -/
def extensionOf? (name : List Char) : Option (List Char) :=
  let reversed := name.reverse
  let before := (reversed.dropWhile (· ≠ '.')).drop 1
  if before.isEmpty then none else some (reversed.takeWhile (· ≠ '.')).reverse

/-- The extension of a path, in small letters as far as they are ASCII letters. -/
def extension? (path : String) : Option String := do
  let name ← fileName? path
  let extension ← extensionOf? name.toList
  return String.ofList (extension.map Char.toLower)

end EscapePlan.Path
