/-!
# JSON values

The values a writer hands to the JSON printer.  Members of an object keep their
order and may repeat; integers are exact and floating-point numbers are kept
apart from them, since the two are written differently.
-/

namespace EscapePlan

/-- A JSON value, ready to be written. -/
inductive Json where
  | null
  | bool (value : Bool)
  | integer (value : Int)
  | float (value : Float)
  | text (value : String)
  | array (items : List Json)
  | object (members : List (String × Json))
  deriving Inhabited

namespace Json

/-- A natural number as a JSON integer. -/
def natural (value : Nat) : Json :=
  .integer value

/-- An absent value is written as `null`. -/
def ofOption {α : Type} (encode : α → Json) : Option α → Json
  | none => .null
  | some value => encode value

end Json

end EscapePlan
