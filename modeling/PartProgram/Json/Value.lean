/-!
Documents in JavaScript Object Notation.
-/

namespace PartProgram

/-- A document. Members of an object keep their order and may repeat a name. -/
inductive Json where
  | null
  | bool (b : Bool)
  | integer (n : Int)
  /-- A number that is not written as an integer, or that no machine integer holds. It is infinite
  if it is too large. -/
  | float (x : Float)
  | string (s : String)
  | array (items : List Json)
  | object (members : List (String × Json))
  /-- A string, or an object with a member name, that is well formed but stands for no text. It may
  be skipped where its value does not matter. -/
  | unreadable

end PartProgram
