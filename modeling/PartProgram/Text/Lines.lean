/-!
Texts and their lines. A line ends at a line feed; a carriage return just before it belongs to the
line end.
-/

namespace PartProgram.Text

/-- The line without a carriage return at its end. -/
def dropReturn (cs : List Char) : List Char :=
  if cs.getLast? = some '\r' then cs.dropLast else cs

/-- The lines of a text. What follows the last line feed is a line only if there is something. -/
def lines (text : String) : List String :=
  let pieces := text.toList.splitOn '\n'
  let ended := pieces.dropLast.map fun cs => String.ofList (dropReturn cs)
  match pieces.getLast? with
  | none | some [] => ended
  | some cs => ended ++ [String.ofList cs]

/-- A text of which the given strings are the lines: each is followed by a line feed. -/
def ofLines (lines : List String) : String := String.join (lines.map (· ++ "\n"))

/-- `needle` stands somewhere in the text. -/
def occursIn (needle : List Char) : List Char → Bool
  | [] => needle.isEmpty
  | c :: cs => needle.isPrefixOf (c :: cs) || occursIn needle cs

end PartProgram.Text
