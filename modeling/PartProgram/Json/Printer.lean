import PartProgram.Json.Value
import PartProgram.Number.Shortest

/-!
Printing a document, one item or member a line, nested by two spaces.
-/

namespace PartProgram.Json

def hexDigit (n : Nat) : Char := if n < 10 then Char.ofNat (48 + n) else Char.ofNat (87 + n)

/-- A character within quotation marks. -/
def escapeChar (c : Char) : List Char :=
  if c = '"' then ['\\', '"']
  else if c = '\\' then ['\\', '\\']
  else if 0x20 ≤ c.toNat then [c]
  else if c = '\n' then ['\\', 'n']
  else if c = '\r' then ['\\', 'r']
  else if c = '\t' then ['\\', 't']
  else if c.toNat = 0x08 then ['\\', 'b']
  else if c.toNat = 0x0C then ['\\', 'f']
  else ['\\', 'u', '0', '0', hexDigit (c.toNat / 16), hexDigit (c.toNat % 16)]

def quote (s : String) : String :=
  String.ofList ('"' :: (s.toList.flatMap escapeChar ++ ['"']))

def indentation (depth : Nat) : String := String.ofList (List.replicate (2 * depth) ' ')

/-- The lines of a bracketed group of texts; an empty group is a pair of brackets. -/
def group (opening closing : String) (depth : Nat) (texts : List String) : String :=
  if texts.isEmpty then opening ++ closing
  else
    let inner := "\n" ++ indentation (depth + 1)
    opening ++ inner ++ ("," ++ inner).intercalate texts ++ "\n" ++ indentation depth ++ closing

/-- The text of a document that stands `depth` levels deep. A float that is not finite is null, and so is
what has no text. -/
def render (depth : Nat) : Json → String
  | null | unreadable => "null"
  | bool b => if b then "true" else "false"
  | integer n => toString n
  | float x => (Shortest.typed? x).getD "null"
  | string s => quote s
  | array items => group "[" "]" depth (items.map fun item => render (depth + 1) item)
  | object members =>
    group "\x7b" "\x7d" depth
      (members.map fun m => quote m.1 ++ ": " ++ render (depth + 1) m.2)
termination_by j => j
decreasing_by
  · decreasing_tactic
  · rename_i h
    have : sizeOf m < sizeOf members := List.sizeOf_lt_of_mem h
    rcases m with ⟨name, value⟩
    simp at *
    omega

end PartProgram.Json
