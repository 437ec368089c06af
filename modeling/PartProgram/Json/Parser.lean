import PartProgram.Json.Number

/-!
Reading a document. Each reader takes the characters from some place on and gives what it read with
the characters after it, or nothing if the text is malformed there.
-/

namespace PartProgram.Json

def isBlank (c : Char) : Bool := c = ' ' || c = '\t' || c = '\n' || c = '\r'

def skipBlank (cs : List Char) : List Char := cs.dropWhile isBlank

def hexValue? (c : Char) : Option Nat :=
  if c.isDigit then some (c.toNat - '0'.toNat)
  else if 'a' ≤ c && c ≤ 'f' then some (c.toNat - 'a'.toNat + 10)
  else if 'A' ≤ c && c ≤ 'F' then some (c.toNat - 'A'.toNat + 10)
  else none

/-- The number of a run of hexadecimal digits. -/
def hexNumber? (cs : List Char) : Option Nat :=
  cs.foldl (fun n c => n.bind fun n => (hexValue? c).map (16 * n + ·)) (some 0)

/-- The character that a letter after a backslash stands for. -/
def escaped? : Char → Option Char
  | '"' => some '"'
  | '\\' => some '\\'
  | '/' => some '/'
  | 'b' => some '\x08'
  | 'f' => some '\x0c'
  | 'n' => some '\n'
  | 'r' => some '\r'
  | 't' => some '\t'
  | _ => none

/-- Two code units above the basic plane as one character. -/
def pairChar? (high low : Nat) : Option Char :=
  if 0xD800 ≤ high ∧ high < 0xDC00 ∧ 0xDC00 ≤ low ∧ low < 0xE000 then
    some (Char.ofNat (0x10000 + (high - 0xD800) * 0x400 + (low - 0xDC00)))
  else none

/-- A code unit that is a character by itself. -/
def unitChar? (n : Nat) : Option Char :=
  if 0xD800 ≤ n ∧ n < 0xE000 then none else some (Char.ofNat n)

/-- The text of code units, unless one half of a pair stands alone; `acc` holds what was read,
reversed. -/
def joinUnits (acc : List Char) : List Nat → Option String
  | [] => some (String.ofList acc.reverse)
  | n :: ns =>
    match unitChar? n with
    | some c => joinUnits (c :: acc) ns
    | none =>
      match ns with
      | m :: ns => (pairChar? n m).bind fun c => joinUnits (c :: acc) ns
      | [] => none

/-- Reads the rest of a string after its opening quotation mark as code units; `acc` holds what was
read, reversed. A character that is written plainly is one unit. -/
def readUnits (acc : List Nat) : List Char → Option (List Nat × List Char)
  | '"' :: cs => some (acc.reverse, cs)
  | '\\' :: 'u' :: a :: b :: c :: d :: cs =>
    match hexNumber? [a, b, c, d] with
    | some n => readUnits (n :: acc) cs
    | none => none
  | '\\' :: c :: cs =>
    match escaped? c with
    | some ch => readUnits (ch.toNat :: acc) cs
    | none => none
  | c :: cs => if c.toNat < 0x20 then none else readUnits (c.toNat :: acc) cs
  | [] => none

/-- Reads the rest of a string; it has no text if half a pair stands alone in it. -/
def readString (cs : List Char) : Option (Option String × List Char) :=
  (readUnits [] cs).map fun (units, cs) => (joinUnits [] units, cs)

/-- An object by its members. Without a text for one of its names it can only be skipped. -/
def ofMembers (members : List (Option String × Json)) : Json :=
  ((members.mapM fun m : Option String × Json => m.1.map (·, m.2)).map object).getD unreadable

/-- The characters after a given word, if the text starts with it. -/
def after? (word : String) (cs : List Char) : Option (List Char) :=
  let w := word.toList
  if w.isPrefixOf cs then some (cs.drop w.length) else none

mutual

/-- Reads a value; blanks before it are skipped. The first argument bounds the steps. -/
def readValue : Nat → List Char → Option (Json × List Char)
  | 0, _ => none
  | fuel + 1, cs =>
    match skipBlank cs with
    | '"' :: cs => (readString cs).map fun (s, cs) => ((s.map string).getD unreadable, cs)
    | '[' :: cs =>
      match skipBlank cs with
      | ']' :: cs => some (array [], cs)
      | cs => readItems fuel [] cs
    | '\x7b' :: cs =>
      match skipBlank cs with
      | '\x7d' :: cs => some (object [], cs)
      | cs => readMembers fuel [] cs
    | 't' :: cs => (after? "rue" cs).map (bool true, ·)
    | 'f' :: cs => (after? "alse" cs).map (bool false, ·)
    | 'n' :: cs => (after? "ull" cs).map (null, ·)
    | cs => readNumber cs

/-- Reads the items of an array up to its closing bracket. -/
def readItems : Nat → List Json → List Char → Option (Json × List Char)
  | 0, _, _ => none
  | fuel + 1, acc, cs =>
    match readValue fuel cs with
    | none => none
    | some (item, cs) =>
      match skipBlank cs with
      | ',' :: cs => readItems fuel (item :: acc) cs
      | ']' :: cs => some (array (item :: acc).reverse, cs)
      | _ => none

/-- Reads the members of an object up to its closing brace. -/
def readMembers : Nat → List (Option String × Json) → List Char → Option (Json × List Char)
  | 0, _, _ => none
  | fuel + 1, acc, cs =>
    match skipBlank cs with
    | '"' :: cs =>
      match readString cs with
      | none => none
      | some (name, cs) =>
        match skipBlank cs with
        | ':' :: cs =>
          match readValue fuel cs with
          | none => none
          | some (value, cs) =>
            match skipBlank cs with
            | ',' :: cs => readMembers fuel ((name, value) :: acc) cs
            | '\x7d' :: cs => some (ofMembers ((name, value) :: acc).reverse, cs)
            | _ => none
        | _ => none
    | _ => none

end

/-- Reads the document at the start of a text, and gives what follows it without blanks. Every step
takes a character, so the length of the text bounds them. -/
def readStart? (text : String) : Option (Json × List Char) :=
  let cs := text.toList
  (readValue (cs.length + 1) cs).map fun (value, rest) => (value, skipBlank rest)

end PartProgram.Json
