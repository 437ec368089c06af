import PartProgram.Number.Floating
import PartProgram.Number.Width
import PartProgram.Toml.Parser

/-!
Records out of documents. A record is a table, or an array that holds the fields in order. Entries of
a table that belong to no field are ignored, but their numbers must be ones that can be held.
-/

namespace PartProgram.Toml

/-- A float, or an integer that a machine word holds. -/
def number? : Toml → Option Float
  | .float x => some x
  | .integer n =>
    if fitsSigned 64 n || fitsUnsigned 64 n then
      some (Binary64.ofDecimal ⟨n < 0, n.natAbs, 0⟩)
    else none
  | _ => none

/-- An integer that fits. -/
def integer? (fits : Int → Bool) : Toml → Option Int
  | .integer n => if fits n then some n else none
  | _ => none

/-- A count of 32 bits. -/
def count? (t : Toml) : Option Nat := (t.integer? (fitsUnsigned 32)).map Int.toNat

def bool? : Toml → Option Bool
  | .bool b => some b
  | _ => none

def string? : Toml → Option String
  | .string s => some s
  | _ => none

mutual

/-- All numbers can be held: integers in 128 bits, with or without a sign. -/
def isHeld : Toml → Bool
  | .integer n => fitsSigned 128 n || fitsUnsigned 128 n
  | .overflow => false
  | .array items => areHeld items
  | .table entries => entriesHeld entries
  | .string _ | .float _ | .bool _ | .time => true

def areHeld : List Toml → Bool
  | [] => true
  | item :: items => item.isHeld && areHeld items

def entriesHeld : List (String × Toml) → Bool
  | [] => true
  | (_, value) :: entries => value.isHeld && entriesHeld entries

end

/-- A record: what its fields hold, by name. -/
structure Record where
  field : String → Option Toml

/-- The value as a record with the given fields, if it can be one. A date or time is one without
any field. -/
def record? (names : List String) : Toml → Option Record
  | .table entries =>
    if entries.all fun e => names.contains e.1 || e.2.isHeld then
      some ⟨fun name => entries.lookup name⟩
    else none
  | .array items => some ⟨fun name => items[names.idxOf name]?⟩
  | .time => some ⟨fun _ => none⟩
  | _ => none

namespace Record

/-- A field that has to be there. -/
def required {β : Type} (r : Record) (name : String) (read : Toml → Option β) : Option β :=
  (r.field name).bind read

/-- A field with a value of its own when it is missing. -/
def optional {β : Type} (r : Record) (name : String) (missing : β) (read : Toml → Option β) :
    Option β :=
  match r.field name with
  | none => some missing
  | some value => read value

end Record

end PartProgram.Toml
