/-!
Documents in Tom's Obvious Minimal Language, and how their tables come together from headers and
dotted keys.
-/

namespace PartProgram

/-- A value of a document. Dates and times are recognized but not kept. -/
inductive Toml where
  | string (s : String)
  /-- An integer, which may be too large for any use. -/
  | integer (n : Int)
  | float (x : Float)
  /-- A finite number that is too large for a float. -/
  | overflow
  | bool (b : Bool)
  | time
  | array (items : List Toml)
  | table (entries : List (String × Toml))

namespace Toml

/-- How a table came into being, which decides what may still be added to it. -/
inductive Origin where
  /-- By a header of its own. -/
  | header
  /-- By standing in front of a name in a header. -/
  | outer
  /-- By standing in front of a name in a dotted key. -/
  | dotted
  deriving DecidableEq, Repr

/-- A document in the making. -/
inductive Node where
  /-- A value on the right of an equals sign, which is complete. -/
  | leaf (value : Toml)
  | table (origin : Origin) (entries : List (String × Node))
  /-- Tables that share a header in double brackets, the last one first. -/
  | tables (items : List (List (String × Node)))

abbrev Entries := List (String × Node)

/-- Puts a node in the place of a name, or at the end if the name is new. -/
def Entries.set (entries : Entries) (name : String) (node : Node) : Entries :=
  if entries.any (·.1 == name) then
    entries.map fun e => if e.1 == name then (name, node) else e
  else entries ++ [(name, node)]

/-- Adds a value under a dotted key. The tables on the way are new, or were made by dotted keys or in
front of other names in headers. Tables in double brackets may stand on the way too, but not just
before the last name; the last of them is meant. -/
def Entries.insert (entries : Entries) : List String → Toml → Option Entries
  | [], _ => none
  | [name], value =>
    if (entries.lookup name).isSome then none else some (entries ++ [(name, .leaf value)])
  | name :: path, value =>
    match entries.lookup name with
    | none => (Entries.insert [] path value).map fun inner =>
      entries ++ [(name, .table .dotted inner)]
    | some (.table origin inner) =>
      if origin = .header then none
      else (Entries.insert inner path value).map fun inner =>
        Entries.set entries name (.table origin inner)
    | some (.tables (last :: items)) =>
      if path.length = 1 then none
      else (Entries.insert last path value).map fun last =>
        Entries.set entries name (.tables (last :: items))
    | some _ => none

/-- Opens the table of a header, or a further one for a header in double brackets. -/
def Entries.openLast (entries : Entries) (name : String) (double : Bool) : Option Entries :=
  match entries.lookup name, double with
  | none, false => some (entries ++ [(name, .table .header [])])
  | some (.table .outer inner), false => some (Entries.set entries name (.table .header inner))
  | none, true => some (entries ++ [(name, .tables [[]])])
  | some (.tables items), true => some (Entries.set entries name (.tables ([] :: items)))
  | _, _ => none

/-- Changes the table at a header's path. Tables missing on the way are made; of tables in double
brackets the last is meant. -/
def Entries.within (change : Entries → Option Entries) (entries : Entries) :
    List String → Option Entries
  | [] => change entries
  | name :: path =>
    match entries.lookup name with
    | none => (Entries.within change [] path).map fun inner =>
      entries ++ [(name, .table .outer inner)]
    | some (.table origin inner) => (Entries.within change inner path).map fun inner =>
      Entries.set entries name (.table origin inner)
    | some (.tables (last :: items)) => (Entries.within change last path).map fun last =>
      Entries.set entries name (.tables (last :: items))
    | some _ => none

mutual

/-- The finished value of a node. -/
def Node.value : Node → Toml
  | .leaf v => v
  | .table _ entries => .table (Node.values entries)
  | .tables items => .array (Node.arrayValues items).reverse

def Node.values : List (String × Node) → List (String × Toml)
  | [] => []
  | (name, node) :: rest => (name, node.value) :: Node.values rest

def Node.arrayValues : List (List (String × Node)) → List Toml
  | [] => []
  | entries :: rest => .table (Node.values entries) :: Node.arrayValues rest

end

end Toml

end PartProgram
