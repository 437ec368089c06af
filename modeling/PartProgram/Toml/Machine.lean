import PartProgram.Machine
import PartProgram.Toml.Fields

/-!
Machines as documents: `unit`, `work_position`, `work_offset`, `limits` and `tools`. Whatever is
missing has its default.
-/

namespace PartProgram

namespace Toml

def unitOfName? : String → Option LengthUnit
  | "millimeter" => some .millimeter
  | "inch" => some .inch
  | _ => none

/-- A unit by its name. The name may also be the only key of a table, with nothing under it. -/
def unit? : Toml → Option LengthUnit
  | .string s => unitOfName? s
  | .table [(name, .table [])] => unitOfName? name
  | .table [(name, .array [])] => unitOfName? name
  | _ => none

def position? (t : Toml) : Option (Position Float) :=
  (t.record? ["x", "y", "z"]).bind fun r => do
    let x ← r.required "x" number?
    let y ← r.required "y" number?
    let z ← r.required "z" number?
    return ⟨x, y, z⟩

def limits? (t : Toml) : Option (TravelLimits Float) :=
  (t.record? ["home_x", "home_y", "range_x", "range_y"]).bind fun r => do
    let homeX ← r.required "home_x" number?
    let homeY ← r.required "home_y" number?
    let rangeX ← r.required "range_x" number?
    let rangeY ← r.required "range_y" number?
    return { homeX, homeY, rangeX, rangeY }

/-- A slot of the tool table. Its number fits 32 bits, and its label may be missing. -/
def toolSlot? (t : Toml) : Option (ToolSlot Float) :=
  (t.record? ["x", "y", "id", "label"]).bind fun r => do
    let x ← r.required "x" number?
    let y ← r.required "y" number?
    let id ← r.required "id" (integer? (fitsSigned 32))
    let label ← r.optional "label" "" string?
    return { x, y, id, label }

def toolSlots? : Toml → Option (List (ToolSlot Float))
  | .array items => items.mapM toolSlot?
  | _ => none

def machine? (t : Toml) : Option (Machine Float) :=
  (t.record? ["unit", "work_position", "work_offset", "limits", "tools"]).bind fun r => do
    let d : Machine Float := .default
    let unit ← r.optional "unit" d.unit unit?
    let workPosition ← r.optional "work_position" d.workPosition position?
    let workOffset ← r.optional "work_offset" d.workOffset position?
    let limits ← r.optional "limits" d.limits fun t => t.limits?.map some
    let tools ← r.optional "tools" d.tools toolSlots?
    return { unit, workPosition, workOffset, limits, tools }

end Toml

/-- Reads a machine; `none` if the text is no document of one. -/
def Machine.ofText? (text : String) : Option (Machine Float) :=
  (Toml.read? text).bind fun entries => Toml.machine? (.table entries)

end PartProgram
