import PartProgram.Edit.Anchor
import PartProgram.Edit.Heights
import PartProgram.Edit.Mirror
import PartProgram.Edit.Offset
import PartProgram.Edit.Scaling
import PartProgram.Program.Listing
import PartProgram.Program.Placing
import PartProgram.Settings

/-!
Edits of a program. An edit changes the words of lines that may be edited; subroutine lines are
changed once, where they are defined, and their copies follow.
-/

namespace PartProgram

inductive Edit (α : Type) where
  | mirror (axis : MirrorAxis)
  | turn (similarity : Similarity α)
  | stretch (xPercent yPercent : α)
  /-- Shifts the program so that the anchor of its extent comes to lie on `-extra`. -/
  | offset (anchor : Anchor) (extra : Point α)
  | dropZ
  | follow (surface : Surface α)

variable {α : Type}

namespace Edit

def name : Edit α → String
  | mirror _ => "mirror"
  | turn _ => "rotate_scale"
  | stretch _ _ => "scale_axes"
  | offset _ _ => "offset"
  | dropZ => "drop_z"
  | follow _ => "height_correct"

variable [Scalar α]

/-- The program with its words changed. Following a surface changes no line: it writes another
program. -/
def change (edit : Edit α) (p : Program α) (settings : Settings α) : Program α :=
  match edit with
  | mirror axis => p.mirror axis
  | turn similarity => p.turn similarity
  | stretch x y => p.stretch (x / 100) (y / 100)
  | offset anchor extra =>
    p.shift (anchor.point p.extent + extra) settings.markers.offsetMoveComment
  | dropZ => p.dropZ
  | follow _ => p

/-- Carries out an edit: the program it leaves, placed again, and the text of the result. A program
without lines stays without text. -/
def apply (edit : Edit α) (p : Program α) (settings : Settings α) (machine : Machine α) :
    Program α × String :=
  if p.isEmpty then (p, "")
  else match edit with
    | follow surface =>
      let places := settings.format.decimalPlaces
      (p, listing settings.format (p.following surface places machine))
    | _ =>
      let p := (edit.change p settings).place machine
      (p, p.text settings.format)

end Edit

end PartProgram
