import PartProgram.Block.Reading
import PartProgram.Edit.Mirror
import PartProgram.Pass

/-!
Shifting a program. Absolute coordinates are shifted one by one; a relative program is shifted by its
first rapid moves, and gets a rapid move of its own if it has none that can carry the shift.
-/

namespace PartProgram

variable {α : Type}

/-- Where the move that carries the shift of a relative program goes. -/
structure OffsetSlot where
  /-- The line in front of which the move is inserted. -/
  line : Nat
  /-- The move has to select relative distances itself. -/
  selectsRelative : Bool
  deriving DecidableEq, Repr

/-- The shifts that no line has carried yet. -/
structure Pending where
  x : Bool
  y : Bool
  deriving DecidableEq, Repr

namespace Block

/-- The line may carry a shift. -/
def mayShift (b : Block α) : Bool := b.isEditable && !b.afterEnd

/-- A relative rapid move with Z: the tool is lifted. -/
def isRetract (b : Block α) : Bool :=
  b.mayShift && !b.absolute && b.motion == .rapid && b.z.isSome

/-- A rapid move to a point of the plane. -/
def isPositioning (b : Block α) : Bool := b.motion == .rapid && b.x.isSome && b.y.isSome

/-- A relative rapid move in the plane, which can carry a pending shift. -/
def carriesShift (b : Block α) (pending : Pending) : Bool :=
  !b.afterEnd && b.motion == .rapid && b.hasXY && (pending.x || pending.y)

end Block

/-- The lines reach a positioning move before they cut. -/
def positionsFirst : List (Block α) → Bool
  | [] => false
  | b :: bs =>
    if b.isPositioning then true else if b.motion.isEngaged then false else positionsFirst bs

/-- The slot for the move that a shift needs, if it needs one: after the first retract, unless the
lines after it position the tool anyway; without a retract, at the first relative coordinates. -/
def offsetSlot (lines : List (Block α)) : Option OffsetSlot :=
  match lines.findIdx? Block.isRetract with
  | some n => if positionsFirst (lines.drop (n + 1)) then none else some ⟨n + 1, false⟩
  | none =>
    (lines.findIdx? fun b => b.mayShift && !b.absolute && b.hasCoordinates).map (⟨·, true⟩)

variable [Scalar α]

/-- The move for a slot, with the feed and spindle speed of the line before it. -/
def offsetMove (slot : OffsetSlot) (comment : String) (feed spindle : α) : Block α :=
  let text := (if slot.selectsRelative then "G91 G0 X0 Y0 " else "G0 X0 Y0 ") ++ comment
  let modal : Modal α := { (Modal.initial : Modal α) with absolute := false, feed, spindle }
  { (Block.read slot.line text modal).2 with modified := true }

namespace Block

/-- Shifts a block by `-delta`. -/
def shifted (delta : Point α) (pending : Pending) (b : Block α) : Pending × Block α :=
  if b.absolute then
    if b.hasXY then
      ({ x := pending.x && (b.x.isNone || b.afterEnd)
         y := pending.y && (b.y.isNone || b.afterEnd) },
        { b with
          axes := (b.axes.set .x (b.x.map (· - delta.x))).set .y (b.y.map (· - delta.y))
          modified := true })
    else (pending, b)
  else if b.carriesShift pending then
    let axes := if pending.x then b.axes.set .x (some (b.x.getD 0 - delta.x)) else b.axes
    let axes := if pending.y then axes.set .y (some (b.y.getD 0 - delta.y)) else axes
    (⟨false, false⟩, { b with axes, modified := true })
  else (pending, b)

end Block

namespace Program

/-- The program with the move for its slot, if it has relative distances and needs one. After a move
that selects relative distances the next line is written anew, because it may rely on the motion
that the move replaces. -/
def withOffsetMove (p : Program α) (comment : String) : Program α :=
  let lines := p.lines
  match if p.containsRelative then offsetSlot lines else none with
  | none => p
  | some slot =>
    let before := lines[Nat.min (slot.line - 1) (lines.length - 1)]?
    let feed := before.elim 0 (·.feed)
    let spindle := before.elim 0 (·.spindle)
    let p := p.insertLine slot.line (offsetMove slot comment feed spindle)
    if slot.selectsRelative then
      { p with
        entries := p.entries.modify (slot.line + 1) fun e =>
          { e with line := { e.line with modified := true } } }
    else p

/-- Shifts the lines by `-delta`. -/
def shiftLines (p : Program α) (delta : Point α) : Program α :=
  let (_, entries) := pass (fun pending (e : Entry α) =>
    if e.line.isEditable then
      let (pending, line) := e.line.shifted delta pending
      (pending, { e with line })
    else (pending, e)) (⟨true, true⟩ : Pending) p.entries
  { p with entries }

/-- The program shifted by `-delta`, not yet placed. -/
def shift (p : Program α) (delta : Point α) (comment : String) : Program α :=
  (p.withOffsetMove comment).shiftLines delta

end Program

end PartProgram
