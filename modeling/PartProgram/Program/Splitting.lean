import PartProgram.Program.Basic

/-!
Cutting arcs and long moves into short straight ones. The pieces of a move end at points on it that
are evenly spaced; the last piece ends exactly where the move does.
-/

namespace PartProgram

variable {α : Type} [Scalar α]

/-- The displacement from `origin` counted in units of the last written place. -/
def Position.ticksFrom (origin : Position α) (places : Nat) (p : Position α) : Position α :=
  let unit : α := Scalar.scale places
  let d := p - origin
  ⟨Scalar.round (d.x * unit), Scalar.round (d.y * unit), Scalar.round (d.z * unit)⟩

/-- A displacement given in units of the last written place. -/
def Position.ofTicks (places : Nat) (t : Position α) : Position α :=
  let unit : α := Scalar.scale places
  ⟨t.x / unit, t.y / unit, t.z / unit⟩

/-- A move cut into `count` pieces; piece `k` ends at the point `points k`, for `k` from 1 on. -/
structure Cut (α : Type) where
  source : Block α
  count : Nat
  points : Nat → Position α
  /-- The decimal places that the pieces will be written with. -/
  places : Nat

namespace Cut

/-- The end of piece `k` counted in written units from the start of the move; zero for `k = 0`. -/
def ticks (c : Cut α) (k : Nat) : Position α :=
  if k = 0 then Position.origin
  else Position.ticksFrom c.source.place.origin c.places (c.points k)

/-- Where piece `k` ends. Relative pieces end where their written displacements lead; the last piece
ends where the move does, and piece 0 is its start. -/
def reached (c : Cut α) (k : Nat) : Position α :=
  if k = 0 then c.source.place.origin
  else if c.source.absolute || k == c.count then c.points k
  else c.source.place.origin + Position.ofTicks c.places (c.ticks k)

/-- What is written for piece `k`: the point itself, or the step from the piece before. -/
def written (c : Cut α) (k : Nat) : Position α :=
  if c.source.absolute then c.points k
  else Position.ofTicks c.places (c.ticks k - c.ticks (k - 1))

/-- The axes that the last piece takes over from the move. -/
def otherAxes : List Axis := [.a, .b, .c, .u, .v, .w]

/-- The axis words of piece `k`. Z is written if the move writes it or changes it. -/
def axes (c : Cut α) (k : Nat) : AxisWords α :=
  let w := c.written k
  let writesZ := c.source.z.isSome || c.source.place.target.z != c.source.place.origin.z
  let axes := (AxisWords.none.set .x (some w.x)).set .y (some w.y)
  let axes := if writesZ then axes.set .z (some w.z) else axes
  if k = c.count then
    otherAxes.foldl (fun axes axis => axes.set axis (c.source.axes.get axis)) axes
  else axes

/-- Piece `k`, a straight move with everything else taken from the source. Only the first piece
keeps the extra words. -/
def piece (c : Cut α) (k : Nat) : Block α :=
  { c.source with
    motion := .linear
    axes := c.axes k
    i := none
    j := none
    extra := if k = 1 then c.source.extra else {}
    place :=
      { c.source.place with origin := c.reached (k - 1), target := c.reached k, arc := none }
    modified := true }

/-- The pieces in order. -/
def pieces (c : Cut α) : List (Block α) := (List.range c.count).map fun k => c.piece (k + 1)

end Cut

namespace Block

/-- The move of an arc cut so that no chord is longer than `maxStep`; Z changes evenly. -/
def arcCut (b : Block α) (arc : Arc α) (maxStep : α) (places : Nat) : Cut α :=
  let count := arc.pieceCount maxStep
  let z₀ := b.place.origin.z
  let z₁ := b.place.target.z
  let points (k : Nat) : Position α :=
    if k = count then b.place.target
    else
      let t : α := Scalar.ofNat k / Scalar.ofNat count
      let p := arc.pointAt (arc.startAngle + arc.sweep * t)
      ⟨p.x, p.y, z₀ + (z₁ - z₀) * t⟩
  { source := b, count, points, places }

/-- Replaces an arc by chords; other blocks stay. -/
def flattenArc (b : Block α) (maxStep : α) (places : Nat) : List (Block α) :=
  match b.place.arc with
  | none => [b]
  | some arc => (b.arcCut arc maxStep places).pieces

/-- The length of the move in the plane. -/
def planarLength (b : Block α) : α := b.place.origin.xy.distance b.place.target.xy

/-- A straight move cut into equal parts that are no longer than `maxStep`. -/
def lineCut (b : Block α) (maxStep : α) (places : Nat) : Cut α :=
  let parts := Scalar.toNat (Scalar.ceil (b.planarLength / maxStep))
  let count := Nat.max 1 (Nat.min Arc.maxPieces parts)
  let a := b.place.origin
  let e := b.place.target
  let points (k : Nat) : Position α :=
    if k = count then e
    else
      let t : α := Scalar.ofNat k / Scalar.ofNat count
      ⟨a.x + (e.x - a.x) * t, a.y + (e.y - a.y) * t, a.z + (e.z - a.z) * t⟩
  { source := b, count, points, places }

/-- The block is a straight cut longer than a positive `maxStep`. -/
def isLong (b : Block α) (maxStep : α) : Bool :=
  b.motion == .linear && decide (0 < maxStep) && !decide (b.planarLength ≤ maxStep)

/-- Splits a long straight cut; other blocks stay. -/
def splitLine (b : Block α) (maxStep : α) (places : Nat) : List (Block α) :=
  if b.isLong maxStep then (b.lineCut maxStep places).pieces else [b]

/-- The block as straight moves: an arc is cut by `arcStep` and, when a `lineStep` is given, a long
straight cut by that. Blocks that must not be edited stay as they are. -/
def linearized (arcStep : α) (lineStep : Option α) (places : Nat) (b : Block α) :
    List (Block α) :=
  if !b.isEditable then [b]
  else if b.place.arc.isSome then b.flattenArc arcStep places
  else match lineStep with
    | some step => b.splitLine step places
    | none => [b]

end Block

end PartProgram
