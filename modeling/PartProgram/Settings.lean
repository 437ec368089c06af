import PartProgram.Number.Scalar
import PartProgram.Text.Blank
import PartProgram.Text.Lines
import PartProgram.Text.Upper

/-!
Settings of the program: how numbers are written, how fine arcs are cut, how subroutines are looked
up, and which comments mark sections of a program text.
-/

namespace PartProgram

/-- How numbers look on a line written anew. -/
structure NumberFormat where
  decimalPlaces : Nat := 3
  /-- Zeros at the end of the fraction are dropped. -/
  stripTrailingZeros : Bool := true
  /-- The zero before the point is dropped. -/
  leadingZeroSuppression : Bool := false
  deriving DecidableEq, Repr

/-- How subroutine calls are inlined. -/
structure CallRules where
  /-- A body that does not follow its call is searched from the top of the program. -/
  rescan : Bool := true
  /-- How deep calls may be nested. -/
  maxDepth : Nat := 8
  deriving DecidableEq, Repr

/-- Texts that mark lines of a program, whatever their case. -/
structure Markers where
  /-- Lines from this marker on are neither drawn nor changed. -/
  hideStart : String := "%START_HIDECODE"
  /-- Ends a hidden section. -/
  hideStop : String := "%STOP_HIDECODE"
  /-- Marks a line of the setup footer, which is never changed. -/
  setupFooter : String := "(Setup - GCode"
  /-- The comment on the move that an offset inserts. -/
  offsetMoveComment : String := "(offset move)"
  deriving DecidableEq, Repr

structure Settings (α : Type) where
  format : NumberFormat
  /-- The longest piece that an arc or a long move is cut into. -/
  maxStep : α
  calls : CallRules
  markers : Markers
  deriving BEq, DecidableEq

/-- The line contains the marker; case does not matter. -/
def Markers.onLine (marker line : String) : Bool :=
  Text.occursIn (Text.upper marker.toList) (Text.upper line.toList)

/-- What can be wrong with settings that are well-formed. -/
inductive SettingsFault where
  | decimalPlaces
  | maxStep
  | maxDepth
  | emptyMarker (name : String)
  deriving DecidableEq, Repr

def SettingsFault.message : SettingsFault → String
  | decimalPlaces => "format.decimal_places must be at most 10"
  | maxStep => "arcs.max_step must be a positive number"
  | maxDepth => "subroutines.max_depth must be at least 1"
  | emptyMarker name => s!"markers.{name} must not be empty"

variable {α : Type} [Scalar α]

namespace Settings

def default : Settings α := ⟨{}, 1, {}, {}⟩

/-- The first marker that holds nothing but white space. -/
def emptyMarker? (m : Markers) : Option String :=
  [("hide_start", m.hideStart), ("hide_stop", m.hideStop), ("setup_footer", m.setupFooter),
    ("offset_move_comment", m.offsetMoveComment)].findSome? fun (name, value) =>
      if (Text.trim value.toList).isEmpty then some name else none

/-- The first fault, in the order of the sections. -/
def fault? (s : Settings α) : Option SettingsFault :=
  if 10 < s.format.decimalPlaces then some .decimalPlaces
  else if !(Scalar.isFinite s.maxStep && decide (0 < s.maxStep)) then some .maxStep
  else if s.calls.maxDepth = 0 then some .maxDepth
  else (emptyMarker? s.markers).map .emptyMarker

end Settings

end PartProgram
