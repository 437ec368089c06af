import PartProgram.Block.Reading
import PartProgram.Pass
import PartProgram.Program.Basic
import PartProgram.Settings

/-!
Subroutine calls. A body is named by the `O` word of the line before it and runs up to the next line
with `M99`. A call is replaced by copies of the body's lines, each read again under the modal state
in effect there, so that modes flow into the body and out of it.
-/

namespace PartProgram

/-- Whether the line is in a hidden section, given whether the line before it was. The line with the
start marker is hidden, the one with the stop marker is not. -/
def Markers.hides (markers : Markers) (hidden : Bool) (line : String) : Bool :=
  if Markers.onLine markers.hideStart line then true
  else if Markers.onLine markers.hideStop line then false
  else hidden

/-- The lines `start`, …, `stop - 1`. -/
structure Body where
  start : Nat
  stop : Nat
  deriving DecidableEq, Repr

def Body.lines (b : Body) : List Nat := List.range' b.start (b.stop - b.start)

/-- The lines of a program that name subroutine bodies, and those that end them. -/
structure Landmarks where
  /-- Lines with their `O` word. -/
  labels : List (Nat × Nat)
  /-- Lines with `M99`. -/
  returns : List Nat
  deriving DecidableEq, Repr

/-- The body found by the last successful search, with its name. -/
abbrev Found := Option (Nat × Body)

namespace Landmarks

variable (α : Type) [Scalar α] in
/-- Labels and returns do not depend on modal state, so each line is read on its own. -/
def ofLines (lines : List String) : Landmarks :=
  let blocks := lines.mapIdx fun n line => (Block.read n line (Modal.initial : Modal α)).2
  { labels := blocks.filterMap fun b => b.label.map (b.number, ·)
    returns := (blocks.filter (·.returns)).map (·.number) }

/-- The body of the first label with this name on line `start` or later. -/
def search (marks : Landmarks) (id start : Nat) : Option Body :=
  (marks.labels.find? fun (line, label) => label == id && start ≤ line).bind fun (line, _) =>
    (marks.returns.find? (line < ·)).map fun stop => ⟨line + 1, stop⟩

/-- The body that a call on line `line` runs. The body found last is taken again if it has the same
name; otherwise the lines after the call are searched and, if the rules say so, the whole program.
Gives also what is found last from then on. -/
def locate (marks : Landmarks) (rules : CallRules) (found : Found) (id line : Nat) :
    Found × Option Body :=
  let search (_ : Unit) : Option Body :=
    (marks.search id (line + 1)).or (if rules.rescan then marks.search id 0 else none)
  match found with
  | some (last, body) =>
    if last = id then (found, some body)
    else match search () with
      | some body => (some (id, body), some body)
      | none => (found, none)
  | none => match search () with
    | some body => (some (id, body), some body)
    | none => (none, none)

end Landmarks

/-- A program text with what is needed to inline its subroutines. -/
structure Source where
  lines : Array String
  marks : Landmarks
  rules : CallRules
  markers : Markers

/-- What is carried along while a program is read. -/
structure Reader (α : Type) where
  modal : Modal α
  found : Found

variable {α : Type} [Scalar α]

/-- How a call met in a body is replaced: the call, its line, and whether that line is hidden. -/
abbrev Inlining (α : Type) := Call → Nat → Bool → Reader α → Reader α × List (Copy α)

namespace Source

variable (α) in
def ofLines (lines : List String) (rules : CallRules) (markers : Markers) : Source :=
  ⟨lines.toArray, Landmarks.ofLines α lines, rules, markers⟩

/-- Copies one line of a body, with what a call on it brings along. The flag of the state says
whether a section of the body is being hidden. -/
def copyLine (s : Source) (nested : Inlining α) (callHidden : Bool) (state : Bool × Reader α)
    (definition : Nat) : (Bool × Reader α) × List (Copy α) :=
  let (concealed, reader) := state
  let text := s.lines.getD definition ""
  let concealed := s.markers.hides concealed text
  let hidden := concealed || callHidden
  let (modal, block) := Block.read definition text reader.modal
  let copy : Copy α := ⟨definition, { block with inlined := true, hidden }⟩
  let reader := { reader with modal }
  match block.call with
  | none => ((concealed, reader), [copy])
  | some call =>
    let (reader, copies) := nested call definition hidden reader
    ((concealed, reader), copy :: copies)

/-- Copies a body once. -/
def copyBody (s : Source) (nested : Inlining α) (callHidden : Bool) (body : Body)
    (reader : Reader α) : Reader α × List (Copy α) :=
  let ((_, reader), copies) := pass (s.copyLine nested callHidden) (false, reader) body.lines
  (reader, copies.flatten)

/-- Replaces a call by copies of its body, and the calls in the body as `nested` does. A call without
a body is replaced by nothing. -/
def inlineWith (s : Source) (nested : Inlining α) : Inlining α := fun call line hidden reader =>
  let (found, body?) := s.marks.locate s.rules reader.found call.id line
  let reader := { reader with found }
  match body? with
  | none => (reader, [])
  | some body =>
    let (reader, runs) := pass (fun reader _ => s.copyBody nested hidden body reader) reader
      (List.range call.times)
    (reader, runs.flatten)

/-- Replaces a call by copies of its body. Calls in the body are replaced too, `depth` levels down;
a call below the last level is replaced by nothing. -/
def inline (s : Source) : Nat → Inlining α
  | 0 => s.inlineWith fun _ _ _ reader => (reader, [])
  | depth + 1 => s.inlineWith (s.inline depth)

end Source

end PartProgram
