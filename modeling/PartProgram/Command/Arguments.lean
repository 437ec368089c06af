import PartProgram.Command.Grammar
import PartProgram.Number.Width
import PartProgram.Conversion

/-!
What the program can be asked for, and how it is asked: options for all commands, the input, the name
of a command, and the arguments of that command.
-/

namespace PartProgram

/-- What is to be done with the input. -/
inductive Request where
  | convert (c : Conversion Float)
  /-- Follows the height map in a file. -/
  | follow (path : String)
  | nearest (point : Point Float) (landmark : Option String)
  | figure (number : Nat)
  | locate (line : Nat)
  | info
  | trace (figure : Option Nat) (map : Option String)

/-- Paths of files, and what is to be done. -/
structure Invocation where
  input : String
  output : Option String
  settings : Option String
  machine : Option String
  request : Request

namespace Argument

/-- Paths are not empty. -/
def isPath (text : String) : Bool := !text.isEmpty

def axis? : String → Option MirrorAxis
  | "x" => some .x
  | "y" => some .y
  | _ => none

/-- Decimal digits with an optional sign. -/
def integer? (text : String) : Option Int :=
  let (negative, digits) := Decimal.splitSign text.toList
  if digits.isEmpty || !digits.all Char.isDigit then none
  else
    let n : Int := Decimal.valueOf digits
    some (if negative then -n else n)

/-- The number of a figure. -/
def figure? (text : String) : Option Nat :=
  ((integer? text).filter (fitsUnsigned 32)).map Int.toNat

/-- The number of a line. It has no minus sign, even if it is zero. -/
def line? (text : String) : Option Nat :=
  if text.toList.head? == some '-' then none
  else ((integer? text).filter (fitsUnsigned 64)).map Int.toNat

def isNumber (text : String) : Bool := (readFloat? text).isSome

/-- An operand that is a number of either sign. -/
def signedNumber : Operand := { accepts := isNumber, takesHyphen := true }

def path : Operand := { accepts := isPath }

end Argument

open Argument

/-- A command with the arguments it takes, and what they ask for. -/
structure CommandForm where
  name : String
  operands : List Operand := []
  options : List OptionWord := []
  request? : Scan → Option Request

namespace Scan

/-- The number given for an option. -/
def number (s : Scan) (name : String) (missing : Float) : Float :=
  ((s.options.lookup name).bind readFloat?).getD missing

end Scan

namespace CommandForm

/-- A command without arguments. -/
def plain (name : String) (request : Request) : CommandForm :=
  { name, request? := fun _ => some request }

def mirror : CommandForm where
  name := "mirror"
  operands := [{ accepts := fun s => (axis? s).isSome }]
  request? s := match s.operands with
    | [axis] => (axis? axis).map fun axis => .convert (.mirror axis)
    | _ => none

def rotate : CommandForm where
  name := "rotate"
  operands := [signedNumber]
  options := [
    { name := "scale", accepts := isNumber },
    { name := "pivot-x", accepts := isNumber, takesHyphen := true },
    { name := "pivot-y", accepts := isNumber, takesHyphen := true }]
  request? s := match s.operands with
    | [angle] => (readFloat? angle).map fun degrees =>
      let pivot : Point Float := ⟨s.number "pivot-x" 0, s.number "pivot-y" 0⟩
      .convert (.rotate { degrees, scale := s.number "scale" 1, pivot })
    | _ => none

def scale : CommandForm where
  name := "scale"
  operands := [{ accepts := isNumber }, { accepts := isNumber }]
  request? s := match s.operands with
    | [x, y] => do some (.convert (.stretch (← readFloat? x) (← readFloat? y)))
    | _ => none

def offset : CommandForm where
  name := "offset"
  operands := [signedNumber, signedNumber]
  options := [{ name := "anchor", accepts := fun s => (Anchor.ofName? s).isSome }]
  request? s := match s.operands with
    | [x, y] => do
      let anchor := ((s.options.lookup "anchor").bind Anchor.ofName?).getD .center
      some (.convert (.offset anchor (← readFloat? x) (← readFloat? y)))
    | _ => none

def heightMap : CommandForm where
  name := "height-map"
  operands := [path]
  request? s := s.operands.head?.map .follow

def nearest : CommandForm where
  name := "nearest"
  operands := [signedNumber, signedNumber]
  options := [{ name := "landmark", accepts := isPath }]
  request? s := match s.operands with
    | [x, y] => do
      some (.nearest ⟨← readFloat? x, ← readFloat? y⟩ (s.options.lookup "landmark"))
    | _ => none

def figure : CommandForm where
  name := "figure"
  operands := [{ accepts := fun s => (figure? s).isSome }]
  request? s := (s.operands.head?.bind figure?).map .figure

def locate : CommandForm where
  name := "locate"
  operands := [{ accepts := fun s => (line? s).isSome }]
  request? s := (s.operands.head?.bind line?).map .locate

def trace : CommandForm where
  name := "trace"
  options := [
    { name := "figure", accepts := fun s => (figure? s).isSome },
    { name := "height-map", accepts := isPath }]
  request? s :=
    some (.trace ((s.options.lookup "figure").bind figure?) (s.options.lookup "height-map"))

/-- All commands. -/
def all : List CommandForm :=
  [plain "render" (.convert .render), mirror, rotate, scale, offset,
    plain "linearize" (.convert .linearize), plain "drop-z" (.convert .dropZ), heightMap, nearest,
    figure, locate, plain "info" .info, trace]

/-- What every command offers. -/
def helpFlag : Flag := ⟨"help", 'h', .help⟩

def grammar (c : CommandForm) : Grammar :=
  { operands := c.operands, options := c.options, flags := [helpFlag] }

end CommandForm

/-- The word that asks for help where a command is expected. -/
def helpWord : String := "help"

namespace Invocation

/-- The arguments in front of the command. -/
def grammar : Grammar where
  operands := [path]
  options := [
    { name := "output", letter := some 'o', accepts := isPath },
    { name := "config", letter := some 'c', accepts := isPath },
    { name := "machine", letter := some 'm', accepts := isPath }]
  flags := [CommandForm.helpFlag, ⟨"version", 'V', .version⟩]
  commands := helpWord :: CommandForm.all.map (·.name)

/-- What follows the word for help: nothing, or the word or command that help is wanted on. -/
def readHelp : List String → EarlyEnd
  | [] => .help
  | [topic] => if grammar.commands.contains topic then .help else .usage
  | _ => .usage

/-- Reads the name of a command and its arguments, which take up all that is left. -/
def readCommand : List String → Except EarlyEnd Request
  | [] => .error .usage
  | name :: rest =>
    match CommandForm.all.find? (·.name == name) with
    | none => .error (if name = helpWord then readHelp rest else .usage)
    | some command => do
      let (s, _) ← command.grammar.scan {} rest
      match if command.grammar.isComplete s then command.request? s else none with
      | some request => .ok request
      | none => .error .usage

/-- Reads the arguments of the program. -/
def read (arguments : List String) : Except EarlyEnd Invocation := do
  let (s, rest) ← grammar.scan {} arguments
  let request ← readCommand rest
  match s.operands with
  | [input] =>
    .ok {
      input
      output := s.options.lookup "output"
      settings := s.options.lookup "config"
      machine := s.options.lookup "machine"
      request }
  | _ => .error .usage

end Invocation

end PartProgram
