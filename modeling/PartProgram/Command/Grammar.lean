/-!
Command arguments: options with a value, operands, and requests for help. Arguments are read from
left to right, and the first that makes no sense or asks for help ends the reading.
-/

namespace PartProgram

/-- Why the reading of arguments ended early. -/
inductive EarlyEnd where
  /-- The arguments make no sense. -/
  | usage
  | help
  | version
  deriving DecidableEq, Repr

/-- An argument known by its place. -/
structure Operand where
  accepts : String → Bool
  /-- It may start with a hyphen, as negative numbers do. -/
  takesHyphen : Bool := false

/-- An argument known by its name, and followed by a value: `--name value` or `--name=value`, and with
a letter also `-n value`, `-nvalue` or `-n=value`. -/
structure OptionWord where
  name : String
  letter : Option Char := none
  accepts : String → Bool
  /-- The value may start with a hyphen. -/
  takesHyphen : Bool := false

/-- A request that takes no value. -/
structure Flag where
  name : String
  letter : Char
  meaning : EarlyEnd

/-- The arguments that a command takes. -/
structure Grammar where
  operands : List Operand := []
  options : List OptionWord := []
  flags : List Flag
  /-- Words at which the arguments of this command end and those of another begin. -/
  commands : List String := []

/-- The forms that an argument can have. -/
inductive ArgumentForm where
  /-- Two hyphens: all that follows is operands. -/
  | separator
  | long (name : String) (value : Option String)
  | short (letter : Char) (rest : List Char)
  | plain

def ArgumentForm.of (argument : String) : ArgumentForm :=
  match argument.toList with
  | ['-', '-'] => .separator
  | '-' :: '-' :: cs =>
    let name := String.ofList (cs.takeWhile (· ≠ '='))
    match cs.dropWhile (· ≠ '=') with
    | [] => .long name none
    | _ :: value => .long name (some (String.ofList value))
  | '-' :: c :: cs => .short c cs
  | _ => .plain

/-- The arguments read so far. -/
structure Scan where
  operands : List String := []
  options : List (String × String) := []
  /-- An option that has been named and still lacks its value. -/
  waiting : Option OptionWord := none
  /-- Everything that follows is an operand. -/
  literal : Bool := false

/-- Gives an option its value. An option is not given twice. -/
def Scan.setOption (s : Scan) (option : OptionWord) (value : String) : Except EarlyEnd Scan :=
  if (s.options.lookup option.name).isSome || !option.accepts value then .error .usage
  else .ok { s with options := s.options ++ [(option.name, value)], waiting := none }

/-- The reading of an option goes on with its value. -/
def Scan.await (s : Scan) (option : OptionWord) : Scan := { s with waiting := some option }

namespace Grammar

/-- Takes an argument as the next operand. -/
def addOperand (g : Grammar) (s : Scan) (argument : String) : Except EarlyEnd Scan :=
  match g.operands[s.operands.length]? with
  | none => .error .usage
  | some operand =>
    if operand.accepts argument then .ok { s with operands := s.operands ++ [argument] }
    else .error .usage

def knowsName (g : Grammar) (name : String) : Bool :=
  g.options.any (·.name == name) || g.flags.any (·.name == name)

def knowsLetter (g : Grammar) (c : Char) : Bool :=
  g.options.any (·.letter == some c) || g.flags.any (·.letter == c)

/-- The argument is a value: it starts with no hyphen, or it names no option or flag and the next
operand may start with a hyphen. -/
def isValue (g : Grammar) (s : Scan) (argument : String) : Bool :=
  let nextTakesHyphen := g.operands[s.operands.length]?.any (·.takesHyphen)
  match ArgumentForm.of argument with
  | .plain => true
  | .separator => false
  | .long name _ => nextTakesHyphen && !g.knowsName name
  | .short c cs => nextTakesHyphen && !(c :: cs).all g.knowsLetter

/-- Takes an argument that starts with a hyphen and is no value. -/
def readName (g : Grammar) (s : Scan) : ArgumentForm → Except EarlyEnd Scan
  | .separator => .ok { s with literal := true }
  | .plain => .error .usage
  | .long name value =>
    match g.options.find? (·.name == name), value with
    | some option, some value => s.setOption option value
    | some option, none => .ok (s.await option)
    | none, some _ => .error .usage
    | none, none => .error ((g.flags.find? (·.name == name)).elim .usage (·.meaning))
  | .short c cs =>
    match g.options.find? (·.letter == some c), cs with
    | some option, [] => .ok (s.await option)
    | some option, '=' :: value => s.setOption option (String.ofList value)
    | some option, value => s.setOption option (String.ofList value)
    | none, _ => .error ((g.flags.find? (·.letter == c)).elim .usage (·.meaning))

/-- Takes one argument. -/
def step (g : Grammar) (s : Scan) (argument : String) : Except EarlyEnd Scan :=
  match s.waiting with
  | some option =>
    if option.takesHyphen || g.isValue s argument then s.setOption option argument
    else .error .usage
  | none =>
    if s.literal || g.isValue s argument then g.addOperand s argument
    else g.readName s (ArgumentForm.of argument)

/-- Takes arguments up to a word that starts another command; gives also that word and what follows
it. -/
def scan (g : Grammar) (s : Scan) : List String → Except EarlyEnd (Scan × List String)
  | [] => .ok (s, [])
  | argument :: rest =>
    if g.commands.contains argument && s.waiting.isNone && !s.literal then
      .ok (s, argument :: rest)
    else
      match g.step s argument with
      | .ok s => g.scan s rest
      | .error e => .error e

/-- All operands are there, and no option lacks its value. -/
def isComplete (g : Grammar) (s : Scan) : Bool :=
  s.waiting.isNone && s.operands.length == g.operands.length

end Grammar

end PartProgram
