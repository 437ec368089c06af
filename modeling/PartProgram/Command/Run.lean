import PartProgram.Command.Arguments
import PartProgram.Json.Answer
import PartProgram.Toml.Machine

/-!
Running the program. Files are reached through `Files`, so that a run can be carried out on a real
file system or on any other.
-/

namespace PartProgram

/-- What is found at a path. -/
inductive FileContent where
  | absent
  | text (s : String)
  | unreadable (fault : FileFault)
  deriving DecidableEq, Repr

/-- Access to files. -/
structure Files (m : Type → Type) where
  read : String → m FileContent
  /-- Gives what was wrong if the file could not be written. -/
  write : (path text : String) → m (Option FileFault)
  /-- Where a user keeps settings. -/
  userSettings : Option String

/-- What a run has led to. -/
inductive Outcome where
  | printed (text : String)
  | written (path : String)
  deriving DecidableEq, Repr

/-- Why a run has led to nothing. -/
inductive Stop where
  | early (e : EarlyEnd)
  | failed (f : Failure Float)

variable {m : Type → Type} [Monad m]

namespace Files

/-- The text of a file that has to be there. -/
def text (files : Files m) (path : String) : ExceptT (Failure Float) m String := do
  match ← files.read path with
  | .absent => throw (.fileNotFound path)
  | .text s => return s
  | .unreadable fault => throw (.file fault)

/-- The text of a file that may be missing. -/
def text? (files : Files m) (path : String) : ExceptT (Failure Float) m (Option String) := do
  match ← files.read path with
  | .absent => return none
  | _ => some <$> files.text path

/-- The settings of a text; the default ones without a text. -/
def readSettings : Option String → Except (Failure Float) (Settings Float)
  | none => .ok .default
  | some text => (Settings.ofText text).mapError .settings

/-- Settings from a given file, or from the user's file if there is one. -/
def settings (files : Files m) (path : Option String) :
    ExceptT (Failure Float) m (Settings Float) := do
  let text ← match path, files.userSettings with
    | some path, _ => some <$> files.text path
    | none, some path => files.text? path
    | none, none => pure none
  readSettings text

/-- The machine of a given file; the default one without a file. -/
def machine (files : Files m) : Option String → ExceptT (Failure Float) m (Machine Float)
  | none => return .default
  | some path => do
    match Machine.ofText? (← files.text path) with
    | some machine => return machine
    | none => throw (.machine path)

def heightMap (files : Files m) (path : String) : ExceptT (Failure Float) m (HeightMap Float) := do
  match HeightMap.ofText (← files.text path) with
  | .ok map => return map
  | .error e => throw (.heightMap e)

end Files

/-- Carries out a request on the text of the input. Questions are answered with a document. -/
def Request.answer (request : Request) (files : Files m) (session : Session Float) (text : String) :
    ExceptT (Failure Float) m String := do
  match request with
  | .convert c => (c.run session text).2
  | .follow path => (Conversion.run (.heightMap (← files.heightMap path)) session text).2
  | .nearest point landmark =>
    let landmark ← landmark.mapM files.text
    return (Json.ofHit (← (session.queryNearest text landmark point).2)).render 0
  | .figure number => return (Json.ofFigureLines (← (session.load text).queryFigure number)).render 0
  | .locate line => return (Json.ofCoordinate (← (session.load text).queryLine line)).render 0
  | .info => return (Json.ofInfo (session.load text).info).render 0
  | .trace only map =>
    let map ← map.mapM files.heightMap
    return (Json.ofDrawing (← (session.load text).queryTrace only map)).render 0

namespace Invocation

/-- Reads all files, answers the request, and writes the output file if one is wanted. -/
def perform (i : Invocation) (files : Files m) : ExceptT (Failure Float) m Outcome := do
  let settings ← files.settings i.settings
  let machine ← files.machine i.machine
  let text ← files.text i.input
  let answer ← i.request.answer files (.new settings machine) text
  match i.output with
  | none => return .printed answer
  | some path =>
    match ← files.write path answer with
    | none => return .written path
    | some fault => throw (.file fault)

/-- A run of the program with the given arguments. -/
def run (files : Files m) (arguments : List String) : m (Except Stop Outcome) := do
  match read arguments with
  | .error e => return .error (.early e)
  | .ok invocation => return (← (invocation.perform files).run).mapError .failed

end Invocation

/-- What a run shows: an exit code, and the texts for the output and for the error stream. -/
structure Report where
  code : Nat
  output : String := ""
  errors : String := ""
  deriving DecidableEq, Repr

namespace Report

def versionLine : String := "gcodemorph 0.1.0\n"

def usageLine : String := "Usage: gcodemorph [OPTIONS] <INPUT> <COMMAND>\n"

def helpText : String :=
  "Parse, transform and inspect G-code programs\n\n" ++ usageLine
    ++ "\nCommands: " ++ ", ".intercalate (CommandForm.all.map (·.name)) ++ "\n"
    ++ "Options: " ++ ", ".intercalate (Invocation.grammar.options.map ("--" ++ ·.name)) ++ "\n"

/-- An answer ends with a line end unless it is empty. -/
def endLine (text : String) : String :=
  if text.isEmpty || text.toList.getLast? == some '\n' then text else text ++ "\n"

def ofRun : Except Stop Outcome → Report
  | .ok (.printed text) => { code := 0, output := endLine text }
  | .ok (.written path) => { code := 0, errors := "Written to " ++ path ++ "\n" }
  | .error (.early .version) => { code := 0, output := versionLine }
  | .error (.early .help) => { code := 0, output := helpText }
  | .error (.early .usage) => { code := 2, errors := usageLine }
  | .error (.failed f) => { code := 1, errors := "Error: " ++ f.message ++ "\n" }

end Report

end PartProgram
