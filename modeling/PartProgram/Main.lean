import PartProgram.Command.Run

/-!
The program on a real file system.
-/

namespace PartProgram

/-- The code and the text of an error of the operating system. -/
def FileFault.ofError : IO.Error → FileFault
  | .noFileOrDirectory _ _ _ => .noSuchPath
  | .inappropriateType _ 21 _ => .isDirectory
  | .inappropriateType _ 20 _ => .notDirectory
  | .inappropriateType _ code text | .permissionDenied _ code text
  | .resourceExhausted _ code text | .resourceBusy code text | .otherError code text
  | .invalidArgument _ code text | .alreadyExists _ code text =>
    .other s!"{text} (os error {code})"
  | e => .other e.toString

/-- The error means that no file can be at the path: a part of it is missing or no directory, a name
is too long, or links lead in a circle. -/
def isAbsence : IO.Error → Bool
  | .noFileOrDirectory .. => true
  | .inappropriateType _ code _ => code == 20
  | .invalidArgument _ code _ => code == 36 || code == 40
  | _ => false

/-- Reads a file. -/
def readPath (path : String) : IO FileContent := do
  try
    let file ← IO.FS.Handle.mk path .read
    match String.fromUTF8? (← file.readBinToEnd) with
    | some text => return .text text
    | none => return .unreadable .notUnicode
  catch e => return if isAbsence e then .absent else .unreadable (.ofError e)

/-- Writes a file. -/
def writePath (path text : String) : IO (Option FileFault) := do
  try
    IO.FS.writeFile path text
    return none
  catch e => return some (.ofError e)

/-- The user's directory for settings. -/
def settingsDirectory? : IO (Option String) := do
  match ← IO.getEnv "XDG_CONFIG_HOME" with
  | some directory =>
    if directory.startsWith "/" then return some directory
  | none => pure ()
  return ((← IO.getEnv "HOME").filter (!·.isEmpty)).map (· ++ "/.config")

end PartProgram

open PartProgram

def main (arguments : List String) : IO UInt32 := do
  let directory ← settingsDirectory?
  let files : Files IO :=
    { read := readPath
      write := writePath
      userSettings := directory.map (· ++ "/gcodemorph/config.toml") }
  let report := Report.ofRun (← Invocation.run files arguments)
  IO.print report.output
  IO.eprint report.errors
  return report.code.toUInt32
