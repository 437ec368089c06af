import PartProgram.Json.HeightMap
import PartProgram.Number.Scalar
import PartProgram.Toml.Settings

/-!
What can go wrong when the program is asked for something, and what is said about it.
-/

namespace PartProgram

/-- Why a file that is there cannot be read, or why one cannot be written. -/
inductive FileFault where
  | notUnicode
  | isDirectory
  | noSuchPath
  | notDirectory
  | other (text : String)
  deriving DecidableEq, Repr

def FileFault.message : FileFault → String
  | notUnicode => "stream did not contain valid UTF-8"
  | isDirectory => "Is a directory (os error 21)"
  | noSuchPath => "No such file or directory (os error 2)"
  | notDirectory => "Not a directory (os error 20)"
  | other text => text

inductive Failure (α : Type) where
  /-- An input file is not there. -/
  | fileNotFound (path : String)
  | file (fault : FileFault)
  | settings (error : SettingsError)
  /-- The file at `path` describes no machine. -/
  | machine (path : String)
  | heightMap (error : MapError)
  | notPositive (argument : String) (value : α)
  | notFinite (argument : String)
  | noCoordinates
  | noFigure (figure : Nat)
  | noPosition (line : Nat)

namespace Failure

variable {α : Type} [Scalar α]

def message : Failure α → String
  | fileNotFound path => "file not found: " ++ path
  | file fault => fault.message
  | settings error => "config error: " ++ error.message
  | machine path => "machine snapshot " ++ path ++ ": " ++ Toml.malformedMessage
  | heightMap error => "height map error: " ++ error.message
  | notPositive argument value =>
    argument ++ " must be a positive number, got " ++ Scalar.text value
  | notFinite argument => argument ++ " must be finite"
  | noCoordinates => "program has no coordinates"
  | noFigure figure => s!"figure {figure} not found"
  | noPosition line => s!"line {line} has no position"

end Failure

end PartProgram
