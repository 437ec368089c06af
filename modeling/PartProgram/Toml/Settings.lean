import PartProgram.Settings
import PartProgram.Toml.Fields

/-!
Settings as documents: tables `format`, `arcs`, `subroutines` and `markers`. Whatever is missing has
its default.
-/

namespace PartProgram

/-- Why a text is no settings document. -/
inductive SettingsError where
  /-- The text is no document, or a setting has a value of the wrong kind. -/
  | malformed
  | fault (fault : SettingsFault)
  deriving DecidableEq, Repr

/-- What is said about a text that is no document, or not one of the kind asked for. -/
def Toml.malformedMessage : String := "TOML parse error: the text is not a document of this kind"

def SettingsError.message : SettingsError → String
  | malformed => Toml.malformedMessage
  | fault f => f.message

namespace Toml

def numberFormat? (t : Toml) : Option NumberFormat :=
  let names := ["decimal_places", "strip_trailing_zeros", "leading_zero_suppression"]
  (t.record? names).bind fun r => do
    let d : NumberFormat := {}
    let decimalPlaces ← r.optional "decimal_places" d.decimalPlaces count?
    let stripTrailingZeros ← r.optional "strip_trailing_zeros" d.stripTrailingZeros bool?
    let leadingZeroSuppression ←
      r.optional "leading_zero_suppression" d.leadingZeroSuppression bool?
    return { decimalPlaces, stripTrailingZeros, leadingZeroSuppression }

/-- The longest step of the `arcs` table. -/
def maxStep? (missing : Float) (t : Toml) : Option Float :=
  (t.record? ["max_step"]).bind fun r => r.optional "max_step" missing number?

def callRules? (t : Toml) : Option CallRules :=
  (t.record? ["rescan", "max_depth"]).bind fun r => do
    let d : CallRules := {}
    let rescan ← r.optional "rescan" d.rescan bool?
    let maxDepth ← r.optional "max_depth" d.maxDepth count?
    return { rescan, maxDepth }

def markers? (t : Toml) : Option Markers :=
  (t.record? ["hide_start", "hide_stop", "setup_footer", "offset_move_comment"]).bind fun r => do
    let d : Markers := {}
    let hideStart ← r.optional "hide_start" d.hideStart string?
    let hideStop ← r.optional "hide_stop" d.hideStop string?
    let setupFooter ← r.optional "setup_footer" d.setupFooter string?
    let offsetMoveComment ← r.optional "offset_move_comment" d.offsetMoveComment string?
    return { hideStart, hideStop, setupFooter, offsetMoveComment }

def settings? (t : Toml) : Option (Settings Float) :=
  (t.record? ["format", "arcs", "subroutines", "markers"]).bind fun r => do
    let d : Settings Float := .default
    let format ← r.optional "format" d.format numberFormat?
    let maxStep ← r.optional "arcs" d.maxStep (maxStep? d.maxStep)
    let calls ← r.optional "subroutines" d.calls callRules?
    let markers ← r.optional "markers" d.markers markers?
    return { format, maxStep, calls, markers }

end Toml

/-- Reads settings and checks them. -/
def Settings.ofText (text : String) : Except SettingsError (Settings Float) :=
  match (Toml.read? text).bind fun entries => Toml.settings? (.table entries) with
  | none => .error .malformed
  | some settings =>
    match settings.fault? with
    | some fault => .error (.fault fault)
    | none => .ok settings

end PartProgram
