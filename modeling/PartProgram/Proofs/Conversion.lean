import PartProgram.Conversion
import PartProgram.Number.Floating

/-! # Conversions that are refused

A conversion is refused for the first of its numbers that is out of range. The program has been loaded by then and
stays as it was read. The pivot of a rotation is not looked at: whatever it is, the rotation is carried out.
-/

namespace PartProgram

/-- What a number that somebody gives has to be. -/
inductive Demand where
  | finite
  | positive
  deriving DecidableEq, Repr

/-- A number that a conversion is carried out with. -/
structure Argument (α : Type) where
  name : String
  demand : Demand
  value : α

variable {α : Type} [Scalar α]

namespace Argument

/-- The number is what it has to be. -/
def isSound (a : Argument α) : Bool :=
  match a.demand with
  | .finite => Scalar.isFinite a.value
  | .positive => Scalar.isFinite a.value && decide (0 < a.value)

/-- What is said about a number that is out of range. -/
def failure (a : Argument α) : Failure α :=
  match a.demand with
  | .finite => .notFinite a.name
  | .positive => .notPositive a.name a.value

/-- Refuses a number that is out of range. -/
def check (a : Argument α) : Except (Failure α) Unit := if a.isSound then .ok () else .error a.failure

theorem checkFinite_eq (name : String) (value : α) :
    Conversion.checkFinite name value = check ⟨name, .finite, value⟩ := rfl

theorem checkPositive_eq (name : String) (value : α) :
    Conversion.checkPositive name value = check ⟨name, .positive, value⟩ := rfl

/-- Of two numbers that are checked one after the other the first that is out of range is refused. -/
theorem check_check (a b : Argument α) :
    (do a.check; b.check) = ([a, b].find? (!·.isSound)).elim (.ok ()) (.error ·.failure) := by
  rw [List.find?_cons, List.find?_singleton, check, check]
  cases a.isSound <;> cases b.isSound <;> rfl

end Argument

namespace Conversion

/-- The numbers that are checked, in the order of the checks. -/
def checked : Conversion α → List (Argument α)
  | rotate s => [⟨"angle", .finite, s.degrees⟩, ⟨"scale", .positive, s.scale⟩]
  | stretch x y => [⟨"x percent", .positive, x⟩, ⟨"y percent", .positive, y⟩]
  | offset _ x y => [⟨"x", .finite, x⟩, ⟨"y", .finite, y⟩]
  | _ => []

/-- The numbers that are not. -/
def unchecked : Conversion α → List (Argument α)
  | rotate s => [⟨"pivot x", .finite, s.pivot.x⟩, ⟨"pivot y", .finite, s.pivot.y⟩]
  | _ => []

/-- All numbers of the conversion itself. -/
def arguments (c : Conversion α) : List (Argument α) := c.checked ++ c.unchecked

theorem check_eq (c : Conversion α) :
    c.check = (c.checked.find? (!·.isSound)).elim (.ok ()) (.error ·.failure) := by
  cases c with
  | rotate s =>
      rw [check, Argument.checkFinite_eq, Argument.checkPositive_eq, Argument.check_check]
      rfl
  | stretch x y =>
      rw [check, Argument.checkPositive_eq, Argument.checkPositive_eq, Argument.check_check]
      rfl
  | offset anchor x y =>
      rw [check, Argument.checkFinite_eq, Argument.checkFinite_eq, Argument.check_check]
      rfl
  | render | mirror | linearize | dropZ | heightMap => rfl

/-- The conversion is refused for its first number out of range and carried out if there is none. -/
theorem run_eq (c : Conversion α) (s : Session α) (text : String) :
    c.run s text = match c.checked.find? (!·.isSound) with
      | some a => (s.load text, .error a.failure)
      | none => ((c.perform (s.load text)).1, .ok (c.perform (s.load text)).2) := by
  rw [run, check_eq]
  cases c.checked.find? (!·.isSound) <;> rfl

/-- A conversion is refused if a number that it checks is out of range, for the first such number, and the session
then holds the program just as it was read. Otherwise it is carried out. A pivot that is out of range thus goes
unnoticed, unless the angle or the scale is out of range as well. -/
theorem run_spec (c : Conversion α) (s : Session α) (text : String) :
    let refused := ∃ failure, (c.run s text).2 = .error failure
    (refused ↔ ∃ a ∈ c.checked, a.isSound = false) ∧
    (∀ failure, (c.run s text).2 = .error failure →
      (∃ before a after, c.checked = before ++ a :: after ∧ (∀ b ∈ before, b.isSound) ∧ a.isSound = false ∧
        failure = a.failure) ∧
      (c.run s text).1 = { s with program := .read text s.settings s.machine, selectedFigure := none }) ∧
    (¬refused → c.run s text = ((c.perform (s.load text)).1, .ok (c.perform (s.load text)).2)) ∧
    ((refused ↔ ∃ a ∈ c.arguments, a.isSound = false) ↔
      ((∃ a ∈ c.unchecked, a.isSound = false) → ∃ a ∈ c.checked, a.isSound = false)) := by
  intro refused
  have hrefused : refused ↔ ∃ a ∈ c.checked, a.isSound = false := by
    have hfind : (∃ a, c.checked.find? (!·.isSound) = some a) ↔ ∃ a ∈ c.checked, a.isSound = false := by
      rw [← Option.isSome_iff_exists, List.find?_isSome]
      simp
    rw [← hfind]
    simp only [refused, run_eq]
    cases c.checked.find? (!·.isSound) with
    | none => exact iff_of_false nofun nofun
    | some a => exact iff_of_true ⟨_, rfl⟩ ⟨_, rfl⟩
  refine ⟨hrefused, ?_, ?_, ?_⟩
  · intro failure hfailure
    rw [run_eq] at hfailure ⊢
    cases hfind : c.checked.find? (!·.isSound) with
    | none => simp [hfind] at hfailure
    | some a =>
        obtain ⟨hsound, before, after, hchecked, hbefore⟩ := List.find?_eq_some_iff_append.mp hfind
        have hof : failure = a.failure := by simpa [hfind] using hfailure.symm
        exact ⟨⟨before, a, after, hchecked, by simpa using hbefore, by simpa using hsound, hof⟩, rfl⟩
  · intro hdone
    have hfind : c.checked.find? (!·.isSound) = none := by
      rw [List.find?_eq_none]
      intro a ha hsound
      exact hdone (hrefused.mpr ⟨a, ha, by simpa using hsound⟩)
    rw [run_eq, hfind]
  · simp only [hrefused, arguments, List.mem_append, or_and_right, exists_or]
    exact ⟨fun h hunchecked => h.mpr (.inr hunchecked), fun h => ⟨.inl, Or.rec id h⟩⟩

/-- An undefined pivot is not refused. -/
example :
    let undefined : Float := .ofBits 0x7FF8000000000000
    let c : Conversion Float := .rotate ⟨90, 1, ⟨undefined, 0⟩⟩
    c.checked.all (·.isSound) ∧ ¬c.arguments.all (·.isSound) := by
  decide +kernel

end Conversion

end PartProgram
