import PartProgram.Proofs.Number.Exact
import PartProgram.Proofs.Plane.Map
import PartProgram.Proofs.Session

/-! # The nearest position

A search runs through the positions of the program and then through those of the landmark, moved by what the work
offset has changed since the landmark was set. It finds the first of the nearest ones. A landmark stays where it
is on the machine, whatever is loaded, edited or set up after it.
-/

namespace PartProgram

variable {α : Type}

/-! ### The first of the nearest hits -/

/-- The hit is nearer than all before it and as near as all after it. Only without hits is there none. -/
def IsNearest [LT α] [LE α] (hits : List (Hit α)) : Option (Hit α) → Prop
  | none => hits = []
  | some h => ∃ before after, hits = before ++ h :: after ∧ (∀ g ∈ before, h.distance < g.distance) ∧
      ∀ g ∈ after, h.distance ≤ g.distance

/-- The nearer of two hits; a tie goes to the first. -/
def nearer [LT α] [DecidableLT α] (a b : Option (Hit α)) : Option (Hit α) :=
  match a, b with
  | some a, some b => if b.distance < a.distance then some b else some a
  | a, b => a.or b

/-- No hit is nearer. -/
theorem IsNearest.le_of_mem [LinearOrder α] {hits : List (Hit α)} {h : Hit α} (hnearest : IsNearest hits (some h)) :
    ∀ g ∈ hits, h.distance ≤ g.distance := by
  obtain ⟨before, after, rfl, hbefore, hafter⟩ := hnearest
  intro g hg
  rcases List.mem_append.mp hg with hg | hg
  · exact (hbefore g hg).le
  · rcases List.mem_cons.mp hg with rfl | hg
    · exact le_rfl
    · exact hafter g hg

/-- The nearest of two lists of hits is the nearer of the nearest ones of each. -/
theorem IsNearest.append [LinearOrder α] {xs ys : List (Hit α)} {a b : Option (Hit α)} (ha : IsNearest xs a)
    (hb : IsNearest ys b) : IsNearest (xs ++ ys) (nearer a b) := by
  cases a with
  | none =>
      obtain rfl : xs = [] := ha
      cases b <;> exact hb
  | some a =>
      cases b with
      | none =>
          obtain rfl : ys = [] := hb
          rw [List.append_nil]
          exact ha
      | some b =>
          have hfirst := ha.le_of_mem
          have hsecond := hb.le_of_mem
          rw [nearer]
          split
          · rename_i hlt
            obtain ⟨before, after, rfl, hbefore, hafter⟩ := hb
            refine ⟨xs ++ before, after, by simp, fun g hg => ?_, hafter⟩
            rcases List.mem_append.mp hg with hg | hg
            · exact hlt.trans_le (hfirst g hg)
            · exact hbefore g hg
          · rename_i hle
            rw [not_lt] at hle
            obtain ⟨before, after, rfl, hbefore, hafter⟩ := ha
            refine ⟨before, after ++ ys, by simp, hbefore, fun g hg => ?_⟩
            rcases List.mem_append.mp hg with hg | hg
            · exact hafter g hg
            · exact hle.trans (hsecond g hg)

theorem isNearest_singleton [LT α] [LE α] (h : Hit α) : IsNearest [h] (some h) := ⟨[], [], rfl, by simp, by simp⟩

/-- A position as it is found by a search from a point. -/
def Coordinate.hit [Scalar α] (c : Coordinate α) (point : Point α) (source : HitSource) : Hit α :=
  ⟨c.line, c.figure, c.position, c.position.distance point, source⟩

namespace Coordinates

variable [Field α] [LinearOrder α] [FloorRing α] [PlaneFunctions α]

theorem closer_eq (best : Option (Hit α)) (hit : Hit α) : closer best hit = nearer best (some hit) := by
  cases best <;> rfl

/-- A search through the positions of a program finds the first of the nearest ones. -/
theorem isNearest_nearest (cs : Coordinates α) (point : Point α) (source : HitSource) :
    IsNearest (cs.map (·.hit point source)) (cs.nearest point source) := by
  have hfold : ∀ (done : List (Hit α)) (best : Option (Hit α)), IsNearest done best →
      IsNearest (done ++ cs.map (·.hit point source))
        (cs.foldl (fun best c => closer best (c.hit point source)) best) := by
    induction cs with
    | nil => simp
    | cons c cs ih =>
        intro done best hbest
        have hnext := ih _ _ (hbest.append (isNearest_singleton (c.hit point source)))
        rw [List.append_assoc] at hnext
        rw [List.foldl_cons, closer_eq]
        exact hnext
  exact hfold [] none rfl

/-- Moved one way and back another. -/
theorem moved_moved (cs : Coordinates α) (d e : Point α) :
    (cs.moved d).moved ⟨-e.x, -e.y⟩ = cs.moved (d - e) := by
  rw [moved, moved, moved, List.map_map]
  refine List.map_congr_left fun c _ => ?_
  have hposition : c.position + d + (⟨-e.x, -e.y⟩ : Point α) = c.position + (d - e) := by
    ext
    · exact (add_assoc _ _ _).trans (congrArg _ (sub_eq_add_neg _ _).symm)
    · exact (add_assoc _ _ _).trans (congrArg _ (sub_eq_add_neg _ _).symm)
  simp only [Function.comp_apply, hposition]

end Coordinates

/-! ### The landmark of a session -/

/-- The operation sets the landmark or clears it. -/
def Operation.marks : Operation α → Bool
  | .setLandmark | .clearLandmark => true
  | _ => false

namespace Session

section

variable [Scalar α]

/-- The session that a sequence of operations leads to. -/
def after (s : Session α) (ops : List (Operation α)) : Session α := ops.foldl (fun s op => (s.perform op).1) s

theorem after_concat (s : Session α) (ops : List (Operation α)) (op : Operation α) :
    s.after (ops ++ [op]) = ((s.after ops).perform op).1 := by
  rw [after, List.foldl_append]
  rfl

/-- The session in which a sequence of operations has set the landmark last, if it has not cleared it since. -/
def marked? (s : Session α) (ops : List (Operation α)) : Option (Session α) :=
  match ops.reverse.dropWhile (!·.marks) with
  | .setLandmark :: before => some (s.after before.reverse)
  | _ => none

/-- The positions of the program on the machine. -/
def machinePositions (s : Session α) : Coordinates α := s.program.coordinates.moved s.machine.workOffset.xy

theorem marked?_concat_of_not_marks (s : Session α) (ops : List (Operation α)) {op : Operation α}
    (h : op.marks = false) : s.marked? (ops ++ [op]) = s.marked? ops := by
  rw [marked?, List.reverse_append, List.reverse_singleton, List.singleton_append,
    List.dropWhile_cons_of_pos (by simpa using h), marked?]

/-- Nothing else changes the landmark. -/
theorem landmark_perform (s : Session α) {op : Operation α} (h : op.marks = false) :
    (s.perform op).1.landmark = s.landmark := by
  cases op with
  | setLandmark | clearLandmark => simp [Operation.marks] at h
  | linearize =>
      change s.linearize.1.landmark = s.landmark
      rw [linearize]
      split <;> rfl
  | load | setMachine | edit | findNearest | text | info | figureLines | locate | trace | render => rfl

/-- The landmark holds the machine positions of the program in which it was set last. -/
theorem landmark_after {s : Session α} (hnone : s.landmark = none) (ops : List (Operation α)) :
    (s.after ops).landmark = (s.marked? ops).map machinePositions := by
  induction ops using List.reverseRecOn with
  | nil => exact hnone
  | append_singleton ops op ih =>
      rw [after_concat]
      cases hmarks : op.marks with
      | false => rw [landmark_perform _ hmarks, marked?_concat_of_not_marks _ _ hmarks, ih]
      | true =>
          cases op <;> simp only [Operation.marks, Bool.false_eq_true] at hmarks
          case setLandmark => simp [marked?, Operation.marks, perform, setLandmark, machinePositions]
          case clearLandmark => simp [marked?, Operation.marks, perform, clearLandmark]

end

variable [Field α] [LinearOrder α] [FloorRing α] [PlaneFunctions α]

/-- After any sequence of operations, a search finds the first of the nearest positions among those of the program
and, behind them, those of the landmark: the positions of the program in which it was set, moved by how much its
work offset differs from the present one. A hit on the program selects its figure and any other outcome selects
none. The landmark itself stays where it was set on the machine until it is set again or cleared. -/
theorem findNearest_after (settings : Settings α) (machine : Machine α) (ops : List (Operation α)) (point : Point α) :
    let s := (Session.new settings machine).after ops
    let marked := (Session.new settings machine).marked? ops
    let background : Coordinates α := marked.elim [] fun s₁ =>
      s₁.program.coordinates.moved (s₁.machine.workOffset.xy - s.machine.workOffset.xy)
    let hit := (s.findNearest point).2
    IsNearest (s.program.coordinates.map (·.hit point .program) ++ background.map (·.hit point .landmark)) hit ∧
      (s.findNearest point).1.selectedFigure =
        hit.bind (fun h => if h.source = .program then h.figure else none) ∧
      s.landmark = marked.map machinePositions ∧
      ∀ op : Operation α, op.marks = false → (s.perform op).1.landmark = s.landmark := by
  intro s marked background hit
  have hlandmark : s.landmark = marked.map machinePositions := landmark_after rfl ops
  refine ⟨?_, ?_, hlandmark, fun op => s.landmark_perform⟩
  · have hbackground : IsNearest (background.map (·.hit point .landmark)) (s.nearestLandmark point) := by
      rw [nearestLandmark, hlandmark]
      simp only [background]
      cases marked with
      | none => rfl
      | some s₁ =>
          have hmoved := s₁.program.coordinates.moved_moved s₁.machine.workOffset.xy s.machine.workOffset.xy
          change IsNearest _ (Coordinates.nearest
            (s₁.machinePositions.moved ⟨-s.machine.workOffset.xy.x, -s.machine.workOffset.xy.y⟩) point .landmark)
          rw [machinePositions, hmoved]
          exact Coordinates.isNearest_nearest _ point .landmark
    exact (s.program.coordinates.isNearest_nearest point .program).append hbackground
  · change (hit.filter (·.source == .program)).bind (·.figure) = _
    cases hit with
    | none => rfl
    | some h => cases hsource : h.source <;> simp [hsource, Option.filter]

/-- A landmark that was set at the origin stays there on the machine when another program is loaded and the work
offset becomes ten, and a point ten in front of the new origin lies on it. Mirroring the program keeps it too. -/
theorem findNearest_moved_landmark :
    let _ := PlaneFunctions.axial
    let machine : Machine ℚ := { Machine.default with workOffset := ⟨10, 0, 0⟩ }
    let ops : List (Operation ℚ) :=
      [.load "G0 X0 Y0\nG1 X1 Y0\n", .setLandmark, .load "G0 X50 Y50\nG1 X60 Y50\n", .setMachine machine]
    let s := (Session.new .default .default).after ops
    Operation.marks (.edit (.mirror .x) : Operation ℚ) = false ∧
      (s.edit (.mirror .x)).1.landmark = s.landmark ∧
      ((s.findNearest ⟨-10, 0⟩).2.map fun h => (h.line, h.position.x, h.distance, h.source)) =
        some (0, -10, 0, .landmark) := by
  intro _ machine ops s
  obtain ⟨-, -, -, hkeeps⟩ := findNearest_after .default .default ops ⟨-10, 0⟩
  exact ⟨rfl, hkeeps (.edit (.mirror .x)) rfl, by decide +kernel⟩

end Session

end PartProgram
