import PartProgram.Proofs.Number.Exact
import PartProgram.Edit.Mirror

/-! # Maps of the plane, coordinate by coordinate

Shifts, mirrors and changes of scale take each coordinate for itself. What they do to the points that an
extent was grown by, they do to the extent.
-/

namespace PartProgram

namespace MirrorAxis

variable {α : Type}

/-- The mirrored coordinate of a point. -/
def along (m : MirrorAxis) (p : Point α) : α :=
  match m with
  | x => p.x
  | y => p.y

/-- The coordinate of a point that a mirror keeps. -/
def across (m : MirrorAxis) (p : Point α) : α :=
  match m with
  | x => p.y
  | y => p.x

end MirrorAxis

namespace Point

variable {α : Type} [Scalar α] (p q : Point α)

@[simp]
theorem add_x : (p + q).x = p.x + q.x := rfl

@[simp]
theorem add_y : (p + q).y = p.y + q.y := rfl

@[simp]
theorem sub_x : (p - q).x = p.x - q.x := rfl

@[simp]
theorem sub_y : (p - q).y = p.y - q.y := rfl

omit [Scalar α] in
@[ext]
theorem ext {p q : Point α} (hx : p.x = q.x) (hy : p.y = q.y) : p = q := by
  cases p
  cases q
  exact congr (congrArg Point.mk hx) hy

end Point

/-- A map of the plane that multiplies each coordinate by a factor and moves it. -/
structure PlaneMap (α : Type) where
  factor : MirrorAxis → α
  shift : MirrorAxis → α

variable {α : Type}

namespace PlaneMap

section

variable [Field α] (f : PlaneMap α)

def coordinate (m : MirrorAxis) (v : α) : α := f.factor m * v + f.shift m

def point (p : Point α) : Point α := ⟨f.coordinate .x p.x, f.coordinate .y p.y⟩

def position (p : Position α) : Position α := ⟨f.coordinate .x p.x, f.coordinate .y p.y, p.z⟩

@[simp]
theorem position_xy (p : Position α) : (f.position p).xy = f.point p.xy := rfl

end

variable [Field α] [LinearOrder α] (f : PlaneMap α)

/-- The range of the images. A negative factor turns it around. -/
def range (m : MirrorAxis) (r : Range α) : Range α :=
  if 0 ≤ f.factor m then ⟨f.coordinate m r.lo, f.coordinate m r.hi⟩
  else ⟨f.coordinate m r.hi, f.coordinate m r.lo⟩

/-- The extent of the images. -/
def extent (e : Extent α) : Extent α := { e with x := e.x.map (f.range .x), y := e.y.map (f.range .y) }

variable [IsStrictOrderedRing α]

theorem monotone_coordinate {m : MirrorAxis} (h : 0 ≤ f.factor m) : Monotone (f.coordinate m) := by
  intro v w hvw
  exact add_le_add_left (mul_le_mul_of_nonneg_left hvw h) _

theorem antitone_coordinate {m : MirrorAxis} (h : f.factor m ≤ 0) : Antitone (f.coordinate m) := by
  intro v w hvw
  exact add_le_add_left (mul_le_mul_of_nonpos_left hvw h) _

end PlaneMap

section

variable [Field α] [LinearOrder α] [IsStrictOrderedRing α] [FloorRing α] [PlaneFunctions α]

omit [IsStrictOrderedRing α] in
theorem Scalar.min_eq (a b : α) : Scalar.min a b = Min.min a b := by
  have hself : (a == a) = true := decide_eq_true rfl
  rw [Scalar.min, if_pos hself, min_def]
  split <;> split <;> first | rfl | grind

omit [IsStrictOrderedRing α] in
theorem Scalar.max_eq (a b : α) : Scalar.max a b = Max.max a b := by
  have hself : (a == a) = true := decide_eq_true rfl
  rw [Scalar.max, if_pos hself, max_def]
  split <;> split <;> first | rfl | grind

omit [IsStrictOrderedRing α] in
/-- A range grown by a number. -/
theorem Range.including_eq (range : Option (Range α)) (v : α) :
    Range.including range v = some (range.elim ⟨v, v⟩ fun r => ⟨Min.min r.lo v, Max.max r.hi v⟩) := by
  cases range with
  | none =>
      have hself : (v == v) = true := decide_eq_true rfl
      rw [Range.including, if_pos hself]
      rfl
  | some r => simp only [Range.including, Scalar.min_eq, Scalar.max_eq, Option.elim_some]

namespace PlaneMap

variable (f : PlaneMap α)

theorem range_including (m : MirrorAxis) (range : Option (Range α)) (v : α) :
    (Range.including range v).map (f.range m) = Range.including (range.map (f.range m)) (f.coordinate m v) := by
  rw [Range.including_eq, Range.including_eq]
  cases range with
  | none => simp [PlaneMap.range]
  | some r =>
      simp only [Option.elim_some, Option.map_some, PlaneMap.range]
      split
      · rename_i h
        rw [(f.monotone_coordinate h).map_min, (f.monotone_coordinate h).map_max]
      · rename_i h
        have hanti := f.antitone_coordinate (not_le.mp h).le
        rw [hanti.map_min, hanti.map_max]

theorem extent_includeXY (e : Extent α) (p : Point α) :
    f.extent (e.includeXY p) = (f.extent e).includeXY (f.point p) := by
  simp only [extent, Extent.includeXY, range_including, point]

omit [IsStrictOrderedRing α] in
theorem extent_includeZ (e : Extent α) (z : α) : f.extent (e.includeZ z) = (f.extent e).includeZ z := rfl

theorem extent_foldl_includeXY (e : Extent α) (ps : List (Point α)) :
    f.extent (ps.foldl Extent.includeXY e) = (ps.map f.point).foldl Extent.includeXY (f.extent e) := by
  induction ps generalizing e with
  | nil => rfl
  | cons p ps ih => rw [List.foldl_cons, ih, extent_includeXY, List.map_cons, List.foldl_cons]

end PlaneMap

omit [IsStrictOrderedRing α] in
/-- The points of an extent may be included in any order. -/
theorem Extent.includeXY_right_comm (e : Extent α) (p q : Point α) :
    (e.includeXY p).includeXY q = (e.includeXY q).includeXY p := by
  have hcomm : ∀ (range : Option (Range α)) (v w : α),
      Range.including (Range.including range v) w = Range.including (Range.including range w) v := by
    intro range v w
    simp only [Range.including_eq, Option.elim_some]
    cases range with
    | none => simp only [Option.elim_none, min_comm v w, max_comm v w]
    | some r => simp only [Option.elim_some, min_right_comm r.lo v w, max_right_comm r.hi v w]
  simp only [includeXY, hcomm]

omit [IsStrictOrderedRing α] in
theorem Extent.foldl_includeXY_perm (e : Extent α) {ps qs : List (Point α)} (h : ps.Perm qs) :
    ps.foldl includeXY e = qs.foldl includeXY e :=
  h.foldl_eq' (fun p _ q _ e => e.includeXY_right_comm p q) e

end

end PartProgram
