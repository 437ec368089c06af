import Mathlib.Tactic.FieldSimp
import Mathlib.Tactic.Ring
import PartProgram.HeightMap
import PartProgram.Proofs.Number.Exact

/-! # The surface of a height map

A grid that has no fault carries one surface. It is bilinear on the closed rectangle of every cell, goes through
the probed heights, goes on beyond the edges at the height of the edge, and stays between the heights of the
grid. Every height that it is computed from is in the table.
-/

namespace PartProgram

/-! ### Places on an axis -/

section

variable {α : Type} [Field α]

/-- The value a part `t` of the way from a grid line to the next. -/
def lerp (h : ℕ → α) (cell : ℕ) (t : α) : α := h cell + (h (cell + 1) - h cell) * t

variable [LinearOrder α]

/-- The number `f`, counted in cells of an axis with `size` grid lines, lies in a cell and a part `t` of the way
through it. The lines between two cells belong to both. -/
structure IsPlace (size : ℕ) (f : α) (cell : ℕ) (t : α) : Prop where
  cell_lt : cell + 1 < size
  nonneg : 0 ≤ t
  le_one : t ≤ 1
  eq : f = cell + t

variable [IsStrictOrderedRing α] {size cell cell' : ℕ} {f t t' : α}

/-- Both cells at a grid line give the value of the line. -/
theorem IsPlace.lerp_eq (h : IsPlace size f cell t) (h' : IsPlace size f cell' t') (heights : ℕ → α) :
    lerp heights cell t = lerp heights cell' t' := by
  wlog hle : cell ≤ cell' generalizing cell cell' t t'
  · exact (this h' h (le_of_not_ge hle)).symm
  have hsum : (cell : α) + t = cell' + t' := h.eq.symm.trans h'.eq
  rcases hle.eq_or_lt with rfl | hlt
  · rw [add_left_cancel hsum]
  · -- the second cell is the next one, and the place is the line between them
    have hnext : ((cell + 1 : ℕ) : α) ≤ cell' := Nat.cast_le.mpr hlt
    have hone := h.le_one
    have hnonneg := h'.nonneg
    rw [Nat.cast_add, Nat.cast_one] at hnext
    have hend : t = 1 := by linarith
    have hbegin : t' = 0 := by linarith
    have hcell : cell' = cell + 1 := by
      have hcast : (cell' : α) = ((cell + 1 : ℕ) : α) := by
        rw [Nat.cast_add, Nat.cast_one]
        linarith
      exact_mod_cast hcast
    rw [hend, hbegin, hcell, lerp, lerp, mul_one, mul_zero, add_zero, add_sub_cancel]

/-- A grid line has a place. -/
theorem exists_isPlace_natCast (hsize : 2 ≤ size) {i : ℕ} (hi : i < size) (heights : ℕ → α) :
    ∃ cell t, IsPlace size (i : α) cell t ∧ lerp heights cell t = heights i := by
  by_cases hlast : i + 1 < size
  · exact ⟨i, 0, ⟨hlast, le_rfl, zero_le_one, by simp⟩, by simp [lerp]⟩
  · obtain ⟨k, rfl⟩ : ∃ k, i = k + 1 := ⟨i - 1, by omega⟩
    exact ⟨k, 1, ⟨hi, zero_le_one, le_rfl, by simp⟩, by simp [lerp]⟩

theorem IsPlace.lerp_natCast (hsize : 2 ≤ size) {i : ℕ} (hi : i < size) (h : IsPlace size (i : α) cell t)
    (heights : ℕ → α) : lerp heights cell t = heights i := by
  obtain ⟨_, _, hplace, hline⟩ := exists_isPlace_natCast hsize hi heights
  exact (h.lerp_eq hplace heights).trans hline

/-- A value between two others is not below both. -/
theorem IsPlace.exists_le_lerp (h : IsPlace size f cell t) (heights : ℕ → α) :
    ∃ i, (i = cell ∨ i = cell + 1) ∧ heights i ≤ lerp heights cell t := by
  have hnonneg := h.nonneg
  have hone : 0 ≤ 1 - t := sub_nonneg.mpr h.le_one
  rcases le_total (heights cell) (heights (cell + 1)) with hle | hle
  · refine ⟨cell, .inl rfl, ?_⟩
    have hstep := mul_nonneg (sub_nonneg.mpr hle) hnonneg
    rw [lerp]
    linarith
  · refine ⟨cell + 1, .inr rfl, ?_⟩
    have hstep := mul_nonneg (sub_nonneg.mpr hle) hone
    rw [lerp]
    linarith

/-- A value between two others is not above both. -/
theorem IsPlace.exists_lerp_le (h : IsPlace size f cell t) (heights : ℕ → α) :
    ∃ i, (i = cell ∨ i = cell + 1) ∧ lerp heights cell t ≤ heights i := by
  obtain ⟨i, hi, hle⟩ := h.exists_le_lerp fun i => -heights i
  refine ⟨i, hi, ?_⟩
  rw [lerp] at hle ⊢
  linarith

variable [FloorRing α]

/-- The place of a number is found by its integer part. The last line counts to the last cell. -/
theorem isPlace_floor (hsize : 2 ≤ size) (hnonneg : 0 ≤ f) (hle : f ≤ ((size - 1 : ℕ) : α)) :
    IsPlace size f (min ⌊f⌋.toNat (size - 2)) (f - (min ⌊f⌋.toNat (size - 2) : ℕ)) := by
  obtain ⟨k, hk⟩ := Int.eq_ofNat_of_zero_le (Int.floor_nonneg.mpr hnonneg)
  have hfloor : (k : α) ≤ f := by
    have hle := Int.floor_le f
    rwa [hk, Int.cast_natCast] at hle
  have hnext : f < k + 1 := by
    have hlt := Int.lt_floor_add_one f
    rwa [hk, Int.cast_natCast] at hlt
  rw [hk, Int.toNat_natCast]
  by_cases hlast : k ≤ size - 2
  · rw [Nat.min_eq_left hlast]
    exact ⟨by omega, sub_nonneg.mpr hfloor, by linarith, by ring⟩
  · have hbound : ((size - 1 : ℕ) : α) ≤ k := Nat.cast_le.mpr (by omega)
    have hend : f = ((size - 2 : ℕ) : α) + 1 := by
      rw [← Nat.cast_add_one, show size - 2 + 1 = size - 1 by omega]
      exact le_antisymm hle (hbound.trans hfloor)
    rw [Nat.min_eq_right (by omega), hend, add_sub_cancel_left]
    exact ⟨by omega, zero_le_one, le_rfl, rfl⟩

/-! ### Where a coordinate lies -/

variable [PlaneFunctions α]

omit [IsStrictOrderedRing α] in
theorem Scalar.clamp_of_mem {lo hi v : α} (hlo : lo ≤ v) (hhi : v ≤ hi) : Scalar.clamp lo hi v = v := by
  rw [Scalar.clamp, if_neg (not_lt.mpr hlo), if_neg (not_lt.mpr hhi)]

omit [IsStrictOrderedRing α] in
theorem Scalar.clamp_mem {lo hi : α} (h : lo ≤ hi) (v : α) :
    lo ≤ Scalar.clamp lo hi v ∧ Scalar.clamp lo hi v ≤ hi := by
  rw [Scalar.clamp]
  split_ifs with hbelow habove
  · exact ⟨le_rfl, h⟩
  · exact ⟨h, le_rfl⟩
  · exact ⟨not_lt.mp hbelow, not_lt.mp habove⟩

/-- The lines of an axis from `lo` to `hi`. -/
structure IsAxis (lo hi pitch : α) (size : ℕ) : Prop where
  two_le : 2 ≤ size
  pos : 0 < pitch
  eq : hi = lo + pitch * ((size - 1 : ℕ) : α)

namespace IsAxis

variable {lo hi pitch v : α} (h : IsAxis lo hi pitch size)

include h

theorem le : lo ≤ hi := by
  rw [h.eq]
  exact le_add_of_nonneg_right (mul_nonneg h.pos.le (Nat.cast_nonneg _))

/-- Moving a coordinate to the axis moves its count of cells to the cells of the axis. -/
theorem clamp_sub_div (v : α) :
    (Scalar.clamp lo hi v - lo) / pitch = Scalar.clamp 0 ((size - 1 : ℕ) : α) ((v - lo) / pitch) := by
  have hbelow : (v - lo) / pitch < 0 ↔ v < lo := by rw [div_lt_iff₀ h.pos, zero_mul, sub_neg]
  have habove : ((size - 1 : ℕ) : α) < (v - lo) / pitch ↔ hi < v := by
    rw [lt_div_iff₀ h.pos, h.eq, lt_sub_iff_add_lt', mul_comm]
  simp only [Scalar.clamp, hbelow, habove]
  split_ifs
  · rw [sub_self, zero_div]
  · rw [h.eq, add_sub_cancel_left, mul_div_cancel_left₀ _ h.pos.ne']
  · rfl

/-- The place of a coordinate is found from where it has been moved to. -/
theorem isPlace_locate (v : α) : IsPlace size ((Scalar.clamp lo hi v - lo) / pitch)
    (HeightMap.locate v lo pitch size).1 (HeightMap.locate v lo pitch size).2 := by
  have hlocate : HeightMap.locate v lo pitch size =
      let f : α := Scalar.clamp 0 ((size - 1 : ℕ) : α) ((v - lo) / pitch)
      let cell := min ⌊(⌊f⌋ : α)⌋.toNat (size - 2)
      (cell, f - cell) := by
    have hzero : (Scalar.ofNat 0 : α) = 0 := Nat.cast_zero
    simp only [HeightMap.locate, OfNat.ofNat, hzero]
    rfl
  obtain ⟨hnonneg, hle⟩ := Scalar.clamp_mem (Nat.cast_nonneg (size - 1)) ((v - lo) / pitch)
  rw [h.clamp_sub_div, hlocate]
  simp only [Int.floor_intCast]
  exact isPlace_floor h.two_le hnonneg hle

/-- A coordinate between two lines has its place in the cell between them. -/
theorem isPlace_of_between (hcell : cell + 1 < size) (hlo : lo + pitch * cell ≤ v)
    (hhi : v ≤ lo + pitch * ((cell + 1 : ℕ) : α)) :
    IsPlace size ((v - lo) / pitch) cell ((v - (lo + pitch * cell)) / pitch) := by
  have hpos := h.pos
  refine ⟨hcell, div_nonneg (sub_nonneg.mpr hlo) hpos.le, ?_, ?_⟩
  · rw [div_le_one hpos, sub_le_iff_le_add']
    calc v ≤ lo + pitch * ((cell + 1 : ℕ) : α) := hhi
      _ = lo + pitch * cell + pitch := by
        rw [Nat.cast_add, Nat.cast_one]
        ring
  · field_simp
    ring

/-- A coordinate that has a place in a cell lies between the lines of the cell. -/
theorem between_of_isPlace {t : α} (hplace : IsPlace size ((v - lo) / pitch) cell t) :
    lo + pitch * cell ≤ v ∧ v ≤ lo + pitch * ((cell + 1 : ℕ) : α) := by
  have hv : v = lo + pitch * (cell + t) := by
    rw [← hplace.eq, mul_div_cancel₀ _ h.pos.ne', add_sub_cancel]
  rw [hv, Nat.cast_add, Nat.cast_one]
  constructor
  · exact add_le_add_right (mul_le_mul_of_nonneg_left (le_add_of_nonneg_right hplace.nonneg) h.pos.le) lo
  · exact add_le_add_right (mul_le_mul_of_nonneg_left (add_le_add_right hplace.le_one _) h.pos.le) lo

theorem clamp_clamp (v : α) : Scalar.clamp lo hi (Scalar.clamp lo hi v) = Scalar.clamp lo hi v :=
  Scalar.clamp_of_mem (Scalar.clamp_mem h.le v).1 (Scalar.clamp_mem h.le v).2

/-- The lines lie on the axis. -/
theorem clamp_line {i : ℕ} (hi' : i < size) : Scalar.clamp lo hi (lo + pitch * i) = lo + pitch * i := by
  have hcast : (i : α) ≤ ((size - 1 : ℕ) : α) := Nat.cast_le.mpr (by omega)
  refine Scalar.clamp_of_mem ?_ ?_
  · exact le_add_of_nonneg_right (mul_nonneg h.pos.le (Nat.cast_nonneg _))
  · rw [h.eq]
    exact add_le_add_right (mul_le_mul_of_nonneg_left hcast h.pos.le) lo

end IsAxis

end

/-! ### Cells -/

namespace HeightMap

/-- The height of the surface over a point, if every height that it is computed from is in the table. -/
def interpolate? {α : Type} [Scalar α] (m : HeightMap α) (x y : α) : Option α := do
  let (ix, tx) := locate x m.min.x m.pitch.x m.sizeX
  let (iy, ty) := locate y m.min.y m.pitch.y m.sizeY
  let h₀₀ ← m.height? ix iy
  let h₁₀ ← m.height? (ix + 1) iy
  let h₀₁ ← m.height? ix (iy + 1)
  let h₁₁ ← m.height? (ix + 1) (iy + 1)
  let bottom := h₀₀ + (h₁₀ - h₀₀) * tx
  let top := h₀₁ + (h₁₁ - h₀₁) * tx
  return bottom + (top - bottom) * ty

variable {α : Type} [Field α] [LinearOrder α] [FloorRing α] [PlaneFunctions α] (m : HeightMap α)

/-- The point where two grid lines cross. -/
def gridPoint (ix iy : ℕ) : Point α := ⟨m.min.x + m.pitch.x * ix, m.min.y + m.pitch.y * iy⟩

/-- The point moved to the grid. -/
def clamped (p : Point α) : Point α := ⟨Scalar.clamp m.min.x m.max.x p.x, Scalar.clamp m.min.y m.max.y p.y⟩

/-- The point lies in the closed rectangle of a cell. -/
structure InCell (ix iy : ℕ) (p : Point α) : Prop where
  column : ix + 1 < m.sizeX
  row : iy + 1 < m.sizeY
  left : (m.gridPoint ix iy).x ≤ p.x
  right : p.x ≤ (m.gridPoint (ix + 1) (iy + 1)).x
  below : (m.gridPoint ix iy).y ≤ p.y
  above : p.y ≤ (m.gridPoint (ix + 1) (iy + 1)).y

/-- The bilinear function through the corners of a cell: each corner weighs as much as the part of the cell
between the point and the opposite corner. -/
def cellHeight (ix iy : ℕ) (p : Point α) : α :=
  let a := m.gridPoint ix iy
  let b := m.gridPoint (ix + 1) (iy + 1)
  (m.heightAt ix iy * ((b.x - p.x) * (b.y - p.y)) + m.heightAt (ix + 1) iy * ((p.x - a.x) * (b.y - p.y)) +
    m.heightAt ix (iy + 1) * ((b.x - p.x) * (p.y - a.y)) +
    m.heightAt (ix + 1) (iy + 1) * ((p.x - a.x) * (p.y - a.y))) / ((b.x - a.x) * (b.y - a.y))

/-- What can be relied on in a grid without a fault. -/
structure IsSound : Prop where
  size : m.heights.size = m.sizeX * m.sizeY
  axisX : IsAxis m.min.x m.max.x m.pitch.x m.sizeX
  axisY : IsAxis m.min.y m.max.y m.pitch.y m.sizeY

variable {m}

theorem isAxis_of_lt [IsStrictOrderedRing α] {lo hi : α} {size : ℕ} (hsize : 2 ≤ size) (h : lo < hi) :
    IsAxis lo hi ((hi - lo) / ((size - 1 : ℕ) : α)) size := by
  have hpos : (0 : α) < ((size - 1 : ℕ) : α) := Nat.cast_pos.mpr (by omega)
  exact ⟨hsize, div_pos (sub_pos.mpr h) hpos, by rw [div_mul_cancel₀ _ hpos.ne', add_sub_cancel]⟩

theorem isSound_of_fault?_eq_none [IsStrictOrderedRing α] (h : m.fault? = none) : m.IsSound := by
  simp only [fault?] at h
  split_ifs at h with hsmall hlarge hcount hcorners
  simp only [not_or, not_lt] at hsmall
  simp only [not_or, not_le] at hcorners
  exact ⟨not_not.mp hcount, isAxis_of_lt hsmall.1 hcorners.1, isAxis_of_lt hsmall.2 hcorners.2⟩

/-- A grid point has a height. -/
theorem IsSound.height?_eq (h : m.IsSound) {ix iy : ℕ} (hx : ix < m.sizeX) (hy : iy < m.sizeY) :
    m.height? ix iy = some (m.heightAt ix iy) ∧ m.heightAt ix iy ∈ m.heights := by
  have hindex : iy * m.sizeX + ix < m.heights.size := by
    rw [h.size, Nat.mul_comm]
    calc m.sizeX * iy + ix < m.sizeX * iy + m.sizeX := by omega
      _ = m.sizeX * (iy + 1) := rfl
      _ ≤ m.sizeX * m.sizeY := Nat.mul_le_mul_left _ hy
  have hat : m.heightAt ix iy = m.heights[iy * m.sizeX + ix] := by simp [heightAt, Array.getD, hindex]
  refine ⟨?_, ?_⟩
  · rw [height?, if_pos ⟨hx, hy⟩, hat, Array.getElem?_eq_getElem hindex]
  · rw [hat]
    exact Array.getElem_mem hindex

/-- Between the lines of two places the height is taken along X first and then along Y. -/
theorem interpolate_eq (x y : α) :
    let u := locate x m.min.x m.pitch.x m.sizeX
    let v := locate y m.min.y m.pitch.y m.sizeY
    m.interpolate x y = lerp (fun j => lerp (fun i => m.heightAt i j) u.1 u.2) v.1 v.2 := rfl

theorem IsSound.interpolate?_eq [IsStrictOrderedRing α] (h : m.IsSound) (x y : α) :
    m.interpolate? x y = some (m.interpolate x y) := by
  have hx := (h.axisX.isPlace_locate x).cell_lt
  have hy := (h.axisY.isPlace_locate y).cell_lt
  simp only [interpolate?, (h.height?_eq (Nat.lt_of_succ_lt hx) (Nat.lt_of_succ_lt hy)).1,
    (h.height?_eq hx (Nat.lt_of_succ_lt hy)).1, (h.height?_eq (Nat.lt_of_succ_lt hx) hy).1,
    (h.height?_eq hx hy).1]
  rfl

/-- In a cell the height may be taken along X first and then along Y. -/
theorem IsSound.cellHeight_eq (h : m.IsSound) (ix iy : ℕ) (p : Point α) :
    m.cellHeight ix iy p = lerp (fun j => lerp (fun i => m.heightAt i j) ix ((p.x - (m.gridPoint ix iy).x) / m.pitch.x))
      iy ((p.y - (m.gridPoint ix iy).y) / m.pitch.y) := by
  have hx := h.axisX.pos.ne'
  have hy := h.axisY.pos.ne'
  have hwidth : (m.gridPoint (ix + 1) (iy + 1)).x = (m.gridPoint ix iy).x + m.pitch.x := by
    simp only [gridPoint, Nat.cast_add, Nat.cast_one]
    ring
  have hheight : (m.gridPoint (ix + 1) (iy + 1)).y = (m.gridPoint ix iy).y + m.pitch.y := by
    simp only [gridPoint, Nat.cast_add, Nat.cast_one]
    ring
  simp only [cellHeight, lerp, hwidth, hheight, add_sub_cancel_left]
  field_simp
  ring

/-- What the surface is at a point: every height it is computed from is in the table, it is the one at the point
moved to the grid, it is bilinear in every cell that holds that point, of which there is one, and it lies between
heights of the grid. -/
structure SurfaceAt (m : HeightMap α) (p : Point α) (z : α) : Prop where
  found : m.interpolate? p.x p.y = some z
  clamped : m.interpolate (m.clamped p).x (m.clamped p).y = z
  inCell : ∃ ix iy, m.InCell ix iy (m.clamped p)
  bilinear : ∀ ix iy, m.InCell ix iy (m.clamped p) → m.cellHeight ix iy (m.clamped p) = z
  lower : ∃ low ∈ m.heights, low ≤ z
  upper : ∃ high ∈ m.heights, z ≤ high

variable [IsStrictOrderedRing α]

namespace IsSound

variable (h : m.IsSound)

include h

/-- The surface does not depend on the cell in which the place of a point is counted. -/
theorem interpolate_eq_of_isPlace {p : Point α} {ix iy : ℕ} {tx ty : α}
    (hx : IsPlace m.sizeX (((m.clamped p).x - m.min.x) / m.pitch.x) ix tx)
    (hy : IsPlace m.sizeY (((m.clamped p).y - m.min.y) / m.pitch.y) iy ty) :
    m.interpolate p.x p.y = lerp (fun j => lerp (fun i => m.heightAt i j) ix tx) iy ty := by
  rw [interpolate_eq]
  simp only [fun j => (h.axisX.isPlace_locate p.x).lerp_eq hx fun i => m.heightAt i j]
  exact (h.axisY.isPlace_locate p.y).lerp_eq hy _

theorem interpolate_clamped (p : Point α) :
    m.interpolate (m.clamped p).x (m.clamped p).y = m.interpolate p.x p.y := by
  have hx := h.axisX.isPlace_locate (m.clamped p).x
  have hy := h.axisY.isPlace_locate (m.clamped p).y
  have hclampX : Scalar.clamp m.min.x m.max.x (m.clamped p).x = (m.clamped p).x := h.axisX.clamp_clamp p.x
  have hclampY : Scalar.clamp m.min.y m.max.y (m.clamped p).y = (m.clamped p).y := h.axisY.clamp_clamp p.y
  rw [hclampX] at hx
  rw [hclampY] at hy
  rw [interpolate_eq, h.interpolate_eq_of_isPlace hx hy]

theorem exists_inCell (p : Point α) : ∃ ix iy, m.InCell ix iy (m.clamped p) := by
  have hx := h.axisX.isPlace_locate p.x
  have hy := h.axisY.isPlace_locate p.y
  obtain ⟨hleft, hright⟩ := h.axisX.between_of_isPlace hx
  obtain ⟨hbelow, habove⟩ := h.axisY.between_of_isPlace hy
  exact ⟨_, _, hx.cell_lt, hy.cell_lt, hleft, hright, hbelow, habove⟩

theorem cellHeight_clamped {ix iy : ℕ} {p : Point α} (hcell : m.InCell ix iy (m.clamped p)) :
    m.cellHeight ix iy (m.clamped p) = m.interpolate p.x p.y := by
  have hx := h.axisX.isPlace_of_between hcell.column hcell.left hcell.right
  have hy := h.axisY.isPlace_of_between hcell.row hcell.below hcell.above
  rw [h.cellHeight_eq, h.interpolate_eq_of_isPlace hx hy]
  rfl

theorem interpolate_gridPoint {ix iy : ℕ} (hix : ix < m.sizeX) (hiy : iy < m.sizeY) :
    m.interpolate (m.gridPoint ix iy).x (m.gridPoint ix iy).y = m.heightAt ix iy := by
  have hx := h.axisX.isPlace_locate (m.gridPoint ix iy).x
  have hy := h.axisY.isPlace_locate (m.gridPoint ix iy).y
  have hcolumn : (Scalar.clamp m.min.x m.max.x (m.gridPoint ix iy).x - m.min.x) / m.pitch.x = ix := by
    rw [gridPoint, h.axisX.clamp_line hix, add_sub_cancel_left, mul_div_cancel_left₀ _ h.axisX.pos.ne']
  have hrow : (Scalar.clamp m.min.y m.max.y (m.gridPoint ix iy).y - m.min.y) / m.pitch.y = iy := by
    rw [gridPoint, h.axisY.clamp_line hiy, add_sub_cancel_left, mul_div_cancel_left₀ _ h.axisY.pos.ne']
  rw [hcolumn] at hx
  rw [hrow] at hy
  rw [interpolate_eq, hy.lerp_natCast h.axisY.two_le hiy, hx.lerp_natCast h.axisX.two_le hix]

/-- The corners of the cell that a lookup finds are grid points. -/
theorem mem_heights {ix iy : ℕ} (x y : α)
    (hix : ix = (locate x m.min.x m.pitch.x m.sizeX).1 ∨ ix = (locate x m.min.x m.pitch.x m.sizeX).1 + 1)
    (hiy : iy = (locate y m.min.y m.pitch.y m.sizeY).1 ∨ iy = (locate y m.min.y m.pitch.y m.sizeY).1 + 1) :
    m.heightAt ix iy ∈ m.heights := by
  have hx := (h.axisX.isPlace_locate x).cell_lt
  have hy := (h.axisY.isPlace_locate y).cell_lt
  exact (h.height?_eq (by omega) (by omega)).2

theorem exists_le_interpolate (x y : α) : ∃ low ∈ m.heights, low ≤ m.interpolate x y := by
  obtain ⟨iy, hiy, hrow⟩ := (h.axisY.isPlace_locate y).exists_le_lerp
    fun j => lerp (fun i => m.heightAt i j) (locate x m.min.x m.pitch.x m.sizeX).1
      (locate x m.min.x m.pitch.x m.sizeX).2
  obtain ⟨ix, hix, hcorner⟩ := (h.axisX.isPlace_locate x).exists_le_lerp fun i => m.heightAt i iy
  exact ⟨_, h.mem_heights x y hix hiy, hcorner.trans hrow⟩

theorem exists_interpolate_le (x y : α) : ∃ high ∈ m.heights, m.interpolate x y ≤ high := by
  obtain ⟨iy, hiy, hrow⟩ := (h.axisY.isPlace_locate y).exists_lerp_le
    fun j => lerp (fun i => m.heightAt i j) (locate x m.min.x m.pitch.x m.sizeX).1
      (locate x m.min.x m.pitch.x m.sizeX).2
  obtain ⟨ix, hix, hcorner⟩ := (h.axisX.isPlace_locate x).exists_lerp_le fun i => m.heightAt i iy
  exact ⟨_, h.mem_heights x y hix hiy, hrow.trans hcorner⟩

end IsSound

/-- A grid without a fault carries a surface, everywhere in the plane, that goes through all of its points. -/
theorem surface_of_fault?_eq_none (m : HeightMap α) (h : m.fault? = none) :
    (∀ p, m.SurfaceAt p (m.interpolate p.x p.y)) ∧
      ∀ ix iy, ix < m.sizeX → iy < m.sizeY →
        m.height? ix iy = some (m.interpolate (m.gridPoint ix iy).x (m.gridPoint ix iy).y) := by
  have hsound := isSound_of_fault?_eq_none h
  refine ⟨fun p => ?_, fun ix iy hix hiy => ?_⟩
  · exact {
      found := hsound.interpolate?_eq p.x p.y
      clamped := hsound.interpolate_clamped p
      inCell := hsound.exists_inCell p
      bilinear := fun _ _ => hsound.cellHeight_clamped
      lower := hsound.exists_le_interpolate p.x p.y
      upper := hsound.exists_interpolate_le p.x p.y }
  · rw [(hsound.height?_eq hix hiy).1, hsound.interpolate_gridPoint hix hiy]

/-- A point beyond the upper right corner, and the last point of the grid. -/
theorem surface_of_ramp :
    let _ := PlaneFunctions.straight
    let m : HeightMap ℚ := ⟨⟨0, 0⟩, ⟨20, 10⟩, 3, 2, #[0, 1, 2, 2, 3, 4]⟩
    m.fault? = none ∧ m.SurfaceAt ⟨99, 5⟩ 3 ∧ m.height? 2 1 = some (m.interpolate 20 10) := by
  intro _ m
  have hfault : m.fault? = none := by decide +kernel
  obtain ⟨hsurface, hpoints⟩ := surface_of_fault?_eq_none m hfault
  refine ⟨hfault, ?_, ?_⟩
  · have hheight : m.interpolate 99 5 = 3 := by decide +kernel
    exact hheight ▸ hsurface ⟨99, 5⟩
  · have hcorner : m.gridPoint 2 1 = ⟨20, 10⟩ := by decide +kernel
    have hlast := hpoints 2 1 (by decide) (by decide)
    rwa [hcorner] at hlast

end HeightMap

end PartProgram
