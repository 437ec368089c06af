import PartProgram.Proofs.Number.Ordered
import PartProgram.Proofs.Plane.Map

/-! # What an extent holds

An extent that is grown by points holds them and all that it held before, and each of its bounds is a bound that it
had or a coordinate of one of the points.
-/

namespace PartProgram

variable {α : Type}

/-! ### Ranges -/

/-- Each bound of the range is one of the numbers. -/
def Range.Meets (range : Option (Range α)) (S : α → Prop) : Prop := ∀ r ∈ range, S r.lo ∧ S r.hi

theorem Range.Meets.mono {range : Option (Range α)} {S T : α → Prop} (h : Meets range S) (hST : ∀ v, S v → T v) :
    Meets range T := fun r hr => (h r hr).imp (hST _) (hST _)

variable [Scalar α]

/-- The range holds the number. The undefined one need not be held. -/
def Range.Holds (range : Option (Range α)) (v : α) : Prop :=
  (v == v) = true → ∃ r ∈ range, r.lo ≤ v ∧ v ≤ r.hi

theorem Range.Meets.including {range : Option (Range α)} {S : α → Prop} (h : Meets range S) {v : α} (hv : S v) :
    Meets (Range.including range v) S := by
  intro r hr
  cases range with
  | none =>
      simp only [Range.including] at hr
      split at hr
      · obtain rfl := Option.some_inj.mp hr
        exact ⟨hv, hv⟩
      · simp at hr
  | some r₀ =>
      obtain ⟨hlo, hhi⟩ := h r₀ rfl
      obtain rfl := Option.some_inj.mp hr
      refine ⟨?_, ?_⟩
      · simp only [Scalar.min]
        split_ifs <;> assumption
      · simp only [Scalar.max]
        split_ifs <;> assumption

section

variable [Scalar.Ordered α] {a b : α}

namespace Scalar

open Scalar.Ordered

theorem min_le_left (ha : (a == a) = true) : min a b ≤ a := by
  rw [min, if_pos ha]
  split
  · rename_i hlt
    exact le_of_lt b a hlt
  · exact le_self a ha

theorem min_le_right (hb : (b == b) = true) : min a b ≤ b := by
  rw [min]
  split_ifs with ha hlt
  · exact le_self b hb
  · exact le_of_not_lt b a hb ha hlt
  · exact le_self b hb

theorem le_max_left (ha : (a == a) = true) : a ≤ max a b := by
  rw [max, if_pos ha]
  split
  · rename_i hlt
    exact le_of_lt a b hlt
  · exact le_self a ha

theorem le_max_right (hb : (b == b) = true) : b ≤ max a b := by
  rw [max]
  split_ifs with ha hlt
  · exact le_self b hb
  · exact le_of_not_lt a b ha hb hlt
  · exact le_self b hb

end Scalar

namespace Range

theorem holds_including (range : Option (Range α)) (v : α) : Holds (Range.including range v) v := by
  intro hv
  cases range with
  | none => exact ⟨⟨v, v⟩, if_pos hv, Scalar.Ordered.le_self v hv, Scalar.Ordered.le_self v hv⟩
  | some r => exact ⟨_, rfl, Scalar.min_le_right hv, Scalar.le_max_right hv⟩

theorem Holds.including {range : Option (Range α)} {v : α} (h : Holds range v) (w : α) :
    Holds (Range.including range w) v := by
  intro hv
  obtain ⟨r, rfl, hlo, hhi⟩ := h hv
  -- a bound that something lies behind is defined
  have hdefined := (Scalar.Ordered.defined_of_le r.lo v hlo).1
  have hdefined' := (Scalar.Ordered.defined_of_le v r.hi hhi).2
  refine ⟨_, rfl, ?_, ?_⟩
  · exact Scalar.Ordered.le_trans _ _ _ (Scalar.min_le_left hdefined) hlo
  · exact Scalar.Ordered.le_trans _ _ _ hhi (Scalar.le_max_left hdefined')

end Range

end

/-! ### Extents -/

namespace Extent

/-- The extent holds the point, coordinate by coordinate. -/
def Holds (e : Extent α) (p : Point α) : Prop := Range.Holds e.x p.x ∧ Range.Holds e.y p.y

omit [Scalar α] in
/-- Each bound of the extent is a coordinate of one of the points. -/
def Meets (e : Extent α) (S : Point α → Prop) : Prop :=
  Range.Meets e.x (fun v => ∃ p, S p ∧ p.x = v) ∧ Range.Meets e.y fun v => ∃ p, S p ∧ p.y = v

omit [Scalar α] in
theorem Meets.mono {e : Extent α} {S T : Point α → Prop} (h : e.Meets S) (hST : ∀ p, S p → T p) : e.Meets T :=
  ⟨h.1.mono fun _ ⟨p, hp, hv⟩ => ⟨p, hST p hp, hv⟩, h.2.mono fun _ ⟨p, hp, hv⟩ => ⟨p, hST p hp, hv⟩⟩

theorem Meets.foldl_includeXY {e : Extent α} {S : Point α → Prop} (h : e.Meets S) {ps : List (Point α)}
    (hps : ∀ p ∈ ps, S p) : (ps.foldl includeXY e).Meets S := by
  induction ps generalizing e with
  | nil => exact h
  | cons p ps ih =>
      have hp : S p := hps p (by simp)
      refine ih ⟨h.1.including ⟨p, hp, rfl⟩, h.2.including ⟨p, hp, rfl⟩⟩ fun p hp => hps p (by simp [hp])

variable [Scalar.Ordered α]

theorem holds_includeXY (e : Extent α) (p : Point α) : (e.includeXY p).Holds p :=
  ⟨Range.holds_including _ _, Range.holds_including _ _⟩

theorem Holds.includeXY {e : Extent α} {p : Point α} (h : e.Holds p) (q : Point α) : (e.includeXY q).Holds p :=
  ⟨h.1.including _, h.2.including _⟩

theorem Holds.foldl_includeXY {e : Extent α} {p : Point α} (h : e.Holds p) (ps : List (Point α)) :
    (ps.foldl Extent.includeXY e).Holds p := by
  induction ps generalizing e with
  | nil => exact h
  | cons q ps ih => exact ih (h.includeXY q)

theorem holds_foldl_includeXY (e : Extent α) {ps : List (Point α)} {p : Point α} (hp : p ∈ ps) :
    (ps.foldl includeXY e).Holds p := by
  induction ps generalizing e with
  | nil => simp at hp
  | cons q ps ih =>
      rcases List.mem_cons.mp hp with rfl | hp
      · exact (e.holds_includeXY p).foldl_includeXY ps
      · exact ih _ hp

end Extent

/-! ### Grown extents over exact numbers -/

section

variable {α : Type} [Field α] [LinearOrder α] [FloorRing α] [PlaneFunctions α]

/-- A range holds what lies between two numbers that it holds. -/
theorem Range.Holds.between {range : Option (Range α)} {u v w : α} (hu : Holds range u) (hw : Holds range w)
    (huv : u ≤ v) (hvw : v ≤ w) : Holds range v := by
  intro _
  obtain ⟨r, hr, hlo, -⟩ := hu (decide_eq_true rfl)
  obtain ⟨r', hr', -, hhi⟩ := hw (decide_eq_true rfl)
  obtain rfl : r = r' := Option.mem_unique hr hr'
  exact ⟨r, hr, hlo.trans huv, hvw.trans hhi⟩

/-- The second range holds the first one, and each of its bounds is one of the first or one of the numbers. -/
structure Range.GrowsBy (before after : Option (Range α)) (S : α → Prop) : Prop where
  holds : ∀ r ∈ before, ∃ r' ∈ after, r'.lo ≤ r.lo ∧ r.hi ≤ r'.hi
  meets : Meets after fun v => S v ∨ ∃ r ∈ before, v = r.lo ∨ v = r.hi

theorem Range.growsBy_refl (range : Option (Range α)) (S : α → Prop) : GrowsBy range range S :=
  ⟨fun r hr => ⟨r, hr, le_rfl, le_rfl⟩, fun r hr => ⟨.inr ⟨r, hr, .inl rfl⟩, .inr ⟨r, hr, .inr rfl⟩⟩⟩

theorem Range.GrowsBy.including {before after : Option (Range α)} {S : α → Prop} (h : GrowsBy before after S) {v : α}
    (hv : S v) : GrowsBy before (Range.including after v) S := by
  refine ⟨?_, h.meets.including (.inl hv)⟩
  intro r hr
  obtain ⟨r', hr', hlo, hhi⟩ := h.holds r hr
  rw [Range.including_eq, Option.mem_def.mp hr', Option.elim_some]
  exact ⟨_, rfl, (min_le_left _ _).trans hlo, hhi.trans (le_max_left _ _)⟩

/-- The second extent holds the first one, and each of its bounds is one of the first or a coordinate of one of the
points. Heights stay as they are. -/
structure Extent.GrowsBy (before after : Extent α) (S : Point α → Prop) : Prop where
  x : Range.GrowsBy before.x after.x fun v => ∃ p, S p ∧ p.x = v
  y : Range.GrowsBy before.y after.y fun v => ∃ p, S p ∧ p.y = v
  z : after.z = before.z

namespace Extent

theorem growsBy_refl (e : Extent α) (S : Point α → Prop) : e.GrowsBy e S :=
  ⟨Range.growsBy_refl _ _, Range.growsBy_refl _ _, rfl⟩

theorem GrowsBy.includeXY {before after : Extent α} {S : Point α → Prop} (h : before.GrowsBy after S) {p : Point α}
    (hp : S p) : before.GrowsBy (after.includeXY p) S :=
  ⟨h.x.including ⟨p, hp, rfl⟩, h.y.including ⟨p, hp, rfl⟩, h.z⟩

theorem GrowsBy.foldl_includeXY {before after : Extent α} {S : Point α → Prop} (h : before.GrowsBy after S)
    {ps : List (Point α)} (hps : ∀ p ∈ ps, S p) : before.GrowsBy (ps.foldl Extent.includeXY after) S := by
  induction ps generalizing after with
  | nil => exact h
  | cons p ps ih =>
      have hp : S p := hps p (by simp)
      exact ih (h.includeXY hp) fun p hp => hps p (by simp [hp])

end Extent

end

end PartProgram
