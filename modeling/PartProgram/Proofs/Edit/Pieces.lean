import PartProgram.Proofs.Edit.Cutting

/-! # Pieces that replay a move

The pieces of a move record where they go, and they are written with words that lead there. Relative
words are differences of rounded counts, so that they add up to the rounded displacement of the move and
only the last piece can miss the place that it records.
-/

namespace PartProgram

/-- An arc is cut into at most as many pieces as a move may have. -/
theorem Arc.pieceCount_le {α : Type} [Scalar α]
    (hlimit : ∀ n : α, ¬Scalar.ofNat maxPieces < n → Scalar.toNat n ≤ maxPieces) (arc : Arc α) (maxStep : α) :
    arc.pieceCount maxStep ≤ maxPieces := by
  have hone : 1 ≤ maxPieces := by decide
  have hpieces : ∀ n : α, (if !Scalar.isFinite n || n < 1 then 1
      else if Scalar.ofNat maxPieces < n then maxPieces else Scalar.toNat n) ≤ maxPieces := by
    intro n
    split
    · exact hone
    · split
      · exact le_rfl
      · rename_i hn
        exact hlimit n hn
  rw [pieceCount]
  split
  · exact hpieces _
  · exact hone

variable {α : Type} [Field α] [LinearOrder α] [IsStrictOrderedRing α] [FloorRing α] [PlaneFunctions α]

/-! ### What the pieces of a move have to be -/

/-- The displacement that a relative block commands on an axis. -/
def Block.displacement (b : Block α) (d : PathAxis) : α := (b.axes.get d.axis).getD 0

/-- The blocks are the move of `b` in straight pieces. A tool that starts where the move does and takes
the pieces one after the other gets to every place that they record; with relative words it may end half a
unit of the last written place beside the end of the move. -/
structure Block.ReplayedBy (machine : Machine α) (places : ℕ) (b : Block α) (pieces : List (Block α)) :
    Prop where
  nonempty : 1 ≤ pieces.length
  bounded : pieces.length ≤ Arc.maxPieces
  starts : pieces.head?.map (·.place.origin) = some b.place.origin
  joined : pieces.IsChain fun p q => q.place.origin = p.place.target
  ends : pieces.getLast?.map (·.place.target) = some b.place.target
  straight : ∀ p ∈ pieces, p.motion = .linear ∧ p.i = none ∧ p.j = none ∧ p.place.arc = none
  /-- Speeds, distance mode, codes and flags are those of the move. -/
  kept : ∀ p ∈ pieces, ∃ axes extra place, p =
    { b with motion := .linear, axes, i := none, j := none, extra, place, modified := true }
  extra : pieces.map (·.extra) = b.extra :: .replicate (pieces.length - 1) {}
  others : ∀ axis ∈ Cut.otherAxes,
    pieces.map (·.axes.get axis) = .replicate (pieces.length - 1) none ++ [b.axes.get axis]
  replayed : ∀ t : Tool α, t.position = b.place.origin →
    ∀ k p s, pieces[k]? = some p → (pass (Tool.step machine) t pieces).2[k]? = some s →
      s.place.origin = p.place.origin ∧ s.place.arc = none ∧
        (b.absolute = true ∨ k + 1 < pieces.length → s.place.target = p.place.target) ∧
        ∀ d, |s.place.target.on d - p.place.target.on d| ≤ 1 / 2 / 10 ^ places
  onGrid : b.absolute = false → ∀ p ∈ pieces, ∀ d : PathAxis, ∀ w ∈ p.axes.get d.axis,
    PartProgram.OnGrid places w
  total : b.absolute = false → ∀ d, (pieces.map (·.displacement d)).sum =
    Scalar.round (b.displacement d * 10 ^ places) / 10 ^ places
  exact : b.absolute = false → ∀ d, PartProgram.OnGrid places (b.displacement d) →
    (pieces.map (·.displacement d)).sum = b.displacement d

/-- The blocks lead from where `b` starts to where it ends, each on from the one before. -/
structure Block.JoinedBy {α : Type} (b : Block α) (pieces : List (Block α)) : Prop where
  starts : pieces.head?.map (·.place.origin) = some b.place.origin
  joined : pieces.IsChain fun p q => q.place.origin = p.place.target
  ends : pieces.getLast?.map (·.place.target) = some b.place.target

/-- Rounded to an integer, a number moves by at most a half. -/
theorem abs_round_sub_le (x : α) : |Scalar.round x - x| ≤ 1 / 2 := by
  have hfloor : ∀ y : α, |(⌊y + 1 / 2⌋ : α) - y| ≤ 1 / 2 := by
    intro y
    have hle := Int.floor_le (y + 1 / 2)
    have hlt := Int.lt_floor_add_one (y + 1 / 2)
    rw [abs_le]
    constructor <;> linarith
  by_cases h : 0 ≤ x
  · have hround : (Scalar.round x : α) = ⌊x + 1 / 2⌋ := if_pos h
    rw [hround]
    exact hfloor x
  · have hround : (Scalar.round x : α) = -⌊-x + 1 / 2⌋ := if_neg h
    rw [hround, ← abs_neg, neg_sub, sub_neg_eq_add, add_comm, ← sub_neg_eq_add]
    exact hfloor (-x)

theorem Scalar.round_zero : Scalar.round (0 : α) = 0 := by simpa using round_intCast (α := α) 0

namespace Cut

/-! ### Where the words of the pieces lead -/

/-- The cut of a placed move that stays within the limit, and at the height of a move that keeps its own. -/
structure OfPlaced (c : Cut α) : Prop extends c.OfMove where
  bounded : c.count ≤ Arc.maxPieces
  level : c.source.place.target.z = c.source.place.origin.z →
    ∀ k, (c.points k).z = c.source.place.origin.z

variable {c : Cut α} {k : ℕ} {machine : Machine α} {t : Tool α}

/-- Where the words of the first `k` pieces lead from the start of the move. -/
def replayed (c : Cut α) (k : ℕ) : Position α :=
  if c.source.absolute then c.reached k
  else c.source.place.origin + Position.ofTicks c.places (c.ticks k)

omit [IsStrictOrderedRing α] in
theorem reached_zero (c : Cut α) : c.reached 0 = c.source.place.origin := if_pos rfl

omit [IsStrictOrderedRing α] in
theorem reached_of_absolute (habsolute : c.source.absolute = true) (hk : k ≠ 0) : c.reached k = c.points k := by
  rw [reached, if_neg hk, habsolute, Bool.true_or, if_pos rfl]

omit [IsStrictOrderedRing α] in
theorem reached_count (hcount : c.count ≠ 0) (hfinish : c.points c.count = c.source.place.target) :
    c.reached c.count = c.source.place.target := by
  rw [reached, if_neg hcount, beq_self_eq_true, Bool.or_true, if_pos rfl, hfinish]

omit [IsStrictOrderedRing α] in
theorem on_replayed_of_relative (hrelative : c.source.absolute = false) (k : ℕ) (d : PathAxis) :
    (c.replayed k).on d = c.source.place.origin.on d + (c.ticks k).on d / Scalar.scale c.places := by
  rw [replayed, if_neg (by simp [hrelative])]
  cases d <;> rfl

omit [IsStrictOrderedRing α] in
theorem replayed_zero (c : Cut α) : c.replayed 0 = c.source.place.origin := by
  cases habsolute : c.source.absolute with
  | true => rw [replayed, if_pos habsolute, reached_zero]
  | false =>
      refine Position.ext_on fun d => ?_
      rw [on_replayed_of_relative habsolute, on_ticks_zero, zero_div, add_zero]

omit [IsStrictOrderedRing α] in
/-- The pieces record the places that their words lead to, except for the end of a relative move. -/
theorem replayed_eq_reached (h : c.source.absolute = true ∨ k ≠ c.count) : c.replayed k = c.reached k := by
  cases habsolute : c.source.absolute with
  | true => rw [replayed, if_pos habsolute]
  | false =>
      by_cases hk : k = 0
      · rw [hk, replayed_zero, reached_zero]
      · have hlast : (k == c.count) = false := beq_false_of_ne (h.resolve_left (by simp [habsolute]))
        rw [replayed, reached, if_neg hk, habsolute, hlast]
        rfl

/-- The end that is recorded for a relative move is at most half a written unit from where its words
lead. -/
theorem abs_replayed_sub_le (h : c.OfMove) (k : ℕ) (d : PathAxis) :
    |(c.replayed k).on d - (c.reached k).on d| ≤ 1 / 2 / 10 ^ c.places := by
  have hten : (0 : α) < 10 ^ c.places := by positivity
  by_cases hsame : c.source.absolute = true ∨ k ≠ c.count
  · rw [replayed_eq_reached hsame, sub_self, abs_zero]
    positivity
  · simp only [not_or, Bool.not_eq_true, not_not] at hsame
    obtain ⟨hrelative, rfl⟩ := hsame
    have hround := abs_round_sub_le
      ((c.source.place.target.on d - c.source.place.origin.on d) * (10 : α) ^ c.places)
    rw [on_replayed_of_relative hrelative, reached_count h.count h.finish, on_ticks c h.count, h.finish, scale_eq,
      le_div_iff₀ hten, ← abs_of_pos hten, ← abs_mul, abs_of_pos hten]
    calc _ = |Scalar.round ((c.source.place.target.on d - c.source.place.origin.on d) * 10 ^ c.places) -
          (c.source.place.target.on d - c.source.place.origin.on d) * 10 ^ c.places| := by
          congr 1
          field_simp
          ring
      _ ≤ 1 / 2 := hround

omit [IsStrictOrderedRing α] in
/-- An axis without words is Z in a move that keeps its height. -/
theorem eq_z_of_not_writes {d : PathAxis} (h : c.writes d = false) :
    d = .z ∧ c.source.z = none ∧ c.source.place.target.z = c.source.place.origin.z := by
  cases d with
  | x | y => simp [writes] at h
  | z =>
      rw [writes, Bool.or_eq_false_iff, bne_eq_false_iff_eq] at h
      exact ⟨rfl, Option.isSome_eq_false_iff.mp h.1 |> Option.isNone_iff_eq_none.mp, h.2⟩

/-- The pieces of a move that keeps its height stay there. -/
theorem z_replayed (h : c.OfPlaced) (hlevel : c.source.place.target.z = c.source.place.origin.z) (k : ℕ) :
    (c.replayed k).z = c.source.place.origin.z := by
  by_cases hk : k = 0
  · rw [hk, replayed_zero]
  · cases habsolute : c.source.absolute with
    | true =>
        rw [replayed, if_pos habsolute, reached_of_absolute habsolute hk]
        exact h.level hlevel k
    | false =>
        have hpoint : (c.points k).on .z - c.source.place.origin.on .z = 0 := sub_eq_zero.mpr (h.level hlevel k)
        change (c.replayed k).on .z = _
        rw [on_replayed_of_relative habsolute, on_ticks c hk, hpoint, zero_mul, Scalar.round_zero, zero_div, add_zero]
        rfl

/-- The words of a piece lead on from where those of the pieces before it have led. -/
theorem targetFrom_piece (h : c.OfPlaced) (hframe : c.source.machineFrame = false) (machine : Machine α) (k : ℕ) :
    (c.piece (k + 1)).targetFrom machine (c.replayed k) = c.replayed (k + 1) := by
  refine Position.ext_on fun d => ?_
  have hword : (c.piece (k + 1)).axes.get d.axis =
      if c.writes d then some ((c.written (k + 1)).on d) else none := c.get_axes (k + 1) d
  have hreach := Block.targetFrom_on (b := c.piece (k + 1)) hframe machine (c.replayed k) d
  have hmode : (c.piece (k + 1)).absolute = c.source.absolute := rfl
  rw [hreach, hword, hmode]
  cases hwrites : c.writes d with
  | true =>
      rw [if_pos rfl, reach, Option.elim]
      cases habsolute : c.source.absolute with
      | true =>
          rw [if_pos rfl, on_written_of_absolute habsolute, replayed, if_pos habsolute,
            reached_of_absolute habsolute k.succ_ne_zero]
      | false =>
          rw [if_neg (by simp), on_written_of_relative habsolute, on_replayed_of_relative habsolute,
            on_replayed_of_relative habsolute, Nat.add_sub_cancel]
          ring
  | false =>
      obtain ⟨rfl, -, hlevel⟩ := eq_z_of_not_writes hwrites
      have hstays : ∀ k, (c.replayed k).on .z = c.source.place.origin.z := z_replayed h hlevel
      rw [if_neg (by simp), reach, Option.elim, hstays, hstays]

/-- A tool that takes the pieces from the start of the move gets to where their words lead. -/
theorem pass_pieces (machine : Machine α) (h : c.OfPlaced) (hframe : c.source.machineFrame = false) {n : ℕ}
    (ht : t.position = c.replayed k) :
    List.Forall₂ (fun k (s : Block α) => s.place.origin = c.replayed k ∧ s.place.target = c.replayed (k + 1) ∧
      s.place.arc = none) (List.range' k n)
      (pass (Tool.step machine) t ((List.range' k n).map fun k => c.piece (k + 1))).2 := by
  induction n generalizing k t with
  | zero => exact .nil
  | succ n ih =>
      have htarget : (c.piece (k + 1)).targetFrom machine t.position = c.replayed (k + 1) := by
        rw [ht, targetFrom_piece h hframe]
      rw [List.range'_succ, List.map_cons, pass_cons]
      refine .cons ⟨?_, ?_, ?_⟩ (ih ?_)
      · rw [Tool.step_origin, ht]
      · rw [Tool.step_target, htarget]
      · rw [Tool.step_arc]
        rfl
      · rw [Tool.step_position, htarget]

/-! ### The pieces as a list -/

omit [IsStrictOrderedRing α] in
@[simp]
theorem length_pieces (c : Cut α) : c.pieces.length = c.count := by
  rw [pieces, List.length_map, List.length_range]

omit [IsStrictOrderedRing α] in
theorem getElem?_pieces {p : Block α} : c.pieces[k]? = some p ↔ k < c.count ∧ p = c.piece (k + 1) := by
  rw [pieces, List.getElem?_map, Option.map_eq_some_iff]
  constructor
  · rintro ⟨n, hn, rfl⟩
    obtain ⟨hk, rfl⟩ := List.getElem?_eq_some_iff.mp hn
    rw [List.getElem_range]
    exact ⟨by simpa using hk, rfl⟩
  · rintro ⟨hk, rfl⟩
    exact ⟨k, List.getElem?_range hk, rfl⟩

omit [IsStrictOrderedRing α] in
theorem displacement_piece (c : Cut α) (k : ℕ) (d : PathAxis) :
    (c.piece (k + 1)).displacement d = if c.writes d then (c.written (k + 1)).on d else 0 := by
  have hword := c.get_axes (k + 1) d
  rw [Block.displacement]
  change ((c.axes (k + 1)).get d.axis).getD 0 = _
  rw [hword]
  split <;> rfl

omit [IsStrictOrderedRing α] in
/-- The words for an axis add up to the count that they have reached. -/
theorem sum_displacement_range (hrelative : c.source.absolute = false) {d : PathAxis} (hwrites : c.writes d = true)
    (n : ℕ) : ((List.range n).map fun k => (c.piece (k + 1)).displacement d).sum =
      (c.ticks n).on d / Scalar.scale c.places := by
  induction n with
  | zero => rw [List.range_zero, List.map_nil, List.sum_nil, on_ticks_zero, zero_div]
  | succ n ih =>
      rw [List.range_succ, List.map_append, List.sum_append, ih, List.map_singleton, List.sum_singleton,
        displacement_piece, if_pos hwrites, on_written_of_relative hrelative, Nat.add_sub_cancel]
      ring

/-- The words for an axis add up to the displacement of the move, rounded. -/
theorem sum_displacement (hrelative : c.source.absolute = false) (h : c.OfMove) (d : PathAxis) :
    (c.pieces.map (·.displacement d)).sum =
      Scalar.round (c.source.displacement d * 10 ^ c.places) / 10 ^ c.places := by
  have hend : c.source.place.target.on d - c.source.place.origin.on d = c.source.displacement d := by
    rw [h.placed d, hrelative, Block.displacement]
    cases c.source.axes.get d.axis <;> simp [reach]
  rw [pieces, List.map_map]
  cases hwrites : c.writes d with
  | true =>
      refine (sum_displacement_range hrelative hwrites c.count).trans ?_
      rw [on_ticks c h.count, h.finish, hend, scale_eq]
  | false =>
      obtain ⟨rfl, hnone, -⟩ := eq_z_of_not_writes hwrites
      have hzero : c.source.displacement .z = 0 := by
        change c.source.z.getD 0 = 0
        rw [hnone]
        rfl
      rw [hzero, zero_mul, Scalar.round_zero, zero_div]
      refine List.sum_eq_zero ?_
      intro v hv
      obtain ⟨k, -, rfl⟩ := List.mem_map.mp hv
      rw [Function.comp_apply, displacement_piece, hwrites, if_neg (by simp)]

omit [IsStrictOrderedRing α] in
theorem exists_of_mem_pieces {p : Block α} (hp : p ∈ c.pieces) : ∃ k < c.count, p = c.piece (k + 1) := by
  obtain ⟨k, hk⟩ := List.mem_iff_getElem?.mp hp
  exact ⟨k, getElem?_pieces.mp hk⟩

omit [IsStrictOrderedRing α] in
theorem get_axes_of_mem_otherAxes (c : Cut α) {axis : Axis} (haxis : axis ∈ otherAxes) (k : ℕ) :
    (c.piece (k + 1)).axes.get axis = if k + 1 = c.count then c.source.axes.get axis else none := by
  change (c.axes (k + 1)).get axis = _
  rw [axes]
  simp only [otherAxes, List.mem_cons, List.not_mem_nil, or_false] at haxis
  rcases haxis with rfl | rfl | rfl | rfl | rfl | rfl <;> split <;> split <;>
    simp [otherAxes, AxisWords.set, AxisWords.none]

omit [IsStrictOrderedRing α] in
/-- The first piece has the words that are no part of the path. -/
theorem map_extra_pieces (h : c.count ≠ 0) :
    c.pieces.map (·.extra) = c.source.extra :: .replicate (c.count - 1) {} := by
  obtain ⟨n, hn⟩ := Nat.exists_eq_succ_of_ne_zero h
  rw [pieces, List.map_map, hn, List.range_succ_eq_map, List.map_cons, List.map_map]
  refine congrArg _ (List.eq_replicate_iff.mpr ⟨by simp, ?_⟩)
  intro e he
  obtain ⟨k, -, rfl⟩ := List.mem_map.mp he
  change (if k + 1 + 1 = 1 then c.source.extra else {}) = {}
  rw [if_neg (by omega)]

omit [IsStrictOrderedRing α] in
/-- The last piece has the words for the axes that have no part in the path. -/
theorem map_otherAxes_pieces (h : c.count ≠ 0) {axis : Axis} (haxis : axis ∈ otherAxes) :
    c.pieces.map (·.axes.get axis) = .replicate (c.count - 1) none ++ [c.source.axes.get axis] := by
  obtain ⟨n, hn⟩ := Nat.exists_eq_succ_of_ne_zero h
  rw [pieces, List.map_map, hn, List.range_succ, List.map_append, List.map_singleton]
  refine congrArg₂ _ (List.eq_replicate_iff.mpr ⟨by simp, ?_⟩) ?_
  · intro w hw
    obtain ⟨k, hk, rfl⟩ := List.mem_map.mp hw
    rw [List.mem_range] at hk
    exact (c.get_axes_of_mem_otherAxes haxis k).trans (if_neg (by omega))
  · exact congrArg (fun w => [w]) ((c.get_axes_of_mem_otherAxes haxis n).trans (if_pos hn.symm))

omit [IsStrictOrderedRing α] in
/-- The pieces lead from the start of the move to its end without a gap. -/
theorem joinedBy_pieces (hcount : c.count ≠ 0) (hfinish : c.points c.count = c.source.place.target) :
    c.source.JoinedBy c.pieces where
  starts := by
    rw [List.head?_eq_getElem?, getElem?_pieces.mpr ⟨Nat.pos_of_ne_zero hcount, rfl⟩]
    exact congrArg some c.reached_zero
  joined := by
    rw [List.isChain_iff_getElem]
    intro k hk
    simp only [pieces, List.getElem_map, List.getElem_range]
    rfl
  ends := by
    have hlast : c.pieces.getLast? = some (c.piece c.count) := by
      have hpred := Nat.sub_one_add_one hcount
      rw [List.getLast?_eq_getElem?, length_pieces, getElem?_pieces, hpred]
      exact ⟨by omega, rfl⟩
    rw [hlast]
    exact congrArg some (reached_count hcount hfinish)

/-- The pieces of a placed move replay it. -/
theorem OfPlaced.replayedBy (h : c.OfPlaced) (hframe : c.source.machineFrame = false) (machine : Machine α) :
    c.source.ReplayedBy machine c.places c.pieces := by
  constructor
  case nonempty =>
    rw [length_pieces]
    exact Nat.one_le_iff_ne_zero.mpr h.count
  case bounded =>
    rw [length_pieces]
    exact h.bounded
  case starts => exact (joinedBy_pieces h.count h.finish).starts
  case joined => exact (joinedBy_pieces h.count h.finish).joined
  case ends => exact (joinedBy_pieces h.count h.finish).ends
  case straight =>
    intro p hp
    obtain ⟨k, -, rfl⟩ := exists_of_mem_pieces hp
    exact ⟨rfl, rfl, rfl, rfl⟩
  case kept =>
    intro p hp
    obtain ⟨k, -, rfl⟩ := exists_of_mem_pieces hp
    exact ⟨_, _, _, rfl⟩
  case extra =>
    rw [length_pieces]
    exact map_extra_pieces h.count
  case others =>
    intro axis haxis
    rw [length_pieces]
    exact map_otherAxes_pieces h.count haxis
  case replayed =>
    intro t ht k p s hp hs
    obtain ⟨hk, rfl⟩ := getElem?_pieces.mp hp
    have hrun := pass_pieces machine h hframe (n := c.count) (ht.trans c.replayed_zero.symm)
    rw [← List.range_eq_range', ← pieces] at hrun
    obtain ⟨s', hs', horigin, htarget, harc⟩ := exists_getElem?_of_forall₂ hrun (List.getElem?_range hk)
    obtain rfl := Option.some.inj (hs.symm.trans hs')
    rw [length_pieces]
    refine ⟨?_, harc, fun hexact => ?_, fun d => ?_⟩
    · exact horigin.trans (replayed_eq_reached (.inr hk.ne))
    · exact htarget.trans (replayed_eq_reached (hexact.imp id Nat.ne_of_lt))
    · rw [htarget]
      exact abs_replayed_sub_le h.toOfMove (k + 1) d
  case onGrid =>
    intro hrelative p hp d w hw
    obtain ⟨k, -, rfl⟩ := exists_of_mem_pieces hp
    have hword : (c.piece (k + 1)).axes.get d.axis = _ := c.get_axes (k + 1) d
    rw [hword] at hw
    split at hw
    · obtain rfl := Option.some.inj hw
      exact onGrid_written hrelative _ _
    · simp at hw
  case total => exact fun hrelative d => sum_displacement hrelative h.toOfMove d
  case exact =>
    intro hrelative d hgrid
    have hround := round_mul_scale_div hgrid
    rw [scale_eq] at hround
    rw [sum_displacement hrelative h.toOfMove d, hround]

end Cut

/-! ### Arcs and long moves -/

namespace Block

variable {b : Block α}

/-- Cut off after the point, a number within the limit on pieces stays within it. -/
theorem toNat_le_maxPieces {x : α} (h : ¬Scalar.ofNat Arc.maxPieces < x) : Scalar.toNat x ≤ Arc.maxPieces := by
  have hlimit : (Scalar.ofNat Arc.maxPieces : α) = ((Arc.maxPieces : ℤ) : α) := (Int.cast_natCast _).symm
  rw [hlimit, not_lt] at h
  have hfloor : ⌊x⌋ ≤ (Arc.maxPieces : ℤ) := by exact_mod_cast (Int.floor_le x).trans h
  change ⌊x⌋.toNat ≤ Arc.maxPieces
  omega

theorem count_lineCut (b : Block α) (maxStep : α) (places : ℕ) :
    (b.lineCut maxStep places).count = max 1 (min Arc.maxPieces ⌈b.planarLength / maxStep⌉.toNat) := by
  change max 1 (min Arc.maxPieces ⌊((⌈b.planarLength / maxStep⌉ : ℤ) : α)⌋.toNat) = _
  rw [Int.floor_intCast]

/-- Both ways to cut a placed move keep the height of a move that keeps its own. -/
theorem ofPlaced_arcCut (hmove : ∀ d, b.place.target.on d =
    reach b.absolute (b.axes.get d.axis) (b.place.origin.on d)) (arc : Arc α) (maxStep : α) (places : ℕ) :
    (b.arcCut arc maxStep places).OfPlaced where
  count := pieceCount_ne_zero (fun _ _ h => toNat_ne_zero h) arc maxStep
  finish := if_pos rfl
  placed := hmove
  bounded := Arc.pieceCount_le (fun _ h => toNat_le_maxPieces h) arc maxStep
  level := by
    intro hlevel k
    change b.place.target.z = b.place.origin.z at hlevel
    simp only [arcCut]
    split
    · exact hlevel
    · rw [hlevel, sub_self, zero_mul, add_zero]

omit [IsStrictOrderedRing α] in
theorem ofPlaced_lineCut (hmove : ∀ d, b.place.target.on d =
    reach b.absolute (b.axes.get d.axis) (b.place.origin.on d)) (maxStep : α) (places : ℕ) :
    (b.lineCut maxStep places).OfPlaced where
  count := (Nat.lt_of_lt_of_le Nat.one_pos (Nat.le_max_left 1 _)).ne'
  finish := if_pos rfl
  placed := hmove
  bounded := Nat.max_le.mpr ⟨by decide, Nat.min_le_left _ _⟩
  level := by
    intro hlevel k
    change b.place.target.z = b.place.origin.z at hlevel
    simp only [lineCut]
    split
    · exact hlevel
    · rw [hlevel, sub_self, zero_mul, add_zero]

/-- A placed arc that is flattened, and a placed move that is split, are replayed by their pieces. -/
theorem replayed_pieces {machine : Machine α} (hplaced : b.place.target = b.targetFrom machine b.place.origin)
    (hframe : b.machineFrame = false) (maxStep : α) (places : ℕ) :
    (b.place.arc.isSome = true → b.ReplayedBy machine places (b.flattenArc maxStep places)) ∧
      (b.isLong maxStep = true → b.ReplayedBy machine places (b.splitLine maxStep places)) := by
  have hmove : ∀ d, b.place.target.on d = reach b.absolute (b.axes.get d.axis) (b.place.origin.on d) := by
    intro d
    rw [hplaced]
    exact targetFrom_on hframe machine b.place.origin d
  constructor
  · intro hsome
    obtain ⟨arc, harc⟩ := Option.isSome_iff_exists.mp hsome
    have hflat : b.flattenArc maxStep places = (b.arcCut arc maxStep places).pieces := by rw [flattenArc, harc]
    rw [hflat]
    exact (ofPlaced_arcCut hmove arc maxStep places).replayedBy hframe machine
  · intro hlong
    rw [splitLine, if_pos hlong]
    exact (ofPlaced_lineCut hmove maxStep places).replayedBy hframe machine

/-- A half circle that rises, and a relative move whose third is not on the grid. -/
theorem replayed_half_circle :
    let _ := PlaneFunctions.axial
    let machine : Machine ℚ := .default
    let arc := ((Tool.atStart machine).step machine
      (Block.read 0 "G91 G2 X2 Z0.0005 I1 A3 F100 (rise)" (Modal.initial : Modal ℚ)).2).2
    let line := ((Tool.atStart machine).step machine
      (Block.read 0 "G91 G1 X10 Y0.01 F100" (Modal.initial : Modal ℚ)).2).2
    (arc.place.target = arc.targetFrom machine arc.place.origin ∧ arc.machineFrame = false ∧
      arc.place.arc.isSome = true) ∧
    (line.place.target = line.targetFrom machine line.place.origin ∧ line.machineFrame = false ∧
      line.isLong 4 = true) ∧
    (arc.flattenArc 0.5 2).length = 4 ∧ (line.splitLine 4 2).length = 3 ∧
    arc.ReplayedBy machine 2 (arc.flattenArc 0.5 2) ∧ line.ReplayedBy machine 2 (line.splitLine 4 2) := by
  intro _ machine arc line
  have harc : arc.place.target = arc.targetFrom machine arc.place.origin ∧ arc.machineFrame = false ∧
      arc.place.arc.isSome = true := by decide +kernel
  have hline : line.place.target = line.targetFrom machine line.place.origin ∧ line.machineFrame = false ∧
      line.isLong 4 = true := by decide +kernel
  exact ⟨harc, hline, by decide +kernel, by decide +kernel,
    (replayed_pieces harc.1 harc.2.1 0.5 2).1 harc.2.2, (replayed_pieces hline.1 hline.2.1 4 2).2 hline.2.2⟩

end Block

end PartProgram
