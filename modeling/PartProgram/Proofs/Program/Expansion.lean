import Mathlib.Data.List.GetD
import Mathlib.Order.Monotone.Basic
import PartProgram.Proofs.Program.Reading

/-! # Lines that give way to groups

In place of each line of a program there is a group of lines. The first line of a group has the codes of
the line, the others have none, and a line that calls or names a subroutine stays alone. Then the groups
run in the order of the lines.
-/

namespace PartProgram

/-! ### Where the groups are -/

/-- How many lines there are before group `n`. A group that is missing counts as a line. -/
def groupStart : List (List String) → ℕ → ℕ
  | _, 0 => 0
  | [], n + 1 => n + 1
  | group :: groups, n + 1 => group.length + groupStart groups n

section

variable (groups : List (List String))

theorem groupStart_nil (n : ℕ) : groupStart [] n = n := by cases n <;> rfl

theorem groupStart_succ (n : ℕ) :
    groupStart groups (n + 1) = groupStart groups n + (groups.getD n [""]).length := by
  induction groups generalizing n with
  | nil => simp [groupStart_nil]
  | cons group groups ih =>
      cases n with
      | zero => simp [groupStart]
      | succ n =>
          rw [groupStart, ih, groupStart, List.getD_cons_succ]
          omega

theorem groupStart_length : groupStart groups groups.length = groups.flatten.length := by
  induction groups with
  | nil => rfl
  | cons group groups ih => rw [List.length_cons, groupStart, ih, List.flatten_cons, List.length_append]

theorem getD_flatten {n k : ℕ} (hk : k < (groups.getD n [""]).length) :
    groups.flatten.getD (groupStart groups n + k) "" = (groups.getD n [""]).getD k "" := by
  induction groups generalizing n with
  | nil =>
      have hzero : k = 0 := by simpa using hk
      simp [hzero]
  | cons group groups ih =>
      rw [List.flatten_cons]
      cases n with
      | zero =>
          rw [List.getD_cons_zero] at hk ⊢
          rw [groupStart, Nat.zero_add, List.getD_append _ _ _ _ hk]
      | succ n =>
          rw [groupStart, List.getD_append_right _ _ _ _ (by omega), List.getD_cons_succ, ← ih hk]
          congr 1
          omega

end

/-- The numbers of the lines that stand for line `n`. -/
def groupOf (start : ℕ → ℕ) (n : ℕ) : List ℕ := List.range' (start n) (start (n + 1) - start n)

/-- The steps on the lines of a group, with the mark of the step that they stand for. -/
def stepsOf (start : ℕ → ℕ) (step : Bool × ℕ) : List (Bool × ℕ) := (groupOf start step.2).map (step.1, ·)

theorem flatMap_groupOf {start : ℕ → ℕ} (hstart : StrictMono start) (n k : ℕ) :
    (List.range' n k).flatMap (groupOf start) = List.range' (start n) (start (n + k) - start n) := by
  induction k generalizing n with
  | zero => simp
  | succ k ih =>
      have hfirst : start n ≤ start (n + 1) := hstart.monotone (by omega)
      have hrest : start (n + 1) ≤ start (n + 1 + k) := hstart.monotone (by omega)
      have hshift : n + 1 + k = n + (k + 1) := by omega
      rw [hshift] at hrest
      rw [List.range'_succ, List.flatMap_cons, ih, groupOf, hshift]
      have happend : List.range' (start n) (start (n + 1) - start n) ++
          List.range' (start n + 1 * (start (n + 1) - start n)) (start (n + (k + 1)) - start (n + 1)) = _ :=
        List.range'_append
      have hmiddle : start n + 1 * (start (n + 1) - start n) = start (n + 1) := by omega
      rw [hmiddle] at happend
      rw [happend]
      congr 1
      omega

theorem groupOf_eq_cons {start : ℕ → ℕ} (hstart : StrictMono start) (n : ℕ) :
    groupOf start n = start n :: List.range' (start n + 1) (start (n + 1) - start n - 1) := by
  have hlt : start n < start (n + 1) := hstart (Nat.lt_succ_self n)
  obtain ⟨k, hk⟩ := Nat.exists_eq_add_of_lt hlt
  have hsize : start (n + 1) - start n = k + 1 := by omega
  rw [groupOf, hsize, List.range'_succ, Nat.add_sub_cancel]

theorem groupOf_eq_singleton {start : ℕ → ℕ} {n : ℕ} (h : start (n + 1) = start n + 1) :
    groupOf start n = [start n] := by
  rw [groupOf, h, Nat.add_sub_cancel_left]
  rfl

/-! ### The order of groups -/

def Body.moved (start : ℕ → ℕ) (b : Body) : Body := ⟨start b.start, start b.stop⟩

theorem Body.lines_moved {start : ℕ → ℕ} (hstart : StrictMono start) (b : Body) :
    (b.moved start).lines = b.lines.flatMap (groupOf start) := by
  rw [lines, lines, flatMap_groupOf hstart, moved]
  by_cases h : b.start ≤ b.stop
  · rw [Nat.add_sub_of_le h]
  · have hstop : start b.stop ≤ start b.start := hstart.monotone (by omega)
    have hempty : b.stop - b.start = 0 := by omega
    rw [hempty, Nat.add_zero, Nat.sub_self, Nat.sub_eq_zero_of_le hstop]

def Found.moved (start : ℕ → ℕ) (found : Found) : Found := found.map fun f => (f.1, f.2.moved start)

variable {α : Type} [Scalar α]

namespace Source

/-- The second way to replace calls gives the groups of the lines that the first one gives. -/
def Routing.Moves (start : ℕ → ℕ) (nested nested' : Routing) : Prop :=
  ∀ call n found, start (n + 1) = start n + 1 →
    nested' call (start n) (found.moved start) =
      ((nested call n found).1.moved start, (nested call n found).2.flatMap (groupOf start))

variable (α) in
/-- In the second program group `n` begins at line `start n`. -/
structure Expands (start : ℕ → ℕ) (s s' : Source) : Prop where
  zero : start 0 = 0
  mono : StrictMono start
  size : s'.lines.size = start s.lines.size
  codes : ∀ n, s'.codesAt α (start n) = s.codesAt α n
  inner : ∀ n k, start n < k → k < start (n + 1) → s'.codesAt α k = {}
  call : ∀ n, (s.codesAt α n).call?.isSome → start (n + 1) = start n + 1
  label : ∀ l ∈ s.marks.labels, start (l.1 + 1) = start l.1 + 1
  labels : s'.marks.labels = s.marks.labels.map fun l => (start l.1, l.2)
  returns : s'.marks.returns = s.marks.returns.map start
  rules : s'.rules = s.rules

namespace Expands

variable {start : ℕ → ℕ} {s s' : Source} (h : Expands α start s s')

include h

theorem search_eq (id n : ℕ) :
    s'.marks.search id (start n) = (s.marks.search id n).map (Body.moved start) := by
  have hlabel : ((fun l : ℕ × ℕ => l.2 == id && decide (start n ≤ l.1)) ∘ fun l : ℕ × ℕ => (start l.1, l.2)) =
      fun l : ℕ × ℕ => l.2 == id && decide (n ≤ l.1) := by
    funext l
    simp [h.mono.le_iff_le]
  have hreturn : ∀ line,
      ((fun stop => decide (start line < stop)) ∘ start) = fun stop => decide (line < stop) := by
    intro line
    funext stop
    simp [h.mono.lt_iff_lt]
  simp only [Landmarks.search, h.labels, List.find?_map, hlabel]
  cases hfind : s.marks.labels.find? fun l : ℕ × ℕ => l.2 == id && decide (n ≤ l.1) with
  | none => rfl
  | some l =>
      have hnext := h.label l (List.mem_of_find?_eq_some hfind)
      simp only [Option.map_some, Option.bind_some, h.returns, List.find?_map, hreturn, Option.map_map]
      congr 1
      funext stop
      simp [Body.moved, hnext]

theorem locate_eq {n : ℕ} (hn : start (n + 1) = start n + 1) (found : Found) (id : ℕ) :
    s'.marks.locate s'.rules (found.moved start) id (start n) =
      ((s.marks.locate s.rules found id n).1.moved start,
        (s.marks.locate s.rules found id n).2.map (Body.moved start)) := by
  have hafter : s'.marks.search id (start n + 1) = (s.marks.search id (n + 1)).map (Body.moved start) := by
    rw [← hn, h.search_eq]
  have hall : s'.marks.search id 0 = (s.marks.search id 0).map (Body.moved start) := by
    rw [← h.search_eq, h.zero]
  have hsearch : (s'.marks.search id (start n + 1)).or (if s.rules.rescan then s'.marks.search id 0 else none) =
      ((s.marks.search id (n + 1)).or (if s.rules.rescan then s.marks.search id 0 else none)).map
        (Body.moved start) := by
    rw [hafter, hall, Option.map_or]
    split <;> rfl
  simp only [Landmarks.locate, h.rules, hsearch]
  cases found with
  | none =>
      simp only [Found.moved, Option.map_none]
      cases (s.marks.search id (n + 1)).or (if s.rules.rescan then s.marks.search id 0 else none) <;> rfl
  | some f =>
      obtain ⟨last, body⟩ := f
      simp only [Found.moved, Option.map_some]
      split
      · rfl
      · cases (s.marks.search id (n + 1)).or (if s.rules.rescan then s.marks.search id 0 else none) <;> rfl

/-! ### Routes -/

/-- Only the first line of a group can have codes. -/
theorem codes_of_mem_groupOf {n k : ℕ} (hk : k ∈ groupOf start n) :
    s'.codesAt α k = s.codesAt α n ∧ k = start n ∨ s'.codesAt α k = {} := by
  obtain ⟨i, hi, rfl⟩ := List.mem_range'.mp hk
  rw [Nat.one_mul]
  cases i with
  | zero => exact .inl ⟨h.codes n, rfl⟩
  | succ i => exact .inr (h.inner n _ (by omega) (by omega))

omit h in
/-- Lines without calls run one after the other. -/
theorem pass_routeLine_of_call_eq_none (nested : Routing) (found : Found) {ns : List ℕ}
    (hns : ∀ n ∈ ns, (s'.codesAt α n).call? = none) :
    pass (s'.routeLine α nested) found ns = (found, ns.map fun n => [n]) := by
  induction ns generalizing found with
  | nil => rfl
  | cons n ns ih =>
      have hn : s'.routeLine α nested found n = (found, [n]) := by
        rw [routeLine, hns n (by simp)]
      rw [pass_cons, hn, ih found fun n hn => hns n (by simp [hn]), List.map_cons]

theorem pass_routeLine {nested nested' : Routing} (hnested : Routing.Moves start nested nested') (found : Found)
    (n : ℕ) :
    (pass (s'.routeLine α nested') (found.moved start) (groupOf start n)).1 =
        (s.routeLine α nested found n).1.moved start ∧
      (pass (s'.routeLine α nested') (found.moved start) (groupOf start n)).2.flatten =
        (s.routeLine α nested found n).2.flatMap (groupOf start) := by
  cases hcall : (s.codesAt α n).call? with
  | none =>
      have hgroup : ∀ k ∈ groupOf start n, (s'.codesAt α k).call? = none := by
        intro k hk
        rcases h.codes_of_mem_groupOf hk with ⟨hcodes, -⟩ | hcodes
        · rw [hcodes, hcall]
        · rw [hcodes]
          rfl
      have hline : s.routeLine α nested found n = (found, [n]) := by
        rw [routeLine, hcall]
      rw [pass_routeLine_of_call_eq_none _ _ hgroup, hline]
      refine ⟨rfl, ?_⟩
      rw [List.flatMap_singleton, ← List.flatMap_def, List.flatMap_singleton']
  | some call =>
      have hsingle := h.call n (by rw [hcall, Option.isSome_some])
      have hline : s'.routeLine α nested' (found.moved start) (start n) =
          ((nested call n found).1.moved start,
            start n :: (nested call n found).2.flatMap (groupOf start)) := by
        rw [routeLine, h.codes, hcall]
        simp only [hnested call n found hsingle]
      rw [groupOf_eq_singleton hsingle, pass_cons, pass_nil, hline, routeLine, hcall]
      simp [groupOf_eq_singleton hsingle]

theorem routeBody_eq {nested nested' : Routing} (hnested : Routing.Moves start nested nested') (body : Body)
    (found : Found) :
    s'.routeBody α nested' (body.moved start) (found.moved start) =
      ((s.routeBody α nested body found).1.moved start,
        (s.routeBody α nested body found).2.flatMap (groupOf start)) := by
  obtain ⟨hfound, hlines⟩ := pass_flatMap (h.pass_routeLine hnested) found body.lines
  rw [routeBody, routeBody, Body.lines_moved h.mono]
  exact Prod.ext hfound hlines

theorem routeWith_eq {nested nested' : Routing} (hnested : Routing.Moves start nested nested') :
    Routing.Moves start (s.routeWith α nested) (s'.routeWith α nested') := by
  intro call n found hsingle
  rw [routeWith, routeWith, h.locate_eq hsingle]
  rcases s.marks.locate s.rules found call.id n with ⟨found, _ | body⟩
  · rfl
  · have hruns : ∀ (found : Found) (i : ℕ),
        (pass (fun found (_ : ℕ) => s'.routeBody α nested' (body.moved start) found) (found.moved start)
              [i]).1 = (s.routeBody α nested body found).1.moved start ∧
          (pass (fun found (_ : ℕ) => s'.routeBody α nested' (body.moved start) found) (found.moved start)
              [i]).2.flatten = (s.routeBody α nested body found).2.flatMap (groupOf start) := by
      intro found i
      rw [pass_cons, pass_nil, h.routeBody_eq hnested, List.flatten_singleton]
      exact ⟨rfl, rfl⟩
    obtain ⟨hfound, hlines⟩ := pass_flatMap hruns found (List.range call.times)
    rw [List.flatMap_singleton'] at hfound hlines
    exact Prod.ext hfound hlines

theorem route_eq (depth : ℕ) : Routing.Moves start (s.route α depth) (s'.route α depth) := by
  induction depth with
  | zero =>
      rw [route, route]
      exact h.routeWith_eq fun _ _ _ _ => rfl
  | succ depth ih =>
      rw [route, route]
      exact h.routeWith_eq ih

/-! ### The order of the whole program -/

omit h in
/-- Lines without codes run one after the other. -/
theorem pass_routeTop_of_codes_eq (state : Found × Bool) {ns : List ℕ} (hns : ∀ n ∈ ns, s'.codesAt α n = {}) :
    pass (s'.routeTop α) state ns = (state, ns.map fun n => [(false, n)]) := by
  induction ns generalizing state with
  | nil => rfl
  | cons n ns ih =>
      have hn : s'.routeTop α state n = (state, [(false, n)]) := by
        simp [routeTop, hns n (by simp), LineCodes.call?, LineCodes.endsProgram]
      rw [pass_cons, hn, ih state fun n hn => hns n (by simp [hn]), List.map_cons]

theorem routeTop_start (found : Found) (ended : Bool) (n : ℕ) :
    ∃ (found₁ : Found) (ns : List ℕ), (ns = [] ∨ groupOf start n = [start n]) ∧
      s.routeTop α (found, ended) n =
        ((found₁, ended || (s.codesAt α n).endsProgram), (false, n) :: ns.map (true, ·)) ∧
      s'.routeTop α (found.moved start, ended) (start n) =
        ((found₁.moved start, ended || (s.codesAt α n).endsProgram),
          (false, start n) :: (ns.flatMap (groupOf start)).map (true, ·)) := by
  simp only [routeTop, h.codes, h.rules]
  cases hcall : (s.codesAt α n).call? with
  | none => exact ⟨found, [], .inl rfl, rfl, rfl⟩
  | some call =>
      have hsingle := h.call n (by rw [hcall, Option.isSome_some])
      cases ended with
      | true => exact ⟨found, [], .inl rfl, rfl, rfl⟩
      | false =>
          refine ⟨_, _, .inr (groupOf_eq_singleton hsingle), rfl, ?_⟩
          simp only [Bool.false_eq_true, if_false, h.route_eq _ call n found hsingle]

theorem pass_routeTop (state : Found × Bool) (n : ℕ) :
    (pass (s'.routeTop α) (state.map (Found.moved start) id) (groupOf start n)).1 =
        (s.routeTop α state n).1.map (Found.moved start) id ∧
      (pass (s'.routeTop α) (state.map (Found.moved start) id) (groupOf start n)).2.flatten =
        (s.routeTop α state n).2.flatMap (stepsOf start) := by
  obtain ⟨found, ended⟩ := state
  obtain ⟨found₁, ns, hcalls, hline, hgroup⟩ := h.routeTop_start found ended n
  have hrest : ∀ k ∈ List.range' (start n + 1) (start (n + 1) - start n - 1), s'.codesAt α k = {} := by
    intro k hk
    obtain ⟨i, hi, rfl⟩ := List.mem_range'.mp hk
    exact h.inner n _ (by omega) (by omega)
  have hcons := groupOf_eq_cons h.mono n
  rw [Prod.map_apply, id, hline, hcons, pass_cons, hgroup, pass_routeTop_of_codes_eq _ hrest]
  refine ⟨rfl, ?_⟩
  rw [List.flatten_cons, ← List.flatMap_def, List.flatMap_cons, List.flatMap_map, stepsOf]
  rcases hcalls with rfl | hsingle
  · rw [hcons]
    simp [List.map_eq_flatMap]
  · have hnone : List.range' (start n + 1) (start (n + 1) - start n - 1) = [] := by
      rw [hcons] at hsingle
      exact (List.cons.inj hsingle).2
    rw [hsingle, hnone]
    simp [stepsOf, List.map_flatMap]

/-- The groups run in the order of the lines. -/
theorem order_eq : s'.order α = (s.order α).flatMap (stepsOf start) := by
  have hrange : List.range s'.lines.size = (List.range s.lines.size).flatMap (groupOf start) := by
    rw [List.range_eq_range', List.range_eq_range', flatMap_groupOf h.mono, Nat.zero_add, h.zero, Nat.sub_zero,
      h.size]
  rw [order, order, hrange]
  exact (pass_flatMap h.pass_routeTop (none, false) (List.range s.lines.size)).2

end Expands

/-! ### Groups of lines -/

variable (α) in
/-- The group can stand for the line. -/
structure IsGroup (line : String) (group : List String) : Prop where
  ne_nil : group ≠ []
  head : ∀ first ∈ group.head?, LineCodes.ofLine α first = LineCodes.ofLine α line
  tail : ∀ other ∈ group.tail, LineCodes.ofLine α other = {}
  alone : (LineCodes.ofLine α line).call?.isSome ∨ (LineCodes.ofLine α line).o.isSome → group.tail = []

theorem isGroup_singleton {line line' : String} (h : LineCodes.ofLine α line' = LineCodes.ofLine α line) :
    IsGroup α line [line'] :=
  ⟨by simp, by simpa using h, by simp, by simp⟩

variable {lines : List String} {groups : List (List String)}

theorem isGroup_getD (h : List.Forall₂ (IsGroup α) lines groups) (n : ℕ) :
    IsGroup α (lines.getD n "") (groups.getD n [""]) := by
  induction h generalizing n with
  | nil => exact isGroup_singleton rfl
  | cons hline _ ih =>
      cases n with
      | zero => exact hline
      | succ n => exact ih n

/-- What is picked from the codes of the lines is found again at the beginning of the groups. -/
theorem filterMap_groups {β : Type} (pick : LineCodes → Option β) (hpick : pick {} = none)
    (h : List.Forall₂ (IsGroup α) lines groups) {start : ℕ → ℕ} {n : ℕ}
    (hstart : ∀ i, start (n + i + 1) = start (n + i) + (groups.getD i [""]).length) :
    (groups.flatten.zipIdx (start n)).filterMap (fun l => (pick (LineCodes.ofLine α l.1)).map (l.2, ·)) =
      ((lines.zipIdx n).filterMap fun l => (pick (LineCodes.ofLine α l.1)).map (l.2, ·)).map
        fun l => (start l.1, l.2) := by
  induction h generalizing n with
  | nil => rfl
  | @cons line group lines groups hline _ ih =>
      obtain ⟨first, rest, rfl⟩ := List.exists_cons_of_ne_nil hline.ne_nil
      have hhead : LineCodes.ofLine α first = LineCodes.ofLine α line := hline.head first rfl
      have hrest : (rest.zipIdx (start n + 1)).filterMap
          (fun l => (pick (LineCodes.ofLine α l.1)).map (l.2, ·)) = [] := by
        rw [List.filterMap_eq_nil_iff]
        intro l hl
        have hnone : LineCodes.ofLine α l.1 = {} := hline.tail l.1 (List.fst_mem_of_mem_zipIdx hl)
        rw [hnone, hpick]
        rfl
      have hnext : start n + (first :: rest).length = start (n + 1) := (hstart 0).symm
      have htail := ih (n := n + 1) fun i => by
        have hi := hstart (i + 1)
        rw [List.getD_cons_succ] at hi
        have hshift : n + (i + 1) = n + 1 + i := by omega
        rwa [hshift] at hi
      rw [List.flatten_cons, List.zipIdx_append, List.filterMap_append, hnext, htail, List.zipIdx_cons,
        List.zipIdx_cons, List.filterMap_cons, List.filterMap_cons, hrest, hhead]
      cases pick (LineCodes.ofLine α line) <;> rfl

/-- Groups of lines make a program that runs them as the lines ran. -/
theorem expands_ofLines (h : List.Forall₂ (IsGroup α) lines groups) (rules : CallRules) (markers : Markers) :
    Expands α (groupStart groups) (ofLines α lines rules markers) (ofLines α groups.flatten rules markers) := by
  have hcodes : ∀ (ls : List String) (n : ℕ),
      (ofLines α ls rules markers).codesAt α n = LineCodes.ofLine α (ls.getD n "") := by
    intro ls n
    simp [codesAt, ofLines]
  have hpositive : ∀ n, 0 < (groups.getD n [""]).length := fun n =>
    List.length_pos_of_ne_nil (isGroup_getD h n).ne_nil
  have hgroup : ∀ n k, k < (groups.getD n [""]).length →
      (ofLines α groups.flatten rules markers).codesAt α (groupStart groups n + k) =
        LineCodes.ofLine α ((groups.getD n [""]).getD k "") := by
    intro n k hk
    rw [hcodes, getD_flatten groups hk]
  have hstart : ∀ i,
      groupStart groups (0 + i + 1) = groupStart groups (0 + i) + (groups.getD i [""]).length := by
    intro i
    rw [Nat.zero_add, groupStart_succ]
  have halone : ∀ n, ((LineCodes.ofLine α (lines.getD n "")).call?.isSome ∨
      (LineCodes.ofLine α (lines.getD n "")).o.isSome) →
      groupStart groups (n + 1) = groupStart groups n + 1 := by
    intro n hn
    have hline := isGroup_getD h n
    obtain ⟨first, rest, hcons⟩ := List.exists_cons_of_ne_nil hline.ne_nil
    have htail := hline.alone hn
    rw [hcons, List.tail_cons] at htail
    rw [groupStart_succ, hcons, htail]
    rfl
  constructor
  case zero => cases groups <;> rfl
  case mono =>
    refine strictMono_nat_of_lt_succ fun n => ?_
    have hn := hpositive n
    rw [groupStart_succ]
    omega
  case size =>
    have hlength := h.length_eq
    simp only [ofLines, List.size_toArray]
    rw [hlength, groupStart_length]
  case codes =>
    intro n
    have hline := isGroup_getD h n
    obtain ⟨first, rest, hcons⟩ := List.exists_cons_of_ne_nil hline.ne_nil
    have hfirst := hgroup n 0 (hpositive n)
    rw [hcons, List.getD_cons_zero] at hfirst
    rw [hcodes lines n, ← hline.head first (by rw [hcons]; rfl), ← hfirst]
    rfl
  case inner =>
    intro n k hk hlast
    rw [groupStart_succ] at hlast
    obtain ⟨i, rfl⟩ := Nat.exists_eq_add_of_lt hk
    have hi : i + 1 < (groups.getD n [""]).length := by omega
    rw [Nat.add_assoc, hgroup n (i + 1) hi]
    refine (isGroup_getD h n).tail _ ?_
    obtain ⟨first, rest, hcons⟩ := List.exists_cons_of_ne_nil (isGroup_getD h n).ne_nil
    rw [hcons] at hi ⊢
    rw [List.getD_cons_succ, List.tail_cons, List.getD_eq_getElem _ _ (by simpa using hi)]
    exact List.getElem_mem _
  case call => exact fun n hn => halone n (.inl (hcodes lines n ▸ hn))
  case label =>
    intro l hl
    refine halone l.1 (.inr ?_)
    simp only [ofLines, Landmarks.labels_ofLines, List.mem_filterMap] at hl
    obtain ⟨⟨line, n⟩, hmem, hlabel⟩ := hl
    obtain ⟨o, ho, rfl⟩ := Option.map_eq_some_iff.mp hlabel
    have hget := List.mk_mem_zipIdx_iff_getElem?.mp hmem
    rw [List.getD_eq_getElem?_getD, hget, Option.getD_some, ho]
    rfl
  case labels =>
    simp only [ofLines, Landmarks.labels_ofLines]
    have hlabels := filterMap_groups (fun codes => codes.o) rfl h hstart
    rwa [show groupStart groups 0 = 0 by cases groups <;> rfl] at hlabels
  case returns =>
    have hfilter : ∀ ls : List (String × ℕ),
        (ls.filter fun l => (LineCodes.ofLine α l.1).returns).map Prod.snd =
        (ls.filterMap fun l => (if (LineCodes.ofLine α l.1).returns then some () else none).map (l.2, ·)).map
          Prod.fst := by
      intro ls
      induction ls with
      | nil => rfl
      | cons l ls ih => by_cases hl : (LineCodes.ofLine α l.1).returns <;> simp [hl, ih]
    simp only [ofLines, Landmarks.returns_ofLines, hfilter]
    have hreturns := filterMap_groups (fun codes => if codes.returns then some () else none) rfl h hstart
    rw [show groupStart groups 0 = 0 by cases groups <;> rfl] at hreturns
    rw [hreturns, List.map_map, List.map_map]
    rfl
  case rules => rfl

end Source

/-! ### What a program of groups runs -/

/-- A program of groups runs the group of each line that the program of the lines runs. -/
theorem Program.texts_executed_groups {lines : List String} {groups : List (List String)}
    (h : List.Forall₂ (Source.IsGroup α) lines groups) (settings : Settings α) (machine : Machine α) :
    (ofLines groups.flatten settings machine).executed.map (·.text) =
      (ofLines lines settings machine).executed.flatMap fun b => groups.getD b.number [""] := by
  obtain ⟨-, hsteps⟩ := executed_ofLines lines settings machine
  have hgroup : ∀ step : Bool × ℕ,
      (stepsOf (groupStart groups) step).map (fun step => groups.flatten.getD step.2 "") =
        groups.getD step.2 [""] := by
    intro step
    have hsize : groupStart groups (step.2 + 1) - groupStart groups step.2 =
        (groups.getD step.2 [""]).length := by
      rw [groupStart_succ, Nat.add_sub_cancel_left]
    rw [stepsOf, groupOf, hsize, List.map_map]
    apply List.ext_getElem
    · simp
    · intro i hi hi'
      have hget := getD_flatten groups hi'
      rw [List.getD_eq_getElem _ _ hi'] at hget
      simpa using hget
  rw [texts_executed, (Source.expands_ofLines h settings.calls settings.markers).order_eq, List.map_flatMap,
    ← hsteps, List.flatMap_map]
  exact List.flatMap_congr fun b _ => hgroup _

end PartProgram
