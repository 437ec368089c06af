import PartProgram.Number.Floating
import PartProgram.Proofs.Pass
import PartProgram.Program.Subroutine

/-! # Bodies that are looked up

Under rules that do not search the whole program, a search finds only what stands after the call. The body
found last is taken again without a search, so a call may also run a body that stands before it, as long as a
call further up has found that body and no other name has been found since.
-/

namespace PartProgram

/-- A call that has been looked up: its name, its line, and the body that it runs. -/
structure Lookup where
  id : ℕ
  line : ℕ
  body : Option Body
  deriving DecidableEq

namespace Landmarks

/-- Looks up one call. -/
def lookUp (marks : Landmarks) (rules : CallRules) (found : Found) (call : ℕ × ℕ) : Found × Lookup :=
  let (found, body) := marks.locate rules found call.1 call.2
  (found, ⟨call.1, call.2, body⟩)

/-- Looks up calls one after the other, each given by its name and its line. What the last successful search
has found is remembered in between. -/
def lookUps (marks : Landmarks) (rules : CallRules) (calls : List (ℕ × ℕ)) : List Lookup :=
  (pass (marks.lookUp rules) none calls).2

/-- A line with the name stands in front of the body, and it is one after `line`. -/
def BeginsAfter (marks : Landmarks) (id : ℕ) (body : Body) (line : ℕ) : Prop :=
  ∃ label, (label, id) ∈ marks.labels ∧ body.start = label + 1 ∧ line < label

/-- The body was found by a lookup from a line in front of it, and has been the one found last ever since:
lookups under its name have given it, and lookups under other names have found nothing. -/
def Remembered (marks : Landmarks) (before : List Lookup) (id : ℕ) (body : Body) : Prop :=
  ∃ earlier line between, before = earlier ++ ⟨id, line, some body⟩ :: between ∧ marks.BeginsAfter id body line ∧
    ∀ l ∈ between, l.body = if l.id = id then some body else none

variable {marks : Landmarks} {rules : CallRules} {before : List Lookup} {found : Found} {id : ℕ} {body : Body}

/-- A search finds a body whose name stands where the search starts or later. -/
theorem exists_label_of_search {start : ℕ} (h : marks.search id start = some body) :
    ∃ label, (label, id) ∈ marks.labels ∧ body.start = label + 1 ∧ start ≤ label := by
  obtain ⟨⟨label, name⟩, hlabel, hbody⟩ := Option.bind_eq_some_iff.mp h
  have hmem : (label, name) ∈ marks.labels := List.mem_of_find?_eq_some hlabel
  have hfits : name = id ∧ start ≤ label := by simpa using List.find?_some hlabel
  obtain ⟨stop, -, rfl⟩ := Option.map_eq_some_iff.mp hbody
  exact ⟨label, hfits.1 ▸ hmem, rfl, hfits.2⟩

/-- A body that is found last is remembered from there on. -/
theorem BeginsAfter.remembered {line : ℕ} (h : marks.BeginsAfter id body line) :
    marks.Remembered (before ++ [⟨id, line, some body⟩]) id body :=
  ⟨before, line, [], rfl, h, by simp⟩

/-- A lookup that gives the body again, or one that finds nothing, keeps it remembered. -/
theorem Remembered.concat (h : marks.Remembered before id body) {l : Lookup}
    (hl : l.body = if l.id = id then some body else none) : marks.Remembered (before ++ [l]) id body := by
  obtain ⟨earlier, line, between, rfl, hbegins, hbetween⟩ := h
  refine ⟨earlier, line, between ++ [l], by simp, hbegins, ?_⟩
  intro l' hl'
  rcases List.mem_append.mp hl' with hl' | hl'
  · exact hbetween l' hl'
  · rw [List.mem_singleton.mp hl']
    exact hl

/-- What a lookup does without a second search: it takes the body found last, it finds one further on, or it
finds nothing. -/
theorem lookUp_cases (hrules : rules.rescan = false) (marks : Landmarks) (found : Found) (call : ℕ × ℕ) :
    (∃ body, found = some (call.1, body) ∧ marks.lookUp rules found call = (found, ⟨call.1, call.2, some body⟩)) ∨
    (∃ body, marks.BeginsAfter call.1 body call.2 ∧
      marks.lookUp rules found call = (some (call.1, body), ⟨call.1, call.2, some body⟩)) ∨
    ((∀ body, found ≠ some (call.1, body)) ∧ marks.lookUp rules found call = (found, ⟨call.1, call.2, none⟩)) := by
  obtain ⟨id, line⟩ := call
  have hsearch : (marks.search id (line + 1)).or (if rules.rescan then marks.search id 0 else none) =
      marks.search id (line + 1) := by
    rw [hrules, if_neg Bool.false_ne_true, Option.or_none]
  have hbegins : ∀ body, marks.search id (line + 1) = some body → marks.BeginsAfter id body line := fun _ h =>
    exists_label_of_search h
  simp only [lookUp, locate, hsearch]
  cases found with
  | none =>
      cases h : marks.search id (line + 1) with
      | none => exact .inr (.inr ⟨by simp, rfl⟩)
      | some body => exact .inr (.inl ⟨body, hbegins body h, rfl⟩)
  | some last =>
      obtain ⟨name, last⟩ := last
      by_cases hname : name = id
      · subst hname
        exact .inl ⟨last, rfl, by simp⟩
      · simp only [if_neg hname]
        cases h : marks.search id (line + 1) with
        | none => exact .inr (.inr ⟨by simp [hname], rfl⟩)
        | some body => exact .inr (.inl ⟨body, hbegins body h, rfl⟩)

/-- What holds after some lookups: the body found last is remembered, and every body that a lookup gave begins
after the call or was remembered when it was looked up. -/
structure Recorded (marks : Landmarks) (done : List Lookup) (found : Found) : Prop where
  found : ∀ id body, found = some (id, body) → marks.Remembered done id body
  bodies : ∀ before l body, before ++ [l] <+: done → l.body = some body →
    marks.BeginsAfter l.id body l.line ∨ marks.Remembered before l.id body

theorem recorded_nil (marks : Landmarks) : marks.Recorded [] none := ⟨by simp, by simp⟩

/-- Only the last lookup has to be looked at when one is added. -/
theorem Recorded.concat (h : marks.Recorded before found) {l : Lookup} {found' : Found}
    (hfound : ∀ id body, found' = some (id, body) → marks.Remembered (before ++ [l]) id body)
    (hbody : ∀ body, l.body = some body → marks.BeginsAfter l.id body l.line ∨ marks.Remembered before l.id body) :
    marks.Recorded (before ++ [l]) found' := by
  refine ⟨hfound, fun earlier l' body hprefix hbody' => ?_⟩
  rcases List.prefix_concat_iff.mp hprefix with heq | hprefix
  · obtain ⟨rfl, hlast⟩ := List.append_inj' heq rfl
    obtain rfl : l' = l := by simpa using hlast
    exact hbody body hbody'
  · exact h.bodies earlier l' body hprefix hbody'

/-- One lookup more. -/
theorem Recorded.lookUp (h : marks.Recorded before found) (hrules : rules.rescan = false) (call : ℕ × ℕ) :
    marks.Recorded (before ++ [(marks.lookUp rules found call).2]) (marks.lookUp rules found call).1 := by
  rcases lookUp_cases hrules marks found call with ⟨body, hfound, heq⟩ | ⟨body, hbegins, heq⟩ | ⟨hother, heq⟩
  · rw [heq]
    have hremembered := h.found call.1 body hfound
    refine h.concat (fun id last hlast => ?_) fun last hlast => ?_
    · obtain ⟨rfl, rfl⟩ : call.1 = id ∧ body = last := by simpa using hfound.symm.trans hlast
      exact hremembered.concat (by simp)
    · obtain rfl : body = last := Option.some_inj.mp hlast
      exact .inr hremembered
  · rw [heq]
    refine h.concat (fun id last hlast => ?_) fun last hlast => ?_
    · obtain ⟨rfl, rfl⟩ : call.1 = id ∧ body = last := by simpa using hlast
      exact hbegins.remembered
    · obtain rfl : body = last := Option.some_inj.mp hlast
      exact .inl hbegins
  · rw [heq]
    refine h.concat (fun id last hlast => ?_) fun last hlast => by simp at hlast
    have hne : call.1 ≠ id := by
      rintro rfl
      exact hother last hlast
    exact (h.found id last hlast).concat (by simp [hne])

theorem recorded_lookUps (hrules : rules.rescan = false) (marks : Landmarks) (calls : List (ℕ × ℕ)) :
    marks.Recorded (marks.lookUps rules calls) (pass (marks.lookUp rules) none calls).1 :=
  pass_induction (fun _ _ call h => h.lookUp hrules call) [] marks.recorded_nil calls

variable {α : Type} [Scalar α]

/-- Without a second search, every body that a sequence of lookups gives begins after its call, unless it is
remembered: then a lookup further up has found it, from a call in front of it, and no other name has been found
since. -/
theorem begins_after_or_remembered (lines : List String) (hrules : rules.rescan = false) (calls : List (ℕ × ℕ))
    {before after : List Lookup} {id line : ℕ} {body : Body}
    (hlookup : (ofLines α lines).lookUps rules calls = before ++ ⟨id, line, some body⟩ :: after) :
    (ofLines α lines).BeginsAfter id body line ∨ (ofLines α lines).Remembered before id body :=
  (recorded_lookUps hrules _ calls).bodies before ⟨id, line, some body⟩ body ⟨after, by simp [hlookup]⟩ rfl

/-- A call below a body runs it again, since the lookup of another name in between has found nothing. -/
theorem remembered_below_body :
    let lines := ["M98 P1", "O1", "G1 X1", "M99", "M98 P3", "M98 P1"]
    let rules : CallRules := ⟨false, 8⟩
    rules.rescan = false ∧
      (ofLines Float lines).lookUps rules [(1, 0), (3, 4), (1, 5)] =
        [⟨1, 0, some ⟨2, 3⟩⟩, ⟨3, 4, none⟩] ++ ⟨1, 5, some ⟨2, 3⟩⟩ :: [] ∧
      ((ofLines Float lines).BeginsAfter 1 ⟨2, 3⟩ 5 ∨
        (ofLines Float lines).Remembered [⟨1, 0, some ⟨2, 3⟩⟩, ⟨3, 4, none⟩] 1 ⟨2, 3⟩) := by
  intro lines rules
  have hlookups : (ofLines Float lines).lookUps rules [(1, 0), (3, 4), (1, 5)] =
      [⟨1, 0, some ⟨2, 3⟩⟩, ⟨3, 4, none⟩] ++ ⟨1, 5, some ⟨2, 3⟩⟩ :: [] := by
    decide +kernel
  exact ⟨rfl, hlookups, begins_after_or_remembered lines rfl _ hlookups⟩

/-- Without a second search, not every body begins after the call that runs it: the second call of a name may
stand below the body that the first one has found. -/
theorem not_forall_beginsAfter :
    ¬ ∀ (lines : List String) (rules : CallRules), rules.rescan = false → ∀ (calls : List (ℕ × ℕ)),
      ∀ l ∈ (ofLines Float lines).lookUps rules calls, ∀ body ∈ l.body,
        (ofLines Float lines).BeginsAfter l.id body l.line := by
  intro h
  have hlookup : (⟨1, 4, some ⟨2, 3⟩⟩ : Lookup) ∈
      (ofLines Float ["M98 P1", "O1", "G1 X1", "M99", "M98 P1"]).lookUps ⟨false, 8⟩ [(1, 0), (1, 4)] := by
    decide +kernel
  obtain ⟨label, -, hstart, hlt⟩ := h _ _ rfl _ _ hlookup ⟨2, 3⟩ rfl
  have hlabel : 2 = label + 1 := hstart
  have hcall : 4 < label := hlt
  omega

end Landmarks

end PartProgram
