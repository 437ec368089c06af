import Mathlib.Data.List.Find
import Mathlib.Data.List.Nodup
import Mathlib.Data.List.TakeWhile
import PartProgram.Number.Floating
import PartProgram.Proofs.Program.Reading

/-! # Calls as substitution

Where every name labels one line only, a call stands for the lines of its body, and the body kept
from the last search is the body that any search would find.
-/

namespace PartProgram

section Substitution

variable (α : Type) [Scalar α] (lines : List (String × ℕ))

/-- The lines of the body with a name: those after its label, up to the next line that returns. A
body that no line ends has no lines. -/
def bodyOf (id : ℕ) : List (String × ℕ) :=
  let rest := (lines.dropWhile fun l => (LineCodes.ofLine α l.1).o != some id).tail
  if rest.any fun l => (LineCodes.ofLine α l.1).returns then
    rest.takeWhile fun l => !(LineCodes.ofLine α l.1).returns
  else []

/-- The lines that a call stands for, given what the calls in its body stand for. -/
def expansionWith (calls : Call → List (String × ℕ)) (call : Call) : List (String × ℕ) :=
  let body := (bodyOf α lines call.id).flatMap fun l =>
    l :: (LineCodes.ofLine α l.1).call?.elim [] calls
  (List.replicate call.times body).flatten

/-- The lines that a call stands for. Calls in them are expanded too, `depth` levels down. -/
def expansion : ℕ → Call → List (String × ℕ)
  | 0 => expansionWith α lines fun _ => []
  | depth + 1 => expansionWith α lines (expansion depth)

/-- The program with its calls expanded, from the lines `rest` on; `true` marks the lines that a call
brings along. Once the program has `ended`, a call brings none. -/
def unrolled (depth : ℕ) : Bool → List (String × ℕ) → List (Bool × String × ℕ)
  | _, [] => []
  | ended, l :: rest =>
    let codes := LineCodes.ofLine α l.1
    let called := if ended then [] else codes.call?.elim [] (expansion α lines depth)
    (false, l) :: (called.map (true, ·) ++ unrolled depth (ended || codes.endsProgram) rest)

variable {α lines}

theorem bodyOf_subset (id : ℕ) : bodyOf α lines id ⊆ lines := by
  intro l h
  simp only [bodyOf] at h
  split at h
  · exact (List.dropWhile_sublist _).subset
      (List.mem_of_mem_tail ((List.takeWhile_sublist _).subset h))
  · simp at h

theorem expansionWith_subset {calls : Call → List (String × ℕ)} (hcalls : ∀ call, calls call ⊆ lines)
    (call : Call) : expansionWith α lines calls call ⊆ lines := by
  intro l hl
  simp only [expansionWith, List.mem_flatten, List.mem_replicate] at hl
  obtain ⟨_, ⟨-, rfl⟩, hl⟩ := hl
  obtain ⟨b, hb, hl⟩ := List.mem_flatMap.mp hl
  rcases List.mem_cons.mp hl with rfl | hl
  · exact bodyOf_subset call.id hb
  · cases hcall : (LineCodes.ofLine α b.1).call? with
    | none => simp [hcall] at hl
    | some call => exact hcalls call (by simpa [hcall] using hl)

theorem expansion_subset (depth : ℕ) (call : Call) : expansion α lines depth call ⊆ lines := by
  induction depth generalizing call with
  | zero => exact expansionWith_subset (by simp) call
  | succ depth ih => exact expansionWith_subset ih call

theorem unrolled_subset {rest : List (String × ℕ)} (hrest : rest ⊆ lines) (depth : ℕ)
    (ended : Bool) : (unrolled α lines depth ended rest).map Prod.snd ⊆ lines := by
  induction rest generalizing ended with
  | nil => simp [unrolled]
  | cons l rest ih =>
      have hcalled : (if ended then [] else
          (LineCodes.ofLine α l.1).call?.elim [] (expansion α lines depth)) ⊆ lines := by
        cases ended <;> cases (LineCodes.ofLine α l.1).call? <;>
          simp [expansion_subset]
      simp only [unrolled, List.map_cons, List.map_append, List.map_map, Function.comp_def,
        List.map_id']
      exact List.cons_subset.mpr ⟨hrest (by simp), List.append_subset.mpr
        ⟨hcalled, ih (fun l hl => hrest (by simp [hl])) _⟩⟩

/-- Without what calls bring along, the lines run once each, in their order. -/
theorem filter_unrolled (depth : ℕ) (ended : Bool) (rest : List (String × ℕ)) :
    ((unrolled α lines depth ended rest).filter fun x => !x.1).map Prod.snd = rest := by
  induction rest generalizing ended with
  | nil => rfl
  | cons l rest ih => simp [unrolled, ih, List.filter_map, Function.comp_def]

end Substitution

namespace Landmarks

variable (α : Type) [Scalar α] (lines : List String)

theorem find?_labels (id : ℕ) :
    (ofLines α lines).labels.find? (fun l => l.2 == id && 0 ≤ l.1) =
      (lines.zipIdx.find? fun l => (LineCodes.ofLine α l.1).o == some id).map fun l => (l.2, id) := by
  have hlabel : ∀ l : String × ℕ,
      ((LineCodes.ofLine α l.1).o.map (l.2, ·)).any (fun l => l.2 == id && 0 ≤ l.1) =
        ((LineCodes.ofLine α l.1).o == some id) := by
    intro l
    cases (LineCodes.ofLine α l.1).o <;> simp
  rw [labels_ofLines, List.find?_filterMap]
  simp only [hlabel]
  cases hfind : lines.zipIdx.find? fun l => (LineCodes.ofLine α l.1).o == some id with
  | none => rfl
  | some l =>
      have ho : (LineCodes.ofLine α l.1).o = some id := by simpa using List.find?_some hfind
      simp [ho]

/-- The first line after `line` that returns is the first one of the lines that follow. -/
theorem find?_returns (before after : List String) (line : String) :
    (ofLines α (before ++ line :: after)).returns.find? (before.length < ·) =
      ((after.zipIdx (before.length + 1)).find? fun l => (LineCodes.ofLine α l.1).returns).map
        Prod.snd := by
  have hbefore : ∀ l ∈ before.zipIdx, l.2 < before.length := by
    intro l hl
    have hlt := List.snd_lt_of_mem_zipIdx hl
    omega
  have hafter : ∀ l ∈ after.zipIdx (before.length + 1), before.length < l.2 := by
    intro l hl
    have hle := List.le_snd_of_mem_zipIdx hl
    omega
  rw [returns_ofLines, List.find?_map, List.find?_filter, List.zipIdx_append, List.zipIdx_cons,
    List.find?_append, List.find?_eq_none.mpr, Option.none_or, List.find?_cons_of_neg]
  · rw [Nat.zero_add]
    refine congrArg _ (List.find?_congr ?_)
    intro l hl
    simp [hafter l hl]
  · simp
  · intro l hl
    have hlt := hbefore l hl
    simp
    omega

/-- Up to the first line that returns, the lines are numbered one after the other. -/
theorem takeWhile_zipIdx {p : String × ℕ → Bool} {k : ℕ} {l : String × ℕ}
    (h : (lines.zipIdx k).find? p = some l) :
    ((lines.zipIdx k).takeWhile fun l => !p l).map Prod.snd = List.range' k (l.2 - k) := by
  obtain ⟨hl, as, bs, hsplit, has⟩ := List.find?_eq_some_iff_append.mp h
  obtain ⟨as', bs', -, rfl, hbs⟩ := List.zipIdx_eq_append_iff.mp hsplit
  obtain ⟨b, bs', -, rfl, -⟩ := List.zipIdx_eq_cons_iff.mp hbs.symm
  rw [hsplit, List.takeWhile_append_of_pos (by simpa using has), List.takeWhile_cons_of_neg (by simpa using hl),
    List.append_nil, List.zipIdx_map_snd, Nat.add_sub_cancel_left]

/-- The lines of the body that a search of the whole program finds. -/
theorem lines_search (id : ℕ) :
    ((ofLines α lines).search id 0).elim [] Body.lines = (bodyOf α lines.zipIdx id).map Prod.snd := by
  rw [search, find?_labels]
  cases hfind : lines.zipIdx.find? fun l => (LineCodes.ofLine α l.1).o == some id with
  | none =>
      have hnone : ∀ l ∈ lines.zipIdx, ¬ (LineCodes.ofLine α l.1).o = some id := by
        simpa using hfind
      have hdrop : lines.zipIdx.dropWhile (fun l => (LineCodes.ofLine α l.1).o != some id) = [] := by
        rw [List.dropWhile_eq_nil_iff]
        intro l hl
        simpa using hnone l hl
      simp [bodyOf, hdrop]
  | some l =>
      obtain ⟨hl, pre, post, hsplit, hpre⟩ := List.find?_eq_some_iff_append.mp hfind
      obtain ⟨before, rest, rfl, rfl, hrest⟩ := List.zipIdx_eq_append_iff.mp hsplit
      obtain ⟨line, after, rfl, rfl, rfl⟩ := List.zipIdx_eq_cons_iff.mp hrest.symm
      rw [Nat.zero_add] at *
      have hdrop : (before ++ line :: after).zipIdx.dropWhile
          (fun l => (LineCodes.ofLine α l.1).o != some id) =
            (line, before.length) :: after.zipIdx (before.length + 1) := by
        rw [hsplit, List.dropWhile_append_of_pos (by simpa using hpre),
          List.dropWhile_cons_of_neg (by simpa using hl)]
      simp only [Option.map_some, Option.bind_some, bodyOf, hdrop, List.tail_cons]
      rw [find?_returns]
      cases hreturn : (after.zipIdx (before.length + 1)).find? fun l =>
          (LineCodes.ofLine α l.1).returns with
      | none =>
          have hany : (after.zipIdx (before.length + 1)).any
              (fun l => (LineCodes.ofLine α l.1).returns) = false := by
            simpa using hreturn
          simp [hany]
      | some e =>
          have hany := List.any_eq_true.mpr ⟨e, List.mem_of_find?_eq_some hreturn, List.find?_some hreturn⟩
          simp only [hany, if_true, takeWhile_zipIdx _ hreturn]
          rfl

/-! ### The body found last -/

/-- The body found last is the one that a search of the whole program finds. -/
def Fresh (marks : Landmarks) (found : Found) : Prop :=
  ∀ id body, found = some (id, body) → marks.search id 0 = some body

variable {marks : Landmarks} (hunique : (marks.labels.map Prod.snd).Nodup)

include hunique

/-- Where names are unique, it does not matter where a successful search starts. -/
theorem search_eq {id start : ℕ} {body : Body} (h : marks.search id start = some body) :
    marks.search id 0 = some body := by
  obtain ⟨label, hlabel, hbody⟩ := Option.bind_eq_some_iff.mp h
  have hmem := List.mem_of_find?_eq_some hlabel
  have hid : label.2 = id := by
    have hp := List.find?_some hlabel
    simp only [Bool.and_eq_true, beq_iff_eq] at hp
    exact hp.1
  obtain ⟨first, hfirst⟩ := Option.isSome_iff_exists.mp
    (List.find?_isSome.mpr ⟨label, hmem, by simpa using hid⟩ :
      (marks.labels.find? fun l => l.2 == id && 0 ≤ l.1).isSome)
  have hname : first.2 = id := by simpa using List.find?_some hfirst
  have hsame : first = label :=
    List.inj_on_of_nodup_map hunique (List.mem_of_find?_eq_some hfirst) hmem (hname.trans hid.symm)
  rw [search, hfirst, hsame]
  exact hbody

/-- Under rules that search the whole program, a call runs the body that a search of the whole
program finds, whatever has been found before. -/
theorem locate_eq {rules : CallRules} (hrescan : rules.rescan = true) {found : Found}
    (hfound : marks.Fresh found) (id line : ℕ) :
    marks.Fresh (marks.locate rules found id line).1 ∧
      (marks.locate rules found id line).2 = marks.search id 0 := by
  have hsearch : (marks.search id (line + 1)).or (if rules.rescan then marks.search id 0 else none) =
      marks.search id 0 := by
    rw [hrescan, if_pos rfl]
    cases h : marks.search id (line + 1) with
    | none => rfl
    | some body => rw [search_eq hunique h, Option.some_or]
  have hnew : ∀ body, marks.search id 0 = some body → marks.Fresh (some (id, body)) := by
    rintro body hbody _ _ ⟨⟩
    exact hbody
  simp only [locate, hsearch]
  cases found with
  | none =>
      cases h : marks.search id 0 with
      | none => exact ⟨hfound, rfl⟩
      | some body => exact ⟨hnew body h, rfl⟩
  | some last =>
      obtain ⟨name, last⟩ := last
      by_cases hname : name = id
      · subst hname
        simpa using ⟨hfound, (hfound _ _ rfl).symm⟩
      · simp only [if_neg hname]
        cases h : marks.search id 0 with
        | none => exact ⟨hfound, rfl⟩
        | some body => exact ⟨hnew body h, rfl⟩

end Landmarks

namespace Source

variable {α : Type} [Scalar α]

theorem routeLine_eq {s : Source} {nested : Routing} {calls : Call → List ℕ}
    (hnested : ∀ call line found, s.marks.Fresh found →
      s.marks.Fresh (nested call line found).1 ∧ (nested call line found).2 = calls call)
    (found : Found) (n : ℕ) (hfound : s.marks.Fresh found) :
    s.marks.Fresh (s.routeLine α nested found n).1 ∧
      (s.routeLine α nested found n).2 = n :: (s.codesAt α n).call?.elim [] calls := by
  rw [routeLine]
  cases (s.codesAt α n).call? with
  | none => exact ⟨hfound, rfl⟩
  | some call =>
      obtain ⟨hnew, hlines⟩ := hnested call n found hfound
      exact ⟨hnew, by simp [hlines]⟩

theorem routeWith_eq {s : Source} {nested : Routing} {calls : Call → List ℕ}
    (hunique : (s.marks.labels.map Prod.snd).Nodup) (hrescan : s.rules.rescan = true)
    (hnested : ∀ call line found, s.marks.Fresh found →
      s.marks.Fresh (nested call line found).1 ∧ (nested call line found).2 = calls call)
    (call : Call) (line : ℕ) (found : Found) (hfound : s.marks.Fresh found) :
    let run := ((s.marks.search call.id 0).elim [] Body.lines).flatMap fun n =>
      n :: (s.codesAt α n).call?.elim [] calls
    s.marks.Fresh (s.routeWith α nested call line found).1 ∧
      (s.routeWith α nested call line found).2 = (List.replicate call.times run).flatten := by
  obtain ⟨hnew, hbody⟩ := Landmarks.locate_eq hunique hrescan hfound call.id line
  rw [routeWith]
  generalize s.marks.locate s.rules found call.id line = located at hnew hbody ⊢
  obtain ⟨found, body?⟩ := located
  obtain rfl : body? = s.marks.search call.id 0 := hbody
  cases s.marks.search call.id 0 with
  | none => simpa using hnew
  | some body =>
      have hrun : ∀ found (_ : ℕ), s.marks.Fresh found →
          s.marks.Fresh (s.routeBody α nested body found).1 ∧
            (s.routeBody α nested body found).2 =
              body.lines.flatMap fun n => n :: (s.codesAt α n).call?.elim [] calls := by
        intro found _ hfound
        obtain ⟨hnew, hlines⟩ := pass_eq_map (routeLine_eq (α := α) hnested) hfound body.lines
        exact ⟨hnew, by rw [routeBody, List.flatMap, ← hlines]⟩
      obtain ⟨hnew, hruns⟩ := pass_eq_map hrun hnew (List.range call.times)
      refine ⟨hnew, ?_⟩
      simp only [hruns, List.map_const', List.length_range]
      rfl

variable {s : Source} {lines : List String} (htexts : s.lines = lines.toArray)
  (hmarks : s.marks = .ofLines α lines)

include htexts in
theorem codesAt_zipIdx {l : String × ℕ} (h : l ∈ lines.zipIdx) :
    s.codesAt α l.2 = LineCodes.ofLine α l.1 := by
  have hl : lines[l.2]? = some l.1 := List.mem_zipIdx_iff_getElem?.mp h
  simp [codesAt, htexts, hl]

include htexts hmarks

theorem expansionWith_eq (calls : Call → List (String × ℕ)) (call : Call) :
    let run := ((s.marks.search call.id 0).elim [] Body.lines).flatMap fun n =>
      n :: (s.codesAt α n).call?.elim [] fun call => (calls call).map Prod.snd
    (expansionWith α lines.zipIdx calls call).map Prod.snd =
      (List.replicate call.times run).flatten := by
  simp only [hmarks, Landmarks.lines_search, expansionWith, List.map_flatten, List.map_replicate,
    List.map_flatMap, List.flatMap_map]
  refine congrArg (fun run => (List.replicate call.times run).flatten) (List.flatMap_congr ?_)
  intro l hl
  rw [codesAt_zipIdx htexts (bodyOf_subset _ hl)]
  cases (LineCodes.ofLine α l.1).call? <;> simp

/-- A call runs the lines that it stands for, and leaves behind a body found afresh. -/
theorem route_eq (hunique : (s.marks.labels.map Prod.snd).Nodup) (hrescan : s.rules.rescan = true)
    (depth : ℕ) (call : Call) (line : ℕ) (found : Found) (hfound : s.marks.Fresh found) :
    s.marks.Fresh (s.route α depth call line found).1 ∧
      (s.route α depth call line found).2 = (expansion α lines.zipIdx depth call).map Prod.snd := by
  have hwith : ∀ (nested : Routing) (calls : Call → List (String × ℕ)),
      (∀ call line found, s.marks.Fresh found →
        s.marks.Fresh (nested call line found).1 ∧
          (nested call line found).2 = (calls call).map Prod.snd) →
      ∀ call line found, s.marks.Fresh found →
        s.marks.Fresh (s.routeWith α nested call line found).1 ∧
          (s.routeWith α nested call line found).2 =
            (expansionWith α lines.zipIdx calls call).map Prod.snd := by
    intro nested calls hnested call line found hfound
    rw [expansionWith_eq htexts hmarks]
    exact routeWith_eq hunique hrescan hnested call line found hfound
  induction depth generalizing call line found with
  | zero => exact hwith _ _ (fun _ _ _ h => ⟨h, rfl⟩) call line found hfound
  | succ depth ih => exact hwith _ _ ih call line found hfound

/-- From the lines `rest` on, a program runs itself with its calls expanded. -/
theorem pass_routeTop_eq (hunique : (s.marks.labels.map Prod.snd).Nodup)
    (hrescan : s.rules.rescan = true) (rest : List (String × ℕ)) (hrest : rest ⊆ lines.zipIdx)
    (found : Found) (hfound : s.marks.Fresh found) (ended : Bool) :
    (pass (s.routeTop α) (found, ended) (rest.map Prod.snd)).2.flatten =
      (unrolled α lines.zipIdx (s.rules.maxDepth - 1) ended rest).map fun x => (x.1, x.2.2) := by
  induction rest generalizing found ended with
  | nil => rfl
  | cons l rest ih =>
      have hcodes := codesAt_zipIdx (α := α) htexts (hrest (by simp : l ∈ l :: rest))
      have hsubset : rest ⊆ lines.zipIdx := fun l hl => hrest (by simp [hl])
      simp only [List.map_cons, pass_cons, List.flatten_cons, unrolled, routeTop, hcodes]
      cases (LineCodes.ofLine α l.1).call? with
      | none => simp [ih hsubset found hfound]
      | some call =>
          cases ended with
          | true => simp [ih hsubset found hfound]
          | false =>
              obtain ⟨hnew, hlines⟩ := route_eq htexts hmarks hunique hrescan
                (s.rules.maxDepth - 1) call l.2 found hfound
              simp [ih hsubset _ hnew, hlines]

end Source

namespace Program

variable {α : Type} [Scalar α]

/-- The order of execution with every call replaced by the lines that it stands for. -/
theorem order_eq (lines : List String) (rules : CallRules) (markers : Markers)
    (hunique : (lines.filterMap fun line => (LineCodes.ofLine α line).o).Nodup)
    (hrescan : rules.rescan = true) :
    (Source.ofLines α lines rules markers).order α =
      (unrolled α lines.zipIdx (rules.maxDepth - 1) false lines.zipIdx).map fun x => (x.1, x.2.2) := by
  have hnames : (Landmarks.ofLines α lines).labels.map Prod.snd =
      lines.filterMap fun line => (LineCodes.ofLine α line).o := by
    have hline : ∀ l : String × ℕ, ((LineCodes.ofLine α l.1).o.map (l.2, ·)).map Prod.snd =
        (LineCodes.ofLine α l.1).o := by
      intro l
      cases (LineCodes.ofLine α l.1).o <;> rfl
    conv_rhs => rw [← List.zipIdx_map_fst 0 lines, List.filterMap_map]
    rw [Landmarks.labels_ofLines, List.map_filterMap]
    simp only [hline]
    rfl
  have hroute := Source.pass_routeTop_eq (α := α) (s := .ofLines α lines rules markers) rfl rfl
    (by rw [← hnames] at hunique; exact hunique) hrescan lines.zipIdx (List.Subset.refl _) none
    (by simp [Landmarks.Fresh]) false
  rw [List.zipIdx_map_snd, ← List.range_eq_range'] at hroute
  exact hroute

/-- Where every name labels one line only, a program runs its own lines in their order, each call
replaced by the lines that it stands for, and reads all of them under one modal state. -/
theorem executed_eq_unrolled (lines : List String) (settings : Settings α) (machine : Machine α)
    (hunique : (lines.filterMap fun line => (LineCodes.ofLine α line).o).Nodup)
    (hrescan : settings.calls.rescan = true) :
    let p := ofLines lines settings machine
    let steps := unrolled α lines.zipIdx (settings.calls.maxDepth - 1) false lines.zipIdx
    p.executed.map (fun b => (b.inlined, b.text, b.number)) = steps ∧
      p.executed.map Block.asRead =
        (pass (fun m l => Block.read l.2 l.1 m) Modal.initial (steps.map Prod.snd)).2 ∧
      p.executed.filter (fun b => !b.inlined) = p.lines ∧
      p.lines.map (·.number) = List.range lines.length := by
  intro p steps
  obtain ⟨hread, horder⟩ := executed_ofLines lines settings machine
  rw [order_eq lines _ _ hunique hrescan] at hread horder
  have hblocks : p.executed.map Block.asRead =
      (pass (fun m l => Block.read l.2 l.1 m) Modal.initial (steps.map Prod.snd)).2 := by
    have hat : ∀ (m : Modal α), ∀ l ∈ steps.map Prod.snd,
        (Source.ofLines α lines settings.calls settings.markers).readAt m l.2 =
          Block.read l.2 l.1 m := by
      intro m l hl
      have hmem : l ∈ lines.zipIdx := unrolled_subset (List.Subset.refl _) _ _ hl
      have htext : lines[l.2]? = some l.1 := List.mem_zipIdx_iff_getElem?.mp hmem
      simp [Source.readAt, Source.ofLines, htext]
    have hnumbers : (steps.map fun x => (x.1, x.2.2)).map Prod.snd =
        (steps.map Prod.snd).map Prod.snd := by
      simp [Function.comp_def]
    rw [hread, ← pass_congr hat, hnumbers, pass_map]
  have hinlined : p.executed.map (·.inlined) = steps.map Prod.fst := by
    have h := congrArg (List.map Prod.fst) horder
    simpa [Function.comp_def] using h
  have hlines : p.executed.map (fun b => (b.text, b.number)) = steps.map Prod.snd := by
    have hpass : ∀ (m : Modal α) (ls : List (String × ℕ)),
        (pass (fun m l => Block.read l.2 l.1 m) m ls).2.map (fun b => (b.text, b.number)) = ls := by
      intro m ls
      refine (map_pass (fun m l => ?_) m ls).trans (List.map_id ls)
      simp [Block.read_snd, Block.inert]
    have htexts := hpass Modal.initial (steps.map Prod.snd)
    rw [← hblocks] at htexts
    simpa [Block.asRead, Function.comp_def] using htexts
  have hsteps : p.executed.map (fun b => (b.inlined, b.text, b.number)) = steps := by
    rw [← List.zip_map', hinlined, hlines, List.zip_map', List.map_id']
  have hown : p.executed.filter (fun b => !b.inlined) = p.lines :=
    ((copiesInlined_asRead lines settings).place (modified_asRead lines settings) machine).filter_executed
  refine ⟨hsteps, hblocks, hown, ?_⟩
  have hfilter : (steps.filter fun x => !x.1).map Prod.snd = lines.zipIdx := filter_unrolled _ _ _
  have hnumbers := congrArg (List.map Prod.snd) hfilter
  rw [List.zipIdx_map_snd, ← List.range_eq_range'] at hnumbers
  rw [← hown, ← hnumbers, ← hsteps, List.filter_map]
  simp [Function.comp_def]

/-- A body is run twice, and it calls a body that calls it again, three levels deep. -/
theorem executed_nested_calls :
    let lines := ["M98 P1 L2", "G1 X5", "M30", "O1", "G91 X1", "M98 P2", "M99", "O2", "F200 M98 P1",
      "M99"]
    let settings : Settings Float := { Settings.default with calls := ⟨true, 3⟩ }
    let p := ofLines lines settings .default
    (lines.filterMap fun line => (LineCodes.ofLine Float line).o).Nodup ∧
      settings.calls.rescan = true ∧
      p.executed.map (·.number) = [0, 4, 5, 8, 4, 5, 4, 5, 8, 4, 5, 1, 2, 3, 4, 5, 6, 7, 8, 9] ∧
      p.lines.map (·.number) = List.range 10 := by
  intro lines settings p
  have hunique : (lines.filterMap fun line => (LineCodes.ofLine Float line).o).Nodup := by
    decide +kernel
  obtain ⟨hsteps, -, -, hlines⟩ := executed_eq_unrolled lines settings .default hunique rfl
  refine ⟨hunique, rfl, ?_, hlines⟩
  have hnumbers := congrArg (List.map fun x => x.2.2) hsteps
  rw [List.map_map] at hnumbers
  refine hnumbers.trans ?_
  decide +kernel

end Program

end PartProgram
