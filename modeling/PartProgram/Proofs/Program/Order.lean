import PartProgram.Proofs.Block.Words
import PartProgram.Proofs.Pass
import PartProgram.Program.Reading

/-! # The order of execution

Which lines run, and in which order, depends on labels, calls and ends alone. The blocks that run
are these lines read one after the other under one modal state.
-/

namespace PartProgram

variable {α : Type} [Scalar α]

/-- A block as reading its line gives it, without what its place in the program adds. -/
def Block.asRead (b : Block α) : Block α :=
  { b with inlined := false, hidden := false, footer := false, afterEnd := false, place := .unplaced }

theorem Block.asRead_inlined (b : Block α) (inlined hidden : Bool) :
    ({ b with inlined, hidden } : Block α).asRead = b.asRead := rfl

/-- The program ends on the line. -/
def LineCodes.endsProgram (codes : LineCodes) : Bool := codes.m == some 2 || codes.m == some 30

/-- The line ends a subroutine body. -/
def LineCodes.returns (codes : LineCodes) : Bool := codes.m == some 99

/-- What the order of execution needs to know of a block that has been read. -/
structure Block.IsReading (number : ℕ) (codes : LineCodes) (b : Block α) : Prop where
  asRead : b.asRead = b
  number : b.number = number
  inlined : b.inlined = false
  call : b.call = codes.call?
  programEnd : b.programEnd = codes.endsProgram

theorem Block.isReading {number : ℕ} {line : String} {m m' : Modal α} {b : Block α}
    (h : Block.read number line m = (m', b)) : b.IsReading number (LineCodes.ofLine α line) := by
  obtain rfl : (Block.read number line m).2 = b := congrArg Prod.snd h
  constructor <;> simp [Block.read_snd, Block.inert, Block.asRead, LineCodes.endsProgram]

namespace Source

variable (s : Source)

/-- Reads line `n` of the program. -/
def readAt (m : Modal α) (n : ℕ) : Modal α × Block α := Block.read n (s.lines.getD n "") m

variable (α) in
/-- The codes of line `n` of the program. -/
def codesAt (n : ℕ) : LineCodes := LineCodes.ofLine α (s.lines.getD n "")

/-! ### Lines run at a call -/

/-- How a call on a line is replaced by lines, given the body found last. -/
abbrev Routing := Call → ℕ → Found → Found × List ℕ

variable (α) in
/-- Line `n` of a body and the lines that a call on it brings along. -/
def routeLine (nested : Routing) (found : Found) (n : ℕ) : Found × List ℕ :=
  match (s.codesAt α n).call? with
  | none => (found, [n])
  | some call =>
    let (found, ns) := nested call n found
    (found, n :: ns)

variable (α) in
/-- The lines of one run of a body. -/
def routeBody (nested : Routing) (body : Body) (found : Found) : Found × List ℕ :=
  let (found, runs) := pass (s.routeLine α nested) found body.lines
  (found, runs.flatten)

variable (α) in
/-- The lines that a call runs, given what the calls in its body run. -/
def routeWith (nested : Routing) : Routing := fun call line found =>
  let (found, body?) := s.marks.locate s.rules found call.id line
  match body? with
  | none => (found, [])
  | some body =>
    let (found, runs) := pass (fun found _ => s.routeBody α nested body found) found
      (List.range call.times)
    (found, runs.flatten)

variable (α) in
/-- The lines that a call runs. -/
def route : ℕ → Routing
  | 0 => s.routeWith α fun _ _ found => (found, [])
  | depth + 1 => s.routeWith α (route depth)

/-- From the modal state `m` on, the lines of a route have been read into `copies`, which leaves the
reader `r`. -/
structure Copies (m : Modal α) (r : Reader α) (copies : List (Copy α)) (route : Found × List ℕ) :
    Prop where
  found : r.found = route.1
  read : pass s.readAt m route.2 = (r.modal, copies.map (·.block.asRead))
  definitions : copies.map (·.definition) = route.2
  copied : ∀ c ∈ copies, c.block.inlined = true ∧ c.block.number = c.definition
  afterEnd : ∀ c ∈ copies, c.block.afterEnd = false

variable {s}

theorem Copies.nil (r : Reader α) : s.Copies r.modal r [] (r.found, []) :=
  ⟨rfl, rfl, rfl, by simp, by simp⟩

theorem Copies.append {m : Modal α} {r₁ r₂ : Reader α} {cs ds : List (Copy α)} {f g : Found} {ms ns : List ℕ}
    (h₁ : s.Copies m r₁ cs (f, ms)) (h₂ : s.Copies r₁.modal r₂ ds (g, ns)) :
    s.Copies m r₂ (cs ++ ds) (g, ms ++ ns) where
  found := h₂.found
  read := by rw [pass_append, h₁.read, h₂.read, List.map_append]
  definitions := by rw [List.map_append, h₁.definitions, h₂.definitions]
  copied := by
    intro c hc
    rcases List.mem_append.mp hc with hc | hc
    · exact h₁.copied c hc
    · exact h₂.copied c hc
  afterEnd := by
    intro c hc
    rcases List.mem_append.mp hc with hc | hc
    · exact h₁.afterEnd c hc
    · exact h₂.afterEnd c hc

/-- A pass of copying steps copies what the pass of routes runs. The state of the copying pass may
carry more than the reader. -/
theorem Copies.pass {σ ι : Type} (reader : σ → Reader α) {step : σ → ι → σ × List (Copy α)}
    {route : Found → ι → Found × List ℕ}
    (hstep : ∀ t x, s.Copies (reader t).modal (reader (step t x).1) (step t x).2
      (route (reader t).found x)) (t : σ) (xs : List ι) :
    s.Copies (reader t).modal (reader (PartProgram.pass step t xs).1)
      (PartProgram.pass step t xs).2.flatten
      ((PartProgram.pass route (reader t).found xs).1,
        (PartProgram.pass route (reader t).found xs).2.flatten) := by
  induction xs generalizing t with
  | nil => exact .nil _
  | cons x xs ih =>
      simp only [pass_cons, List.flatten_cons]
      have htail := ih (step t x).1
      rw [(hstep t x).found] at htail
      exact (hstep t x).append htail

variable (s)

/-- A single copied line. -/
theorem copies_single {r : Reader α} {n : ℕ} {m : Modal α} {b : Block α}
    (hread : Block.read n (s.lines.getD n "") r.modal = (m, b)) (hidden : Bool) :
    s.Copies r.modal { r with modal := m } [⟨n, { b with inlined := true, hidden }⟩] (r.found, [n]) where
  found := rfl
  read := by
    simp only [pass_cons, pass_nil, List.map_cons, List.map_nil, readAt, Block.asRead_inlined, hread,
      (Block.isReading hread).asRead]
  definitions := rfl
  copied := by simp [(Block.isReading hread).number]
  afterEnd := by
    have hnever : b.afterEnd = false := (congrArg Block.afterEnd (Block.isReading hread).asRead).symm
    simpa using hnever

theorem copies_copyLine {nested : Inlining α} {routing : Routing}
    (hnested : ∀ call line hidden r, s.Copies r.modal (nested call line hidden r).1
      (nested call line hidden r).2 (routing call line r.found))
    (callHidden : Bool) (state : Bool × Reader α) (n : ℕ) :
    s.Copies state.2.modal (s.copyLine nested callHidden state n).1.2
      (s.copyLine nested callHidden state n).2 (s.routeLine α routing state.2.found n) := by
  obtain ⟨concealed, r⟩ := state
  rcases hread : Block.read n (s.lines.getD n "") r.modal with ⟨m, b⟩
  have hcall : b.call = (s.codesAt α n).call? := (Block.isReading hread).call
  simp only [copyLine, routeLine, hread]
  cases hcodes : (s.codesAt α n).call? with
  | none =>
      split
      · exact s.copies_single hread _
      · simp_all
  | some call =>
      split
      · simp_all
      · rename_i hc
        obtain rfl : _ = call := Option.some.inj (hc.symm.trans (hcall.trans hcodes))
        exact (s.copies_single hread _).append (hnested _ n _ _)

theorem copies_copyBody {nested : Inlining α} {routing : Routing}
    (hnested : ∀ call line hidden r, s.Copies r.modal (nested call line hidden r).1
      (nested call line hidden r).2 (routing call line r.found))
    (callHidden : Bool) (body : Body) (r : Reader α) :
    s.Copies r.modal (s.copyBody nested callHidden body r).1 (s.copyBody nested callHidden body r).2
      (s.routeBody α routing body r.found) :=
  Copies.pass (fun t : Bool × Reader α => t.2) (s.copies_copyLine hnested callHidden)
    (false, r) body.lines

theorem copies_inlineWith {nested : Inlining α} {routing : Routing}
    (hnested : ∀ call line hidden r, s.Copies r.modal (nested call line hidden r).1
      (nested call line hidden r).2 (routing call line r.found))
    (call : Call) (line : ℕ) (hidden : Bool) (r : Reader α) :
    s.Copies r.modal (s.inlineWith nested call line hidden r).1
      (s.inlineWith nested call line hidden r).2 (s.routeWith α routing call line r.found) := by
  simp only [inlineWith, routeWith]
  rcases s.marks.locate s.rules r.found call.id line with ⟨found, _ | body⟩
  · exact .nil { r with found }
  · exact Copies.pass (fun t => t) (fun t _ => s.copies_copyBody hnested hidden body t)
      { r with found } (List.range call.times)

/-- Inlining a call reads the lines of its route under the modal state at the call. -/
theorem copies_inline (depth : ℕ) (call : Call) (line : ℕ) (hidden : Bool) (r : Reader α) :
    s.Copies r.modal (s.inline depth call line hidden r).1 (s.inline depth call line hidden r).2
      (s.route α depth call line r.found) := by
  induction depth generalizing call line hidden r with
  | zero =>
      rw [inline, route]
      exact s.copies_inlineWith (fun _ _ _ r => .nil r) call line hidden r
  | succ depth ih =>
      rw [inline, route]
      exact s.copies_inlineWith ih call line hidden r

/-! ### Lines run by the program -/

variable (α) in
/-- The steps that line `n` of the program brings along: itself, and copies of the lines that a call
on it runs. The state is the body found last, and whether the program has ended. -/
def routeTop (state : Found × Bool) (n : ℕ) : (Found × Bool) × List (Bool × ℕ) :=
  let (found, ended) := state
  let codes := s.codesAt α n
  let (found, ns) := match codes.call? with
    | some call => if ended then (found, []) else s.route α (s.rules.maxDepth - 1) call n found
    | none => (found, [])
  ((found, ended || codes.endsProgram), (false, n) :: ns.map (true, ·))

variable (α) in
/-- The lines that run, in order; `true` marks copies. -/
def order : List (Bool × ℕ) :=
  (pass (s.routeTop α) (none, false) (List.range s.lines.size)).2.flatten

/-- From the modal state `m` on, lines of the program have been read into entries that execute the
given steps. -/
structure Runs (m : Modal α) (r : ProgramReader α) (entries : List (Entry α))
    (route : (Found × Bool) × List (Bool × ℕ)) : Prop where
  found : r.reader.found = route.1.1
  ended : r.ended = route.1.2
  read : pass s.readAt m (route.2.map Prod.snd) =
    (r.reader.modal, (entries.flatMap Entry.executed).map Block.asRead)
  steps : (entries.flatMap Entry.executed).map (fun b => (b.inlined, b.number)) = route.2
  copied : ∀ e ∈ entries, e.line.inlined = false ∧ ∀ c ∈ e.copies, c.block.inlined = true

theorem runs_of_copies {m m' : Modal α} {b : Block α} {n : ℕ} {reader : Reader α}
    {copies : List (Copy α)} {found : Found} {ns : List ℕ}
    (hread : Block.read n (s.lines.getD n "") m = (m', b))
    (hcopies : s.Copies m' reader copies (found, ns)) (hidden footer ended afterEnd : Bool) :
    s.Runs m ⟨reader, hidden, ended⟩ [⟨{ b with hidden, footer, afterEnd }, copies⟩]
      ((found, ended), (false, n) :: ns.map (true, ·)) where
  found := hcopies.found
  ended := rfl
  read := by
    have hb : ({ b with hidden, footer, afterEnd } : Block α).asRead = b := (Block.isReading hread).asRead
    have hns : ((false, n) :: ns.map (true, ·)).map Prod.snd = n :: ns := by
      simp [Function.comp_def]
    rw [hns, pass_cons, readAt, hread, hcopies.read]
    simp only [List.flatMap_cons, List.flatMap_nil, List.append_nil, Entry.executed, List.map_cons,
      List.map_map, Function.comp_def, hb]
  steps := by
    have hb := Block.isReading hread
    have hc : copies.map (fun c => (c.block.inlined, c.block.number)) = ns.map (true, ·) := by
      obtain rfl : copies.map (·.definition) = ns := hcopies.definitions
      rw [List.map_map]
      apply List.map_congr_left
      intro c hc
      rw [(hcopies.copied c hc).1, (hcopies.copied c hc).2]
      rfl
    simp [Entry.executed, hb.number, hb.inlined, Function.comp_def, hc]
  copied := by simpa [(Block.isReading hread).inlined] using fun c hc => (hcopies.copied c hc).1

theorem runs_readLine (r : ProgramReader α) (n : ℕ) :
    s.Runs r.reader.modal (r.readLine s (n, s.lines.getD n "")).1
      [(r.readLine s (n, s.lines.getD n "")).2] (s.routeTop α (r.reader.found, r.ended) n) := by
  rcases hread : Block.read n (s.lines.getD n "") r.reader.modal with ⟨m, b⟩
  have hcall : b.call = (s.codesAt α n).call? := (Block.isReading hread).call
  have hend : b.programEnd = (s.codesAt α n).endsProgram := (Block.isReading hread).programEnd
  have hnil : s.Copies m { r.reader with modal := m } [] (r.reader.found, []) :=
    .nil { r.reader with modal := m }
  simp only [ProgramReader.readLine, routeTop, hread, ← hend]
  cases hcodes : (s.codesAt α n).call? with
  | none =>
      split
      · simp_all
      · exact s.runs_of_copies hread hnil _ _ _ _
  | some call =>
      split
      · rename_i hc
        obtain rfl : _ = call := Option.some.inj (hc.symm.trans (hcall.trans hcodes))
        split
        · exact s.runs_of_copies hread hnil _ _ _ _
        · exact s.runs_of_copies hread
            (s.copies_inline _ _ n _ { r.reader with modal := m }) _ _ _ _
      · simp_all

theorem Runs.nil (r : ProgramReader α) : s.Runs r.reader.modal r [] ((r.reader.found, r.ended), []) :=
  ⟨rfl, rfl, rfl, rfl, by simp⟩

variable {s} in
theorem Runs.cons {m : Modal α} {r r' : ProgramReader α} {e : Entry α} {es : List (Entry α)}
    {one route : (Found × Bool) × List (Bool × ℕ)} (hone : s.Runs m r [e] one)
    (htail : s.Runs r.reader.modal r' es route) : s.Runs m r' (e :: es) (route.1, one.2 ++ route.2) where
  found := htail.found
  ended := htail.ended
  read := by
    rw [List.map_append, pass_append, hone.read, htail.read]
    simp
  steps := by
    rw [← hone.steps, ← htail.steps]
    simp
  copied := by
    intro e' he
    rcases List.mem_cons.mp he with rfl | he
    · exact hone.copied e' (by simp)
    · exact htail.copied e' he

theorem runs_pass (r : ProgramReader α) (ns : List ℕ) :
    s.Runs r.reader.modal
      (pass (ProgramReader.readLine s) r (ns.map fun n => (n, s.lines.getD n ""))).1
      (pass (ProgramReader.readLine s) r (ns.map fun n => (n, s.lines.getD n ""))).2
      ((pass (s.routeTop α) (r.reader.found, r.ended) ns).1,
        (pass (s.routeTop α) (r.reader.found, r.ended) ns).2.flatten) := by
  induction ns generalizing r with
  | nil => exact .nil s r
  | cons n ns ih =>
      have hone := s.runs_readLine r n
      simp only [List.map_cons, pass_cons, List.flatten_cons]
      generalize s.routeTop α (r.reader.found, r.ended) n = route at hone ⊢
      generalize r.readLine s (n, s.lines.getD n "") = read at hone ⊢
      have hstate : (read.1.reader.found, read.1.ended) = route.1 :=
        Prod.ext hone.found hone.ended
      have htail := ih read.1
      rw [hstate] at htail
      exact hone.cons htail

/-- Reading a program runs its lines in their order. -/
theorem runs_ofLines (lines : List String) (rules : CallRules) (markers : Markers) :
    let s := ofLines α lines rules markers
    let start : ProgramReader α := ⟨⟨Modal.initial, none⟩, false, false⟩
    let read := pass (ProgramReader.readLine s) start (lines.mapIdx fun n line => (n, line))
    ∃ state, s.Runs Modal.initial read.1 read.2 (state, s.order α) := by
  intro s start read
  have hlines : lines.mapIdx (fun n line => (n, line)) =
      (List.range s.lines.size).map fun n => (n, s.lines.getD n "") := by
    apply List.ext_getElem
    · simp [s, ofLines]
    · intro n h _
      simp only [List.length_mapIdx] at h
      simp [s, ofLines, h]
  have hruns := s.runs_pass start (List.range s.lines.size)
  rw [← hlines] at hruns
  exact ⟨_, hruns⟩

end Source

namespace Landmarks

variable (α : Type) [Scalar α] (lines : List String)

theorem labels_ofLines :
    (ofLines α lines).labels =
      lines.zipIdx.filterMap fun l => (LineCodes.ofLine α l.1).o.map (l.2, ·) := by
  simp [ofLines, List.mapIdx_eq_zipIdx_map, Block.read_snd, List.filterMap_map, Block.inert]

theorem returns_ofLines :
    (ofLines α lines).returns =
      (lines.zipIdx.filter fun l => (LineCodes.ofLine α l.1).returns).map Prod.snd := by
  simp [ofLines, List.mapIdx_eq_zipIdx_map, Block.read_snd, List.filter_map, Function.comp_def,
    Block.inert, LineCodes.returns]

/-- Landmarks are found by the codes of the lines. -/
theorem ofLines_congr {lines lines' : List String}
    (h : lines'.map (LineCodes.ofLine α) = lines.map (LineCodes.ofLine α)) :
    ofLines α lines' = ofLines α lines := by
  have hlabels : ∀ ls : List String, (ofLines α ls).labels =
      (ls.map (LineCodes.ofLine α)).zipIdx.filterMap fun l => l.1.o.map (l.2, ·) := by
    intro ls
    rw [labels_ofLines, List.zipIdx_map, List.filterMap_map]
    rfl
  have hreturns : ∀ ls : List String, (ofLines α ls).returns =
      ((ls.map (LineCodes.ofLine α)).zipIdx.filter fun l => l.1.returns).map Prod.snd := by
    intro ls
    rw [returns_ofLines, List.zipIdx_map, List.filter_map, List.map_map]
    rfl
  have hmarks : ∀ marks marks' : Landmarks, marks'.labels = marks.labels →
      marks'.returns = marks.returns → marks' = marks := by
    rintro ⟨labels, returns⟩ ⟨-, -⟩ rfl rfl
    rfl
  refine hmarks _ _ ?_ ?_
  · rw [hlabels, hlabels, h]
  · rw [hreturns, hreturns, h]

end Landmarks

namespace Source

/-! ### Lines with the same codes -/

variable (α) in
/-- Two programs that cannot be told apart by the codes of their lines. -/
structure SameCodes (s s' : Source) : Prop where
  size : s'.lines.size = s.lines.size
  codes : ∀ n, s'.codesAt α n = s.codesAt α n
  marks : s'.marks = s.marks
  rules : s'.rules = s.rules

variable {s s' : Source}

theorem sameCodes_ofLines {lines lines' : List String}
    (h : lines'.map (LineCodes.ofLine α) = lines.map (LineCodes.ofLine α)) (rules : CallRules)
    (markers : Markers) : SameCodes α (ofLines α lines rules markers) (ofLines α lines' rules markers) where
  size := by simpa [ofLines] using congrArg List.length h
  codes := by
    intro n
    have hcodes : ∀ ls : List String, (ofLines α ls rules markers).codesAt α n =
        (ls.map (LineCodes.ofLine α))[n]?.getD (LineCodes.ofLine α "") := by
      intro ls
      simp [codesAt, ofLines]
    rw [hcodes, hcodes, h]
  marks := Landmarks.ofLines_congr α h
  rules := rfl

theorem SameCodes.route_eq (h : SameCodes α s s') (depth : ℕ) : s'.route α depth = s.route α depth := by
  have hline : ∀ nested : Routing, s'.routeLine α nested = s.routeLine α nested := by
    intro nested
    funext found n
    simp only [routeLine, h.codes]
  have hwith : ∀ nested : Routing, s'.routeWith α nested = s.routeWith α nested := by
    intro nested
    funext call line found
    simp only [routeWith, routeBody, hline, h.marks, h.rules]
  induction depth with
  | zero => rw [route, route, hwith]
  | succ depth ih => rw [route, route, hwith, ih]

/-- The order of execution depends on the codes of the lines alone. -/
theorem SameCodes.order_eq (h : SameCodes α s s') : s'.order α = s.order α := by
  have htop : s'.routeTop α = s.routeTop α := by
    funext state n
    simp only [routeTop, h.codes, h.route_eq, h.rules]
  simp only [order, htop, h.size]

end Source

end PartProgram
