import Mathlib.Data.List.Forall2
import PartProgram.Pass

/-! # Passes side by side -/

namespace PartProgram

section

variable {σ α α' β : Type} {step : σ → α → σ × β}

theorem pass_map (f : α' → α) (s : σ) (xs : List α') :
    pass step s (xs.map f) = pass (fun s x => step s (f x)) s xs := by
  induction xs generalizing s with
  | nil => rfl
  | cons x xs ih => simp [pass_cons, ih]

theorem pass_congr {step₁ step₂ : σ → α → σ × β} {xs : List α}
    (h : ∀ s, ∀ x ∈ xs, step₁ s x = step₂ s x) (s : σ) : pass step₁ s xs = pass step₂ s xs := by
  induction xs generalizing s with
  | nil => rfl
  | cons x xs ih =>
      simp only [pass_cons, h s x (by simp)]
      rw [ih fun s x hx => h s x (by simp [hx])]

theorem exists_of_mem_pass {s : σ} {xs : List α} {y : β} (h : y ∈ (pass step s xs).2) :
    ∃ s x, x ∈ xs ∧ (step s x).2 = y := by
  induction xs generalizing s with
  | nil => simp at h
  | cons x xs ih =>
      rw [pass_cons] at h
      rcases List.mem_cons.mp h with h | h
      · exact ⟨s, x, by simp, h.symm⟩
      · obtain ⟨s, x', hx', hy⟩ := ih h
        exact ⟨s, x', by simp [hx'], hy⟩

/-- A result is that of an element, in the state that what comes before the element leaves. -/
theorem mem_pass_iff {s : σ} {xs : List α} {y : β} :
    y ∈ (pass step s xs).2 ↔ ∃ front x back, xs = front ++ x :: back ∧ (step (pass step s front).1 x).2 = y := by
  induction xs generalizing s with
  | nil => simp
  | cons x xs ih =>
      rw [pass_cons, List.mem_cons, ih]
      constructor
      · rintro (rfl | ⟨front, z, back, rfl, hy⟩)
        · exact ⟨[], x, xs, rfl, rfl⟩
        · exact ⟨x :: front, z, back, rfl, by rwa [pass_cons]⟩
      · rintro ⟨front, z, back, hxs, hy⟩
        cases front with
        | nil =>
            obtain ⟨rfl, rfl⟩ := List.cons.inj hxs
            exact .inl hy.symm
        | cons w front =>
            obtain ⟨rfl, rfl⟩ := List.cons.inj hxs
            rw [pass_cons] at hy
            exact .inr ⟨front, z, back, rfl, hy⟩

/-- An invariant of the state holds at the end, and as long as it holds every result has a property. -/
theorem pass_invariant {I : σ → Prop} {P : β → Prop} {s : σ} {xs : List α} (hs : I s)
    (hstep : ∀ s, ∀ x ∈ xs, I s → I (step s x).1 ∧ P (step s x).2) :
    I (pass step s xs).1 ∧ ∀ y ∈ (pass step s xs).2, P y := by
  induction xs generalizing s with
  | nil => simpa using hs
  | cons x xs ih =>
      obtain ⟨hI, hP⟩ := hstep s x (by simp) hs
      obtain ⟨hend, hrest⟩ := ih hI fun s x hx => hstep s x (by simp [hx])
      rw [pass_cons]
      exact ⟨hend, List.forall_mem_cons.mpr ⟨hP, hrest⟩⟩

/-- What every result has as long as the state keeps an invariant. -/
theorem forall_mem_pass {I : σ → Prop} {P : β → Prop} {s : σ} {xs : List α} (hs : I s)
    (hstep : ∀ s, ∀ x ∈ xs, I s → I (step s x).1 ∧ P (step s x).2) : ∀ y ∈ (pass step s xs).2, P y :=
  (pass_invariant hs hstep).2

/-- What holds of the results so far and of the state holds at the end. -/
theorem pass_induction {I : List β → σ → Prop}
    (hstep : ∀ before s x, I before s → I (before ++ [(step s x).2]) (step s x).1) (before : List β) {s : σ}
    (h : I before s) (xs : List α) : I (before ++ (pass step s xs).2) (pass step s xs).1 := by
  induction xs generalizing before s with
  | nil => simpa using h
  | cons x xs ih =>
      have htail := ih _ (hstep before s x h)
      rw [List.append_assoc] at htail
      rw [pass_cons]
      exact htail

/-- What the results show of the elements alone. -/
theorem map_pass {γ : Type} {g : β → γ} {f : α → γ} (hstep : ∀ s x, g (step s x).2 = f x) (s : σ)
    (xs : List α) : (pass step s xs).2.map g = xs.map f := by
  induction xs generalizing s with
  | nil => rfl
  | cons x xs ih => simp [pass_cons, hstep, ih]

theorem forall₂_pass {R : α → β → Prop} (hstep : ∀ s x, R x (step s x).2) (s : σ) (xs : List α) :
    List.Forall₂ R xs (pass step s xs).2 := by
  induction xs generalizing s with
  | nil => exact .nil
  | cons x xs ih =>
      rw [pass_cons]
      exact .cons (hstep s x) (ih _)

theorem forall₂_comp {γ : Type} {R : α → β → Prop} {S : β → γ → Prop} {xs : List α} {ys : List β} {zs : List γ}
    (h : List.Forall₂ R xs ys) (h' : List.Forall₂ S ys zs) :
    List.Forall₂ (fun x z => ∃ y, R x y ∧ S y z) xs zs := by
  induction h generalizing zs with
  | nil =>
      obtain rfl := List.forall₂_nil_left_iff.mp h'
      exact .nil
  | cons hx _ ih =>
      obtain ⟨z, rest, hz, hrest, rfl⟩ := List.forall₂_cons_left_iff.mp h'
      exact .cons ⟨_, hx, hz⟩ (ih hrest)

theorem exists_getElem?_of_forall₂ {R : α → β → Prop} {xs : List α} {ys : List β} (h : List.Forall₂ R xs ys)
    {n : ℕ} {x : α} (hx : xs[n]? = some x) : ∃ y, ys[n]? = some y ∧ R x y := by
  obtain ⟨hn, rfl⟩ := List.getElem?_eq_some_iff.mp hx
  have hn' : n < ys.length := h.length_eq ▸ hn
  exact ⟨ys[n], List.getElem?_eq_getElem hn', h.get hn hn'⟩

/-- Two passes side by side. The second one runs through what the results of the first give way to. As long
as the states keep in step with the results so far, so do the results. -/
theorem getElem?_pass_simulation {σ' γ δ : Type} {step' : σ' → γ → σ' × δ} {I : List β → σ → σ' → Prop}
    {R : β → γ → Prop} {Q : List β → β → δ → Prop}
    (hstep : ∀ before s s' x x', I before s s' → R (step s x).2 x' →
      I (before ++ [(step s x).2]) (step s x).1 (step' s' x').1 ∧ Q before (step s x).2 (step' s' x').2)
    (before : List β) {s : σ} {s' : σ'} (h : I before s s') {xs : List α} {xs' : List γ}
    (hxs : List.Forall₂ R (pass step s xs).2 xs') {n : ℕ} {y : β} {y' : δ} (hy : (pass step s xs).2[n]? = some y)
    (hy' : (pass step' s' xs').2[n]? = some y') : Q (before ++ (pass step s xs).2.take n) y y' := by
  induction xs generalizing before s s' xs' n with
  | nil => simp at hy
  | cons x xs ih =>
      rw [pass_cons] at hxs hy ⊢
      obtain ⟨x', rest, hx, hrest, rfl⟩ := List.forall₂_cons_left_iff.mp hxs
      rw [pass_cons] at hy'
      obtain ⟨hI, hQ⟩ := hstep before s s' x x' h hx
      cases n with
      | zero =>
          obtain rfl : (step s x).2 = y := by simpa using hy
          obtain rfl : (step' s' x').2 = y' := by simpa using hy'
          simpa using hQ
      | succ n =>
          have htail := ih _ hI hrest (by simpa using hy) (by simpa using hy')
          rwa [List.append_assoc] at htail

/-- The states that two passes side by side end in. -/
theorem pass_simulation {σ' γ δ : Type} {step' : σ' → γ → σ' × δ} {I : List β → σ → σ' → Prop} {R : β → γ → Prop}
    (hstep : ∀ before s s' x x', I before s s' → R (step s x).2 x' →
      I (before ++ [(step s x).2]) (step s x).1 (step' s' x').1)
    (before : List β) {s : σ} {s' : σ'} (h : I before s s') {xs : List α} {xs' : List γ}
    (hxs : List.Forall₂ R (pass step s xs).2 xs') :
    I (before ++ (pass step s xs).2) (pass step s xs).1 (pass step' s' xs').1 := by
  induction xs generalizing before s s' xs' with
  | nil =>
      obtain rfl := List.forall₂_nil_left_iff.mp hxs
      simpa using h
  | cons x xs ih =>
      rw [pass_cons] at hxs ⊢
      obtain ⟨x', rest, hx, hrest, rfl⟩ := List.forall₂_cons_left_iff.mp hxs
      have htail := ih _ (hstep before s s' x x' h hx) hrest
      rw [List.append_assoc] at htail
      rw [pass_cons]
      exact htail

variable (step) in
/-- One pass after the other is a single pass with both states. -/
theorem pass_pass {τ γ : Type} (step' : τ → β → τ × γ) (s : σ) (t : τ) (xs : List α) :
    let both := fun (state : σ × τ) x =>
      let (s, y) := step state.1 x
      let (t, z) := step' state.2 y
      ((s, t), z)
    (pass both (s, t) xs).1.2 = (pass step' t (pass step s xs).2).1 ∧
      (pass both (s, t) xs).2 = (pass step' t (pass step s xs).2).2 := by
  induction xs generalizing s t with
  | nil => exact ⟨rfl, rfl⟩
  | cons x xs ih =>
      obtain ⟨hstate, hresults⟩ := ih (step s x).1 (step' t (step s x).2).1
      simp only [pass_cons]
      exact ⟨hstate, congrArg _ hresults⟩

/-- Lists of one length are related if the elements at every place are. -/
theorem forall₂_of_getElem? {R : α → β → Prop} {xs : List α} {ys : List β} (hlength : xs.length = ys.length)
    (h : ∀ (n : ℕ) x y, xs[n]? = some x → ys[n]? = some y → R x y) : List.Forall₂ R xs ys := by
  rw [List.forall₂_iff_get]
  refine ⟨hlength, fun n hn hn' => h n _ _ ?_ ?_⟩
  · exact List.getElem?_eq_getElem hn
  · exact List.getElem?_eq_getElem hn'

/-- A list that is related to two lists in a row falls into two parts. -/
theorem exists_append_of_forall₂ {γ : Type} {R : γ → β → Prop} {xs ys : List γ} {zs : List β}
    (h : List.Forall₂ R (xs ++ ys) zs) :
    ∃ zs₁ zs₂, zs = zs₁ ++ zs₂ ∧ List.Forall₂ R xs zs₁ ∧ List.Forall₂ R ys zs₂ := by
  induction xs generalizing zs with
  | nil => exact ⟨[], zs, rfl, .nil, h⟩
  | cons x xs ih =>
      obtain ⟨z, zs', hx, hrest, rfl⟩ := List.forall₂_cons_left_iff.mp h
      obtain ⟨zs₁, zs₂, rfl, hxs, hys⟩ := ih hrest
      exact ⟨z :: zs₁, zs₂, rfl, .cons hx hxs, hys⟩

/-- A list that is related to lists that have been put together falls into groups. -/
theorem exists_groups_of_forall₂ {γ : Type} {R : γ → β → Prop} {xss : List (List γ)} {ys : List β}
    (h : List.Forall₂ R xss.flatten ys) :
    ∃ groups : List (List β), ys = groups.flatten ∧ List.Forall₂ (List.Forall₂ R) xss groups := by
  induction xss generalizing ys with
  | nil => exact ⟨[], List.forall₂_nil_left_iff.mp h, .nil⟩
  | cons xs xss ih =>
      rw [List.flatten_cons] at h
      obtain ⟨group, rest, rfl, hgroup, hrest⟩ := exists_append_of_forall₂ h
      obtain ⟨groups, rfl, hgroups⟩ := ih hrest
      exact ⟨group :: groups, rfl, .cons hgroup hgroups⟩

/-- What related elements become in a pass over one of the lists. -/
theorem forall₂_pass_of_forall₂ {γ : Type} {R : γ → α → Prop} {T : γ → β → Prop}
    (hstep : ∀ s c x, R c x → T c (step s x).2) (s : σ) {cs : List γ} {xs : List α} (h : List.Forall₂ R cs xs) :
    List.Forall₂ T cs (pass step s xs).2 := by
  induction h generalizing s with
  | nil => exact .nil
  | cons hx _ ih =>
      rw [pass_cons]
      exact .cons (hstep s _ _ hx) (ih _)

/-- A pass over lists that have been put together gives its results in groups. -/
theorem exists_groups_of_pass {γ : Type} {f : γ → List α} {T : γ → List β → Prop} {cs : List γ}
    (hstep : ∀ s, ∀ c ∈ cs, T c (pass step s (f c)).2) (s : σ) :
    ∃ groups : List (List β), (pass step s (cs.flatMap f)).2 = groups.flatten ∧ List.Forall₂ T cs groups := by
  induction cs generalizing s with
  | nil => exact ⟨[], rfl, .nil⟩
  | cons c cs ih =>
      obtain ⟨groups, hgroups, hT⟩ := ih (fun s c hc => hstep s c (by simp [hc])) (pass step s (f c)).1
      refine ⟨(pass step s (f c)).2 :: groups, ?_, .cons (hstep s c (by simp)) hT⟩
      rw [List.flatMap_cons, pass_append, hgroups, List.flatten_cons]

/-- A pass over lists that have been put together, next to the pass over the elements that the lists
stand for. -/
theorem pass_flatMap {σ' γ δ ε : Type} {step : σ → γ → σ × List δ} {step' : σ' → α → σ' × List ε} {f : σ → σ'}
    {group : γ → List α} {g : δ → List ε}
    (hstep : ∀ s x, (pass step' (f s) (group x)).1 = f (step s x).1 ∧
      (pass step' (f s) (group x)).2.flatten = (step s x).2.flatMap g) (s : σ) (xs : List γ) :
    (pass step' (f s) (xs.flatMap group)).1 = f (pass step s xs).1 ∧
      (pass step' (f s) (xs.flatMap group)).2.flatten = (pass step s xs).2.flatten.flatMap g := by
  induction xs generalizing s with
  | nil => exact ⟨rfl, rfl⟩
  | cons x xs ih =>
      obtain ⟨hstate, hresults⟩ := hstep s x
      obtain ⟨hlast, hrest⟩ := ih (step s x).1
      rw [List.flatMap_cons, pass_append, pass_cons, hstate, hlast, List.flatten_append, hresults, hrest,
        List.flatten_cons, List.flatMap_append]
      exact ⟨rfl, rfl⟩

/-- A pass whose results depend on the elements alone as long as its state keeps an invariant. -/
theorem pass_eq_map {I : σ → Prop} {f : α → β}
    (hstep : ∀ s x, I s → I (step s x).1 ∧ (step s x).2 = f x) {s : σ} (hs : I s) (xs : List α) :
    I (pass step s xs).1 ∧ (pass step s xs).2 = xs.map f := by
  induction xs generalizing s with
  | nil => exact ⟨hs, rfl⟩
  | cons x xs ih =>
      obtain ⟨hI, hx⟩ := hstep s x hs
      obtain ⟨hI', hxs⟩ := ih hI
      rw [pass_cons, List.map_cons, hx, hxs]
      exact ⟨hI', rfl⟩

/-- Lists that contain what they are related to contain all of it in order. -/
theorem sublist_flatten_of_forall₂ {γ : Type} {f : α → γ} {g : β → γ} {xs : List α} {groups : List (List β)}
    (h : List.Forall₂ (fun x group => ∃ y ∈ group, g y = f x) xs groups) :
    (xs.map f).Sublist (groups.flatten.map g) := by
  induction h with
  | nil => exact .slnil
  | cons hx _ ih =>
      obtain ⟨y, hy, hyx⟩ := hx
      rw [List.map_cons, List.flatten_cons, List.map_append, ← List.singleton_append]
      refine List.Sublist.append ?_ ih
      rw [List.singleton_sublist, ← hyx]
      exact List.mem_map_of_mem hy

/-- What related elements pass on. -/
theorem forall_mem_of_forall₂ {R : α → β → Prop} {P : α → Prop} {Q : β → Prop}
    (hR : ∀ x y, R x y → P x → Q y) {xs : List α} {ys : List β} (h : List.Forall₂ R xs ys)
    (hxs : ∀ x ∈ xs, P x) : ∀ y ∈ ys, Q y := by
  induction h with
  | nil => simp
  | cons hxy _ ih =>
      intro y hy
      rcases List.mem_cons.mp hy with rfl | hy
      · exact hR _ _ hxy (hxs _ (by simp))
      · exact ih (fun x hx => hxs x (by simp [hx])) y hy

/-- What an element is related to. -/
theorem exists_mem_of_forall₂ {R : α → β → Prop} {xs : List α} {ys : List β} (h : List.Forall₂ R xs ys) {y : β}
    (hy : y ∈ ys) : ∃ x ∈ xs, R x y :=
  forall_mem_of_forall₂ (P := (· ∈ xs)) (Q := fun y => ∃ x ∈ xs, R x y) (fun x _ hxy hx => ⟨x, hx, hxy⟩) h
    (fun _ => id) y hy

/-- Related lists are searched with the same result for what related elements agree on. -/
theorem findIdx?_eq_of_forall₂ {R : α → β → Prop} {f : α → Bool} {g : β → Bool} (hR : ∀ x y, R x y → g y = f x)
    {xs : List α} {ys : List β} (h : List.Forall₂ R xs ys) : ys.findIdx? g = xs.findIdx? f := by
  induction h with
  | nil => rfl
  | cons hxy _ ih => rw [List.findIdx?_cons, List.findIdx?_cons, hR _ _ hxy, ih]

/-- What holds on one side if it holds on the other. -/
theorem forall_mem_iff_of_forall₂ {R : α → β → Prop} {P : α → Prop} {Q : β → Prop} (hR : ∀ x y, R x y → (P x ↔ Q y))
    {xs : List α} {ys : List β} (h : List.Forall₂ R xs ys) : (∀ x ∈ xs, P x) ↔ ∀ y ∈ ys, Q y :=
  ⟨forall_mem_of_forall₂ (fun x y hxy => (hR x y hxy).mp) h,
    forall_mem_of_forall₂ (fun y x hxy => (hR x y hxy).mpr) h.flip⟩

/-- What the elements of related groups have in common. -/
theorem forall_mem_flatten_of_forall₂ {R : α → List β → Prop} {P : α → Prop} {Q : β → Prop}
    (hR : ∀ x group, R x group → P x → ∀ y ∈ group, Q y) {xs : List α} {groups : List (List β)}
    (h : List.Forall₂ R xs groups) (hxs : ∀ x ∈ xs, P x) : ∀ y ∈ groups.flatten, Q y := by
  intro y hy
  obtain ⟨group, hgroup, hy⟩ := List.mem_flatten.mp hy
  exact forall_mem_of_forall₂ (Q := fun group => ∀ y ∈ group, Q y) hR h hxs group hgroup y hy

theorem length_le_length_flatten (groups : List (List β)) (h : ∀ group ∈ groups, group ≠ []) :
    groups.length ≤ groups.flatten.length := by
  induction groups with
  | nil => exact Nat.le_refl _
  | cons group groups ih =>
      have hrest := ih fun group hgroup => h group (by simp [hgroup])
      have hpositive := List.length_pos_iff.mpr (h group (by simp))
      rw [List.flatten_cons, List.length_append, List.length_cons]
      omega

/-- Groups that hold as many elements as there are groups hold one each. -/
theorem forall_mem_singleton_of_forall₂ {R : α → List β → Prop} {f : α → β} {xs : List α} {groups : List (List β)}
    (h : List.Forall₂ R xs groups) (hne : ∀ group ∈ groups, group ≠ []) (hflat : groups.flatten = xs.map f) :
    ∀ x ∈ xs, R x [f x] := by
  induction h with
  | nil => simp
  | @cons x group xs groups hx hrest ih =>
      rw [List.flatten_cons, List.map_cons] at hflat
      have hshort := length_le_length_flatten groups fun group hgroup => hne group (by simp [hgroup])
      have hpositive := List.length_pos_iff.mpr (hne group (by simp))
      have htotal := congrArg List.length hflat
      rw [List.length_append, List.length_cons, List.length_map, hrest.length_eq] at htotal
      obtain ⟨y, rfl⟩ := List.length_eq_one_iff.mp (by omega : group.length = 1)
      obtain ⟨rfl, htail⟩ := List.cons.inj hflat
      exact List.forall_mem_cons.mpr ⟨hx, ih (fun group hgroup => hne group (by simp [hgroup])) htail⟩

/-- What holds of the elements of a list, told in pairs with those of a related one. -/
theorem forall_mem_iff_forall₂ {R Q : α → β → Prop} {P : α → Prop} {xs : List α} {ys : List β}
    (h : List.Forall₂ R xs ys) (hpair : ∀ x ∈ xs, ∀ y, R x y → (P x ↔ Q x y)) :
    (∀ x ∈ xs, P x) ↔ List.Forall₂ Q xs ys := by
  induction h with
  | nil => simp
  | @cons x y xs ys hx _ ih =>
      rw [List.forall_mem_cons, List.forall₂_cons, hpair x (by simp) y hx,
        ih fun x hx => hpair x (by simp [hx])]

/-- The last element with a property, as far as `f` shows it. -/
theorem map_getLast?_filter {P : α → Bool} {f : α → β} {xs ys : List α} {x : α} (hx : P x = true)
    (hys : ∀ y ∈ ys, P y = true → f y = f x) : ((xs ++ x :: ys).filter P).getLast?.map f = some (f x) := by
  rw [List.filter_append, List.filter_cons_of_pos hx, List.getLast?_append, List.getLast?_cons, Option.some_or,
    Option.map_some]
  cases hlast : (ys.filter P).getLast? with
  | none => rfl
  | some y =>
      obtain ⟨hy, hP⟩ := List.mem_filter.mp (List.mem_of_getLast? hlast)
      exact congrArg some (hys y hy hP)

end

end PartProgram
