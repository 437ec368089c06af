/-!
A pass runs a state along a list and collects what each element becomes on the way. Reading lines,
placing blocks and writing listings are passes.
-/

namespace PartProgram

section

variable {σ α β : Type} (step : σ → α → σ × β)

/-- One step of a pass: the results so far are kept in an array. -/
def passStep (acc : σ × Array β) (x : α) : σ × Array β :=
  ((step acc.1 x).1, acc.2.push (step acc.1 x).2)

/-- Threads `s` through `xs` from left to right; gives the last state and the results in order. -/
def pass (s : σ) (xs : List α) : σ × List β :=
  let (s, out) := xs.foldl (passStep step) (s, #[])
  (s, out.toList)

private theorem foldl_passStep (s : σ) (out : Array β) (xs : List α) :
    xs.foldl (passStep step) (s, out) =
      ((pass step s xs).1, out ++ (pass step s xs).2.toArray) := by
  induction xs generalizing s out with
  | nil => simp [pass]
  | cons x xs ih =>
    simp only [pass, List.foldl_cons, passStep]
    rw [ih, ih _ (#[].push _)]
    apply Prod.ext <;> simp

@[simp]
theorem pass_nil (s : σ) : pass step s [] = (s, []) := rfl

theorem pass_cons (s : σ) (x : α) (xs : List α) :
    pass step s (x :: xs) =
      ((pass step (step s x).1 xs).1, (step s x).2 :: (pass step (step s x).1 xs).2) := by
  rw [pass, List.foldl_cons, passStep, foldl_passStep]
  simp

theorem pass_append (s : σ) (xs ys : List α) :
    pass step s (xs ++ ys) =
      ((pass step (pass step s xs).1 ys).1,
        (pass step s xs).2 ++ (pass step (pass step s xs).1 ys).2) := by
  induction xs generalizing s with
  | nil => simp
  | cons x xs ih => simp [pass_cons, ih]

@[simp]
theorem length_pass (s : σ) (xs : List α) : (pass step s xs).2.length = xs.length := by
  induction xs generalizing s with
  | nil => simp
  | cons x xs ih => simp [pass_cons, ih]

end

end PartProgram
