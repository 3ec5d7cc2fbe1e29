import Mathlib.Data.List.Basic
import Mathlib.Logic.Function.Basic

/-!
# Critical sections one after the other

A section is a list of small steps on data that several parties share. While a party is inside,
`inside` has the steps that it has left. If there is never more than one party inside, the data is
what the sections make of it one after the other, the last one as far as it has come (`Is`). The
relation is kept by a party that enters, takes a step or leaves.
-/

namespace Serial

variable {ι σ : Type*}

def runAll (steps : List (σ → σ)) (x : σ) : σ := steps.foldl (fun x f => f x) x

@[simp] theorem runAll_nil (x : σ) : runAll [] x = x := rfl

@[simp] theorem runAll_cons (f : σ → σ) (steps : List (σ → σ)) (x : σ) :
    runAll (f :: steps) x = runAll steps (f x) := rfl

theorem runAll_append (steps rest : List (σ → σ)) (x : σ) :
    runAll (steps ++ rest) x = runAll rest (runAll steps x) :=
  List.foldl_append

/-- What sections make of `x`, one after the other. -/
def outcome (x : σ) (entered : List (ι × List (σ → σ))) : σ :=
  entered.foldl (fun x e => runAll e.2 x) x

theorem outcome_concat (x : σ) (entered : List (ι × List (σ → σ))) (e : ι × List (σ → σ)) :
    outcome x (entered ++ [e]) = runAll e.2 (outcome x entered) := by
  rw [outcome, List.foldl_append]
  rfl

/-- With the sections that were entered so far, in order: one party at most is inside, in the last
one of them, and the data is what the sections before make of `x` and the steps that the party has
taken make of that. -/
structure Is (x : σ) (entered : List (ι × List (σ → σ))) (inside : ι → Option (List (σ → σ)))
    (data : σ) : Prop where
  alone : ∀ i j, (inside i).isSome → (inside j).isSome → i = j
  last : ∀ i steps, inside i = some steps → ∃ before taken,
    entered = before ++ [(i, taken ++ steps)] ∧ data = runAll taken (outcome x before)
  done : (∀ i, inside i = none) → data = outcome x entered

variable {inside : ι → Option (List (σ → σ))} {data x : σ} {i : ι} {steps : List (σ → σ)}
  {entered : List (ι × List (σ → σ))}

theorem is_start (x : σ) : Is x [] (fun _ : ι => none) x where
  alone := by simp
  last := by simp
  done := fun _ => rfl

/-- The steps that are left give what the sections make. -/
theorem Is.rest (h : Is x entered inside data) (hi : inside i = some steps) :
    runAll steps data = outcome x entered := by
  obtain ⟨before, taken, rfl, rfl⟩ := h.last i steps hi
  rw [outcome_concat, runAll_append]

theorem Is.others (h : Is x entered inside data) (hi : inside i = some steps) (j : ι)
    (hj : j ≠ i) : inside j = none := by
  by_contra hne
  exact hj (h.alone j i (Option.ne_none_iff_isSome.mp hne) (by simp [hi]))

variable [DecidableEq ι]

/-- The party inside is the only one. -/
theorem is_update (hnone : ∀ j, j ≠ i → inside j = none) {before : List (ι × List (σ → σ))}
    {taken : List (σ → σ)} (hentered : entered = before ++ [(i, taken ++ steps)])
    (hdata : data = runAll taken (outcome x before)) :
    Is x entered (Function.update inside i (some steps)) data where
  alone := by
    have hall : ∀ j, (Function.update inside i (some steps) j).isSome → j = i := by
      intro j hj
      by_contra hji
      simp [hji, hnone j hji] at hj
    intro j k hj hk
    rw [hall j hj, hall k hk]
  last := by
    intro j rest hj
    by_cases hji : j = i
    · subst hji
      rw [Function.update_self] at hj
      cases hj
      exact ⟨before, taken, hentered, hdata⟩
    · simp [hji, hnone j hji] at hj
  done := by
    intro hall
    have hi := hall i
    simp at hi

theorem Is.enter (h : Is x entered inside data) (hnone : ∀ j, inside j = none)
    (steps : List (σ → σ)) :
    Is x (entered ++ [(i, steps)]) (Function.update inside i (some steps)) data := by
  have hentered : entered ++ [(i, steps)] = entered ++ [(i, [] ++ steps)] := rfl
  exact is_update (fun j _ => hnone j) hentered (h.done hnone)

theorem Is.work {f : σ → σ} (h : Is x entered inside data) (hi : inside i = some (f :: steps)) :
    Is x entered (Function.update inside i (some steps)) (f data) := by
  obtain ⟨before, taken, hentered, hdata⟩ := h.last i _ hi
  have hentered' : entered = before ++ [(i, (taken ++ [f]) ++ steps)] := by
    rw [hentered, List.append_assoc, List.singleton_append]
  have hdata' : f data = runAll (taken ++ [f]) (outcome x before) := by
    rw [hdata, runAll_append, runAll_cons, runAll_nil]
  exact is_update (h.others hi) hentered' hdata'

theorem Is.leave (h : Is x entered inside data) (hi : inside i = some []) :
    Is x entered (Function.update inside i none) data where
  alone := by
    intro j k hj
    by_cases hji : j = i
    · simp [hji] at hj
    · simp [hji, h.others hi j hji] at hj
  last := by
    intro j rest hj
    by_cases hji : j = i
    · simp [hji] at hj
    · simp [hji, h.others hi j hji] at hj
  done := fun _ => h.rest hi

end Serial
