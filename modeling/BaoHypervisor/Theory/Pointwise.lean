import Mathlib.Data.List.Nodup

/-!
# Folds that act on one component at a time

A state that is seen through its components, and a fold over distinct indices
whose rounds each change the component of their own index. The fold changes the
component of every index it meets once, and no other one.
-/

namespace Pointwise

variable {σ ι τ : Type*}

theorem foldl_apply [DecidableEq ι] {component : σ → ι → τ} {f : σ → ι → σ} {g : τ → τ}
    (hself : ∀ s i, component (f s i) i = g (component s i))
    (hother : ∀ s i j, j ≠ i → component (f s i) j = component s j)
    {is : List ι} (his : is.Nodup) (s : σ) (j : ι) :
    component (is.foldl f s) j = if j ∈ is then g (component s j) else component s j := by
  induction is generalizing s with
  | nil => simp
  | cons i is ih =>
      obtain ⟨hi, his'⟩ := List.nodup_cons.mp his
      rw [List.foldl_cons, ih his']
      by_cases hj : j = i
      · rw [hj, if_neg hi, if_pos List.mem_cons_self, hself]
      · rw [hother s i j hj]
        simp [hj]

end Pointwise
