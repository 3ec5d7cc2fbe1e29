import Mathlib.Data.Fintype.EquivFin
import Mathlib.Data.List.Basic

/-!
# Copying in place

A memory maps addresses to cells, and a copy takes the cells at `src k` to
`dst k` for `k = 0, 1, …` in this order. The two sequences may overlap, so a cell
may be read after it was written. `copyTo` is the memory after the first `n`
steps, and `source` follows a cell back to the address of the original memory
that it comes from.
-/

namespace Copy

variable {α β : Type*} [DecidableEq α] (dst src : ℕ → α)

/-- The memory after the first `n` cells have been copied. -/
def copyTo : ℕ → (α → β) → α → β
  | 0, m => m
  | n + 1, m => Function.update (copyTo n m) (dst n) (copyTo n m (src n))

/-- The address whose original cell ends up at an address. -/
def source : ℕ → α → α
  | 0, a => a
  | n + 1, a => if a = dst n then source n (src n) else source n a

variable {dst src}

theorem copyTo_apply (n : ℕ) (m : α → β) (a : α) :
    copyTo dst src n m a = m (source dst src n a) := by
  induction n generalizing a with
  | zero => rfl
  | succ n ih =>
      rw [copyTo, source, Function.update_apply]
      split_ifs
      · exact ih (src n)
      · exact ih a

theorem copyTo_of_ne {n : ℕ} (m : α → β) {a : α} (h : ∀ k < n, a ≠ dst k) :
    copyTo dst src n m a = m a := by
  induction n with
  | zero => rfl
  | succ n ih =>
      rw [copyTo, Function.update_of_ne (h n (Nat.lt_succ_self n))]
      exact ih fun k hk => h k (Nat.lt_succ_of_lt hk)

theorem source_of_ne {n : ℕ} {a : α} (h : ∀ k < n, a ≠ dst k) : source dst src n a = a := by
  have hcopy : copyTo dst src n (fun x => x) a = a := copyTo_of_ne (fun x => x) h
  rwa [copyTo_apply] at hcopy

theorem source_of_eq {n : ℕ} (h : ∀ k < n, dst k = src k) (a : α) :
    source dst src n a = a := by
  induction n generalizing a with
  | zero => rfl
  | succ n ih =>
      have ih' := ih fun k hk => h k (Nat.lt_succ_of_lt hk)
      rw [source, ih', ih', ← h n (Nat.lt_succ_self n)]
      split_ifs with ha
      · exact ha.symm
      · rfl

/-- Between ranges that are apart every cell comes from its counterpart. -/
theorem source_of_disjoint {n : ℕ} (hinj : ∀ j < n, ∀ k < n, dst j = dst k → j = k)
    (hdisj : ∀ j < n, ∀ k < n, src j ≠ dst k) {k : ℕ} (hk : k < n) :
    source dst src n (dst k) = src k := by
  induction n with
  | zero => omega
  | succ n ih =>
      rw [source]
      split_ifs with heq
      · have hkn := hinj k hk n (Nat.lt_succ_self n) heq
        rw [source_of_ne fun j hj => hdisj n (Nat.lt_succ_self n) j (Nat.lt_succ_of_lt hj), hkn]
      · have hkn : k < n := by
          rcases Nat.lt_succ_iff_lt_or_eq.mp hk with hlt | rfl
          · exact hlt
          · exact absurd rfl heq
        exact ih (fun j hj k hk => hinj j (Nat.lt_succ_of_lt hj) k (Nat.lt_succ_of_lt hk))
          (fun j hj k hk => hdisj j (Nat.lt_succ_of_lt hj) k (Nat.lt_succ_of_lt hk)) hkn

/-- Addresses apart from the source hold its cells after a copy exactly if they are the destination
and differ. -/
theorem source_eq_iff {n : ℕ} {back : ℕ → α} (hsrc : ∀ j < n, ∀ k < n, src j = src k → j = k)
    (hdisj : ∀ j < n, ∀ k < n, src j ≠ back k) :
    (∀ k < n, source dst src n (back k) = src k) ↔
      (∀ j < n, ∀ k < n, back j = back k → j = k) ∧ ∀ k < n, dst k = back k := by
  constructor
  · intro h
    have hinj : ∀ j < n, ∀ k < n, back j = back k → j = k := fun j hj k hk heq =>
      hsrc j hj k hk (by rw [← h j hj, ← h k hk, heq])
    have hhit : ∀ k : Fin n, ∃ j : Fin n, dst j = back k := by
      intro k
      by_contra hnone
      have hown : source dst src n (back k) = back k := source_of_ne fun j hj heq =>
        hnone ⟨⟨j, hj⟩, heq.symm⟩
      exact hdisj k k.isLt k k.isLt (by rw [← h k k.isLt, hown])
    -- each step writes one of these addresses, for there are as many steps as addresses
    choose f hf using hhit
    have hfinj : Function.Injective f := fun a b hab =>
      Fin.ext (hinj a a.isLt b b.isLt (by rw [← hf a, ← hf b, hab]))
    have hfsurj := Finite.surjective_of_injective hfinj
    have hdst : ∀ j < n, ∃ k : Fin n, (f k : ℕ) = j ∧ dst j = back k := by
      intro j hj
      obtain ⟨k, hk⟩ := hfsurj ⟨j, hj⟩
      have hval : (f k : ℕ) = j := congrArg Fin.val hk
      exact ⟨k, hval, by rw [← hf k, hval]⟩
    have hdstInj : ∀ i < n, ∀ j < n, dst i = dst j → i = j := by
      intro i hi j hj heq
      obtain ⟨a, ha, hback⟩ := hdst i hi
      obtain ⟨b, hb, hback'⟩ := hdst j hj
      rw [hback, hback'] at heq
      rw [← ha, ← hb, Fin.ext (hinj a a.isLt b b.isLt heq)]
    have hapart : ∀ i < n, ∀ j < n, src i ≠ dst j := by
      intro i hi j hj
      obtain ⟨k, -, hback⟩ := hdst j hj
      rw [hback]
      exact hdisj i hi k k.isLt
    refine ⟨hinj, fun j hj => ?_⟩
    obtain ⟨k, -, hback⟩ := hdst j hj
    have hsource := source_of_disjoint hdstInj hapart hj
    rw [hback, h k k.isLt] at hsource
    rw [hback, hsrc k k.isLt j hj hsource]
  · rintro ⟨hinj, hdst⟩ k hk
    rw [← hdst k hk]
    refine source_of_disjoint (fun i hi j hj heq => ?_) (fun i hi j hj => ?_) hk
    · rw [hdst i hi, hdst j hj] at heq
      exact hinj i hi j hj heq
    · rw [hdst j hj]
      exact hdisj i hi j hj

end Copy
