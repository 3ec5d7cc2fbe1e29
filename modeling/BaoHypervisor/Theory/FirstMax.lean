import Mathlib.Order.Basic

/-!
# The first maximum of a scan

A scan over a list that keeps the best eligible element so far and replaces it
only by a strictly better one. What it ends with is better than what it began
with only if it is the first of the eligible elements with the greatest key.
-/

namespace FirstMax

variable {ι κ : Type*} [LE κ] (p : ι → Bool) (key : ι → κ)

def select [LT κ] [DecidableLT κ] (best : κ × ι) (i : ι) : κ × ι :=
  if p i ∧ best.1 < key i then (key i, i) else best

/-- The first of the eligible elements of `is` with the greatest key. -/
structure IsFirstMax [LE ι] (is : List ι) (i : ι) : Prop where
  mem : i ∈ is
  eligible : p i = true
  le : ∀ j ∈ is, p j = true → key j ≤ key i
  first : ∀ j ∈ is, p j = true → key j = key i → i ≤ j

variable {p key}

theorem IsFirstMax.cons [LE ι] [LT κ] [Std.LawfulOrderLT κ] {is : List ι} {i j : ι}
    (h : IsFirstMax p key is i) (hj : p j = true → key j < key i) :
    IsFirstMax p key (j :: is) i where
  mem := List.mem_cons_of_mem j h.mem
  eligible := h.eligible
  le := by
    rintro k hk hp
    rcases List.mem_cons.mp hk with heq | hk
    · rw [heq] at hp ⊢
      exact Std.le_of_lt (hj hp)
    · exact h.le k hk hp
  first := by
    rintro k hk hp hkey
    rcases List.mem_cons.mp hk with heq | hk
    · rw [heq] at hp hkey
      exact absurd hkey (Std.ne_of_lt (hj hp))
    · exact h.first k hk hp hkey

theorem isFirstMax_head [Preorder ι] [Std.IsLinearOrder κ] {is : List ι} {i : ι} (hp : p i = true)
    (hle : ∀ j ∈ is, p j = true → key j ≤ key i) (hlt : ∀ j ∈ is, i < j) :
    IsFirstMax p key (i :: is) i where
  mem := List.mem_cons_self
  eligible := hp
  le := by
    rintro j hj hpj
    rcases List.mem_cons.mp hj with heq | hj
    · exact Std.le_of_eq (by rw [heq])
    · exact hle j hj hpj
  first := by
    rintro j hj - -
    rcases List.mem_cons.mp hj with heq | hj
    · exact le_of_eq heq.symm
    · exact (hlt j hj).le

variable (p key) in
/-- The scan of an increasing list keeps what it began with, when nothing eligible
is better, or ends with the first maximum. -/
theorem foldl_select_cases [Preorder ι] [LT κ] [DecidableLT κ] [Std.IsLinearOrder κ]
    [Std.LawfulOrderLT κ] {is : List ι} (his : is.Pairwise (· < ·)) (best : κ × ι) :
    (is.foldl (select p key) best = best ∧ ∀ j ∈ is, p j = true → key j ≤ best.1) ∨
      ∃ i, is.foldl (select p key) best = (key i, i) ∧ best.1 < key i ∧
        IsFirstMax p key is i := by
  induction is generalizing best with
  | nil => exact .inl ⟨rfl, by simp⟩
  | cons i is ih =>
      obtain ⟨hlt, his'⟩ := List.pairwise_cons.mp his
      rw [List.foldl_cons, select]
      by_cases hi : p i = true ∧ best.1 < key i
      · rw [if_pos hi]
        right
        rcases ih his' (key i, i) with ⟨heq, hle⟩ | ⟨k, heq, hbest, hk⟩
        · exact ⟨i, heq, hi.2, isFirstMax_head hi.1 hle hlt⟩
        · exact ⟨k, heq, Std.lt_trans hi.2 hbest, hk.cons fun _ => hbest⟩
      · rw [if_neg hi]
        have hskip : p i = true → key i ≤ best.1 := fun hp =>
          Std.not_lt.mp fun hlt' => hi ⟨hp, hlt'⟩
        rcases ih his' best with ⟨heq, hle⟩ | ⟨k, heq, hbest, hk⟩
        · refine .inl ⟨heq, fun j hj hp => ?_⟩
          rcases List.mem_cons.mp hj with hji | hj
          · rw [hji] at hp ⊢
            exact hskip hp
          · exact hle j hj hp
        · exact .inr ⟨k, heq, hbest, hk.cons fun hp => Std.lt_of_le_of_lt (hskip hp) hbest⟩

end FirstMax
