import Mathlib.Data.Nat.Digits.Lemmas

/-!
# Decimal digits from the top

Digits are listed the most significant one first. `digitsFrom k n keep` divides by the falling
powers of ten from `10 ^ k` on, and leaves out the zeros in front unless they are to be kept. Its
first digit is one only if the number has at most `k + 1` of them; the value is right in any case.
-/

namespace Decimal

/-- The number of which these are the digits. -/
def value (ds : List ℕ) : ℕ := Nat.ofDigits 10 ds.reverse

/-- The digits of a number, without zeros in front. -/
structure Canonical (ds : List ℕ) (n : ℕ) : Prop where
  ne_nil : ds ≠ []
  digit : ∀ d ∈ ds, d < 10
  head : ds.head? = some 0 → ds = [0]
  value_eq : value ds = n

theorem value_cons (d : ℕ) (ds : List ℕ) : value (d :: ds) = 10 ^ ds.length * d + value ds := by
  rw [value, List.reverse_cons, Nat.ofDigits_append, Nat.ofDigits_singleton, List.length_reverse,
    Nat.add_comm, value]

theorem Canonical.lt {ds : List ℕ} {n : ℕ} (h : Canonical ds n) : n < 10 ^ ds.length := by
  have hlt := Nat.ofDigits_lt_base_pow_length (b := 10) (l := ds.reverse) (by decide)
    fun d hd => h.digit d (List.mem_reverse.mp hd)
  rwa [List.length_reverse, ← value, h.value_eq] at hlt

/-- What repeated division by falling powers of ten gives. -/
def digitsFrom : ℕ → ℕ → Bool → List ℕ
  | 0, n, _ => [n]
  | k + 1, n, keep =>
      let q := n / 10 ^ (k + 1)
      (if keep || q ≠ 0 then [q] else []) ++ digitsFrom k (n % 10 ^ (k + 1)) (keep || q ≠ 0)

theorem digitsFrom_succ_pos {k n : ℕ} {keep : Bool} (h : keep = true ∨ n / 10 ^ (k + 1) ≠ 0) :
    digitsFrom (k + 1) n keep =
      n / 10 ^ (k + 1) :: digitsFrom k (n % 10 ^ (k + 1)) true := by
  have hkeep : (keep || decide (n / 10 ^ (k + 1) ≠ 0)) = true := by
    rw [Bool.or_eq_true, decide_eq_true_eq]
    exact h
  rw [digitsFrom]
  rw [hkeep]
  rfl

theorem digitsFrom_succ_zero {k n : ℕ} (h : n / 10 ^ (k + 1) = 0) :
    digitsFrom (k + 1) n false = digitsFrom k n false := by
  have hlt : n < 10 ^ (k + 1) := Nat.lt_of_div_eq_zero (Nat.pow_pos (by decide)) h
  rw [digitsFrom]
  rw [h, Nat.mod_eq_of_lt hlt]
  rfl

theorem length_digitsFrom_keep (k n : ℕ) : (digitsFrom k n true).length = k + 1 := by
  induction k generalizing n with
  | zero => rfl
  | succ k ih => rw [digitsFrom_succ_pos (.inl rfl), List.length_cons, ih]

theorem length_digitsFrom_le (k n : ℕ) (keep : Bool) : (digitsFrom k n keep).length ≤ k + 1 := by
  induction k generalizing n keep with
  | zero => exact le_rfl
  | succ k ih =>
      by_cases h : keep = true ∨ n / 10 ^ (k + 1) ≠ 0
      · rw [digitsFrom_succ_pos h, List.length_cons]
        exact Nat.succ_le_succ (ih _ _)
      · obtain ⟨hkeep, hzero⟩ := not_or.mp h
        rw [Bool.not_eq_true] at hkeep
        rw [hkeep, digitsFrom_succ_zero (not_not.mp hzero)]
        exact le_trans (ih _ _) (Nat.le_succ _)

theorem value_digitsFrom (k n : ℕ) (keep : Bool) : value (digitsFrom k n keep) = n := by
  induction k generalizing n keep with
  | zero => exact Nat.ofDigits_singleton
  | succ k ih =>
      by_cases h : keep = true ∨ n / 10 ^ (k + 1) ≠ 0
      · rw [digitsFrom_succ_pos h, value_cons, length_digitsFrom_keep, ih]
        exact Nat.div_add_mod n _
      · obtain ⟨hkeep, hzero⟩ := not_or.mp h
        rw [Bool.not_eq_true] at hkeep
        rw [hkeep, digitsFrom_succ_zero (not_not.mp hzero), ih]

theorem digitsFrom_digit {k n : ℕ} {keep : Bool} (h : n < 10 ^ (k + 1)) :
    ∀ d ∈ digitsFrom k n keep, d < 10 := by
  induction k generalizing n keep with
  | zero =>
      intro d hd
      rw [List.mem_singleton.mp hd]
      exact h
  | succ k ih =>
      by_cases hpos : keep = true ∨ n / 10 ^ (k + 1) ≠ 0
      · rw [digitsFrom_succ_pos hpos]
        refine List.forall_mem_cons.mpr ⟨?_, ih (Nat.mod_lt _ (Nat.pow_pos (by decide)))⟩
        exact Nat.div_lt_of_lt_mul (by rwa [← pow_succ])
      · obtain ⟨hkeep, hzero⟩ := not_or.mp hpos
        rw [Bool.not_eq_true] at hkeep
        rw [hkeep, digitsFrom_succ_zero (not_not.mp hzero)]
        exact ih (Nat.lt_of_div_eq_zero (Nat.pow_pos (by decide)) (not_not.mp hzero))

theorem digitsFrom_ne_nil (k n : ℕ) (keep : Bool) : digitsFrom k n keep ≠ [] := by
  induction k generalizing n keep with
  | zero => exact List.cons_ne_nil _ _
  | succ k ih => exact List.append_ne_nil_of_right_ne_nil _ (ih _ _)

theorem digitsFrom_head (k n : ℕ) (h : (digitsFrom k n false).head? = some 0) :
    digitsFrom k n false = [0] := by
  induction k with
  | zero => exact congrArg (fun d => [d]) (Option.some.inj h)
  | succ k ih =>
      by_cases hzero : n / 10 ^ (k + 1) = 0
      · rw [digitsFrom_succ_zero hzero] at h ⊢
        exact ih h
      · rw [digitsFrom_succ_pos (.inr hzero)] at h
        exact absurd (Option.some.inj h) hzero

theorem canonical_digitsFrom {k n : ℕ} (h : n < 10 ^ (k + 1)) :
    Canonical (digitsFrom k n false) n where
  ne_nil := digitsFrom_ne_nil k n false
  digit := digitsFrom_digit h
  head := digitsFrom_head k n
  value_eq := value_digitsFrom k n false

end Decimal
