import BaoHypervisor.Theory.Run
import Mathlib.Algebra.BigOperators.Group.Finset.Piecewise
import Mathlib.Algebra.Group.Action.Defs
import Mathlib.Algebra.Order.BigOperators.Group.Finset
import Mathlib.Data.Fintype.Card

/-!
# Barriers that count

The parties of a barrier share one counter, which is never reset. A party that
enters adds one to it and waits until the counter reaches the next multiple of the
number of parties (`roundUp`).

The counter is the sum of the rounds that the parties have entered, and no party is
ahead of another by more than the round it waits in (`Inv`). So the parties in one
round all wait for the same multiple, which the counter reaches when the last of them
enters.
-/

namespace CountBarrier

/-- The counter, how many rounds each party has entered, and the value of the counter
that it waits for. -/
structure State (ι : Type*) where
  count : ℕ
  entered : ι → ℕ
  waiting : ι → Option ℕ

/-- The least multiple of `n` that is not below `t`. -/
def roundUp (n t : ℕ) : ℕ := (t + n - 1) / n * n

theorem roundUp_eq {n t k : ℕ} (hlt : k * n < t) (hle : t ≤ (k + 1) * n) :
    roundUp n t = (k + 1) * n := by
  have hn : 0 < n := by
    rcases Nat.eq_zero_or_pos n with rfl | hpos
    · omega
    · exact hpos
  have hdiv : (t + n - 1) / n = k + 1 := by
    rw [Nat.div_eq_iff hn]
    rw [Nat.add_mul, Nat.one_mul] at hle ⊢
    omega
  rw [roundUp, hdiv]

namespace State

variable {ι : Type*}

/-- The rounds that the party has left. -/
def left (s : State ι) (c : ι) : ℕ :=
  match s.waiting c with
  | none => s.entered c
  | some _ => s.entered c - 1

theorem left_of_none {s : State ι} {c : ι} (h : s.waiting c = none) :
    s.left c = s.entered c := by
  rw [left, h]

theorem left_of_some {s : State ι} {c : ι} {t : ℕ} (h : s.waiting c = some t) :
    s.left c = s.entered c - 1 := by
  rw [left, h]

theorem left_congr {s s' : State ι} {c : ι} (hentered : s'.entered c = s.entered c)
    (hwaiting : s'.waiting c = s.waiting c) : s'.left c = s.left c := by
  rw [left, left, hentered, hwaiting]

variable [Fintype ι]

/-- All parties have left `rounds` rounds. -/
def start (rounds : ℕ) : State ι where
  count := rounds * Fintype.card ι
  entered := fun _ => rounds
  waiting := fun _ => none

/-- The counter adds up the rounds, the parties of a round wait for the multiple that ends
it, and no party has left a round that another one has not entered. -/
structure Inv (s : State ι) : Prop where
  count_eq : s.count = ∑ c, s.entered c
  waiting_eq : ∀ c t, s.waiting c = some t → 0 < s.entered c ∧ t = s.entered c * Fintype.card ι
  left_le : ∀ c d, s.left c ≤ s.entered d

theorem inv_start (rounds : ℕ) : Inv (start rounds : State ι) where
  count_eq := by
    rw [start, Finset.sum_const, Finset.card_univ, smul_eq_mul, Nat.mul_comm]
  waiting_eq := fun _ _ h => by cases h
  left_le := fun _ _ => le_rfl

variable {s : State ι} {c : ι}

theorem Inv.mul_card_le (h : Inv s) {k : ℕ} (hall : ∀ d, k ≤ s.entered d) :
    k * Fintype.card ι ≤ s.count := by
  rw [h.count_eq, Nat.mul_comm, ← smul_eq_mul, ← Finset.card_univ, ← Finset.sum_const]
  exact Finset.sum_le_sum fun d _ => hall d

theorem Inv.count_le (h : Inv s) {k : ℕ} (hall : ∀ d, s.entered d ≤ k) :
    s.count ≤ k * Fintype.card ι := by
  rw [h.count_eq, Nat.mul_comm, ← smul_eq_mul, ← Finset.card_univ, ← Finset.sum_const]
  exact Finset.sum_le_sum fun d _ => hall d

theorem Inv.count_lt (h : Inv s) {k : ℕ} {d : ι} (hd : s.entered d < k)
    (hall : ∀ e, s.entered e ≤ k) : s.count < k * Fintype.card ι := by
  rw [h.count_eq, Nat.mul_comm, ← smul_eq_mul, ← Finset.card_univ, ← Finset.sum_const]
  exact Finset.sum_lt_sum (fun e _ => hall e) ⟨d, Finset.mem_univ d, hd⟩

theorem Inv.entered_le (h : Inv s) (c d : ι) : s.entered d ≤ s.entered c + 1 := by
  have hleft := h.left_le d c
  rw [left] at hleft
  split at hleft <;> omega

theorem Inv.roundUp_eq (h : Inv s) (hnone : s.waiting c = none) :
    roundUp (Fintype.card ι) (s.count + 1) = (s.entered c + 1) * Fintype.card ι := by
  have hlow : s.entered c * Fintype.card ι ≤ s.count :=
    h.mul_card_le fun d => by
      rw [← left_of_none hnone]
      exact h.left_le c d
  have hhigh : s.count < (s.entered c + 1) * Fintype.card ι :=
    h.count_lt (Nat.lt_succ_self _) fun d => h.entered_le c d
  exact CountBarrier.roundUp_eq (by omega) hhigh

theorem Inv.passes_iff (h : Inv s) {t : ℕ} (hwait : s.waiting c = some t) :
    t ≤ s.count ↔ ∀ d, s.entered c ≤ s.entered d := by
  obtain ⟨hpos, rfl⟩ := h.waiting_eq c t hwait
  constructor
  · intro hle d
    by_contra hlt
    have hall : ∀ e, s.entered e ≤ s.entered c := by
      intro e
      have hed := h.entered_le d e
      omega
    have hcount := h.count_lt (Nat.not_le.mp hlt) hall
    omega
  · exact h.mul_card_le

variable [DecidableEq ι]

section Step

variable (s : State ι) (c : ι)

def enter : State ι where
  count := s.count + 1
  entered := Function.update s.entered c (s.entered c + 1)
  waiting := Function.update s.waiting c (some (roundUp (Fintype.card ι) (s.count + 1)))

def leave : State ι := { s with waiting := Function.update s.waiting c none }

/-- One turn of a party: it enters its next round, or it reads the counter and leaves if
it may. -/
def step : State ι :=
  match s.waiting c with
  | none => s.enter c
  | some t => if s.count < t then s else s.leave c

end Step

theorem Inv.enter (h : Inv s) (hnone : s.waiting c = none) : Inv (s.enter c) where
  count_eq := by
    rw [State.enter]
    dsimp only
    rw [Finset.sum_update_of_mem (Finset.mem_univ c), h.count_eq,
      ← Finset.add_sum_erase _ _ (Finset.mem_univ c), Finset.sdiff_singleton_eq_erase]
    omega
  waiting_eq := by
    intro d t hd
    rw [State.enter] at hd ⊢
    dsimp only at hd ⊢
    by_cases hdc : d = c
    · subst hdc
      rw [Function.update_self] at hd
      rw [Function.update_self, ← h.roundUp_eq hnone]
      exact ⟨Nat.succ_pos _, (Option.some.inj hd).symm⟩
    · rw [Function.update_of_ne hdc] at hd
      rw [Function.update_of_ne hdc]
      exact h.waiting_eq d t hd
  left_le := by
    have hleft : ∀ d, (s.enter c).left d = s.left d := by
      intro d
      by_cases hdc : d = c
      · subst hdc
        rw [left_of_some (t := roundUp (Fintype.card ι) (s.count + 1))
          (Function.update_self _ _ _), left_of_none hnone, State.enter]
        dsimp only
        rw [Function.update_self, Nat.add_sub_cancel]
      · exact left_congr (Function.update_of_ne hdc _ _) (Function.update_of_ne hdc _ _)
    intro d e
    rw [hleft]
    refine (h.left_le d e).trans ?_
    rw [State.enter]
    dsimp only
    by_cases hec : e = c
    · rw [hec, Function.update_self]
      exact Nat.le_succ _
    · rw [Function.update_of_ne hec]

theorem Inv.leave (h : Inv s) {t : ℕ} (hwait : s.waiting c = some t) (ht : t ≤ s.count) :
    Inv (s.leave c) where
  count_eq := h.count_eq
  waiting_eq := by
    intro d u hd
    rw [State.leave] at hd
    dsimp only at hd
    by_cases hdc : d = c
    · rw [hdc, Function.update_self] at hd
      cases hd
    · rw [Function.update_of_ne hdc] at hd
      exact h.waiting_eq d u hd
  left_le := by
    intro d e
    by_cases hdc : d = c
    · rw [hdc, left_of_none (s := s.leave c) (Function.update_self _ _ _)]
      exact (h.passes_iff hwait).mp ht e
    · have hleft : (s.leave c).left d = s.left d :=
        left_congr rfl (Function.update_of_ne hdc _ _)
      rw [hleft]
      exact h.left_le d e

theorem Inv.step (h : Inv s) (c : ι) : Inv (s.step c) := by
  rw [State.step]
  cases hwait : s.waiting c with
  | none => exact h.enter hwait
  | some t =>
      dsimp only
      split_ifs with hlt
      · exact h
      · exact h.leave hwait (Nat.not_lt.mp hlt)

end State

end CountBarrier
