import BaoHypervisor.Theory.Run
import Mathlib.Order.Nat

/-!
# Metered accounts

An account has a balance and a mark, the time up to which it has been credited.
It earns `rate` units in `freq` ticks, rounded down. `Within` says that between
two states of an account no more has been paid out than it had and has earned.

Rounding down several times never earns more than rounding down once, so the
bound composes (`Within.trans`) and a run of steps that keep it keeps it
(`within_exec`).
-/

namespace Meter

structure Account where
  balance : ℕ
  mark : ℕ

variable {rate freq : ℕ} {a b c : Account} {m n : ℕ}

/-- From `a` to `b` the account has paid out `spent`, and no more than it could. -/
structure Within (rate freq : ℕ) (a : Account) (spent : ℕ) (b : Account) : Prop where
  mark_le : a.mark ≤ b.mark
  spent_le : b.balance + spent ≤ a.balance + (b.mark - a.mark) * rate / freq

theorem Within.refl (rate freq : ℕ) (a : Account) : Within rate freq a 0 a where
  mark_le := le_rfl
  spent_le := Nat.le_add_right _ _

theorem earned_add_le (rate freq : ℕ) {x y z : ℕ} (hxy : x ≤ y) (hyz : y ≤ z) :
    (y - x) * rate / freq + (z - y) * rate / freq ≤ (z - x) * rate / freq := by
  have hsplit : (z - x) * rate = (y - x) * rate + (z - y) * rate := by
    rw [← Nat.add_mul]
    congr 1
    omega
  rw [hsplit]
  exact Nat.div_add_div_le_add_div

theorem Within.trans (hab : Within rate freq a m b) (hbc : Within rate freq b n c) :
    Within rate freq a (m + n) c where
  mark_le := hab.mark_le.trans hbc.mark_le
  spent_le := by
    have hearned := earned_add_le rate freq hab.mark_le hbc.mark_le
    have hspent := hab.spent_le
    have hspent' := hbc.spent_le
    omega

theorem Within.pay (hn : n ≤ a.balance) :
    Within rate freq a n { a with balance := a.balance - n } where
  mark_le := le_rfl
  spent_le := by
    rw [Nat.sub_self, Nat.zero_mul, Nat.zero_div]
    dsimp only
    omega

theorem Within.spent_le_of_mark_le (h : Within rate freq a n b) {t : ℕ}
    (ht : b.mark ≤ t) : n ≤ a.balance + (t - a.mark) * rate / freq := by
  have hspent := h.spent_le
  have hearned : (b.mark - a.mark) * rate / freq ≤ (t - a.mark) * rate / freq :=
    Nat.div_le_div_right (Nat.mul_le_mul_right _ (Nat.sub_le_sub_right ht _))
  omega

theorem within_exec {σ α : Type*} {step : σ → α → σ} {P : σ → α → Prop} {I : σ → Prop}
    {account : σ → Account} {spent : σ → α → ℕ}
    (hstep : ∀ s x, I s → P s x →
      I (step s x) ∧ Within rate freq (account s) (spent s x) (account (step s x)))
    {s : σ} (hI : I s) {xs : List α} (h : Run.Along step P s xs) :
    Within rate freq (account s) (Run.total step spent s xs)
      (account (Run.exec step s xs)) := by
  induction xs generalizing s with
  | nil => exact Within.refl rate freq (account s)
  | cons x xs ih =>
      obtain ⟨hI', hx⟩ := hstep s x hI h.1
      exact hx.trans (ih hI' h.2)

end Meter
