import Mathlib.Order.Basic

/-!
# Loops that may not end

A loop is given by its rounds: the state after a round, or none where the loop ends. A loop ends
if some number of rounds is enough. A round that leaves the state as it is never ends, so if every
other round comes closer to the end and leaves a condition as it is, then the loop ends exactly if
the condition holds (`ends_iff`).
-/

namespace Loop

variable {σ : Type*} (round : σ → Option σ)

def EndsIn : ℕ → σ → Prop
  | 0, s => round s = none
  | n + 1, s => ∀ s', round s = some s' → EndsIn n s'

def Ends (s : σ) : Prop := ∃ n, EndsIn round n s

variable {round} {s s' : σ}

theorem ends_of_none (h : round s = none) : Ends round s := ⟨0, h⟩

theorem ends_iff_of_some (h : round s = some s') : Ends round s ↔ Ends round s' := by
  constructor
  · rintro ⟨n, hn⟩
    cases n with
    | zero => cases h.symm.trans hn
    | succ n => exact ⟨n, hn s' h⟩
  · rintro ⟨n, hn⟩
    refine ⟨n + 1, fun s'' hs'' => ?_⟩
    obtain rfl := Option.some.inj (h.symm.trans hs'')
    exact hn

theorem not_ends_of_fixed (h : round s = some s) : ¬ Ends round s := by
  rintro ⟨n, hn⟩
  induction n with
  | zero => cases h.symm.trans hn
  | succ n ih => exact ih (hn s h)

/-- Each round changes nothing against a condition, or leaves the condition as it is and comes
closer to the end, where the condition holds. -/
theorem ends_iff {I C : σ → Prop} (measure : σ → ℕ)
    (hstop : ∀ s, I s → round s = none → C s)
    (hround : ∀ s s', I s → round s = some s' →
      s' = s ∧ ¬ C s ∨ I s' ∧ measure s' < measure s ∧ (C s' ↔ C s)) (hI : I s) :
    Ends round s ↔ C s := by
  obtain ⟨n, hn⟩ : ∃ n, measure s < n := ⟨_, Nat.lt_succ_self _⟩
  induction n generalizing s with
  | zero => exact absurd hn (Nat.not_lt_zero _)
  | succ n ih =>
      cases hs : round s with
      | none => exact iff_of_true (ends_of_none hs) (hstop s hI hs)
      | some s' =>
          rcases hround s s' hI hs with ⟨rfl, hnot⟩ | ⟨hI', hlt, hiff⟩
          · exact iff_of_false (not_ends_of_fixed hs) hnot
          · rw [ends_iff_of_some hs, ← hiff]
            exact ih hI' (Nat.lt_of_lt_of_le hlt (Nat.le_of_lt_succ hn))

theorem ends_of_measure {I : σ → Prop} (measure : σ → ℕ)
    (hround : ∀ s s', I s → round s = some s' → I s' ∧ measure s' < measure s) (hI : I s) :
    Ends round s :=
  (ends_iff (C := fun _ => True) measure (fun _ _ _ => trivial)
    (fun s s' hI hs => .inr ((hround s s' hI hs).imp_right fun hlt => ⟨hlt, Iff.rfl⟩)) hI).mpr
      trivial

/-- The state after at most so many rounds. -/
def run (round : σ → Option σ) : ℕ → σ → σ
  | 0, s => s
  | n + 1, s => (round s).elim s (run round n)

/-- A loop that ends within so many rounds is not changed by the chance to take more. -/
theorem run_eq_of_endsIn {n : ℕ} (h : EndsIn round n s) {m : ℕ} (hle : n ≤ m) :
    run round m s = run round n s := by
  induction n generalizing m s with
  | zero =>
      cases m with
      | zero => rfl
      | succ m =>
          have hnone : round s = none := h
          change (round s).elim s (run round m) = s
          rw [hnone]
          rfl
  | succ n ih =>
      obtain ⟨m, rfl⟩ : ∃ k, m = k + 1 := ⟨m - 1, by omega⟩
      rw [run, run]
      cases hs : round s with
      | none => rfl
      | some s' => exact ih (h s' hs) (Nat.le_of_succ_le_succ hle)

end Loop
