import Mathlib.Data.List.Nodup
import Mathlib.Order.Basic
import Mathlib.Data.Nat.Notation

/-!
# Taking the most urgent first

Elements wait to be taken, the most urgent eligible one first, as long as there are credits, and
some of them use up a credit. An element that is blocked is never reached if the ones before it
use up all credits (`Covered`). That is not changed by taking the first one (`covered_erase_iff`).
-/

namespace Drain

variable {α κ : Type*} [DecidableEq α]

theorem countP_eq_of_mem {l : List α} {p : α} (hp : p ∈ l) (hnodup : l.Nodup) {f g : α → Bool}
    (h : ∀ x ∈ l, x ≠ p → f x = g x) :
    l.countP f = (f p).toNat + (l.erase p).countP g := by
  have hcongr : (l.erase p).countP f = (l.erase p).countP g := by
    refine List.countP_congr fun x hx => ?_
    rw [h x (List.mem_of_mem_erase hx) (hnodup.mem_erase_iff.mp hx).1]
  rw [(List.perm_cons_erase hp).countP_eq f, List.countP_cons, hcongr, Nat.add_comm]
  cases f p <;> rfl

variable [LT κ] [DecidableLT κ]

/-- Before each blocked element there are enough that use up the credits. -/
def Covered (eligible blocked uses : α → Bool) (urgency : α → κ) (credits : ℕ)
    (waiting : List α) : Prop :=
  ∀ b ∈ waiting, blocked b = true → eligible b = true →
    credits ≤ waiting.countP fun x => eligible x && uses x && decide (urgency x < urgency b)

instance (eligible blocked uses : α → Bool) (urgency : α → κ) (credits : ℕ)
    (waiting : List α) : Decidable (Covered eligible blocked uses urgency credits waiting) :=
  inferInstanceAs (Decidable (∀ b ∈ waiting, _ → _ → _))

variable {eligible blocked uses eligible' blocked' uses' : α → Bool} {urgency urgency' : α → κ}
  {credits credits' : ℕ} {waiting : List α} {p : α}

omit [DecidableEq α] in
theorem covered_congr (heligible : ∀ x ∈ waiting, eligible' x = eligible x)
    (hblocked : ∀ x ∈ waiting, blocked' x = blocked x) (huses : ∀ x ∈ waiting, uses' x = uses x)
    (hurgency : ∀ x ∈ waiting, urgency' x = urgency x) :
    Covered eligible' blocked' uses' urgency' credits waiting ↔
      Covered eligible blocked uses urgency credits waiting := by
  refine forall₂_congr fun b hb => ?_
  rw [hblocked b hb, heligible b hb, hurgency b hb]
  refine imp_congr_right fun _ => imp_congr_right fun _ => ?_
  rw [List.countP_congr fun x hx => by rw [heligible x hx, huses x hx, hurgency x hx]]

/-- The first one is taken. -/
theorem covered_erase_iff (hp : p ∈ waiting) (hnodup : waiting.Nodup)
    (heligible : eligible p = true) (hblocked : blocked p = false)
    (hfirst : ∀ x ∈ waiting, eligible x = true → x ≠ p → urgency p < urgency x)
    (hcredits : credits' + (uses p).toNat = credits) :
    Covered eligible blocked uses urgency credits' (waiting.erase p) ↔
      Covered eligible blocked uses urgency credits waiting := by
  have hcount : ∀ b ∈ waiting, eligible b = true → b ≠ p →
      (waiting.countP fun x => eligible x && uses x && decide (urgency x < urgency b)) =
        (uses p).toNat + (waiting.erase p).countP fun x =>
          eligible x && uses x && decide (urgency x < urgency b) := by
    intro b hb helig hne
    rw [countP_eq_of_mem hp hnodup fun _ _ _ => rfl, heligible,
      decide_eq_true (hfirst b hb helig hne), Bool.true_and, Bool.and_true]
  constructor
  · intro h b hb hblock helig
    have hne : b ≠ p := fun heq => by rw [heq, hblocked] at hblock; cases hblock
    have hle := h b (hnodup.mem_erase_iff.mpr ⟨hne, hb⟩) hblock helig
    rw [hcount b hb helig hne]
    omega
  · intro h b hb hblock helig
    obtain ⟨hne, hb⟩ := hnodup.mem_erase_iff.mp hb
    have hle := h b hb hblock helig
    rw [hcount b hb helig hne] at hle
    omega

end Drain
