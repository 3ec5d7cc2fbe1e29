import Mathlib.Data.Nat.Notation
import Mathlib.Order.Notation

/-!
# Masked words

A value and a mask stand for all words that agree with the value outside the mask. Whether
two of them have a word in common, and whether one contains the other, is seen from the
values and the masks.
-/

namespace BaoHypervisor

/-- A value with the bits that do not count. -/
structure Masked (w : ℕ) where
  value : BitVec w
  mask : BitVec w
deriving DecidableEq, Repr

namespace Masked

variable {w : ℕ} {p q : Masked w} {x : BitVec w}

def Matches (p : Masked w) (x : BitVec w) : Prop := (x ^^^ p.value) &&& ~~~ p.mask = 0#w

def Meets (p q : Masked w) : Prop := (p.value ^^^ q.value) &&& ~~~ (p.mask ||| q.mask) = 0#w

instance (p : Masked w) (x : BitVec w) : Decidable (p.Matches x) :=
  inferInstanceAs (Decidable (_ = _))

instance (p q : Masked w) : Decidable (p.Meets q) :=
  inferInstanceAs (Decidable (_ = _))

theorem eq_zero_iff {x : BitVec w} : x = 0#w ↔ ∀ i < w, x.getLsbD i = false := by
  constructor
  · rintro rfl i _
    exact BitVec.getLsbD_zero
  · intro h
    apply BitVec.eq_of_getLsbD_eq
    intro i hi
    rw [h i hi, BitVec.getLsbD_zero]

theorem matches_iff :
    p.Matches x ↔ ∀ i < w, p.mask.getLsbD i = false → x.getLsbD i = p.value.getLsbD i := by
  rw [Matches, eq_zero_iff]
  refine forall₂_congr fun i hi => ?_
  rw [BitVec.getLsbD_and, BitVec.getLsbD_xor, BitVec.getLsbD_not]
  cases x.getLsbD i <;> cases p.value.getLsbD i <;> cases p.mask.getLsbD i <;> simp [hi]

theorem meets_iff_forall :
    p.Meets q ↔ ∀ i < w, p.mask.getLsbD i = false → q.mask.getLsbD i = false →
      p.value.getLsbD i = q.value.getLsbD i := by
  rw [Meets, eq_zero_iff]
  refine forall₂_congr fun i hi => ?_
  rw [BitVec.getLsbD_and, BitVec.getLsbD_xor, BitVec.getLsbD_not, BitVec.getLsbD_or]
  cases p.value.getLsbD i <;> cases q.value.getLsbD i <;> cases p.mask.getLsbD i <;>
    cases q.mask.getLsbD i <;> simp [hi]

theorem Meets.symm (h : p.Meets q) : q.Meets p := by
  rw [meets_iff_forall] at h ⊢
  exact fun i hi hq hp => (h i hi hp hq).symm

/-- A word that matches both makes them meet. -/
theorem Matches.meets (hp : p.Matches x) (hq : q.Matches x) : p.Meets q := by
  rw [matches_iff] at hp hq
  rw [meets_iff_forall]
  exact fun i hi hpi hqi => (hp i hi hpi).symm.trans (hq i hi hqi)

theorem Meets.matches_of_mask (h : p.Meets q) (hmask : p.mask &&& q.mask = q.mask)
    (hx : q.Matches x) : p.Matches x := by
  rw [meets_iff_forall] at h
  rw [matches_iff] at hx ⊢
  intro i hi hp
  have hq : q.mask.getLsbD i = false := by
    rw [← hmask, BitVec.getLsbD_and, hp, Bool.false_and]
  exact (hx i hi hq).trans (h i hi hp hq).symm

end Masked

end BaoHypervisor
