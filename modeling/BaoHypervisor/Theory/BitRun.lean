import Mathlib.Data.ENat.Lattice
import Mathlib.Data.Finset.Card
import Mathlib.Data.Finset.Range
import Mathlib.Order.CompletePartialOrder
import Mathlib.Order.Interval.Finset.Nat

/-!
# Runs in a sequence of bits

A sequence of bits is a function `f : ℕ → Bool`. `IsRun f v b n` says that the
`n` bits from position `b` on all have the value `v`, and `FirstRun` singles
out the first start of such a run in a window. Runs may stick out of the
window they start in: only the start is bounded.

`clearCount f size` counts the clear bits below `size`. The second half of the
file says how it moves when a finite set of positions is marked.
-/

namespace BitRun

/-- The `n` bits from `b` on all have the value `v`. -/
def IsRun (f : ℕ → Bool) (v : Bool) (b n : ℕ) : Prop :=
  ∀ j < n, f (b + j) = v

instance (f : ℕ → Bool) (v : Bool) (b n : ℕ) : Decidable (IsRun f v b n) :=
  Nat.decidableBallLT n (fun j _ => f (b + j) = v)

theorem isRun_zero (f : ℕ → Bool) (v : Bool) (b : ℕ) : IsRun f v b 0 :=
  fun _ h => absurd h (Nat.not_lt_zero _)

theorem IsRun.mono {f : ℕ → Bool} {v : Bool} {b m n : ℕ}
    (h : IsRun f v b n) (hmn : m ≤ n) : IsRun f v b m :=
  fun j hj => h j (lt_of_lt_of_le hj hmn)

theorem IsRun.apply {f : ℕ → Bool} {v : Bool} {b n p : ℕ}
    (h : IsRun f v b n) (hb : b ≤ p) (hp : p < b + n) : f p = v := by
  have hj := h (p - b) (by omega)
  rwa [Nat.add_sub_cancel' hb] at hj

/-- `b` is the first position of the window `[c, size)` at which a run of `n`
bits of value `v` starts. -/
structure FirstRun (f : ℕ → Bool) (v : Bool) (size n c b : ℕ) : Prop where
  start_le : c ≤ b
  lt_size : b < size
  run : IsRun f v b n
  first : ∀ b', c ≤ b' → b' < b → ¬ IsRun f v b' n

theorem FirstRun.unique {f : ℕ → Bool} {v : Bool} {size n c b b' : ℕ}
    (h : FirstRun f v size n c b) (h' : FirstRun f v size n c b') : b = b' := by
  rcases lt_trichotomy b b' with hlt | heq | hlt
  · exact absurd h.run (h'.first b h.start_le hlt)
  · exact heq
  · exact absurd h'.run (h.first b' h'.start_le hlt)

theorem exists_firstRun {f : ℕ → Bool} {v : Bool} {size n c b : ℕ}
    (hc : c ≤ b) (hb : b < size) (h : IsRun f v b n) :
    ∃ b' ≤ b, FirstRun f v size n c b' := by
  have hex : ∃ p, c ≤ p ∧ IsRun f v p n := ⟨b, hc, h⟩
  have hle : Nat.find hex ≤ b := Nat.find_min' hex ⟨hc, h⟩
  refine ⟨Nat.find hex, hle, ?_⟩
  exact
    { start_le := (Nat.find_spec hex).1
      lt_size := lt_of_le_of_lt hle hb
      run := (Nat.find_spec hex).2
      first := fun b' hb' hlt hrun => Nat.find_min hex hlt ⟨hb', hrun⟩ }

/-- The length of the maximal run that starts at `b`, infinite if the bits never change. -/
noncomputable def runLength (f : ℕ → Bool) (b : ℕ) : ℕ∞ :=
  ⨆ k : {k : ℕ // IsRun f (f b) b k}, (k : ℕ∞)

/-- The maximal run is at least as long as any number of equal bits, and no longer. -/
theorem le_runLength_iff {f : ℕ → Bool} {b k : ℕ} :
    (k : ℕ∞) ≤ runLength f b ↔ IsRun f (f b) b k := by
  constructor
  · intro hle
    by_contra hnot
    -- a run of `k` bits or more would hold the `k` bits
    have hshort : ∀ m : {m : ℕ // IsRun f (f b) b m}, (m : ℕ∞) ≤ ((k - 1 : ℕ) : ℕ∞) := by
      rintro ⟨m, hm⟩
      have hlt : m < k := by
        by_contra hge
        exact hnot (hm.mono (Nat.not_lt.mp hge))
      exact Nat.cast_le.mpr (Nat.le_sub_one_of_lt hlt)
    have hpos : k ≠ 0 := by
      rintro rfl
      exact hnot (isRun_zero _ _ _)
    have hk : k ≤ k - 1 := Nat.cast_le.mp (le_trans hle (iSup_le hshort))
    omega
  · intro hrun
    exact le_iSup (fun m : {m : ℕ // IsRun f (f b) b m} => (m : ℕ∞)) ⟨k, hrun⟩

/-! ## Counting clear bits -/

/-- The clear positions below `size`. -/
def clearBelow (f : ℕ → Bool) (size : ℕ) : Finset ℕ :=
  (Finset.range size).filter fun p => f p = false

/-- The number of clear bits below `size`. -/
def clearCount (f : ℕ → Bool) (size : ℕ) : ℕ :=
  (clearBelow f size).card

@[simp] theorem mem_clearBelow {f : ℕ → Bool} {size p : ℕ} :
    p ∈ clearBelow f size ↔ p < size ∧ f p = false := by
  simp [clearBelow]

theorem clearCount_le (f : ℕ → Bool) (size : ℕ) : clearCount f size ≤ size := by
  calc clearCount f size ≤ (Finset.range size).card := Finset.card_filter_le _ _
    _ = size := Finset.card_range size

theorem clearCount_of_clear {f : ℕ → Bool} {size : ℕ}
    (h : ∀ p < size, f p = false) : clearCount f size = size := by
  have hall : clearBelow f size = Finset.range size := by
    ext p
    simp only [mem_clearBelow, Finset.mem_range]
    exact ⟨fun hp => hp.1, fun hp => ⟨hp, h p hp⟩⟩
  rw [clearCount, hall, Finset.card_range]

/-- `g` is `f` with exactly the positions of `S` marked. -/
def Marks (f g : ℕ → Bool) (S : Finset ℕ) : Prop :=
  ∀ p, g p = (f p || decide (p ∈ S))

theorem clearCount_marks {f g : ℕ → Bool} {S : Finset ℕ} (h : Marks f g S)
    (size : ℕ) :
    clearCount g size + (S ∩ clearBelow f size).card = clearCount f size := by
  have hdiff : clearBelow g size = clearBelow f size \ S := by
    ext p
    simp only [mem_clearBelow, Finset.mem_sdiff, h p, Bool.or_eq_false_iff,
      decide_eq_false_iff_not, and_assoc]
  rw [clearCount, clearCount, hdiff, Finset.inter_comm]
  exact Finset.card_sdiff_add_card_inter _ _

/-- The count drops by the whole size of `S` exactly when every position of `S`
was clear and below `size`. -/
theorem clearCount_marks_eq_iff {f g : ℕ → Bool} {S : Finset ℕ} (h : Marks f g S)
    (size : ℕ) :
    clearCount g size + S.card = clearCount f size ↔
      ∀ p ∈ S, p < size ∧ f p = false := by
  have hcount := clearCount_marks h size
  have hle : (S ∩ clearBelow f size).card ≤ S.card :=
    Finset.card_le_card Finset.inter_subset_left
  constructor
  · intro heq p hp
    have hcard : S.card ≤ (S ∩ clearBelow f size).card := by omega
    have hsub : S ∩ clearBelow f size = S :=
      Finset.eq_of_subset_of_card_le Finset.inter_subset_left hcard
    rw [← hsub] at hp
    exact mem_clearBelow.mp (Finset.mem_inter.mp hp).2
  · intro hall
    have hsub : S ∩ clearBelow f size = S :=
      Finset.inter_eq_left.mpr fun p hp => mem_clearBelow.mpr (hall p hp)
    rw [hsub] at hcount
    exact hcount

theorem clearCount_marks_eq_self_iff {f g : ℕ → Bool} {S : Finset ℕ}
    (h : Marks f g S) (size : ℕ) :
    clearCount g size = clearCount f size ↔ ∀ p ∈ S, p < size → f p = true := by
  have hcount := clearCount_marks h size
  have hiff : clearCount g size = clearCount f size ↔ S ∩ clearBelow f size = ∅ := by
    rw [← Finset.card_eq_zero]
    omega
  rw [hiff, Finset.eq_empty_iff_forall_notMem]
  simp only [Finset.mem_inter, mem_clearBelow, not_and, Bool.not_eq_false]

theorem marks_of_clears {f g : ℕ → Bool} {S : Finset ℕ}
    (h : ∀ p, g p = (f p && !decide (p ∈ S))) :
    Marks g f (S.filter fun p => f p = true) := by
  intro p
  rw [h p]
  by_cases hp : p ∈ S
  · cases hf : f p <;> simp [hp, hf]
  · simp [hp]

end BitRun
