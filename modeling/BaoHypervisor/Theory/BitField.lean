import Mathlib.Data.BitVec

/-!
# Fields of a word

The low bits of a word that a mask keeps, the bits behind a shift, and a word that is put
together from fields, as arithmetic on the values.
-/

namespace BaoHypervisor

namespace BitField

variable {m n w : ℕ}

theorem toNat_and_mask (x : BitVec w) {k : ℕ} (hk : k ≤ w) :
    (x &&& BitVec.ofNat w (2 ^ k - 1)).toNat = x.toNat % 2 ^ k := by
  have hlt : 2 ^ k - 1 < 2 ^ w :=
    (Nat.sub_lt (Nat.two_pow_pos k) Nat.one_pos).trans_le (Nat.pow_le_pow_right Nat.two_pos hk)
  rw [BitVec.toNat_and, BitVec.toNat_ofNat, Nat.mod_eq_of_lt hlt, Nat.and_two_pow_sub_one_eq_mod]

theorem toNat_shift_and_mask (x : BitVec w) (i : ℕ) {k : ℕ} (hk : k ≤ w) :
    (x >>> i &&& BitVec.ofNat w (2 ^ k - 1)).toNat = x.toNat / 2 ^ i % 2 ^ k := by
  rw [toNat_and_mask _ hk, BitVec.toNat_ushiftRight, Nat.shiftRight_eq_div_pow]

theorem and_eq_setWidth {k : ℕ} {x mask : BitVec w} (h : (mask.setWidth k).setWidth w = mask) :
    x &&& mask = (x.setWidth k &&& mask.setWidth k).setWidth w := by
  refine BitVec.eq_of_getLsbD_eq fun i hi => ?_
  rw [← h]
  simp only [BitVec.getLsbD_and, BitVec.getLsbD_setWidth, hi, decide_true, Bool.true_and]
  by_cases hlow : i < k
  · simp [hlow, hi]
  · simp [hlow]

theorem setWidth_beq {k : ℕ} (hk : k ≤ w) (x y : BitVec k) :
    (x.setWidth w == y.setWidth w) = (x == y) := by
  rw [Bool.eq_iff_iff, beq_iff_eq, beq_iff_eq]
  refine ⟨fun h => BitVec.eq_of_toNat_eq ?_, congrArg _⟩
  rw [← BitVec.toNat_setWidth_of_le hk, h, BitVec.toNat_setWidth_of_le hk]

section Mask

variable {x f mask : BitVec w}

theorem and_split_mask (x mask : BitVec w) : x &&& ~~~mask ||| x &&& mask = x := by
  rw [← BitVec.and_or_distrib_left, BitVec.not_or_self, BitVec.and_allOnes]

theorem and_not_mask (hx : x &&& mask = 0#w) : x &&& ~~~mask = x := by
  have h := and_split_mask x mask
  rwa [hx, BitVec.or_zero] at h

theorem and_not_mask_or (hx : x &&& mask = mask) : x &&& ~~~mask ||| mask = x := by
  have h := and_split_mask x mask
  rwa [hx] at h

theorem and_not_mask_and_mask (x mask : BitVec w) : x &&& ~~~mask &&& mask = 0#w := by
  rw [BitVec.and_assoc, BitVec.not_and_self]
  exact BitVec.and_zero

theorem or_and_not_mask (hx : x &&& mask = 0#w) (hf : f &&& mask = f) :
    (x ||| f) &&& ~~~mask = x := by
  have hzero : f &&& ~~~mask = 0#w := by
    rw [← hf, BitVec.and_assoc, BitVec.and_not_self]
    exact BitVec.and_zero
  rw [BitVec.and_or_distrib_right, and_not_mask hx, hzero, BitVec.or_zero]

theorem or_and_mask (hx : x &&& mask = 0#w) (hf : f &&& mask = f) : (x ||| f) &&& mask = f := by
  rw [BitVec.and_or_distrib_right, hx, hf, BitVec.zero_or]

end Mask

theorem toNat_append (x : BitVec m) (y : BitVec n) :
    (x ++ y).toNat = x.toNat * 2 ^ n + y.toNat := by
  rw [BitVec.toNat_append, ← Nat.shiftLeft_add_eq_or_of_lt y.isLt, Nat.shiftLeft_eq]

/-- Setting a bit adds its weight, unless it is set. -/
theorem toNat_or_bit (x : BitVec w) {k : ℕ} (hk : k < w) :
    (x ||| BitVec.ofNat w (2 ^ k)).toNat = x.toNat + if x.getLsbD k then 0 else 2 ^ k := by
  have hbit : ∀ i, (BitVec.ofNat w (2 ^ k)).getLsbD i = decide (k = i) := by
    intro i
    rw [BitVec.getLsbD_ofNat, Nat.testBit_two_pow]
    by_cases hik : k = i
    · rw [← hik, decide_eq_true hk, Bool.true_and]
    · rw [decide_eq_false hik, Bool.and_false]
  cases hset : x.getLsbD k with
  | true =>
      have hsame : x ||| BitVec.ofNat w (2 ^ k) = x := by
        refine BitVec.eq_of_getLsbD_eq fun i hi => ?_
        rw [BitVec.getLsbD_or, hbit]
        by_cases hik : k = i
        · rw [← hik, hset, Bool.true_or]
        · rw [decide_eq_false hik, Bool.or_false]
      rw [hsame, if_pos rfl, Nat.add_zero]
  | false =>
      have hzero : x &&& BitVec.ofNat w (2 ^ k) = 0#w := by
        refine BitVec.eq_of_getLsbD_eq fun i hi => ?_
        rw [BitVec.getLsbD_and, hbit, BitVec.getLsbD_zero]
        by_cases hik : k = i
        · rw [← hik, hset, Bool.false_and]
        · rw [decide_eq_false hik, Bool.and_false]
      rw [← BitVec.add_eq_or_of_and_eq_zero _ _ hzero, BitVec.toNat_add_of_and_eq_zero hzero,
        if_neg Bool.false_ne_true, BitVec.toNat_ofNat,
        Nat.mod_eq_of_lt (Nat.pow_lt_pow_right Nat.one_lt_two hk)]

/-! ## Fields by their place -/

/-- The field of `len` bits behind `off` others. -/
def extract (x : BitVec w) (off len : ℕ) : BitVec w := x >>> off &&& BitVec.ofNat w (2 ^ len - 1)

/-- The word whose only field is that of `len` bits behind `off` others. -/
def place (x : BitVec w) (off len : ℕ) : BitVec w :=
  x <<< off &&& BitVec.ofNat w (2 ^ len - 1) <<< off

section Place

variable {x y : BitVec w} {off off' len len' i : ℕ}

theorem getLsbD_mask : (BitVec.ofNat w (2 ^ len - 1)).getLsbD i = decide (i < w ∧ i < len) := by
  rw [BitVec.getLsbD_ofNat, Nat.testBit_two_pow_sub_one, Bool.decide_and]

theorem getLsbD_extract :
    (extract x off len).getLsbD i = (decide (i < len) && x.getLsbD (off + i)) := by
  rw [extract, BitVec.getLsbD_and, getLsbD_mask, BitVec.getLsbD_ushiftRight]
  by_cases hi : i < w
  · simp [hi, Bool.and_comm]
  · rw [BitVec.getLsbD_of_ge x (off + i) (by omega)]
    simp

theorem getLsbD_place :
    (place x off len).getLsbD i =
      (decide (off ≤ i ∧ i < off + len ∧ i < w) && x.getLsbD (i - off)) := by
  rw [place, BitVec.getLsbD_and, BitVec.getLsbD_shiftLeft, BitVec.getLsbD_shiftLeft, getLsbD_mask]
  by_cases hin : off ≤ i ∧ i < off + len ∧ i < w
  · have hlt : i - off < w ∧ i - off < len := by omega
    simp [hin.1, hin.2.1, hin.2.2, hlt.1, hlt.2, Nat.not_lt.mpr hin.1]
  · rw [decide_eq_false hin, Bool.false_and]
    by_cases hoff : i < off
    · simp [hoff]
    · by_cases hi : i < w
      · have hlen : ¬ i - off < len := by omega
        simp [hlen]
      · simp [hi]

theorem place_zero : place (0#w) off len = 0#w := by
  rw [place, BitVec.zero_shiftLeft, BitVec.zero_and]

theorem extract_or : extract (x ||| y) off len = extract x off len ||| extract y off len := by
  refine BitVec.eq_of_getLsbD_eq fun i _ => ?_
  rw [BitVec.getLsbD_or, getLsbD_extract, getLsbD_extract, getLsbD_extract, BitVec.getLsbD_or,
    Bool.and_or_distrib_left]

theorem extract_zero : extract 0#w off len = 0#w := by
  refine BitVec.eq_of_getLsbD_eq fun i _ => ?_
  rw [getLsbD_extract, BitVec.getLsbD_zero, BitVec.getLsbD_zero, Bool.and_false]

theorem extract_place_self (h : off + len ≤ w) :
    extract (place x off len) off len = extract x 0 len := by
  refine BitVec.eq_of_getLsbD_eq fun i _ => ?_
  rw [getLsbD_extract, getLsbD_extract, getLsbD_place, Nat.zero_add, Nat.add_sub_cancel_left]
  by_cases hi : i < len
  · have hin : off ≤ off + i ∧ off + i < off + len ∧ off + i < w := by omega
    rw [decide_eq_true hin, Bool.true_and]
  · rw [decide_eq_false hi, Bool.false_and, Bool.false_and]

theorem extract_place_of_disjoint (h : off + len ≤ off' ∨ off' + len' ≤ off) :
    extract (place x off' len') off len = 0#w := by
  refine BitVec.eq_of_getLsbD_eq fun i _ => ?_
  rw [getLsbD_extract, getLsbD_place, BitVec.getLsbD_zero]
  by_cases hi : i < len
  · have hout : ¬ (off' ≤ off + i ∧ off + i < off' + len' ∧ off + i < w) := by omega
    rw [decide_eq_false hout, Bool.false_and, Bool.and_false]
  · rw [decide_eq_false hi, Bool.false_and]

theorem toNat_extract (x : BitVec w) (off : ℕ) (h : len ≤ w) :
    (extract x off len).toNat = x.toNat / 2 ^ off % 2 ^ len :=
  toNat_shift_and_mask x off h

end Place

end BitField

end BaoHypervisor
