import BaoHypervisor.Core.Mem.FreePages
import Mathlib.Data.Nat.Count

/-!
# The pages that are recoloured

`mem_map_reclr` meets the pages of an image three times: it counts those off the colours of the
address space with a closed form, goes through all of them by their index in the image, and frees
those off the colours with a walk over the pool that has them. All three select the same pages,
since the colours repeat and that of a page depends on its address only.
-/

namespace BaoHypervisor

open Bitmap

/-- A `colormap_t`, read as a bitmap. -/
def colorBitmap (colors : ColorMap) : Bitmap := fun w => (colors >>> (granuleLen * w)).setWidth 32

theorem bitmapGet_colorBitmap (colors : ColorMap) (k : ℕ) :
    bitmapGet (colorBitmap colors) k = colors.getLsbD k := by
  have hlt : k % granuleLen < 32 := Nat.mod_lt _ (by decide)
  rw [bitmapGet_eq_getLsbD, colorBitmap, BitVec.getLsbD_setWidth, BitVec.getLsbD_ushiftRight,
    decide_eq_true hlt, Bool.true_and, Nat.div_add_mod]

namespace Coloring

variable (c : Coloring) (colors : ColorMap) (base : Addr)

/-- `reclrd_num`, for an image of `n` pages. -/
def reclrdNum (n : ℕ) : ℕ :=
  let clrOffset := base.toNat / pageSize % (c.colorNum * c.colorSize)
  n / (c.colorNum * c.colorSize) * c.colorSize *
      bitmapCount (colorBitmap colors) 0 c.colorNum false +
    (List.range (n % (c.colorNum * c.colorSize))).countP fun i =>
      !bitmapGet (colorBitmap colors) ((i + clrOffset) / c.colorSize % c.colorNum)

def offColors (n : ℕ) : List ℕ := (List.range n).filter fun i => !c.inColors base colors i

variable {c colors base}

/-! ## Maps with some of the colours -/

theorem allClrs_iff : c.allClrs colors = true ↔
    (∀ k < c.colorNum, colors.getLsbD k = false) ∨ ∀ k < c.colorNum, colors.getLsbD k = true := by
  have hlt := c.colorNum_lt
  have hmask : ∀ k, ((1#64 <<< c.colorNum) - 1#64).getLsbD k = decide (k < c.colorNum) := by
    intro k
    have hpow : 2 ^ c.colorNum < 2 ^ 64 := Nat.pow_lt_pow_right (by decide) hlt
    have hpos := Nat.two_pow_pos c.colorNum
    have hnum : ((1#64 <<< c.colorNum) - 1#64).toNat = 2 ^ c.colorNum - 1 := by
      rw [BitVec.toNat_sub, BitVec.toNat_shiftLeft, Nat.shiftLeft_eq]
      have hone : (1#64).toNat = 1 := rfl
      rw [hone, Nat.one_mul, Nat.mod_eq_of_lt hpow]
      omega
    rw [BitVec.getLsbD, hnum, Nat.testBit_two_pow_sub_one]
  rw [allClrs, Bool.or_eq_true, decide_eq_true_eq, decide_eq_true_eq]
  refine or_congr ⟨fun h k hk => ?_, fun h => ?_⟩ ⟨fun h k hk => ?_, fun h => ?_⟩
  · have hbit := congrArg (·.getLsbD k) h
    simpa [hmask, hk] using hbit
  · refine BitVec.eq_of_getLsbD_eq fun k _ => ?_
    rw [BitVec.getLsbD_and, hmask, BitVec.getLsbD_zero]
    by_cases hk : k < c.colorNum
    · rw [h k hk, Bool.false_and]
    · rw [decide_eq_false hk, Bool.and_false]
  · have hbit := congrArg (·.getLsbD k) h
    simpa [hmask, hk] using hbit
  · refine BitVec.eq_of_getLsbD_eq fun k _ => ?_
    rw [BitVec.getLsbD_and, hmask]
    by_cases hk : k < c.colorNum
    · rw [h k hk, Bool.true_and]
    · rw [decide_eq_false hk, Bool.and_false]

theorem hasColor_of_allClrs (h : c.allClrs colors = false) : c.HasColor colors := by
  by_contra hnone
  have hall : c.allClrs colors = true := allClrs_iff.mpr <| .inl fun k hk =>
    Bool.eq_false_iff.mpr fun hbit => hnone ⟨k, hk, hbit⟩
  rw [h] at hall
  cases hall

theorem getLsbD_not {k : ℕ} (hk : k < c.colorNum) : (~~~colors).getLsbD k = !colors.getLsbD k := by
  rw [BitVec.getLsbD_not, decide_eq_true (hk.trans c.colorNum_lt), Bool.true_and]

theorem allClrs_not (h : c.allClrs colors = false) : c.allClrs (~~~colors) = false := by
  rw [Bool.eq_false_iff] at h ⊢
  refine fun hall => h (allClrs_iff.mpr ?_)
  refine (allClrs_iff.mp hall).symm.imp (fun hbits k hk => ?_) fun hbits k hk => ?_
  · have hbit := hbits k hk
    rw [getLsbD_not hk] at hbit
    simpa using hbit
  · have hbit := hbits k hk
    rw [getLsbD_not hk] at hbit
    simpa using hbit

theorem colorOf_lt (base : Addr) (index : ℕ) : c.colorOf base index < c.colorNum :=
  Nat.mod_lt _ c.colorNum_pos

theorem inColors_eq_getLsbD (index : ℕ) :
    c.inColors base colors index = colors.getLsbD (c.colorOf base index) :=
  Bool.eq_iff_iff.mpr inColors_iff

theorem inColors_not (index : ℕ) :
    c.inColors base (~~~colors) index = !c.inColors base colors index := by
  rw [inColors_eq_getLsbD, inColors_eq_getLsbD, getLsbD_not (colorOf_lt base index)]

/-! ## The closed form -/

theorem count_mul_add {p : ℕ → Prop} [DecidablePred p] {a : ℕ} (hp : ∀ i, p (a + i) ↔ p i)
    (q r : ℕ) : Nat.count p (q * a + r) = q * Nat.count p a + Nat.count p r := by
  induction q with
  | zero => rw [Nat.zero_mul, Nat.zero_add, Nat.zero_mul, Nat.zero_add]
  | succ q ih =>
      have hshift : Nat.count (fun i => p (a + i)) (q * a + r) = Nat.count p (q * a + r) := by
        simp only [hp]
      rw [Nat.succ_mul, Nat.add_comm (q * a), Nat.add_assoc, Nat.count_add, hshift, ih,
        Nat.succ_mul, Nat.add_comm (q * _) (Nat.count p a), Nat.add_assoc]

theorem count_shift {p : ℕ → Prop} [DecidablePred p] {a : ℕ} (hp : ∀ i, p (a + i) ↔ p i)
    (k : ℕ) : Nat.count (fun i => p (k + i)) a = Nat.count p a := by
  have hback : Nat.count (fun i => p (a + i)) k = Nat.count p k := by
    simp only [hp]
  have hsum := Nat.count_add p k a
  rw [Nat.add_comm k a, Nat.count_add, hback, Nat.add_comm] at hsum
  exact (Nat.add_left_cancel hsum).symm

/-- Each colour that is counted comes up `colorSize` times in a period. -/
theorem count_period (q : ℕ → Prop) [DecidablePred q] {k : ℕ} (hk : k ≤ c.colorNum) :
    Nat.count (fun i => q (i / c.colorSize % c.colorNum)) (k * c.colorSize) =
      c.colorSize * Nat.count q k := by
  induction k with
  | zero => rw [Nat.zero_mul, Nat.count_zero, Nat.count_zero, Nat.mul_zero]
  | succ k ih =>
      have hcolor : ∀ i < c.colorSize, (k * c.colorSize + i) / c.colorSize % c.colorNum = k := by
        intro i hi
        rw [Nat.mul_comm, Nat.mul_add_div c.colorSize_pos, Nat.div_eq_of_lt hi, Nat.add_zero,
          Nat.mod_eq_of_lt hk]
      rw [Nat.succ_mul, Nat.count_add, ih (Nat.le_of_succ_le hk), Nat.count_succ, Nat.mul_add]
      refine congrArg _ ?_
      split_ifs with hq
      · rw [Nat.mul_one]
        exact Nat.count_of_forall fun i hi => by rwa [hcolor i hi]
      · rw [Nat.mul_zero]
        exact Nat.count_of_forall_not fun i hi => by rwa [hcolor i hi]

theorem bitmapCount_eq_count (map : Bitmap) (n : ℕ) :
    bitmapCount map 0 n false = Nat.count (fun i => bitmapGet map i = false) n := by
  rw [bitmapCount, Nat.sub_zero, ← List.range_eq_range']
  rfl

/-- `reclrd_num` counts the pages of the image that are off the colours. -/
theorem reclrdNum_eq (n : ℕ) : c.reclrdNum colors base n = (c.offColors colors base n).length := by
  obtain ⟨off, hoff⟩ : ∃ off, off = base.toNat / pageSize % (c.colorNum * c.colorSize) := ⟨_, rfl⟩
  obtain ⟨p, hp⟩ : ∃ p : ℕ → Prop, p = fun i =>
      colors.getLsbD (i / c.colorSize % c.colorNum) = false := ⟨_, rfl⟩
  have : DecidablePred p := by
    rw [hp]
    infer_instance
  have hperiod : ∀ i, p (c.colorNum * c.colorSize + i) ↔ p i := by
    intro i
    rw [hp, Nat.mul_comm]
    simp only [Nat.mul_add_div c.colorSize_pos, Nat.add_mod_left]
  have hwhole : Nat.count p (c.colorNum * c.colorSize) =
      c.colorSize * bitmapCount (colorBitmap colors) 0 c.colorNum false := by
    rw [bitmapCount_eq_count]
    simp only [bitmapGet_colorBitmap]
    rw [← count_period (c := c) (fun k => colors.getLsbD k = false) le_rfl]
    simp only [hp]
  have hcount : ∀ k, (List.range k).countP (fun i =>
      !bitmapGet (colorBitmap colors) ((i + off) / c.colorSize % c.colorNum)) =
        Nat.count (fun i => p (off + i)) k := by
    intro k
    rw [Nat.count]
    refine List.countP_congr fun i _ => ?_
    simp only [hp, bitmapGet_colorBitmap, Nat.add_comm i, decide_eq_true_eq, Bool.not_eq_true']
  have hshift : ∀ i, p (off + (c.colorNum * c.colorSize + i)) ↔ p (off + i) := by
    intro i
    rw [Nat.add_left_comm, hperiod]
  have hpages : (c.offColors colors base n).length = Nat.count (fun i => p (off + i)) n := by
    rw [offColors, ← List.countP_eq_length_filter, ← hcount]
    refine List.countP_congr fun i _ => ?_
    rw [inColors_eq_getLsbD, colorOf, ← hoff, bitmapGet_colorBitmap]
  rw [hpages, reclrdNum, ← hoff, hcount, ← Nat.div_add_mod' n (c.colorNum * c.colorSize),
    count_mul_add hshift, count_shift hperiod, hwhole, Nat.div_add_mod', Nat.mul_assoc]

/-! ## Walks -/

/-- A walk over the coloured pages of a range takes them in their order. -/
theorem clrPages_eq_filter (h : c.HasColor colors) (n start : ℕ) :
    c.clrPages base colors ((List.range' start n).countP (c.inColors base colors)) start =
      (List.range' start n).filter (c.inColors base colors) := by
  induction n generalizing start with
  | zero => rfl
  | succ n ih =>
      rw [List.range'_succ]
      cases hin : c.inColors base colors start with
      | true =>
          rw [List.countP_cons_of_pos hin, List.filter_cons_of_pos hin, clrPages,
            ppNextClr_eq_self h hin, ih]
      | false =>
          have hnot : ¬ c.inColors base colors start = true := Bool.eq_false_iff.mp hin
          rw [List.countP_cons_of_neg hnot, List.filter_cons_of_neg hnot, ← ih]
          cases (List.range' (start + 1) n).countP (c.inColors base colors) with
          | zero => rfl
          | succ k => rw [clrPages, clrPages, ppNextClr_succ h hin]

theorem clrPages_not (h : c.allClrs colors = false) (n : ℕ) :
    c.clrPages base (~~~colors) (c.reclrdNum colors base n) 0 = c.offColors colors base n := by
  have hwalk := @clrPages_eq_filter c (~~~colors) base
    (hasColor_of_allClrs (allClrs_not h)) n 0
  have hfun : c.inColors base (~~~colors) = fun i => !c.inColors base colors i :=
    funext fun i => inColors_not i
  rw [hfun, ← List.range_eq_range', List.countP_eq_length_filter] at hwalk
  rw [reclrdNum_eq]
  exact hwalk

end Coloring

end BaoHypervisor
