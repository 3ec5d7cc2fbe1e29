import Mathlib.Data.BitVec

/-!
# Machine words and ranges of addresses

The types of `core/inc/types.h` that hold addresses and sizes are 64-bit words,
and the macros and inline functions of `lib/inc/util.h` compute on them with
wrap-around. `rangeInRange` saturates a limit that wraps, so that it compares
the true ends of two ranges cut off at the top of the address space
(`rangeInRange_iff`).
-/

namespace BaoHypervisor

/-- `paddr_t` and `vaddr_t`. -/
abbrev Addr := BitVec 64

abbrev SizeT := BitVec 64

abbrev pageSize : ℕ := 0x1000

inductive AsType
  | hyp
  | vm
  | hypCpy
deriving DecidableEq, Repr

def align (val unit : SizeT) : SizeT :=
  ((val + unit - 1#64) / unit) * unit

def alignFloor (val unit : SizeT) : SizeT :=
  val &&& ~~~(unit - 1#64)

def numPages (sz : SizeT) : SizeT :=
  align sz (BitVec.ofNat 64 pageSize) / BitVec.ofNat 64 pageSize

/-- A limit as `range_in_range` computes it: `ULONG_MAX` when the sum wraps. -/
def rangeLimit (base size : SizeT) : SizeT :=
  if base + size < base then BitVec.allOnes 64 else base + size

def rangeInRange (base1 size1 base2 size2 : SizeT) : Bool :=
  decide (base2 ≤ base1) && decide (rangeLimit base1 size1 ≤ rangeLimit base2 size2)

def inRange (addr base size : SizeT) : Bool :=
  rangeInRange addr 0#64 base size

def rangeOverlapRange (base1 size1 base2 size2 : SizeT) : Bool :=
  let reg1Lim := base1 + size1 - 1#64
  let reg2Lim := base2 + size2 - 1#64
  (decide (base2 ≤ base1) && decide (base1 ≤ reg2Lim)) ||
    (decide (base2 ≤ reg1Lim) && decide (reg1Lim ≤ reg2Lim)) ||
    (decide (base1 ≤ base2) && decide (reg2Lim ≤ reg1Lim))

theorem toNat_rangeLimit (base size : SizeT) :
    (rangeLimit base size).toNat = min (base.toNat + size.toNat) (2 ^ 64 - 1) := by
  have hb := base.isLt
  have hs := size.isLt
  have hsum : (base + size).toNat = (base.toNat + size.toNat) % 2 ^ 64 :=
    BitVec.toNat_add base size
  unfold rangeLimit
  by_cases hwrap : base + size < base
  · rw [if_pos hwrap, BitVec.toNat_allOnes]
    rw [BitVec.lt_def] at hwrap
    omega
  · rw [if_neg hwrap]
    rw [BitVec.lt_def] at hwrap
    omega

theorem rangeInRange_iff (base1 size1 base2 size2 : SizeT) :
    rangeInRange base1 size1 base2 size2 = true ↔
      base2.toNat ≤ base1.toNat ∧
        min (base1.toNat + size1.toNat) (2 ^ 64 - 1) ≤
          min (base2.toNat + size2.toNat) (2 ^ 64 - 1) := by
  rw [rangeInRange, Bool.and_eq_true, decide_eq_true_eq, decide_eq_true_eq,
    BitVec.le_def, BitVec.le_def, toNat_rangeLimit, toNat_rangeLimit]

theorem alignFloor_page_eq_shift (val : SizeT) :
    alignFloor val (BitVec.ofNat 64 pageSize) = (val >>> 12) <<< 12 := by
  have hmask : ∀ i : Fin 64,
      (~~~(BitVec.ofNat 64 pageSize - 1#64)).getLsbD i = decide (12 ≤ i.val) := by decide
  refine BitVec.eq_of_getLsbD_eq fun i hi => ?_
  rw [alignFloor, BitVec.getLsbD_and, hmask ⟨i, hi⟩, BitVec.getLsbD_shiftLeft,
    BitVec.getLsbD_ushiftRight]
  by_cases hlow : i < 12
  · simp [hlow, Nat.not_le.mpr hlow]
  · simp [hlow, hi, Nat.add_sub_cancel' (Nat.not_lt.mp hlow), Nat.not_lt.mp hlow]

theorem toNat_alignFloor_page (val : SizeT) :
    (alignFloor val (BitVec.ofNat 64 pageSize)).toNat = val.toNat / pageSize * pageSize := by
  have hval := val.isLt
  rw [alignFloor_page_eq_shift, BitVec.toNat_shiftLeft, BitVec.toNat_ushiftRight,
    Nat.shiftRight_eq_div_pow, Nat.shiftLeft_eq]
  unfold pageSize
  omega

theorem toNat_numPages {sz : SizeT} (h : sz.toNat + (pageSize - 1) < 2 ^ 64) :
    (numPages sz).toNat = (sz.toNat + (pageSize - 1)) / pageSize := by
  unfold pageSize at *
  have hsum : (sz + BitVec.ofNat 64 0x1000 - 1#64).toNat = sz.toNat + 4095 := by
    have hs := sz.isLt
    simp only [BitVec.toNat_sub, BitVec.toNat_add, BitVec.toNat_ofNat]
    omega
  have hquot : ((sz + BitVec.ofNat 64 0x1000 - 1#64) / BitVec.ofNat 64 0x1000).toNat =
      (sz.toNat + 4095) / 4096 := by
    rw [BitVec.toNat_udiv, hsum]
    rfl
  rw [numPages, align, BitVec.toNat_udiv, BitVec.toNat_mul, hquot]
  have hpage : (BitVec.ofNat 64 0x1000).toNat = 4096 := rfl
  rw [hpage]
  omega

end BaoHypervisor
