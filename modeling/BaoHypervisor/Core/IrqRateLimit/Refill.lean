import BaoHypervisor.Core.IrqRateLimit

/-!
# What a refill adds

The tokens that the time since the last refill produces are counted in 64 bits, and added
in 32 bits before the sum is capped. So a refill is exact until the sum passes 32 bits;
from then on its remainder counts, and a bucket that was idle for days may end with fewer
tokens than one that was idle for a second.
-/

namespace BaoHypervisor

namespace IrqTokenBucket

variable (b : IrqTokenBucket) (now : BitVec 64)

def elapsed : ℕ := (now - b.lastRefill).toNat

def produced : ℕ := b.elapsed now * b.rate.toNat / irqRlTimerFreq.toNat

def exactTokens : ℕ := min b.maxTokens.toNat (b.tokens.toNat + b.produced now)

/-- The sum of the tokens passes neither 32 bits, nor does its remainder fall below the
cap. -/
def Unwrapped : Prop :=
  b.tokens.toNat + b.produced now < 2 ^ 32 ∨
    b.maxTokens.toNat ≤ (b.tokens.toNat + b.produced now) % 2 ^ 32

instance : Decidable (b.Unwrapped now) := inferInstanceAs (Decidable (_ ∨ _))

variable {b now}

theorem toNat_newTokens (hfits : b.elapsed now * b.rate.toNat < 2 ^ 64) :
    ((now - b.lastRefill) * b.rate.setWidth 64 / irqRlTimerFreq).toNat = b.produced now := by
  have hrate : (b.rate.setWidth 64).toNat = b.rate.toNat := by
    rw [BitVec.toNat_setWidth_of_le (by decide)]
  rw [BitVec.toNat_udiv, BitVec.toNat_mul, hrate, produced, elapsed]
  rw [elapsed] at hfits
  rw [Nat.mod_eq_of_lt hfits]

theorem produced_eq_zero (h : now - b.lastRefill = 0#64) : b.produced now = 0 := by
  rw [produced, elapsed, h, BitVec.toNat_zero, Nat.zero_mul, Nat.zero_div]

/-- A refill caps the remainder of the sum. -/
theorem toNat_tokens_irqBucketRefill (hle : b.tokens ≤ b.maxTokens)
    (hfits : b.elapsed now * b.rate.toNat < 2 ^ 64) :
    (irqBucketRefill now b).tokens.toNat =
      min b.maxTokens.toNat ((b.tokens.toNat + b.produced now) % 2 ^ 32) := by
  have hnew := toNat_newTokens hfits
  have hle' : b.tokens.toNat ≤ b.maxTokens.toNat := hle
  have hnone : min b.maxTokens.toNat ((b.tokens.toNat + 0) % 2 ^ 32) = b.tokens.toNat := by
    rw [Nat.add_zero, Nat.mod_eq_of_lt b.tokens.isLt, Nat.min_eq_right hle']
  rw [irqBucketRefill]
  dsimp only
  by_cases hzero : now - b.lastRefill = 0#64
  · rw [if_pos hzero, produced_eq_zero hzero, hnone]
  rw [if_neg hzero]
  generalize (now - b.lastRefill) * b.rate.setWidth 64 / irqRlTimerFreq = newTokens at hnew ⊢
  by_cases hpos : 0#64 < newTokens
  · have hsum : (b.tokens + newTokens.setWidth 32).toNat =
        (b.tokens.toNat + b.produced now) % 2 ^ 32 := by
      rw [BitVec.toNat_add, BitVec.toNat_setWidth, hnew, Nat.add_mod_mod]
    rw [if_pos hpos, ← hsum]
    dsimp only
    split_ifs with hcap
    · exact (Nat.min_eq_left (BitVec.le_of_lt hcap)).symm
    · exact (Nat.min_eq_right (BitVec.not_lt.mp hcap)).symm
  · have hprod : b.produced now = 0 := by
      rw [← hnew]
      exact Nat.eq_zero_of_not_pos hpos
    rw [if_neg hpos, hprod, hnone]

theorem lastRefill_irqBucketRefill (hfits : b.elapsed now * b.rate.toNat < 2 ^ 64) :
    (irqBucketRefill now b).lastRefill = if 0 < b.produced now then now else b.lastRefill := by
  have hnew := toNat_newTokens hfits
  rw [irqBucketRefill]
  dsimp only
  by_cases hzero : now - b.lastRefill = 0#64
  · rw [if_pos hzero, produced_eq_zero hzero, if_neg (lt_irrefl 0)]
  rw [if_neg hzero]
  generalize (now - b.lastRefill) * b.rate.setWidth 64 / irqRlTimerFreq = newTokens at hnew ⊢
  rw [← hnew]
  by_cases hpos : 0#64 < newTokens
  · rw [if_pos hpos]
    exact (if_pos hpos).symm
  · rw [if_neg hpos]
    exact (if_neg hpos).symm

theorem produced_mono {earlier : BitVec 64} (h : b.elapsed earlier ≤ b.elapsed now) :
    b.produced earlier ≤ b.produced now :=
  Nat.div_le_div_right (Nat.mul_le_mul_right _ h)

/-- For a bucket within its cap and a time whose product with the rate fits into 64 bits,
a refill is exact, moves the time of the last refill exactly when a token was produced,
and leaves no fewer tokens than one after a shorter time, if and only if the sum of the
tokens passes neither 32 bits, nor does its remainder fall below the cap. -/
theorem irqBucketRefill_exact_iff (b : IrqTokenBucket) (now : BitVec 64)
    (hle : b.tokens ≤ b.maxTokens) (hfits : b.elapsed now * b.rate.toNat < 2 ^ 64) :
    ((irqBucketRefill now b).tokens.toNat = b.exactTokens now ∧
      (irqBucketRefill now b).lastRefill =
        (if 0 < b.produced now then now else b.lastRefill) ∧
      ∀ earlier, b.elapsed earlier ≤ b.elapsed now →
        (irqBucketRefill earlier b).tokens ≤ (irqBucketRefill now b).tokens) ↔
      b.Unwrapped now := by
  have htokens := toNat_tokens_irqBucketRefill hle hfits
  have hmax : b.maxTokens.toNat < 2 ^ 32 := b.maxTokens.isLt
  rw [Unwrapped, exactTokens]
  constructor
  · rintro ⟨hexact, -, -⟩
    rw [htokens] at hexact
    by_contra hwrapped
    rw [not_or, not_lt, not_le] at hwrapped
    rw [Nat.min_eq_right hwrapped.2.le,
      Nat.min_eq_left (hmax.le.trans hwrapped.1)] at hexact
    exact hwrapped.2.ne hexact
  · intro hunwrapped
    have hexact : (irqBucketRefill now b).tokens.toNat =
        min b.maxTokens.toNat (b.tokens.toNat + b.produced now) := by
      rw [htokens]
      rcases hunwrapped with hlt | hcap
      · rw [Nat.mod_eq_of_lt hlt]
      · rw [Nat.min_eq_left hcap, Nat.min_eq_left (hcap.trans (Nat.mod_le _ _))]
    refine ⟨hexact, lastRefill_irqBucketRefill hfits, fun earlier hearlier => ?_⟩
    have hfits' : b.elapsed earlier * b.rate.toNat < 2 ^ 64 :=
      (Nat.mul_le_mul_right _ hearlier).trans_lt hfits
    rw [BitVec.le_def, toNat_tokens_irqBucketRefill hle hfits', hexact]
    exact min_le_min_left _ ((Nat.mod_le _ _).trans
      (Nat.add_le_add_left (produced_mono hearlier) _))

def drained : IrqTokenBucket := { irqBucketInit .high 0#64 with tokens := 0#32 }

theorem irqBucketRefill_exact_second :
    (irqBucketRefill 1000000#64 drained).tokens.toNat = 1000 ∧
      (irqBucketRefill 1000000#64 drained).lastRefill = 1000000#64 := by
  have hexact := ((irqBucketRefill_exact_iff drained 1000000#64 (by decide) (by decide)).mpr
    (by decide)).1
  refine ⟨hexact.trans (by decide), by decide⟩

/-- After five days the bucket gets no token, after a tenth of a second it gets all. -/
theorem irqBucketRefill_wraps :
    (drained.tokens ≤ drained.maxTokens ∧
      drained.elapsed 4294967296000#64 * drained.rate.toNat < 2 ^ 64) ∧
        (irqBucketRefill 4294967296000#64 drained).tokens.toNat ≠
          drained.exactTokens 4294967296000#64 ∧
        drained.elapsed 1000000#64 ≤ drained.elapsed 4294967296000#64 ∧
          ¬ (irqBucketRefill 1000000#64 drained).tokens ≤
            (irqBucketRefill 4294967296000#64 drained).tokens := by
  decide

end IrqTokenBucket

end BaoHypervisor
