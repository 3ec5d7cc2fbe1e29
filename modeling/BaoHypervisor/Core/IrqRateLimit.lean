import Mathlib.Data.BitVec
import Mathlib.Tactic.SplitIfs

/-!
# Rate limiting of interrupts

A token bucket for every interrupt source. Injecting an interrupt takes a
token; without one the interrupt is deferred, and with the buffer full it is
dropped. `rdtime` is an argument here, and the counters wrap as in the source.
-/

namespace BaoHypervisor

inductive VmCriticality
  | low
  | high
deriving DecidableEq, Repr, Inhabited

structure IrqTokenBucket where
  tokens : BitVec 32
  maxTokens : BitVec 32
  rate : BitVec 32
  deferredCount : BitVec 32
  maxDeferred : BitVec 32
  lastRefill : BitVec 64
  dropped : BitVec 64
deriving DecidableEq, Repr, Inhabited

inductive IrqRlAction
  | allow
  | deferred
  | dropped
deriving DecidableEq, Repr

def irqRlTimerFreq : BitVec 64 := 10000000#64

def irqBucketInit (criticality : VmCriticality) (now : BitVec 64) : IrqTokenBucket :=
  match criticality with
  | .high =>
      { tokens := 1000#32, maxTokens := 1000#32, rate := 10000#32, deferredCount := 0#32
        maxDeferred := 32#32, lastRefill := now, dropped := 0#64 }
  | .low =>
      { tokens := 100#32, maxTokens := 100#32, rate := 1000#32, deferredCount := 0#32
        maxDeferred := 8#32, lastRefill := now, dropped := 0#64 }

def irqBucketRefill (now : BitVec 64) (b : IrqTokenBucket) : IrqTokenBucket :=
  let elapsed := now - b.lastRefill
  if elapsed = 0#64 then b
  else
    let newTokens := (elapsed * b.rate.setWidth 64) / irqRlTimerFreq
    if 0#64 < newTokens then
      let tokens := b.tokens + newTokens.setWidth 32
      { b with
        tokens := if b.maxTokens < tokens then b.maxTokens else tokens
        lastRefill := now }
    else b

/-- The loop that lets deferred interrupts take the tokens there are, with the
number of interrupts drained. Each round takes one deferred interrupt. -/
def irqBucketDrainLoop : ℕ → IrqTokenBucket → BitVec 32 → IrqTokenBucket × BitVec 32
  | 0, b, drained => (b, drained)
  | fuel + 1, b, drained =>
      if 0#32 < b.deferredCount ∧ 0#32 < b.tokens then
        irqBucketDrainLoop fuel
          { b with deferredCount := b.deferredCount - 1#32, tokens := b.tokens - 1#32 }
          (drained + 1#32)
      else (b, drained)

def irqBucketDrainDeferred (now : BitVec 64) (b : IrqTokenBucket) :
    IrqTokenBucket × BitVec 32 :=
  let b := irqBucketRefill now b
  irqBucketDrainLoop b.deferredCount.toNat b 0#32

def irqBucketConsume (now : BitVec 64) (b : IrqTokenBucket) :
    IrqTokenBucket × IrqRlAction :=
  let b := (irqBucketDrainDeferred now b).1
  if 0#32 < b.tokens then ({ b with tokens := b.tokens - 1#32 }, .allow)
  else if b.deferredCount < b.maxDeferred then
    ({ b with deferredCount := b.deferredCount + 1#32 }, .deferred)
  else ({ b with dropped := b.dropped + 1#64 }, .dropped)

/-! ## Closed forms -/

section ClosedForms

variable (now : BitVec 64) (b : IrqTokenBucket)

theorem irqBucketRefill_frame :
    irqBucketRefill now b =
      { b with
        tokens := (irqBucketRefill now b).tokens
        lastRefill := (irqBucketRefill now b).lastRefill } := by
  rw [irqBucketRefill]
  dsimp only
  split_ifs <;> rfl

@[simp] theorem maxTokens_irqBucketRefill :
    (irqBucketRefill now b).maxTokens = b.maxTokens := by rw [irqBucketRefill_frame]

@[simp] theorem rate_irqBucketRefill : (irqBucketRefill now b).rate = b.rate := by
  rw [irqBucketRefill_frame]

@[simp] theorem deferredCount_irqBucketRefill :
    (irqBucketRefill now b).deferredCount = b.deferredCount := by
  rw [irqBucketRefill_frame]

@[simp] theorem maxDeferred_irqBucketRefill :
    (irqBucketRefill now b).maxDeferred = b.maxDeferred := by rw [irqBucketRefill_frame]

@[simp] theorem dropped_irqBucketRefill : (irqBucketRefill now b).dropped = b.dropped := by
  rw [irqBucketRefill_frame]

/-- The loop pairs deferred interrupts with tokens until one of them runs out. -/
theorem irqBucketDrainLoop_eq {fuel : ℕ} {b : IrqTokenBucket}
    (hfuel : b.deferredCount.toNat ≤ fuel) (drained : BitVec 32) :
    irqBucketDrainLoop fuel b drained =
      if b.deferredCount ≤ b.tokens then
        ({ b with deferredCount := 0#32, tokens := b.tokens - b.deferredCount },
          drained + b.deferredCount)
      else
        ({ b with deferredCount := b.deferredCount - b.tokens, tokens := 0#32 },
          drained + b.tokens) := by
  induction fuel generalizing b drained with
  | zero =>
      have hzero : b.deferredCount = 0#32 := BitVec.eq_of_toNat_eq (by simpa using hfuel)
      have hle : b.deferredCount ≤ b.tokens := by bv_omega
      rw [if_pos hle, irqBucketDrainLoop, hzero, BitVec.sub_zero, BitVec.add_zero, ← hzero]
  | succ fuel ih =>
      rw [irqBucketDrainLoop]
      by_cases hmore : 0#32 < b.deferredCount ∧ 0#32 < b.tokens
      · have hcount : (b.deferredCount - 1#32).toNat ≤ fuel := by bv_omega
        rw [if_pos hmore, ih hcount]
        dsimp only
        by_cases hle : b.deferredCount ≤ b.tokens
        · have hle' : b.deferredCount - 1#32 ≤ b.tokens - 1#32 := by bv_omega
          rw [if_pos hle, if_pos hle', sub_sub_sub_cancel_right, add_add_sub_cancel]
        · have hle' : ¬ b.deferredCount - 1#32 ≤ b.tokens - 1#32 := by bv_omega
          rw [if_neg hle, if_neg hle', sub_sub_sub_cancel_right, add_add_sub_cancel]
      · rw [if_neg hmore]
        by_cases hle : b.deferredCount ≤ b.tokens
        · have hzero : b.deferredCount = 0#32 := by bv_omega
          rw [if_pos hle, hzero, BitVec.sub_zero, BitVec.add_zero, ← hzero]
        · have hzero : b.tokens = 0#32 := by bv_omega
          rw [if_neg hle, hzero, BitVec.sub_zero, BitVec.add_zero, ← hzero]

theorem irqBucketDrainDeferred_eq :
    irqBucketDrainDeferred now b =
      let r := irqBucketRefill now b
      if r.deferredCount ≤ r.tokens then
        ({ r with deferredCount := 0#32, tokens := r.tokens - r.deferredCount },
          r.deferredCount)
      else
        ({ r with deferredCount := r.deferredCount - r.tokens, tokens := 0#32 },
          r.tokens) := by
  rw [irqBucketDrainDeferred]
  dsimp only
  rw [irqBucketDrainLoop_eq le_rfl, BitVec.zero_add, BitVec.zero_add]

theorem irqBucketConsume_eq :
    irqBucketConsume now b =
      let r := irqBucketRefill now b
      if r.deferredCount < r.tokens then
        ({ r with deferredCount := 0#32, tokens := r.tokens - r.deferredCount - 1#32 },
          .allow)
      else if r.deferredCount - r.tokens < r.maxDeferred then
        ({ r with deferredCount := r.deferredCount - r.tokens + 1#32, tokens := 0#32 },
          .deferred)
      else
        ({ r with
            deferredCount := r.deferredCount - r.tokens, tokens := 0#32
            dropped := r.dropped + 1#64 },
          .dropped) := by
  rw [irqBucketConsume, irqBucketDrainDeferred_eq]
  dsimp only
  generalize irqBucketRefill now b = r
  by_cases hlt : r.deferredCount < r.tokens
  · have hle : r.deferredCount ≤ r.tokens := by bv_omega
    have hpos : 0#32 < r.tokens - r.deferredCount := by bv_omega
    rw [if_pos hle, if_pos hlt, if_pos hpos]
  · rw [if_neg hlt]
    by_cases hle : r.deferredCount ≤ r.tokens
    · have heq : r.deferredCount = r.tokens := by bv_omega
      rw [if_pos hle, heq, BitVec.sub_self, BitVec.zero_add]
      dsimp only
      rw [if_neg (BitVec.lt_irrefl _)]
    · rw [if_neg hle]
      dsimp only
      rw [if_neg (BitVec.lt_irrefl _)]

end ClosedForms

/-! ## Calls -/

inductive BucketCall
  | consume (now : BitVec 64)
  | drainDeferred (now : BitVec 64)
deriving DecidableEq, Repr

def BucketCall.now : BucketCall → BitVec 64
  | .consume now => now
  | .drainDeferred now => now

namespace IrqTokenBucket

def call (b : IrqTokenBucket) : BucketCall → IrqTokenBucket
  | .consume now => (irqBucketConsume now b).1
  | .drainDeferred now => (irqBucketDrainDeferred now b).1

/-- The calls read times that do not decrease from `t` on. -/
def Timed (t : BitVec 64) (calls : List BucketCall) : Prop :=
  (t :: calls.map BucketCall.now).Pairwise (· ≤ ·)

end IrqTokenBucket

end BaoHypervisor
