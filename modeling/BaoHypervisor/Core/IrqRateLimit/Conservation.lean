import BaoHypervisor.Core.IrqRateLimit
import BaoHypervisor.Theory.Run

/-!
# What becomes of a deferred interrupt

Every interrupt offered to a bucket is let through, dropped or buffered, and a
buffered one is to be handed back by `irqBucketDrainDeferred`. A ledger keeps
these counts next to the bucket. `irqBucketConsume` drains the buffer as well,
but tells nobody how many interrupts it took out of it: the ledger stays
balanced exactly as long as it finds nothing there to drain.
-/

namespace BaoHypervisor

/-- A bucket, with the calls of `irqBucketConsume` on it, those that let their
interrupt through, and the interrupts handed back by `irqBucketDrainDeferred`. -/
structure BucketLedger where
  bucket : IrqTokenBucket
  consumes : ℕ
  allowed : ℕ
  drained : ℕ
deriving DecidableEq, Repr

namespace BucketLedger

def fresh (criticality : VmCriticality) (now : BitVec 64) : BucketLedger where
  bucket := irqBucketInit criticality now
  consumes := 0
  allowed := 0
  drained := 0

def call (l : BucketLedger) : BucketCall → BucketLedger
  | .consume now =>
      { l with
        bucket := (irqBucketConsume now l.bucket).1
        consumes := l.consumes + 1
        allowed := l.allowed + if (irqBucketConsume now l.bucket).2 = .allow then 1 else 0 }
  | .drainDeferred now =>
      { l with
        bucket := (irqBucketDrainDeferred now l.bucket).1
        drained := l.drained + (irqBucketDrainDeferred now l.bucket).2.toNat }

/-- Every interrupt was let through, dropped, is still buffered or was handed back. -/
def Balanced (l : BucketLedger) : Prop :=
  l.consumes =
    l.allowed + l.bucket.dropped.toNat + l.bucket.deferredCount.toNat + l.drained

/-- The call finds no buffered interrupt together with a token that would drain
it, and does not wrap the counter of dropped interrupts around. -/
def LeavesBuffer (l : BucketLedger) : BucketCall → Prop
  | .consume now =>
      let r := irqBucketRefill now l.bucket
      (r.deferredCount = 0#32 ∨ r.tokens = 0#32) ∧
        ¬ (r.tokens = 0#32 ∧ r.maxDeferred ≤ r.deferredCount ∧
          r.dropped = BitVec.allOnes 64)
  | .drainDeferred _ => True

instance (l : BucketLedger) : Decidable l.Balanced :=
  inferInstanceAs (Decidable (_ = _))

theorem balanced_fresh (criticality : VmCriticality) (now : BitVec 64) :
    (fresh criticality now).Balanced := by
  cases criticality <;> rfl

theorem balanced_drainDeferred {l : BucketLedger} (h : l.Balanced) (now : BitVec 64) :
    (l.call (.drainDeferred now)).Balanced := by
  rw [Balanced, ← dropped_irqBucketRefill now, ← deferredCount_irqBucketRefill now] at h
  rw [call, Balanced, irqBucketDrainDeferred_eq]
  generalize irqBucketRefill now l.bucket = r at *
  dsimp only
  split_ifs with hle
  · dsimp only
    bv_omega
  · dsimp only
    bv_omega

theorem balanced_consume_iff {l : BucketLedger} (h : l.Balanced) (now : BitVec 64) :
    (l.call (.consume now)).Balanced ↔ l.LeavesBuffer (.consume now) := by
  rw [Balanced, ← dropped_irqBucketRefill now, ← deferredCount_irqBucketRefill now] at h
  rw [call, Balanced, LeavesBuffer, irqBucketConsume_eq]
  generalize irqBucketRefill now l.bucket = r at *
  dsimp only
  by_cases hlt : r.deferredCount < r.tokens
  · rw [if_pos hlt]
    dsimp only
    rw [if_pos rfl]
    constructor
    · intro hbal
      exact ⟨.inl (by bv_omega), fun hdrop => by bv_omega⟩
    · rintro ⟨hnone, -⟩
      bv_omega
  · rw [if_neg hlt]
    by_cases hroom : r.deferredCount - r.tokens < r.maxDeferred
    · rw [if_pos hroom]
      dsimp only
      rw [if_neg (by decide)]
      constructor
      · intro hbal
        exact ⟨.inr (by bv_omega), fun hdrop => by bv_omega⟩
      · rintro ⟨hnone, -⟩
        bv_omega
    · rw [if_neg hroom]
      dsimp only
      rw [if_neg (by decide)]
      have hlast : r.dropped = BitVec.allOnes 64 ↔ r.dropped.toNat = 2 ^ 64 - 1 := by
        rw [← BitVec.toNat_inj, BitVec.toNat_allOnes]
      have hwrap := r.dropped.isLt
      rw [hlast, BitVec.toNat_add]
      constructor
      · intro hbal
        have htokens : r.tokens = 0#32 := by bv_omega
        exact ⟨.inr htokens, fun hdrop => by bv_omega⟩
      · rintro ⟨hnone, hdrop⟩
        have htokens : r.tokens = 0#32 := by bv_omega
        have hfull : r.maxDeferred ≤ r.deferredCount := by bv_omega
        have hcount : r.dropped.toNat ≠ 2 ^ 64 - 1 := fun heq => hdrop ⟨htokens, hfull, heq⟩
        bv_omega

theorem balanced_call_iff {l : BucketLedger} (h : l.Balanced) (c : BucketCall) :
    (l.call c).Balanced ↔ l.LeavesBuffer c := by
  cases c with
  | consume now => exact balanced_consume_iff h now
  | drainDeferred now => exact iff_of_true (balanced_drainDeferred h now) trivial

/-- The counts of a run from a fresh bucket add up after every call exactly when
no call of `irqBucketConsume` drains the buffer or wraps the dropped counter. -/
theorem along_balanced_iff (criticality : VmCriticality) (now : BitVec 64)
    (calls : List BucketCall) :
    Run.Along call (fun l c => (l.call c).Balanced) (fresh criticality now) calls ↔
      Run.Along call LeavesBuffer (fresh criticality now) calls :=
  Run.along_invariant_iff (balanced_fresh criticality now)
    (fun _ c h => balanced_call_iff h c) calls

/-- The hundred tokens are used up and one interrupt is deferred. The next one
comes when ten tokens have been earned: the deferred one is gone. -/
theorem not_balanced_consume_twice :
    ¬ (Run.exec call (fresh .low 0#64)
      (List.replicate 101 (.consume 0#64) ++ [.consume 100000#64])).Balanced := by
  decide +kernel

end BucketLedger

end BaoHypervisor
