import BaoHypervisor.Core.IrqRateLimit
import BaoHypervisor.Theory.Meter

/-!
# What a token bucket lets through

A bucket is a metered account: its balance is the tokens, its mark the time of
the last refill. A refill rounds down and moves the mark only when it earns a
token, and wrap-around only ever makes it earn less. So in every window of a run
the tokens spent stay within those there were and those earned since the last
refill, in exact arithmetic.
-/

namespace BaoHypervisor

namespace IrqTokenBucket

open Meter

/-- The bucket as an account. -/
def account (b : IrqTokenBucket) : Account where
  balance := b.tokens.toNat
  mark := b.lastRefill.toNat

/-- The tokens a call spends: one for each interrupt that it lets through, and
one for each deferred interrupt that it drains. -/
def spent (b : IrqTokenBucket) : BucketCall → ℕ
  | .consume now =>
      (irqBucketDrainDeferred now b).2.toNat +
        if (irqBucketConsume now b).2 = .allow then 1 else 0
  | .drainDeferred now => (irqBucketDrainDeferred now b).2.toNat

/-- The bucket holds no more than it may. -/
structure Bounded (b : IrqTokenBucket) : Prop where
  tokens_le : b.tokens ≤ b.maxTokens
  deferredCount_le : b.deferredCount ≤ b.maxDeferred

theorem bounded_irqBucketInit (criticality : VmCriticality) (t : BitVec 64) :
    (irqBucketInit criticality t).Bounded := by
  cases criticality with
  | low => exact ⟨BitVec.le_refl _, show 0#32 ≤ 8#32 by decide⟩
  | high => exact ⟨BitVec.le_refl _, show 0#32 ≤ 32#32 by decide⟩

section Step

variable {b : IrqTokenBucket} {now : BitVec 64}

theorem toNat_newTokens_le (hnow : b.lastRefill ≤ now) :
    (((now - b.lastRefill) * b.rate.setWidth 64 / irqRlTimerFreq).setWidth 32).toNat ≤
      (now.toNat - b.lastRefill.toNat) * b.rate.toNat / irqRlTimerFreq.toNat := by
  have helapsed : (now - b.lastRefill).toNat = now.toNat - b.lastRefill.toNat := by bv_omega
  have hrate : (b.rate.setWidth 64).toNat = b.rate.toNat := by
    rw [BitVec.toNat_setWidth_of_le (by decide)]
  rw [BitVec.toNat_setWidth, BitVec.toNat_udiv, BitVec.toNat_mul, helapsed, hrate]
  refine (Nat.mod_le _ _).trans ?_
  exact Nat.div_le_div_right (Nat.mod_le _ _)

theorem within_irqBucketRefill (hnow : b.lastRefill ≤ now) :
    Within b.rate.toNat irqRlTimerFreq.toNat b.account 0
      (irqBucketRefill now b).account := by
  have hadded := toNat_newTokens_le hnow
  rw [irqBucketRefill]
  dsimp only
  generalize (now - b.lastRefill) * b.rate.setWidth 64 / irqRlTimerFreq = newTokens at hadded ⊢
  split_ifs with hzero hpos hcap
  · exact Within.refl _ _ _
  · refine ⟨hnow, ?_⟩
    have hsum := Nat.mod_le (b.tokens.toNat + (newTokens.setWidth 32).toNat) (2 ^ 32)
    rw [← BitVec.toNat_add] at hsum
    have hlt : b.maxTokens.toNat < (b.tokens + newTokens.setWidth 32).toNat := hcap
    dsimp only [account]
    omega
  · refine ⟨hnow, ?_⟩
    have hsum := Nat.mod_le (b.tokens.toNat + (newTokens.setWidth 32).toNat) (2 ^ 32)
    rw [← BitVec.toNat_add] at hsum
    dsimp only [account]
    omega
  · exact Within.refl _ _ _

theorem Bounded.irqBucketRefill (h : b.Bounded) (now : BitVec 64) :
    (irqBucketRefill now b).Bounded := by
  refine ⟨?_, by simpa using h.deferredCount_le⟩
  rw [BaoHypervisor.irqBucketRefill]
  dsimp only
  split_ifs with hzero hpos hcap
  · exact h.tokens_le
  · exact BitVec.le_refl _
  · exact BitVec.not_lt.mp hcap
  · exact h.tokens_le

theorem lastRefill_irqBucketRefill_le (hnow : b.lastRefill ≤ now) :
    (irqBucketRefill now b).lastRefill ≤ now := by
  rw [irqBucketRefill]
  dsimp only
  split_ifs
  · exact hnow
  · exact BitVec.le_refl _
  · exact BitVec.le_refl _
  · exact hnow

theorem lastRefill_call (b : IrqTokenBucket) (c : BucketCall) :
    (b.call c).lastRefill = (irqBucketRefill c.now b).lastRefill := by
  cases c with
  | consume now =>
      rw [call, irqBucketConsume_eq]
      dsimp only
      split_ifs <;> rfl
  | drainDeferred now =>
      rw [call, irqBucketDrainDeferred_eq]
      dsimp only
      split_ifs <;> rfl

theorem rate_call (b : IrqTokenBucket) (c : BucketCall) : (b.call c).rate = b.rate := by
  cases c with
  | consume now =>
      rw [call, irqBucketConsume_eq]
      dsimp only
      split_ifs <;> exact rate_irqBucketRefill now b
  | drainDeferred now =>
      rw [call, irqBucketDrainDeferred_eq]
      dsimp only
      split_ifs <;> exact rate_irqBucketRefill now b

/-- After its refill a call pays what it spends from the tokens. -/
theorem spent_add_tokens_call (b : IrqTokenBucket) (c : BucketCall) :
    b.spent c + (b.call c).tokens.toNat = (irqBucketRefill c.now b).tokens.toNat := by
  cases c with
  | consume now =>
      rw [spent, call, irqBucketConsume_eq, irqBucketDrainDeferred_eq]
      dsimp only [BucketCall.now]
      generalize irqBucketRefill now b = r
      by_cases hlt : r.deferredCount < r.tokens
      · have hle : r.deferredCount ≤ r.tokens := BitVec.le_of_lt hlt
        rw [if_pos hlt, if_pos hle]
        dsimp only
        rw [if_pos rfl]
        bv_omega
      · rw [if_neg hlt]
        split_ifs <;> simp_all <;> bv_omega
  | drainDeferred now =>
      rw [spent, call, irqBucketDrainDeferred_eq]
      dsimp only [BucketCall.now]
      generalize irqBucketRefill now b = r
      split_ifs with hle
      · dsimp only
        bv_omega
      · rfl

theorem within_call (c : BucketCall) (hnow : b.lastRefill ≤ c.now) :
    Within b.rate.toNat irqRlTimerFreq.toNat b.account (b.spent c) (b.call c).account := by
  have hpaid := spent_add_tokens_call b c
  have hrefill := within_irqBucketRefill hnow
  have haccount : (b.call c).account =
      { (irqBucketRefill c.now b).account with
        balance := (irqBucketRefill c.now b).account.balance - b.spent c } := by
    rw [account, lastRefill_call, account]
    dsimp only
    congr 1
    omega
  have hpay : Within b.rate.toNat irqRlTimerFreq.toNat (irqBucketRefill c.now b).account
      (b.spent c) (b.call c).account := by
    rw [haccount]
    refine Within.pay ?_
    dsimp only [account]
    omega
  rw [← Nat.zero_add (b.spent c)]
  exact hrefill.trans hpay

theorem Bounded.call (h : b.Bounded) (c : BucketCall) : (b.call c).Bounded := by
  have hrefill := h.irqBucketRefill c.now
  have htokens := hrefill.tokens_le
  have hcount := hrefill.deferredCount_le
  cases c with
  | consume now =>
      rw [IrqTokenBucket.call, irqBucketConsume_eq]
      dsimp only [BucketCall.now] at *
      generalize BaoHypervisor.irqBucketRefill now b = r at *
      split_ifs with hlt hroom
      · exact ⟨by dsimp only; bv_omega, by dsimp only; bv_omega⟩
      · exact ⟨by dsimp only; bv_omega, by dsimp only; bv_omega⟩
      · exact ⟨by dsimp only; bv_omega, by dsimp only; bv_omega⟩
  | drainDeferred now =>
      rw [IrqTokenBucket.call, irqBucketDrainDeferred_eq]
      dsimp only [BucketCall.now] at *
      generalize BaoHypervisor.irqBucketRefill now b = r at *
      split_ifs with hle
      · exact ⟨by dsimp only; bv_omega, by dsimp only; bv_omega⟩
      · exact ⟨by dsimp only; bv_omega, by dsimp only; bv_omega⟩

end Step

/-! ## Runs -/

section Run

variable {t : BitVec 64} {calls window : List BucketCall}

theorem Timed.of_cons {c : BucketCall} (h : Timed t (c :: calls)) :
    t ≤ c.now ∧ Timed c.now calls :=
  ⟨List.rel_of_pairwise_cons h (by simp), (List.pairwise_cons.mp h).2⟩

theorem along_lastRefill_le {b : IrqTokenBucket} (ht : b.lastRefill ≤ t)
    (h : Timed t calls) :
    Run.Along call (fun b c => b.lastRefill ≤ c.now) b calls := by
  induction calls generalizing b t with
  | nil => trivial
  | cons c calls ih =>
      obtain ⟨hc, hcalls⟩ := h.of_cons
      have hnow : b.lastRefill ≤ c.now := BitVec.le_trans ht hc
      refine ⟨hnow, ih ?_ hcalls⟩
      rw [lastRefill_call]
      exact lastRefill_irqBucketRefill_le hnow

theorem lastRefill_exec_le {b : IrqTokenBucket} {T : ℕ} (hb : b.lastRefill.toNat ≤ T)
    (hmark : Run.Along call (fun b c => b.lastRefill ≤ c.now) b calls)
    (hT : ∀ c ∈ calls, c.now.toNat ≤ T) :
    (Run.exec call b calls).lastRefill.toNat ≤ T := by
  induction calls generalizing b with
  | nil => exact hb
  | cons c calls ih =>
      refine ih ?_ hmark.2 fun c' hc' => hT c' (List.mem_cons_of_mem _ hc')
      have hrefill : (b.call c).lastRefill ≤ c.now := by
        rw [lastRefill_call]
        exact lastRefill_irqBucketRefill_le hmark.1
      exact le_trans hrefill (hT c List.mem_cons_self)

theorem total_spent_le {b : IrqTokenBucket} {T : ℕ}
    (hmark : Run.Along call (fun b c => b.lastRefill ≤ c.now) b calls)
    (hT : ∀ c ∈ calls, c.now.toNat ≤ T) :
    Run.total call spent b calls ≤
      b.tokens.toNat + (T - b.lastRefill.toNat) * b.rate.toNat / irqRlTimerFreq.toNat := by
  cases calls with
  | nil => exact Nat.zero_le _
  | cons c calls =>
      have hb : b.lastRefill.toNat ≤ T := le_trans hmark.1 (hT c List.mem_cons_self)
      have hwithin := within_exec (I := fun b' => b'.rate = b.rate)
        (fun b' c' hrate hnow =>
          ⟨(rate_call b' c').trans hrate, hrate ▸ within_call c' hnow⟩) rfl hmark
      exact hwithin.spent_le_of_mark_le (lastRefill_exec_le hb hmark hT)

/-- In every run from a fresh bucket the bucket holds no more than it may, and
every window of the run, up to any time `T` not before its last call, spends no
more than the tokens at its start and those earned since the last refill. -/
theorem window_spent_le (criticality : VmCriticality) (t : BitVec 64)
    (calls window : List BucketCall) (h : Timed t (calls ++ window)) :
    let b := Run.exec call (irqBucketInit criticality t) calls
    b.tokens ≤ b.maxTokens ∧ b.deferredCount ≤ b.maxDeferred ∧
      ∀ T : ℕ, (∀ c ∈ window, c.now.toNat ≤ T) →
        Run.total call spent b window ≤
          b.tokens.toNat +
            (T - b.lastRefill.toNat) * b.rate.toNat / irqRlTimerFreq.toNat := by
  have hbounded : Bounded (Run.exec call (irqBucketInit criticality t) calls) :=
    Run.exec_invariant (bounded_irqBucketInit criticality t) (fun _ c hb => hb.call c) calls
  have hfresh : (irqBucketInit criticality t).lastRefill ≤ t := by
    cases criticality <;> exact BitVec.le_refl _
  have hmark := Run.along_append.mp (along_lastRefill_le hfresh h)
  exact ⟨hbounded.tokens_le, hbounded.deferredCount_le, fun T hT => total_spent_le hmark.2 hT⟩

/-- A window in which the bucket of a high-criticality VM lets two interrupts
through, the second one a tenth of a millisecond after the first. -/
theorem window_spent_le_two :
    Run.total call spent (irqBucketInit .high 0#64) [.consume 0#64, .consume 1000#64] ≤
      1000 + 1000 * 10000 / 10000000 :=
  (window_spent_le .high 0#64 [] [.consume 0#64, .consume 1000#64]
    (by unfold Timed; decide)).2.2 1000 (by decide)

end Run

end IrqTokenBucket

end BaoHypervisor
