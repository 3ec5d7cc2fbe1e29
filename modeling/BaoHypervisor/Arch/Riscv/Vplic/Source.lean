import BaoHypervisor.Arch.Riscv.Vplic
import BaoHypervisor.Theory.Pointwise

/-!
# One source of the vPLIC

What the vPLIC keeps about a source is three bits and a bucket, and every
operation acts on the sources one by one: what it does to a source depends on
the state of that source alone, and on which source is delivered.
-/

namespace BaoHypervisor

open Bitmap

structure SourceState where
  pend : Bool
  act : Bool
  deferred : Bool
  bucket : IrqTokenBucket
deriving DecidableEq, Repr

namespace SourceState

def take (s : SourceState) : SourceState := { s with pend := false, act := true }

def complete (s : SourceState) : SourceState := { s with act := false }

/-- The source is drained, and pending again if its bucket lets anything out. -/
def drain (now : BitVec 64) (s : SourceState) : SourceState :=
  if s.deferred then
    let drained := irqBucketDrainDeferred now s.bucket
    if 0#32 < drained.2 then { s with pend := true, deferred := false, bucket := drained.1 }
    else { s with bucket := drained.1 }
  else s

/-- `HC_PLIC_INJECT`: the bucket is asked for a token, and nothing is injected. -/
def plicInject (now : BitVec 64) (s : SourceState) : SourceState :=
  { s with bucket := (irqBucketConsume now s.bucket).1 }

def inject (now : BitVec 64) (s : SourceState) : SourceState :=
  if s.pend then s
  else
    match (irqBucketConsume now s.bucket).2 with
    | .dropped => s.plicInject now
    | .deferred => { s.plicInject now with deferred := true }
    | .allow => { s.plicInject now with pend := true }

/-- An injection into the bucket would be dropped. -/
def Drops (now : BitVec 64) (s : SourceState) : Prop :=
  let r := irqBucketRefill now s.bucket
  r.tokens ≤ r.deferredCount ∧ r.maxDeferred ≤ r.deferredCount - r.tokens

/-- An injection into the bucket would be let through. -/
def LetsThrough (now : BitVec 64) (s : SourceState) : Prop :=
  let r := irqBucketRefill now s.bucket
  r.deferredCount < r.tokens

/-- A drain of the bucket would let something out. -/
def Drains (now : BitVec 64) (s : SourceState) : Prop :=
  s.deferred = true ∧ 0#32 < s.bucket.deferredCount ∧
    0#32 < (irqBucketRefill now s.bucket).tokens

section Pend

variable {s : SourceState} (now : BitVec 64)

theorem letsThrough_iff :
    s.LetsThrough now ↔ (irqBucketConsume now s.bucket).2 = .allow := by
  rw [LetsThrough, irqBucketConsume_eq]
  dsimp only
  split_ifs with hlt
  · exact iff_of_true hlt rfl
  all_goals exact iff_of_false hlt not_false

theorem pend_drain_iff : (s.drain now).pend = true ↔ s.pend = true ∨ s.Drains now := by
  rw [drain, Drains, irqBucketDrainDeferred_eq, ← deferredCount_irqBucketRefill now]
  generalize irqBucketRefill now s.bucket = r
  by_cases hdeferred : s.deferred = true
  · rw [if_pos hdeferred, and_iff_right hdeferred]
    dsimp only
    by_cases hle : r.deferredCount ≤ r.tokens
    · rw [if_pos hle]
      dsimp only
      by_cases hcount : 0#32 < r.deferredCount
      · rw [if_pos hcount]
        exact iff_of_true rfl (.inr ⟨hcount, by bv_omega⟩)
      · rw [if_neg hcount]
        exact (or_iff_left fun h => hcount h.1).symm
    · rw [if_neg hle]
      dsimp only
      by_cases htokens : 0#32 < r.tokens
      · rw [if_pos htokens]
        exact iff_of_true rfl (.inr ⟨by bv_omega, htokens⟩)
      · rw [if_neg htokens]
        exact (or_iff_left fun h => htokens h.2).symm
  · rw [if_neg hdeferred]
    exact (or_iff_left fun h => hdeferred h.1).symm

theorem pend_inject_iff : (s.inject now).pend = true ↔ s.pend = true ∨ s.LetsThrough now := by
  rw [inject, LetsThrough]
  by_cases hpend : s.pend = true
  · rw [if_pos hpend]
    exact iff_of_true hpend (.inl hpend)
  · rw [if_neg hpend, irqBucketConsume_eq, plicInject]
    generalize irqBucketRefill now s.bucket = r
    dsimp only
    by_cases hlt : r.deferredCount < r.tokens
    · rw [if_pos hlt]
      exact iff_of_true rfl (.inr hlt)
    · rw [if_neg hlt]
      refine iff_of_false (fun h => hpend ?_) (by simp [hpend, hlt])
      split_ifs at h <;> exact h

theorem act_drain (s : SourceState) : (s.drain now).act = s.act := by
  rw [drain]
  dsimp only
  split_ifs <;> rfl

theorem act_inject (s : SourceState) : (s.inject now).act = s.act := by
  rw [inject]
  split_ifs
  · rfl
  · cases (irqBucketConsume now s.bucket).2 <;> rfl

end Pend

end SourceState

namespace Vplic

/-- What the vPLIC keeps about a source. -/
def source (v : Vplic) (i : ℕ) : SourceState where
  pend := bitmapGet v.pend i
  act := bitmapGet v.act i
  deferred := bitmapGet v.deferred i
  bucket := v.buckets i

section Access

variable (v : Vplic) (vcntxt : ℕ) (now : BitVec 64)

theorem source_drainDeferred_self (i : ℕ) :
    (drainDeferred now v i).source i = (v.source i).drain now := by
  rw [drainDeferred, SourceState.drain]
  by_cases hdeferred : bitmapGet v.deferred i = true
  · have hsource : (v.source i).deferred = true := hdeferred
    rw [if_pos hdeferred, if_pos hsource]
    dsimp only [source]
    split_ifs with hdrained
    · simp [bitmapGet_bitmapSet, bitmapGet_bitmapClear]
    · simp
  · have hsource : ¬ (v.source i).deferred = true := hdeferred
    rw [if_neg hdeferred, if_neg hsource]

theorem source_drainDeferred_of_ne {i j : ℕ} (hij : j ≠ i) :
    (drainDeferred now v i).source j = v.source j := by
  rw [drainDeferred]
  dsimp only [source]
  split_ifs with hdeferred hdrained
  · simp [bitmapGet_bitmapSet, bitmapGet_bitmapClear, hij]
  · simp [hij]
  · rfl

theorem source_foldl_drainDeferred (i : ℕ) :
    (drainedIds.foldl (drainDeferred now) v).source i =
      if i ∈ drainedIds then (v.source i).drain now else v.source i :=
  Pointwise.foldl_apply (fun v i => source_drainDeferred_self v now i)
    (fun v _ _ hij => source_drainDeferred_of_ne v now hij) List.nodup_range' v i

theorem mem_drainedIds {i : ℕ} : i ∈ drainedIds ↔ 0 < i ∧ i < plicMaxInterrupts := by
  rw [drainedIds, List.mem_range'_1]
  unfold plicMaxInterrupts
  omega

/-- A source after a claim, drained or not. -/
theorem source_vplicClaim_eq (i : ℕ) :
    (v.vplicClaim vcntxt now).1.source i =
      let s := if i = v.vplicNextPending vcntxt then (v.source i).take else v.source i
      if i ∈ drainedIds then s.drain now else s := by
  rw [vplicClaim]
  dsimp only
  have htaken : source
      { v with
        pend := bitmapClear v.pend (v.vplicNextPending vcntxt)
        act := bitmapSet v.act (v.vplicNextPending vcntxt) } i =
      if i = v.vplicNextPending vcntxt then (v.source i).take else v.source i := by
    dsimp only [source]
    rw [bitmapGet_bitmapClear, bitmapGet_bitmapSet]
    split_ifs with heq
    · simp [SourceState.take, heq]
    · simp [heq]
  rw [source_foldl_drainDeferred, htaken]

theorem source_vplicClaim {i : ℕ} (hpos : 0 < i) (hlt : i < plicMaxInterrupts) :
    (v.vplicClaim vcntxt now).1.source i =
      (if i = v.vplicNextPending vcntxt then (v.source i).take else v.source i).drain now := by
  rw [source_vplicClaim_eq]
  exact if_pos (mem_drainedIds.mpr ⟨hpos, hlt⟩)

theorem source_vplicComplete (id i : ℕ) :
    (v.vplicComplete vcntxt id).1.source i =
      if i = id then (v.source i).complete else v.source i := by
  rw [vplicComplete]
  dsimp only [source]
  rw [bitmapGet_bitmapClear]
  split_ifs with heq
  · simp [SourceState.complete, heq]
  · simp [heq]

theorem source_plicInject (id i : ℕ) :
    (v.access (.plicInject id now)).source i =
      if i = id then (v.source i).plicInject now else v.source i := by
  rw [access]
  dsimp only [source]
  split_ifs with heq
  · rw [heq, Function.update_self]
    rfl
  · rw [Function.update_of_ne heq]

theorem source_vplicInject (vcpuId id i : ℕ) :
    (v.vplicInject vcpuId id now).1.source i =
      if i = id ∧ 0 < id ∧ id ≤ plicMaxInterrupts then (v.source i).inject now
      else v.source i := by
  rw [vplicInject]
  by_cases hid : 0 < id ∧ id ≤ plicMaxInterrupts
  · have hget : v.vplicGetPend id = bitmapGet v.pend id := by
      rw [vplicGetPend, decide_eq_true hid.2, Bool.true_and]
    rw [hget]
    by_cases hpend : bitmapGet v.pend id = true
    · rw [if_neg fun h => Bool.false_ne_true (h.2.2.symm.trans hpend)]
      split_ifs with heq
      · rw [SourceState.inject, if_pos (heq.1 ▸ hpend)]
      · rfl
    · rw [if_pos ⟨hid.1, hid.2, Bool.eq_false_iff.mpr hpend⟩]
      by_cases heq : i = id
      · subst heq
        have hsource : ¬ (v.source i).pend = true := hpend
        rw [if_pos ⟨rfl, hid⟩, SourceState.inject, if_neg hsource]
        dsimp only [source, SourceState.plicInject]
        cases (irqBucketConsume now (v.buckets i)).2 <;>
          simp [bitmapGet_bitmapSet]
      · rw [if_neg fun h => heq h.1]
        dsimp only [source]
        cases (irqBucketConsume now (v.buckets id)).2 <;>
          simp [bitmapGet_bitmapSet, heq]
  · rw [if_neg fun h => hid ⟨h.1, h.2.1⟩, if_neg fun h => hid h.2]

/-! ### What stays as it is -/

theorem foldl_drainDeferred_frame (ids : List ℕ) :
    ∃ pend deferred buckets, ids.foldl (drainDeferred now) v =
      { v with pend := pend, deferred := deferred, buckets := buckets } := by
  induction ids generalizing v with
  | nil => exact ⟨v.pend, v.deferred, v.buckets, rfl⟩
  | cons i ids ih =>
      obtain ⟨pend, deferred, buckets, heq⟩ := ih (drainDeferred now v i)
      refine ⟨pend, deferred, buckets, heq.trans ?_⟩
      rw [drainDeferred]
      dsimp only
      split_ifs <;> rfl

theorem vplicInject_frame (vcpuId id : ℕ) :
    ∃ pend deferred buckets, (v.vplicInject vcpuId id now).1 =
      { v with pend := pend, deferred := deferred, buckets := buckets } := by
  rw [vplicInject]
  split_ifs
  · dsimp only
    cases (irqBucketConsume now (v.buckets id)).2 <;> exact ⟨_, _, _, rfl⟩
  · exact ⟨v.pend, v.deferred, v.buckets, rfl⟩

/-- Enabling or disabling a source sets its enable and changes no other one. -/
theorem vplicSetEnbl_frame (id : ℕ) (set : Bool) :
    ∃ map, (v.vplicSetEnbl vcntxt id set).1 =
        { v with enbl := Function.update v.enbl vcntxt map } ∧
      (∀ i, i ≠ id → bitmapGet map i = bitmapGet (v.enbl vcntxt) i) ∧
      (id ≤ plicMaxInterrupts → bitmapGet map id = set) := by
  rw [vplicSetEnbl]
  by_cases hchanged : id ≤ plicMaxInterrupts ∧ v.vplicGetEnbl id vcntxt ≠ set
  · rw [if_pos hchanged]
    refine ⟨_, rfl, fun i hi => ?_, fun _ => ?_⟩
    · cases set with
      | true => simp [bitmapGet_bitmapSet, hi]
      | false => simp [bitmapGet_bitmapClear, hi]
    · cases set with
      | true => simp [bitmapGet_bitmapSet]
      | false => simp [bitmapGet_bitmapClear]
  · rw [if_neg hchanged]
    refine ⟨v.enbl vcntxt, by rw [Function.update_eq_self], fun _ _ => rfl, fun hid => ?_⟩
    have hsame : v.vplicGetEnbl id vcntxt = set := not_not.mp fun hne => hchanged ⟨hid, hne⟩
    rw [← hsame, vplicGetEnbl, decide_eq_true hid, Bool.true_and]

theorem snd_vplicClaim : (v.vplicClaim vcntxt now).2.1 = v.vplicNextPending vcntxt := by
  rw [vplicClaim]

theorem vplicClaim_frame :
    ∃ pend act deferred buckets, (v.vplicClaim vcntxt now).1 =
      { v with pend := pend, act := act, deferred := deferred, buckets := buckets } := by
  rw [vplicClaim]
  dsimp only
  generalize drainedIds = ids
  obtain ⟨pend, deferred, buckets, heq⟩ := foldl_drainDeferred_frame
    { v with
      pend := bitmapClear v.pend (v.vplicNextPending vcntxt)
      act := bitmapSet v.act (v.vplicNextPending vcntxt) } now ids
  exact ⟨pend, bitmapSet v.act (v.vplicNextPending vcntxt), deferred, buckets, heq⟩

/-- No access changes which contexts are the VM's. -/
theorem cntxtNum_access (a : Access) : (v.access a).cntxtNum = v.cntxtNum := by
  cases a with
  | setPrio id prio =>
      rw [access, vplicSetPrio]
      split_ifs <;> rfl
  | setEnbl vcntxt id set =>
      rw [access, vplicSetEnbl]
      split_ifs <;> rfl
  | setThreshold vcntxt threshold =>
      rw [access, vplicSetThreshold]
      split_ifs <;> rfl
  | claim vcntxt now =>
      rw [access]
      split_ifs
      · obtain ⟨pend, act, deferred, buckets, heq⟩ := vplicClaim_frame v vcntxt now
        rw [heq]
      · rfl
  | complete vcntxt id =>
      rw [access]
      split_ifs <;> rfl
  | plicInject id now => rfl
  | inject vcpuId id now =>
      obtain ⟨pend, deferred, buckets, heq⟩ := vplicInject_frame v now vcpuId id
      rw [access, heq]

theorem vcntxtValid_access (a : Access) (vcntxt : ℕ) :
    (v.access a).vcntxtValid vcntxt = v.vcntxtValid vcntxt := by
  rw [vcntxtValid, vcntxtValid, cntxtNum_access]

/-- No access changes which interrupts are hardware interrupts. -/
theorem hw_access (a : Access) : (v.access a).hw = v.hw := by
  cases a with
  | setPrio id prio =>
      rw [access, vplicSetPrio]
      split_ifs <;> rfl
  | setEnbl vcntxt id set =>
      rw [access, vplicSetEnbl]
      split_ifs <;> rfl
  | setThreshold vcntxt threshold =>
      rw [access, vplicSetThreshold]
      split_ifs <;> rfl
  | claim vcntxt now =>
      rw [access]
      split_ifs
      · obtain ⟨pend, act, deferred, buckets, heq⟩ := vplicClaim_frame v vcntxt now
        rw [heq]
      · rfl
  | complete vcntxt id =>
      rw [access]
      split_ifs <;> rfl
  | plicInject id now => rfl
  | inject vcpuId id now =>
      obtain ⟨pend, deferred, buckets, heq⟩ := vplicInject_frame v now vcpuId id
      rw [access, heq]

end Access

/-- The vPLIC of a VM that is about to start: just initialised, with the hardware
interrupts `hw` assigned to it. -/
def boot (cpuNum : ℕ) (criticality : VmCriticality) (now : BitVec 64) (hw : Bitmap) : Vplic :=
  vplicInit cpuNum criticality now { zero with hw := hw }

theorem source_boot (cpuNum : ℕ) (criticality : VmCriticality) (now : BitVec 64)
    (hw : Bitmap) {i : ℕ} (hi : i < plicMaxInterrupts) :
    (boot cpuNum criticality now hw).source i =
      ⟨false, false, false, irqBucketInit criticality now⟩ := by
  rw [boot, vplicInit]
  dsimp only [source, zero]
  rw [if_pos hi]
  simp [bitmapGet_eq_getLsbD]

end Vplic

end BaoHypervisor
