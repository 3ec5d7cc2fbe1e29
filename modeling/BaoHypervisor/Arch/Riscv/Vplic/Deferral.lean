import BaoHypervisor.Arch.Riscv.Vplic.Layout
import BaoHypervisor.Theory.Run

/-!
# Deferred bits and deferred counts

A source is to be marked in the deferred bitmap exactly while its bucket holds
deferred interrupts: the claim drains marked sources only. The bit and the count
come apart in three ways. A claim that drains a source in part unmarks it. An
injection that is let through empties the bucket without unmarking the source.
`HC_PLIC_INJECT` works on the bucket and never looks at the bit.
-/

namespace BaoHypervisor

namespace SourceState

def Accurate (s : SourceState) : Prop :=
  s.deferred = true ↔ 0#32 < s.bucket.deferredCount

/-- The source is accurate and its bucket may hold deferred interrupts at all. -/
structure Tracked (s : SourceState) : Prop where
  accurate : s.Accurate
  room : 0#32 < s.bucket.maxDeferred

section Step

variable {s : SourceState} (now : BitVec 64)

/-- A drain of the source would leave some deferred interrupts in the bucket. -/
def DrainsInPart (now : BitVec 64) (s : SourceState) : Prop :=
  let r := irqBucketRefill now s.bucket
  0#32 < r.tokens ∧ r.tokens < r.deferredCount

/-- An injection into the source would take all deferred interrupts out. -/
def InjectEmpties (now : BitVec 64) (s : SourceState) : Prop :=
  let r := irqBucketRefill now s.bucket
  0#32 < r.deferredCount ∧ r.deferredCount < r.tokens

/-- An injection into the bucket would defer the first interrupt. -/
def InjectDefersFirst (now : BitVec 64) (s : SourceState) : Prop :=
  let r := irqBucketRefill now s.bucket
  r.deferredCount = 0#32 ∧ r.tokens = 0#32

theorem tracked_drain_iff (h : s.Tracked) :
    (s.drain now).Tracked ↔ ¬ (s.deferred = true ∧ s.DrainsInPart now) := by
  obtain ⟨haccurate, hroom⟩ := h
  rw [drain]
  by_cases hdeferred : s.deferred = true
  · have hcount := haccurate.mp hdeferred
    rw [← deferredCount_irqBucketRefill now] at hcount
    rw [← maxDeferred_irqBucketRefill now] at hroom
    rw [if_pos hdeferred, DrainsInPart, irqBucketDrainDeferred_eq]
    generalize irqBucketRefill now s.bucket = r at *
    dsimp only
    by_cases hle : r.deferredCount ≤ r.tokens
    · rw [if_pos hle]
      dsimp only
      rw [if_pos hcount]
      refine iff_of_true ⟨iff_of_false Bool.false_ne_true ?_, hroom⟩ fun h => ?_
      · exact BitVec.lt_irrefl _
      · exact BitVec.not_lt.mpr hle h.2.2
    · have hlt : r.tokens < r.deferredCount := BitVec.not_le.mp hle
      have hleft : 0#32 < r.deferredCount - r.tokens := by bv_omega
      rw [if_neg hle]
      dsimp only
      by_cases htokens : 0#32 < r.tokens
      · rw [if_pos htokens]
        refine iff_of_false (fun h => ?_) fun h => h ⟨hdeferred, htokens, hlt⟩
        exact Bool.false_ne_true (h.accurate.mpr hleft)
      · rw [if_neg htokens]
        exact iff_of_true ⟨iff_of_true hdeferred hleft, hroom⟩ fun h => htokens h.2.1
  · rw [if_neg hdeferred]
    exact iff_of_true ⟨haccurate, hroom⟩ fun h => hdeferred h.1

theorem tracked_plicInject_iff (h : s.Tracked) :
    (s.plicInject now).Tracked ↔ ¬ s.InjectEmpties now ∧ ¬ s.InjectDefersFirst now := by
  obtain ⟨haccurate, hroom⟩ := h
  rw [Accurate, ← deferredCount_irqBucketRefill now] at haccurate
  rw [← maxDeferred_irqBucketRefill now] at hroom
  rw [plicInject, InjectEmpties, InjectDefersFirst, irqBucketConsume_eq]
  generalize irqBucketRefill now s.bucket = r at *
  dsimp only
  split_ifs with hlt hfits
  · constructor
    · intro h
      have hclear : ¬ s.deferred = true := fun hset =>
        BitVec.lt_irrefl _ (h.accurate.mp hset)
      exact ⟨fun hempties => hclear (haccurate.mpr hempties.1), fun hfirst => by bv_omega⟩
    · rintro ⟨hkeeps, -⟩
      have hclear : ¬ s.deferred = true := fun hset => hkeeps ⟨haccurate.mp hset, hlt⟩
      exact ⟨iff_of_false hclear (BitVec.lt_irrefl _), hroom⟩
  · have hcount : 0#32 < r.deferredCount - r.tokens + 1#32 := by bv_omega
    constructor
    · intro h
      have hset := haccurate.mp (h.accurate.mpr hcount)
      exact ⟨fun hempties => hlt hempties.2, fun hfirst => by bv_omega⟩
    · rintro ⟨-, hfirst⟩
      have hsome : 0#32 < r.deferredCount := by bv_omega
      exact ⟨iff_of_true (haccurate.mpr hsome) hcount, hroom⟩
  · have hcount : 0#32 < r.deferredCount - r.tokens := by bv_omega
    have hset := haccurate.mpr (by bv_omega)
    exact iff_of_true ⟨iff_of_true hset hcount, hroom⟩
      ⟨fun hempties => hlt hempties.2, fun hfirst => by bv_omega⟩

theorem tracked_inject_iff (h : s.Tracked) :
    (s.inject now).Tracked ↔ s.pend = true ∨ ¬ s.InjectEmpties now := by
  obtain ⟨haccurate, hroom⟩ := h
  rw [inject]
  by_cases hpend : s.pend = true
  · rw [if_pos hpend]
    exact iff_of_true ⟨haccurate, hroom⟩ (.inl hpend)
  · rw [Accurate, ← deferredCount_irqBucketRefill now] at haccurate
    rw [← maxDeferred_irqBucketRefill now] at hroom
    rw [if_neg hpend, plicInject, InjectEmpties, irqBucketConsume_eq]
    generalize irqBucketRefill now s.bucket = r at *
    dsimp only
    split_ifs with hlt hfits
    · constructor
      · intro h
        have hclear : ¬ s.deferred = true := fun hset =>
          BitVec.lt_irrefl _ (h.accurate.mp hset)
        exact .inr fun hempties => hclear (haccurate.mpr hempties.1)
      · rintro (hset | hkeeps)
        · exact absurd hset hpend
        · have hclear : ¬ s.deferred = true := fun hset => hkeeps ⟨haccurate.mp hset, hlt⟩
          exact ⟨iff_of_false hclear (BitVec.lt_irrefl _), hroom⟩
    · have hcount : 0#32 < r.deferredCount - r.tokens + 1#32 := by bv_omega
      exact iff_of_true ⟨iff_of_true rfl hcount, hroom⟩ (.inr fun hempties => hlt hempties.2)
    · have hcount : 0#32 < r.deferredCount - r.tokens := by bv_omega
      have hset := haccurate.mpr (by bv_omega)
      exact iff_of_true ⟨iff_of_true hset hcount, hroom⟩ (.inr fun hempties => hlt hempties.2)

theorem maxDeferred_drain (s : SourceState) :
    (s.drain now).bucket.maxDeferred = s.bucket.maxDeferred := by
  rw [drain, irqBucketDrainDeferred_eq, ← maxDeferred_irqBucketRefill now s.bucket]
  dsimp only
  split_ifs <;> first | rfl | exact (maxDeferred_irqBucketRefill now s.bucket).symm

theorem maxDeferred_plicInject (s : SourceState) :
    (s.plicInject now).bucket.maxDeferred = s.bucket.maxDeferred := by
  rw [plicInject, irqBucketConsume_eq, ← maxDeferred_irqBucketRefill now s.bucket]
  dsimp only
  split_ifs <;> rfl

theorem maxDeferred_inject (s : SourceState) :
    (s.inject now).bucket.maxDeferred = s.bucket.maxDeferred := by
  rw [inject]
  split_ifs
  · rfl
  · cases (irqBucketConsume now s.bucket).2 <;> exact maxDeferred_plicInject now s

end Step

end SourceState

namespace Vplic

def DeferralAccurate (v : Vplic) : Prop :=
  ∀ i, 0 < i → i < plicMaxInterrupts → (v.source i).Accurate

def HasRoom (v : Vplic) : Prop :=
  ∀ i, 0 < i → i < plicMaxInterrupts → 0#32 < (v.source i).bucket.maxDeferred

def DeferralTracked (v : Vplic) : Prop :=
  ∀ i, 0 < i → i < plicMaxInterrupts → (v.source i).Tracked

theorem deferralTracked_iff {v : Vplic} (h : v.HasRoom) :
    v.DeferralTracked ↔ v.DeferralAccurate := by
  constructor
  · intro htracked i hpos hlt
    exact (htracked i hpos hlt).accurate
  · intro haccurate i hpos hlt
    exact ⟨haccurate i hpos hlt, h i hpos hlt⟩

/-- The access drains no source in part, lets no interrupt through that empties a
bucket, and defers nothing behind the back of the deferred bits. -/
def KeepsDeferral (v : Vplic) : Access → Prop
  | .claim vcntxt now =>
      v.vcntxtValid vcntxt = true → ∀ i, 0 < i → i < plicMaxInterrupts →
        ¬ ((v.source i).deferred = true ∧ (v.source i).DrainsInPart now)
  | .inject _ id now =>
      0 < id → (v.source id).pend = true ∨ ¬ (v.source id).InjectEmpties now
  | .plicInject id now =>
      0 < id → ¬ (v.source id).InjectEmpties now ∧ ¬ (v.source id).InjectDefersFirst now
  | _ => True

/-- An access that changes one source only keeps all sources tracked exactly when
it keeps that one tracked. -/
theorem deferralTracked_update_iff {v w : Vplic} (h : v.DeferralTracked) {id : ℕ}
    {f : SourceState → SourceState}
    (hw : ∀ i, w.source i = if i = id then f (v.source i) else v.source i) :
    w.DeferralTracked ↔ (0 < id → id < plicMaxInterrupts → (f (v.source id)).Tracked) := by
  constructor
  · intro h' hpos hlt
    have hid := h' id hpos hlt
    rwa [hw, if_pos rfl] at hid
  · intro hid i hpos hlt
    rw [hw]
    split_ifs with heq
    · subst heq
      exact hid hpos hlt
    · exact h i hpos hlt

theorem deferralTracked_claim_iff {v : Vplic} (h : v.DeferralTracked) (vcntxt : ℕ)
    (now : BitVec 64) :
    (v.vplicClaim vcntxt now).1.DeferralTracked ↔
      ∀ i, 0 < i → i < plicMaxInterrupts →
        ¬ ((v.source i).deferred = true ∧ (v.source i).DrainsInPart now) := by
  refine forall_congr' fun i => forall_congr' fun hpos => forall_congr' fun hlt => ?_
  rw [source_vplicClaim v vcntxt now hpos hlt]
  split_ifs
  · exact SourceState.tracked_drain_iff now ⟨(h i hpos hlt).accurate, (h i hpos hlt).room⟩
  · exact SourceState.tracked_drain_iff now (h i hpos hlt)

theorem deferralTracked_access_iff {v : Vplic} (h : v.DeferralTracked) {a : Access}
    (ha : a.Below) : (v.access a).DeferralTracked ↔ v.KeepsDeferral a := by
  cases a with
  | setPrio id prio =>
      refine iff_of_true ?_ trivial
      rw [access, vplicSetPrio]
      split_ifs <;> exact h
  | setEnbl vcntxt id set =>
      refine iff_of_true ?_ trivial
      rw [access, vplicSetEnbl]
      split_ifs <;> exact h
  | setThreshold vcntxt threshold =>
      refine iff_of_true ?_ trivial
      rw [access, vplicSetThreshold]
      split_ifs <;> exact h
  | claim vcntxt now =>
      rw [access, KeepsDeferral]
      split_ifs with hvalid
      · rw [deferralTracked_claim_iff h, forall_prop_of_true hvalid]
      · exact iff_of_true h fun hvalid' => absurd hvalid' hvalid
  | complete vcntxt id =>
      refine iff_of_true ?_ trivial
      rw [access]
      split_ifs
      · exact (deferralTracked_update_iff h (source_vplicComplete v vcntxt id)).mpr
          fun hpos hlt => ⟨(h id hpos hlt).accurate, (h id hpos hlt).room⟩
      · exact h
  | plicInject id now =>
      rw [deferralTracked_update_iff h (source_plicInject v now id), KeepsDeferral]
      refine forall_congr' fun hpos => ?_
      have hlt : id < plicMaxInterrupts := ha
      rw [forall_prop_of_true hlt]
      exact SourceState.tracked_plicInject_iff now (h id hpos hlt)
  | inject vcpuId id now =>
      have hlt : id < plicMaxInterrupts := ha
      rw [KeepsDeferral]
      by_cases hpos : 0 < id
      · have hsource : ∀ i, (v.access (.inject vcpuId id now)).source i =
            if i = id then (v.source i).inject now else v.source i := by
          intro i
          rw [access, source_vplicInject]
          simp only [hpos, hlt.le, and_true]
        rw [deferralTracked_update_iff h hsource, forall_prop_of_true hpos,
          forall_prop_of_true hpos, forall_prop_of_true hlt]
        exact SourceState.tracked_inject_iff now (h id hpos hlt)
      · refine iff_of_true ?_ fun hpos' => absurd hpos' hpos
        rw [access, vplicInject, if_neg fun hnew => hpos hnew.1]
        exact h

/-- No access changes how much a bucket may hold. -/
theorem HasRoom.access {v : Vplic} (h : v.HasRoom) (a : Access) : (v.access a).HasRoom := by
  cases a with
  | setPrio id prio =>
      rw [Vplic.access, vplicSetPrio]
      split_ifs <;> exact h
  | setEnbl vcntxt id set =>
      rw [Vplic.access, vplicSetEnbl]
      split_ifs <;> exact h
  | setThreshold vcntxt threshold =>
      rw [Vplic.access, vplicSetThreshold]
      split_ifs <;> exact h
  | claim vcntxt now =>
      rw [Vplic.access]
      split_ifs
      · intro i hpos hlt
        rw [source_vplicClaim v vcntxt now hpos hlt, SourceState.maxDeferred_drain]
        split_ifs <;> exact h i hpos hlt
      · exact h
  | complete vcntxt id =>
      rw [Vplic.access]
      split_ifs
      · intro i hpos hlt
        rw [source_vplicComplete]
        split_ifs <;> exact h i hpos hlt
      · exact h
  | plicInject id now =>
      intro i hpos hlt
      rw [source_plicInject]
      split_ifs
      · rw [SourceState.maxDeferred_plicInject]
        exact h i hpos hlt
      · exact h i hpos hlt
  | inject vcpuId id now =>
      intro i hpos hlt
      rw [Vplic.access, source_vplicInject]
      split_ifs
      · rw [SourceState.maxDeferred_inject]
        exact h i hpos hlt
      · exact h i hpos hlt

section Run

variable (platCpuNum cpuNum : ℕ) (criticality : VmCriticality) (now : BitVec 64) (hw : Bitmap)

theorem hasRoom_boot : (boot cpuNum criticality now hw).HasRoom := by
  intro i _ hlt
  rw [source_boot _ _ _ _ hlt]
  cases criticality with
  | low => exact show 0#32 < 8#32 by decide
  | high => exact show 0#32 < 32#32 by decide

theorem deferralAccurate_boot : (boot cpuNum criticality now hw).DeferralAccurate := by
  intro i _ hlt
  rw [source_boot _ _ _ _ hlt]
  cases criticality <;> exact iff_of_false Bool.false_ne_true (BitVec.lt_irrefl 0#32)

/-- In a run of accesses that name interrupts below `plicMaxInterrupts`, the
deferred bits agree with the deferred counts after every access exactly when
every access meets its condition. -/
theorem along_deferralAccurate_iff (as : List Access) (has : ∀ a ∈ as, a.Below) :
    Run.Along (guestAccess platCpuNum)
        (fun v a => (v.guestAccess platCpuNum a).DeferralAccurate)
        (boot cpuNum criticality now hw) as ↔
      Run.Along (guestAccess platCpuNum) KeepsDeferral
        (boot cpuNum criticality now hw) as := by
  have hbelow : Run.Along (guestAccess platCpuNum) (fun _ a => a.Below)
      (boot cpuNum criticality now hw) as :=
    Run.along_of_forall (fun a ha _ => has a ha) _
  refine hbelow.invariant_iff (J := HasRoom) (hasRoom_boot cpuNum criticality now hw) ?_
    (deferralAccurate_boot cpuNum criticality now hw) ?_
  · intro v a hroom ha
    rw [guestAccess_of_below platCpuNum v ha]
    exact hroom.access a
  · intro v a hroom haccurate ha
    rw [guestAccess_of_below platCpuNum v ha, ← deferralTracked_iff (hroom.access a)]
    exact deferralTracked_access_iff ((deferralTracked_iff hroom).mpr haccurate) ha

end Run

/-- A run in which source 5 is injected once. -/
theorem along_deferralAccurate_iff_once :
    Run.Along (guestAccess 4) (fun v a => (v.guestAccess 4 a).DeferralAccurate)
        (boot 2 .low 0#64 fun _ => 0#32) [.inject 0 5 0#64] ↔
      Run.Along (guestAccess 4) KeepsDeferral (boot 2 .low 0#64 fun _ => 0#32)
        [.inject 0 5 0#64] :=
  along_deferralAccurate_iff 4 2 .low 0#64 (fun _ => 0#32) [.inject 0 5 0#64] (by decide)

/-- A guest that uses up the tokens of source 5 with `HC_PLIC_INJECT` and then
calls it once more has a deferred interrupt that no claim will look for. -/
theorem not_deferralAccurate_plicInject :
    ¬ (Run.exec (guestAccess 4) (boot 2 .low 0#64 fun _ => 0#32)
      (List.replicate 101 (.plicInject 5 0#64))).DeferralAccurate := by
  intro h
  have hfive := h 5 (by decide) (by decide)
  revert hfive
  unfold SourceState.Accurate
  decide +kernel

end Vplic

end BaoHypervisor
