import BaoHypervisor.Core.IrqRateLimit
import BaoHypervisor.Lib.Bitmap

/-!
# The virtual PLIC

The interrupt controller of a VM: which sources are pending, active and
deferred, the enables, priorities and thresholds its guest sets, and a rate
limiter for every source. A source is delivered to a context when it is
pending, not active and enabled there, and its priority exceeds the threshold;
claiming it makes it active until it is completed.

The bitmaps and arrays of the source have `plicMaxInterrupts` entries. They go
on behind their end here, where the source meets the next field.
-/

namespace BaoHypervisor

open Bitmap

abbrev plicMaxInterrupts : ℕ := 1024

structure Vplic where
  cntxtNum : ℕ
  hw : Bitmap
  pend : Bitmap
  act : Bitmap
  deferred : Bitmap
  prio : ℕ → BitVec 32
  enbl : ℕ → Bitmap
  threshold : ℕ → BitVec 32
  buckets : ℕ → IrqTokenBucket

/-- What the functions of the vPLIC do outside it: they bring the interrupt line
of a context up to date, or pass a write on to the physical PLIC. -/
inductive VplicEffect
  | updateHartLine (vcntxt : ℕ)
  | plicSetThreshold (vcntxt : ℕ) (threshold : BitVec 32)
  | plicSetEnbl (vcntxt id : ℕ) (set : Bool)
  | plicSetPrio (id : ℕ) (prio : BitVec 32)
  | plicComplete (id : ℕ)
deriving DecidableEq, Repr

def plicSupervisor (cntxt : ℕ) : Bool := decide (cntxt % 2 = 1)

namespace Vplic

/-- A vPLIC in memory that has just been zeroed. -/
def zero : Vplic where
  cntxtNum := 0
  hw := fun _ => 0#32
  pend := fun _ => 0#32
  act := fun _ => 0#32
  deferred := fun _ => 0#32
  prio := fun _ => 0#32
  enbl := fun _ _ => 0#32
  threshold := fun _ => 0#32
  buckets := fun _ => default

/-- `vplic_init` on the master CPU of a VM of `cpuNum` vCPUs. -/
def vplicInit (cpuNum : ℕ) (criticality : VmCriticality) (now : BitVec 64) (v : Vplic) :
    Vplic :=
  { v with
    cntxtNum := cpuNum * 2
    buckets := fun i =>
      if i < plicMaxInterrupts then irqBucketInit criticality now else v.buckets i }

section Accessors

variable (v : Vplic) (id : ℕ)

def vplicGetPend : Bool := decide (id ≤ plicMaxInterrupts) && bitmapGet v.pend id

def vplicGetAct : Bool := decide (id ≤ plicMaxInterrupts) && bitmapGet v.act id

def vplicGetEnbl (vcntxt : ℕ) : Bool :=
  decide (id ≤ plicMaxInterrupts) && bitmapGet (v.enbl vcntxt) id

def vplicGetHw : Bool := decide (id ≤ plicMaxInterrupts) && bitmapGet v.hw id

def vplicGetPrio : BitVec 32 := if id ≤ plicMaxInterrupts then v.prio id else 0#32

end Accessors

/-! ## Delivery -/

def candidate (v : Vplic) (vcntxt id : ℕ) : Bool :=
  v.vplicGetPend id && !v.vplicGetAct id && v.vplicGetEnbl id vcntxt

/-- The loop of `vplic_next_pending`, from the values of `max_prio` and `int_id`
so far. -/
def nextPendingLoop (v : Vplic) (vcntxt : ℕ) (ids : List ℕ) (best : BitVec 32 × ℕ) :
    BitVec 32 × ℕ :=
  ids.foldl
    (fun best i =>
      if v.candidate vcntxt i ∧ best.1 < v.vplicGetPrio i then (v.vplicGetPrio i, i)
      else best)
    best

def vplicNextPending (v : Vplic) (vcntxt : ℕ) : ℕ :=
  let best := v.nextPendingLoop vcntxt (List.range (plicMaxInterrupts + 1)) (0#32, 0)
  if v.threshold vcntxt < best.1 then best.2 else 0

/-! ## Register writes -/

def vplicSetThreshold (v : Vplic) (vcntxt : ℕ) (threshold : BitVec 32) :
    Vplic × List VplicEffect :=
  ({ v with threshold := Function.update v.threshold vcntxt threshold },
    [.plicSetThreshold vcntxt threshold, .updateHartLine vcntxt])

def vplicSetEnbl (v : Vplic) (vcntxt id : ℕ) (set : Bool) : Vplic × List VplicEffect :=
  if id ≤ plicMaxInterrupts ∧ v.vplicGetEnbl id vcntxt ≠ set then
    let map := if set then bitmapSet (v.enbl vcntxt) id else bitmapClear (v.enbl vcntxt) id
    ({ v with enbl := Function.update v.enbl vcntxt map },
      [if v.vplicGetHw id then .plicSetEnbl vcntxt id set else .updateHartLine vcntxt])
  else (v, [])

def vplicSetPrio (v : Vplic) (id : ℕ) (prio : BitVec 32) : Vplic × List VplicEffect :=
  if id ≤ plicMaxInterrupts ∧ v.vplicGetPrio id ≠ prio then
    ({ v with prio := Function.update v.prio id prio },
      if v.vplicGetHw id then [.plicSetPrio id prio]
      else
        ((List.range v.cntxtNum).filter fun i =>
          plicSupervisor i && v.vplicGetEnbl id i).map .updateHartLine)
  else (v, [])

/-! ## Claim, complete and inject -/

/-- One round of the loop of `vplic_claim` that drains deferred interrupts. -/
def drainDeferred (now : BitVec 64) (v : Vplic) (i : ℕ) : Vplic :=
  if bitmapGet v.deferred i then
    let drained := irqBucketDrainDeferred now (v.buckets i)
    let v := { v with buckets := Function.update v.buckets i drained.1 }
    if 0#32 < drained.2 then
      { v with deferred := bitmapClear v.deferred i, pend := bitmapSet v.pend i }
    else v
  else v

/-- The sources that `vplic_claim` drains. -/
def drainedIds : List ℕ := List.range' 1 (plicMaxInterrupts - 1)

def vplicClaim (v : Vplic) (vcntxt : ℕ) (now : BitVec 64) :
    Vplic × ℕ × List VplicEffect :=
  let intId := v.vplicNextPending vcntxt
  let v := { v with pend := bitmapClear v.pend intId, act := bitmapSet v.act intId }
  (drainedIds.foldl (drainDeferred now) v, intId, [.updateHartLine vcntxt])

def vplicComplete (v : Vplic) (vcntxt id : ℕ) : Vplic × List VplicEffect :=
  ({ v with act := bitmapClear v.act id },
    (if v.vplicGetHw id then [.plicComplete id] else []) ++ [.updateHartLine vcntxt])

/-- `vplic_inject` on the vCPU `vcpuId`. -/
def vplicInject (v : Vplic) (vcpuId id : ℕ) (now : BitVec 64) : Vplic × List VplicEffect :=
  if 0 < id ∧ id ≤ plicMaxInterrupts ∧ v.vplicGetPend id = false then
    let consumed := irqBucketConsume now (v.buckets id)
    let v := { v with buckets := Function.update v.buckets id consumed.1 }
    match consumed.2 with
    | .dropped => (v, [])
    | .deferred => ({ v with deferred := bitmapSet v.deferred id }, [])
    | .allow =>
        ({ v with pend := bitmapSet v.pend id },
          if v.vplicGetHw id then [.updateHartLine (vcpuId * 2 + 1)]
          else
            ((List.range v.cntxtNum).filter fun i =>
              plicSupervisor i && v.vplicGetEnbl id i &&
                decide (v.threshold i < v.vplicGetPrio id)).map .updateHartLine)
  else (v, [])

/-! ## Accesses -/

/-- What is done to a vPLIC: the guest's register accesses, the hypercall
`HC_PLIC_INJECT` on the rate limiter, and injection. -/
inductive Access
  | setPrio (id : ℕ) (prio : BitVec 32)
  | setEnbl (vcntxt id : ℕ) (set : Bool)
  | setThreshold (vcntxt : ℕ) (threshold : BitVec 32)
  | claim (vcntxt : ℕ) (now : BitVec 64)
  | complete (vcntxt id : ℕ)
  | plicInject (id : ℕ) (now : BitVec 64)
  | inject (vcpuId id : ℕ) (now : BitVec 64)
deriving DecidableEq, Repr

def vcntxtValid (v : Vplic) (vcntxt : ℕ) : Bool :=
  decide (vcntxt < v.cntxtNum) && plicSupervisor vcntxt

/-- The vPLIC after an access. Accesses to a context that is not valid are
passed over by the emulation handlers. -/
def access (v : Vplic) : Access → Vplic
  | .setPrio id prio => (v.vplicSetPrio id prio).1
  | .setEnbl vcntxt id set => if v.vcntxtValid vcntxt then (v.vplicSetEnbl vcntxt id set).1 else v
  | .setThreshold vcntxt threshold =>
      if v.vcntxtValid vcntxt then (v.vplicSetThreshold vcntxt threshold).1 else v
  | .claim vcntxt now => if v.vcntxtValid vcntxt then (v.vplicClaim vcntxt now).1 else v
  | .complete vcntxt id => if v.vcntxtValid vcntxt then (v.vplicComplete vcntxt id).1 else v
  | .plicInject id now =>
      { v with
        buckets := Function.update v.buckets id (irqBucketConsume now (v.buckets id)).1 }
  | .inject vcpuId id now => (v.vplicInject vcpuId id now).1

/-! ## Active sources -/

theorem nextPendingLoop_candidate (v : Vplic) (vcntxt : ℕ) (ids : List ℕ)
    (best : BitVec 32 × ℕ) :
    (v.nextPendingLoop vcntxt ids best).2 = best.2 ∨
      v.candidate vcntxt (v.nextPendingLoop vcntxt ids best).2 = true := by
  induction ids generalizing best with
  | nil => exact .inl rfl
  | cons i ids ih =>
      rw [nextPendingLoop, List.foldl_cons, ← nextPendingLoop]
      split_ifs with hcand
      · rcases ih (v.vplicGetPrio i, i) with heq | hcand'
        · right
          rw [heq]
          exact hcand.1
        · exact .inr hcand'
      · exact ih best

/-- A source of positive priority that is the only candidate is the outcome of
the loop. -/
theorem nextPendingLoop_of_unique {v : Vplic} {vcntxt id : ℕ}
    (hcand : v.candidate vcntxt id = true)
    (hunique : ∀ i, i ≠ id → v.candidate vcntxt i = false) (ids : List ℕ)
    {best : BitVec 32 × ℕ}
    (hbest : best.1 < v.vplicGetPrio id ∨ best = (v.vplicGetPrio id, id)) :
    v.nextPendingLoop vcntxt ids best =
      if id ∈ ids then (v.vplicGetPrio id, id) else best := by
  induction ids generalizing best with
  | nil => rfl
  | cons i ids ih =>
      rw [nextPendingLoop, List.foldl_cons, ← nextPendingLoop]
      by_cases hi : i = id
      · have hround : (if v.candidate vcntxt i = true ∧ best.1 < v.vplicGetPrio i then
            (v.vplicGetPrio i, i) else best) = (v.vplicGetPrio id, id) := by
          rw [hi]
          rcases hbest with hlt | heq
          · rw [if_pos ⟨hcand, hlt⟩]
          · rw [heq, if_neg fun h => BitVec.lt_irrefl _ h.2]
        rw [hround, ih (.inr rfl), ite_self, if_pos (List.mem_cons.mpr (.inl hi.symm))]
      · rw [hunique i hi, if_neg fun h => Bool.false_ne_true h.1, ih hbest]
        simp [Ne.symm hi]

theorem candidate_vplicNextPending {v : Vplic} {vcntxt : ℕ}
    (h : v.vplicNextPending vcntxt ≠ 0) :
    v.candidate vcntxt (v.vplicNextPending vcntxt) = true := by
  rw [vplicNextPending] at h ⊢
  split_ifs at h ⊢ with hprio
  · rcases nextPendingLoop_candidate v vcntxt (List.range (plicMaxInterrupts + 1)) (0#32, 0)
      with heq | hcand
    · exact absurd heq h
    · exact hcand
  · exact absurd rfl h

theorem vplicNextPending_ne_of_act {v : Vplic} {id : ℕ} (hid : 0 < id)
    (hact : v.vplicGetAct id = true) (vcntxt : ℕ) : v.vplicNextPending vcntxt ≠ id := by
  intro heq
  have hcand : v.candidate vcntxt (v.vplicNextPending vcntxt) = true :=
    candidate_vplicNextPending (by omega)
  rw [heq, candidate, hact, Bool.not_true, Bool.and_false, Bool.false_and] at hcand
  cases hcand

theorem act_drainDeferred (now : BitVec 64) (v : Vplic) (i : ℕ) :
    (drainDeferred now v i).act = v.act := by
  rw [drainDeferred]
  dsimp only
  split_ifs <;> rfl

theorem act_foldl_drainDeferred (now : BitVec 64) (ids : List ℕ) (v : Vplic) :
    (ids.foldl (drainDeferred now) v).act = v.act := by
  induction ids generalizing v with
  | nil => rfl
  | cons i ids ih => rw [List.foldl_cons, ih, act_drainDeferred]

theorem vplicGetAct_vplicClaim {v : Vplic} {vcntxt id : ℕ} (now : BitVec 64)
    (hid : v.vplicNextPending vcntxt = id) (hmax : id ≤ plicMaxInterrupts) :
    (v.vplicClaim vcntxt now).1.vplicGetAct id = true := by
  rw [vplicClaim]
  dsimp only
  rw [vplicGetAct, act_foldl_drainDeferred, bitmapGet_bitmapSet, hid]
  simp [hmax]

theorem act_vplicInject (v : Vplic) (vcpuId id : ℕ) (now : BitVec 64) :
    (v.vplicInject vcpuId id now).1.act = v.act := by
  rw [vplicInject]
  by_cases hnew : 0 < id ∧ id ≤ plicMaxInterrupts ∧ v.vplicGetPend id = false
  · rw [if_pos hnew]
    dsimp only
    cases (irqBucketConsume now (v.buckets id)).2 <;> rfl
  · rw [if_neg hnew]

/-- Only its completion makes an active source inactive. -/
theorem vplicGetAct_access {v : Vplic} {id : ℕ} (hact : v.vplicGetAct id = true)
    {a : Access} (ha : ∀ vcntxt, a ≠ .complete vcntxt id) :
    (v.access a).vplicGetAct id = true := by
  have hkeep : ∀ w : Vplic, w.act = v.act → w.vplicGetAct id = true := by
    intro w hw
    rw [vplicGetAct, hw]
    exact hact
  cases a with
  | setPrio i prio =>
      refine hkeep _ ?_
      rw [access, vplicSetPrio]
      split_ifs <;> rfl
  | setEnbl vcntxt i set =>
      refine hkeep _ ?_
      rw [access, vplicSetEnbl]
      split_ifs <;> rfl
  | setThreshold vcntxt threshold =>
      refine hkeep _ ?_
      rw [access, vplicSetThreshold]
      split_ifs <;> rfl
  | plicInject i now => exact hkeep _ rfl
  | inject vcpuId i now => exact hkeep _ (act_vplicInject v vcpuId i now)
  | claim vcntxt now =>
      rw [access]
      split_ifs
      · rw [vplicClaim]
        dsimp only
        rw [vplicGetAct, Bool.and_eq_true] at hact
        rw [vplicGetAct, act_foldl_drainDeferred, bitmapGet_bitmapSet, hact.1, hact.2]
        rfl
      · exact hact
  | complete vcntxt i =>
      rw [access]
      split_ifs
      · have hne : id ≠ i := fun heq => ha vcntxt (heq ▸ rfl)
        rw [vplicComplete]
        dsimp only
        rw [vplicGetAct, Bool.and_eq_true] at hact
        rw [vplicGetAct, bitmapGet_bitmapClear, hact.1, hact.2, decide_eq_false hne]
        rfl
      · exact hact

end Vplic

end BaoHypervisor
