import BaoHypervisor.Arch.Riscv.Vplic.Layout
import BaoHypervisor.Core.Vm
import BaoHypervisor.Theory.Run

/-!
# Indices into the vPLIC

The indices that the functions of the vPLIC use into its arrays, in the order of
the source. The arrays end at `plicMaxInterrupts` and at the number of contexts
of the platform; the guards of the functions and the loop of `vplic_next_pending`
go one further. The line of a context is brought up to date on the CPU that has
it, which reads bit `plicMaxInterrupts` of `pend` every time.
-/

namespace BaoHypervisor

/-! ## Contexts -/

/-- The modes of `struct plic_cntxt`. -/
inductive PlicMode
  | privU
  | privS
  | privM
deriving DecidableEq, Repr

/-- `struct plic_cntxt`. Hart -1 is `INVALID_CPUID`. -/
structure PlicCntxt where
  hartId : ℤ
  mode : PlicMode
deriving DecidableEq, Repr

def plicPlatCntxtNum (platCpuNum : ℕ) : ℕ := 2 * platCpuNum

def plicPlatCntxtToId (cntxt : PlicCntxt) : ℤ :=
  match cntxt.mode with
  | .privM => cntxt.hartId * 2
  | .privS => cntxt.hartId * 2 + 1
  | .privU => -1

def plicPlatIdToCntxt (platCpuNum : ℕ) (id : ℤ) : PlicCntxt :=
  if id < plicPlatCntxtNum platCpuNum then
    { hartId := id.tdiv 2, mode := if id.tmod 2 = 0 then .privM else .privS }
  else { hartId := -1, mode := .privU }

def vplicVcntxtToPcntxt (platCpuNum : ℕ) (vm : Vm) (vcntxt : ℕ) : ℤ :=
  let cntxt := plicPlatIdToCntxt platCpuNum vcntxt
  match vm.vmTranslateToPcpuid cntxt.hartId with
  | some hart => plicPlatCntxtToId { hartId := hart, mode := cntxt.mode }
  | none => -1

theorem mode_plicPlatIdToCntxt {platCpuNum i : ℕ} (hi : i < plicPlatCntxtNum platCpuNum) :
    (plicPlatIdToCntxt platCpuNum i).mode = if plicSupervisor i then .privS else .privM := by
  have hmod : Int.tmod (i : ℤ) 2 = (i % 2 : ℕ) := (Int.ofNat_tmod i 2).symm
  rw [plicSupervisor, plicPlatIdToCntxt, if_pos (by exact_mod_cast hi), hmod]
  rcases Nat.mod_two_eq_zero_or_one i with heven | hodd
  · simp [heven]
  · simp [hodd]

/-- The line of the context belongs to the CPU, as `vplic_update_hart_line` sees it. -/
def ownsLine (platCpuNum : ℕ) (vm : Vm) (cpu vcntxt : ℕ) : Bool :=
  (plicPlatIdToCntxt platCpuNum (vplicVcntxtToPcntxt platCpuNum vm vcntxt)).hartId = cpu

/-! ## Indices -/

/-- An index into one of the arrays of `struct vplic`. -/
inductive VplicIndex
  | hw (id : ℕ)
  | pend (id : ℕ)
  | act (id : ℕ)
  | deferred (id : ℕ)
  | prio (id : ℕ)
  | enbl (vcntxt id : ℕ)
  | threshold (vcntxt : ℕ)
  | buckets (id : ℕ)
deriving DecidableEq, Repr

def VplicIndex.InBounds (platCpuNum : ℕ) : VplicIndex → Prop
  | .hw id | .pend id | .act id | .deferred id | .prio id | .buckets id =>
      id < plicMaxInterrupts
  | .enbl vcntxt id => vcntxt < plicPlatCntxtNum platCpuNum ∧ id < plicMaxInterrupts
  | .threshold vcntxt => vcntxt < plicPlatCntxtNum platCpuNum

namespace Vplic

open Bitmap

section Indices

variable (platCpuNum : ℕ) (own : ℕ → Bool) (v : Vplic)

/-- The indices of an accessor, whose guard lets `plicMaxInterrupts` pass. -/
def guarded (id : ℕ) (index : VplicIndex) : List VplicIndex :=
  if id ≤ plicMaxInterrupts then [index] else []

def getPendIndices (id : ℕ) : List VplicIndex := guarded id (.pend id)

def getActIndices (id : ℕ) : List VplicIndex := guarded id (.act id)

def getEnblIndices (vcntxt id : ℕ) : List VplicIndex := guarded id (.enbl vcntxt id)

def getPrioIndices (id : ℕ) : List VplicIndex := guarded id (.prio id)

def getHwIndices (id : ℕ) : List VplicIndex := guarded id (.hw id)

def nextPendingIndices (vcntxt : ℕ) : List VplicIndex :=
  ((List.range (plicMaxInterrupts + 1)).flatMap fun i =>
    getPendIndices i ++
      if v.vplicGetPend i then
        getActIndices i ++
          if v.vplicGetAct i then []
          else
            getEnblIndices vcntxt i ++
              if v.vplicGetEnbl i vcntxt then getPrioIndices i else []
      else []) ++ [.threshold vcntxt]

def updateHartLineIndices (vcntxt : ℕ) : List VplicIndex :=
  if own vcntxt then v.nextPendingIndices vcntxt else []

def setThresholdIndices (vcntxt : ℕ) (threshold : BitVec 32) : List VplicIndex :=
  .threshold vcntxt :: (v.vplicSetThreshold vcntxt threshold).1.updateHartLineIndices own vcntxt

def setEnblIndices (vcntxt id : ℕ) (set : Bool) : List VplicIndex :=
  if id ≤ plicMaxInterrupts then
    getEnblIndices vcntxt id ++
      if v.vplicGetEnbl id vcntxt ≠ set then
        .enbl vcntxt id :: getHwIndices id ++
          if v.vplicGetHw id then []
          else (v.vplicSetEnbl vcntxt id set).1.updateHartLineIndices own vcntxt
      else []
  else []

def setPrioIndices (id : ℕ) (prio : BitVec 32) : List VplicIndex :=
  if id ≤ plicMaxInterrupts then
    getPrioIndices id ++
      if v.vplicGetPrio id ≠ prio then
        .prio id :: getHwIndices id ++
          if v.vplicGetHw id then []
          else
            ((List.range v.cntxtNum).filter plicSupervisor).flatMap fun i =>
              getEnblIndices i id ++
                if v.vplicGetEnbl id i then
                  (v.vplicSetPrio id prio).1.updateHartLineIndices own i
                else []
      else []
  else []

/-- The indices of one round of the loop that drains deferred interrupts. -/
def drainDeferredIndices (now : BitVec 64) (i : ℕ) : List VplicIndex :=
  .deferred i ::
    if bitmapGet v.deferred i then
      .buckets i ::
        if 0#32 < (irqBucketDrainDeferred now (v.buckets i)).2 then
          [.deferred i, .pend i] ++ if bitmapGet v.pend i then [] else [.pend i]
        else []
    else []

def claimIndices (vcntxt : ℕ) (now : BitVec 64) : List VplicIndex :=
  let intId := v.vplicNextPending vcntxt
  let taken := { v with pend := bitmapClear v.pend intId, act := bitmapSet v.act intId }
  v.nextPendingIndices vcntxt ++ [.pend intId, .act intId] ++
    Run.emitted (drainDeferred now) (fun v => v.drainDeferredIndices now) taken drainedIds ++
      (v.vplicClaim vcntxt now).1.updateHartLineIndices own vcntxt

def completeIndices (vcntxt id : ℕ) : List VplicIndex :=
  getHwIndices id ++
    .act id :: (v.completeAny platCpuNum vcntxt id).1.updateHartLineIndices own vcntxt

/-- The indices of `vplic_inject` on the vCPU `vcpuId`. -/
def injectIndices (vcpuId id : ℕ) (now : BitVec 64) : List VplicIndex :=
  if 0 < id ∧ id ≤ plicMaxInterrupts then
    getPendIndices id ++
      if v.vplicGetPend id then []
      else
        .buckets id ::
          match (irqBucketConsume now (v.buckets id)).2 with
          | .dropped => []
          | .deferred => [.deferred id]
          | .allow =>
              let w := (v.vplicInject vcpuId id now).1
              .pend id :: getHwIndices id ++
                if v.vplicGetHw id then w.updateHartLineIndices own (vcpuId * 2 + 1)
                else
                  ((List.range v.cntxtNum).filter plicSupervisor).flatMap fun i =>
                    getEnblIndices i id ++
                      if v.vplicGetEnbl id i then
                        getPrioIndices id ++ .threshold i ::
                          if v.threshold i < v.vplicGetPrio id then
                            w.updateHartLineIndices own i
                          else []
                      else []
  else []

end Indices

/-! ## Which functions stay inside the arrays -/

section InBounds

variable {platCpuNum : ℕ} {own : ℕ → Bool} {v : Vplic}

def InBounds (platCpuNum : ℕ) (indices : List VplicIndex) : Prop :=
  ∀ index ∈ indices, index.InBounds platCpuNum

@[simp] theorem inBounds_nil : InBounds platCpuNum [] := fun _ hmem => absurd hmem List.not_mem_nil

@[simp] theorem inBounds_cons {index : VplicIndex} {indices : List VplicIndex} :
    InBounds platCpuNum (index :: indices) ↔
      index.InBounds platCpuNum ∧ InBounds platCpuNum indices :=
  List.forall_mem_cons

@[simp] theorem inBounds_append {l l' : List VplicIndex} :
    InBounds platCpuNum (l ++ l') ↔ InBounds platCpuNum l ∧ InBounds platCpuNum l' :=
  List.forall_mem_append

theorem inBounds_flatMap {ids : List ℕ} {f : ℕ → List VplicIndex} :
    InBounds platCpuNum (ids.flatMap f) ↔ ∀ i ∈ ids, InBounds platCpuNum (f i) := by
  simp only [InBounds, List.forall_mem_flatMap]

theorem inBounds_guarded {id : ℕ} {index : VplicIndex} (hid : id ≤ plicMaxInterrupts) :
    InBounds platCpuNum (guarded id index) ↔ index.InBounds platCpuNum := by
  rw [guarded, if_pos hid, inBounds_cons, and_iff_left inBounds_nil]

theorem inBounds_getHw {id : ℕ} (hid : id < plicMaxInterrupts) :
    InBounds platCpuNum (getHwIndices id) :=
  (inBounds_guarded hid.le).mpr hid

theorem not_inBounds_nextPending (vcntxt : ℕ) :
    ¬ InBounds platCpuNum (v.nextPendingIndices vcntxt) := by
  rw [nextPendingIndices, inBounds_append, inBounds_flatMap]
  rintro ⟨hscan, -⟩
  have hlast := hscan plicMaxInterrupts (List.mem_range.mpr (Nat.lt_succ_self _))
  rw [inBounds_append, getPendIndices, inBounds_guarded le_rfl] at hlast
  exact hlast.1.false

theorem inBounds_updateHartLine_iff {vcntxt : ℕ} :
    InBounds platCpuNum (v.updateHartLineIndices own vcntxt) ↔ own vcntxt = false := by
  rw [updateHartLineIndices]
  split_ifs with hown
  · exact iff_of_false (not_inBounds_nextPending vcntxt) (by simp [hown])
  · exact iff_of_true inBounds_nil (by simpa using hown)

theorem inBounds_setThreshold_iff {vcntxt : ℕ} (hvcntxt : vcntxt < plicPlatCntxtNum platCpuNum)
    (threshold : BitVec 32) :
    InBounds platCpuNum (v.setThresholdIndices own vcntxt threshold) ↔ own vcntxt = false := by
  rw [setThresholdIndices, inBounds_cons, inBounds_updateHartLine_iff]
  exact and_iff_right hvcntxt

theorem inBounds_setEnbl_iff {vcntxt id : ℕ} (hvcntxt : vcntxt < plicPlatCntxtNum platCpuNum)
    (hid : id < plicMaxInterrupts) (set : Bool) :
    InBounds platCpuNum (v.setEnblIndices own vcntxt id set) ↔
      v.vplicGetEnbl id vcntxt = set ∨ v.vplicGetHw id = true ∨ own vcntxt = false := by
  have hinside : (VplicIndex.enbl vcntxt id).InBounds platCpuNum := ⟨hvcntxt, hid⟩
  rw [setEnblIndices, if_pos hid.le, inBounds_append, getEnblIndices, inBounds_guarded hid.le,
    and_iff_right hinside]
  by_cases hset : v.vplicGetEnbl id vcntxt = set
  · rw [if_neg (not_not_intro hset)]
    exact iff_of_true inBounds_nil (.inl hset)
  · rw [if_pos hset, List.cons_append, inBounds_cons, inBounds_append, and_iff_right hinside,
      and_iff_right (inBounds_getHw hid), or_iff_right hset]
    by_cases hhw : v.vplicGetHw id = true
    · rw [if_pos hhw]
      exact iff_of_true inBounds_nil (.inl hhw)
    · rw [if_neg hhw, inBounds_updateHartLine_iff, or_iff_right hhw]

/-- The loops over the contexts that have a source enabled. -/
theorem inBounds_enabledCntxts_iff {id : ℕ} (hcntxt : v.cntxtNum ≤ plicPlatCntxtNum platCpuNum)
    (hid : id < plicMaxInterrupts) (rest : ℕ → List VplicIndex) :
    InBounds platCpuNum
        (((List.range v.cntxtNum).filter plicSupervisor).flatMap fun i =>
          getEnblIndices i id ++ if v.vplicGetEnbl id i then rest i else []) ↔
      ∀ i < v.cntxtNum, plicSupervisor i = true → v.vplicGetEnbl id i = true →
        InBounds platCpuNum (rest i) := by
  rw [inBounds_flatMap]
  refine forall_congr' fun i => ?_
  rw [List.mem_filter, List.mem_range, and_imp]
  refine forall_congr' fun hi => forall_congr' fun _ => ?_
  rw [inBounds_append, getEnblIndices, inBounds_guarded hid.le,
    and_iff_right ⟨hi.trans_le hcntxt, hid⟩]
  by_cases henbl : v.vplicGetEnbl id i = true
  · rw [if_pos henbl, forall_prop_of_true henbl]
  · rw [if_neg henbl]
    exact iff_of_true inBounds_nil fun h => absurd h henbl

theorem inBounds_setPrio_iff {id : ℕ} (hcntxt : v.cntxtNum ≤ plicPlatCntxtNum platCpuNum)
    (hid : id < plicMaxInterrupts) (prio : BitVec 32) :
    InBounds platCpuNum (v.setPrioIndices own id prio) ↔
      v.vplicGetPrio id = prio ∨ v.vplicGetHw id = true ∨
        ∀ i < v.cntxtNum, plicSupervisor i = true → v.vplicGetEnbl id i = true →
          own i = false := by
  have hinside : (VplicIndex.prio id).InBounds platCpuNum := hid
  rw [setPrioIndices, if_pos hid.le, inBounds_append, getPrioIndices, inBounds_guarded hid.le,
    and_iff_right hinside]
  by_cases hprio : v.vplicGetPrio id = prio
  · rw [if_neg (not_not_intro hprio)]
    exact iff_of_true inBounds_nil (.inl hprio)
  · rw [if_pos hprio, List.cons_append, inBounds_cons, inBounds_append, and_iff_right hinside,
      and_iff_right (inBounds_getHw hid), or_iff_right hprio]
    by_cases hhw : v.vplicGetHw id = true
    · rw [if_pos hhw]
      exact iff_of_true inBounds_nil (.inl hhw)
    · rw [if_neg hhw, inBounds_enabledCntxts_iff hcntxt hid, or_iff_right hhw]
      simp only [inBounds_updateHartLine_iff]

theorem not_inBounds_claim (vcntxt : ℕ) (now : BitVec 64) :
    ¬ InBounds platCpuNum (v.claimIndices own vcntxt now) := by
  rw [claimIndices]
  simp only [inBounds_append]
  rintro ⟨⟨⟨hscan, -⟩, -⟩, -⟩
  exact not_inBounds_nextPending vcntxt hscan

theorem inBounds_complete_iff (vcntxt id : ℕ) :
    InBounds platCpuNum (v.completeIndices platCpuNum own vcntxt id) ↔
      id < plicMaxInterrupts ∧ own vcntxt = false := by
  rw [completeIndices, inBounds_append, inBounds_cons, inBounds_updateHartLine_iff]
  constructor
  · rintro ⟨-, hid, hown⟩
    exact ⟨hid, hown⟩
  · rintro ⟨hid, hown⟩
    exact ⟨inBounds_getHw hid, hid, hown⟩

theorem inBounds_inject_iff (hcntxt : v.cntxtNum ≤ plicPlatCntxtNum platCpuNum)
    (vcpuId id : ℕ) (now : BitVec 64) :
    InBounds platCpuNum (v.injectIndices own vcpuId id now) ↔
      (0 < id ∧ id ≤ plicMaxInterrupts →
        id < plicMaxInterrupts ∧
          (v.vplicGetPend id = false → (v.source id).LetsThrough now →
            if v.vplicGetHw id then own (vcpuId * 2 + 1) = false
            else
              ∀ i < v.cntxtNum, plicSupervisor i = true → v.vplicGetEnbl id i = true →
                v.threshold i < v.vplicGetPrio id → own i = false)) := by
  rw [injectIndices]
  by_cases hrange : 0 < id ∧ id ≤ plicMaxInterrupts
  · rw [if_pos hrange, forall_prop_of_true hrange, inBounds_append, getPendIndices,
      inBounds_guarded hrange.2]
    refine and_congr_right fun hid => ?_
    have hid : id < plicMaxInterrupts := hid
    by_cases hpend : v.vplicGetPend id = true
    · rw [if_pos hpend]
      exact iff_of_true inBounds_nil fun hnot => absurd (hpend.symm.trans hnot) (by decide)
    · rw [if_neg hpend, forall_prop_of_true (Bool.eq_false_iff.mpr hpend),
        SourceState.letsThrough_iff, inBounds_cons]
      refine (and_iff_right hid).trans ?_
      rw [source]
      dsimp only
      cases (irqBucketConsume now (v.buckets id)).2 with
      | dropped => exact iff_of_true inBounds_nil fun h => IrqRlAction.noConfusion h
      | deferred =>
          exact iff_of_true (inBounds_cons.mpr ⟨hid, inBounds_nil⟩)
            fun h => IrqRlAction.noConfusion h
      | allow =>
          rw [forall_prop_of_true rfl]
          dsimp only
          rw [List.cons_append, inBounds_cons, inBounds_append,
            and_iff_right (inBounds_getHw hid)]
          refine (and_iff_right hid).trans ?_
          by_cases hhw : v.vplicGetHw id = true
          · rw [if_pos hhw, if_pos hhw, inBounds_updateHartLine_iff]
          · rw [if_neg hhw, if_neg hhw, inBounds_enabledCntxts_iff hcntxt hid]
            refine forall_congr' fun i => forall_congr' fun hi => ?_
            refine forall_congr' fun _ => forall_congr' fun _ => ?_
            have hi' : i < plicPlatCntxtNum platCpuNum := hi.trans_le hcntxt
            rw [inBounds_append, getPrioIndices, inBounds_guarded hid.le, inBounds_cons]
            refine (and_iff_right hid).trans ((and_iff_right hi').trans ?_)
            by_cases hprio : v.threshold i < v.vplicGetPrio id
            · rw [if_pos hprio, inBounds_updateHartLine_iff, forall_prop_of_true hprio]
            · rw [if_neg hprio]
              exact iff_of_true inBounds_nil fun h => absurd h hprio
  · rw [if_neg hrange]
    exact iff_of_true inBounds_nil fun h => absurd h hrange

end InBounds

end Vplic

end BaoHypervisor
