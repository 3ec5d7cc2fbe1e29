import BaoHypervisor.Arch.Riscv.Vplic.Deferral

/-!
# Hardware interrupts of a VM

`plic_handle` claims an external interrupt from the physical PLIC. If it belongs
to the VM it is injected into the vPLIC, and the physical PLIC raises it again
only after the guest has completed it. A claimed interrupt that the vPLIC forgets
is never raised again: it has to stay pending, active, or deferred with its
bucket holding it.

That the rate limiter drops an interrupt does not lose it as long as its source
is marked deferred. It is lost if the bucket was filled by `HC_PLIC_INJECT`,
which marks nothing, if `HC_PLIC_INJECT` takes a deferred interrupt out of the
bucket, or if a completion of a number behind the end of `act` clears the mark.
-/

namespace BaoHypervisor

open Bitmap

inductive IrqRes
  | handledByHyp
  | forwardToVm
deriving DecidableEq, Repr

/-- The vPLIC of a VM and the interrupts that are claimed from the physical PLIC
and not yet completed there. -/
structure HwIrqState where
  vplic : Vplic
  claimed : ℕ → Bool

/-- What happens to the interrupts of a VM: an external interrupt on the CPU of
one of its vCPUs, or an access of the guest. -/
inductive HwIrqAct
  | plicHandle (vcpuId id : ℕ) (now : BitVec 64)
  | access (a : Vplic.Access)
deriving DecidableEq, Repr

/-- An access of the guest names an interrupt below `plicMaxInterrupts`. -/
def HwIrqAct.Below : HwIrqAct → Prop
  | .plicHandle .. => True
  | .access a => a.Below

instance : ∀ a : HwIrqAct, Decidable a.Below
  | .plicHandle .. => inferInstanceAs (Decidable True)
  | .access a => inferInstanceAs (Decidable a.Below)

namespace HwIrqState

def applyEffect (claimed : ℕ → Bool) : VplicEffect → ℕ → Bool
  | .plicComplete id => Function.update claimed id false
  | _ => claimed

section Machine

/- The platform's CPUs, `vm->interrupt_bitmap` and `hyp_interrupt_bitmap`. -/
variable (platCpuNum : ℕ) (interruptBitmap hypInterruptBitmap : Bitmap)

/-- `interrupts_handle`, `none` if it stops in `ERROR`. -/
def interruptsHandle (v : Vplic) (vcpuId id : ℕ) (now : BitVec 64) :
    Vplic × List VplicEffect × Option IrqRes :=
  if bitmapGet interruptBitmap id then
    ((v.vplicInject vcpuId id now).1, (v.vplicInject vcpuId id now).2, some .forwardToVm)
  else if bitmapGet hypInterruptBitmap id then (v, [], some .handledByHyp)
  else (v, [], none)

/-- `plic_handle`, when `id` is read from the claim register. -/
def plicHandle (s : HwIrqState) (vcpuId id : ℕ) (now : BitVec 64) : HwIrqState :=
  if id ≠ 0 then
    let res := interruptsHandle interruptBitmap hypInterruptBitmap s.vplic vcpuId id now
    { vplic := res.1
      claimed :=
        if res.2.2 = some .handledByHyp then Function.update s.claimed id false
        else Function.update s.claimed id true }
  else s

def step (s : HwIrqState) : HwIrqAct → HwIrqState
  | .plicHandle vcpuId id now =>
      s.plicHandle interruptBitmap hypInterruptBitmap vcpuId id now
  | .access a =>
      { vplic := s.vplic.guestAccess platCpuNum a
        claimed := (s.vplic.guestEffects platCpuNum a).foldl applyEffect s.claimed }

end Machine

end HwIrqState

namespace SourceState

def Held (s : SourceState) : Prop :=
  s.pend = true ∨ s.act = true ∨ (s.deferred = true ∧ 0#32 < s.bucket.deferredCount)

section Step

variable {s : SourceState} (now : BitVec 64)

theorem Held.drain (h : s.Held) : (s.drain now).Held := by
  rw [SourceState.drain]
  dsimp only
  split_ifs with hdeferred hdrained
  · exact .inl rfl
  · rcases h with hpend | hact | ⟨-, hcount⟩
    · exact .inl hpend
    · exact .inr (.inl hact)
    · refine .inr (.inr ⟨hdeferred, ?_⟩)
      rw [← deferredCount_irqBucketRefill now] at hcount
      rw [irqBucketDrainDeferred_eq] at hdrained ⊢
      generalize irqBucketRefill now s.bucket = r at *
      dsimp only at hdrained ⊢
      by_cases hle : r.deferredCount ≤ r.tokens
      · rw [if_pos hle] at hdrained
        exact absurd hcount hdrained
      · rw [if_neg hle] at hdrained ⊢
        dsimp only at hdrained ⊢
        bv_omega
  · exact h

theorem held_plicInject_iff (hroom : 0#32 < s.bucket.maxDeferred) (h : s.Held) :
    (s.plicInject now).Held ↔ s.pend = true ∨ s.act = true ∨ ¬ s.LetsThrough now := by
  rw [← maxDeferred_irqBucketRefill now] at hroom
  rw [Held, ← deferredCount_irqBucketRefill now] at h
  rw [plicInject, Held, LetsThrough, irqBucketConsume_eq]
  generalize irqBucketRefill now s.bucket = r at *
  dsimp only
  by_cases hlt : r.deferredCount < r.tokens
  · rw [if_pos hlt]
    refine or_congr_right (or_congr_right ?_)
    exact iff_of_false (fun hempty => BitVec.lt_irrefl _ hempty.2) fun hnot => hnot hlt
  · refine iff_of_true ?_ (.inr (.inr hlt))
    rw [if_neg hlt]
    rcases h with hpend | hact | ⟨hdeferred, hcount⟩
    · exact .inl hpend
    · exact .inr (.inl hact)
    · refine .inr (.inr ⟨hdeferred, ?_⟩)
      split_ifs with hfits
      · dsimp only
        bv_omega
      · dsimp only
        bv_omega

theorem held_inject_iff (hroom : 0#32 < s.bucket.maxDeferred) :
    (s.inject now).Held ↔
      s.pend = true ∨ s.act = true ∨ s.deferred = true ∨ ¬ s.Drops now := by
  rw [inject]
  by_cases hpend : s.pend = true
  · rw [if_pos hpend]
    exact iff_of_true (.inl hpend) (.inl hpend)
  · rw [← maxDeferred_irqBucketRefill now] at hroom
    rw [if_neg hpend, plicInject, Held, Drops, irqBucketConsume_eq]
    generalize irqBucketRefill now s.bucket = r at *
    dsimp only
    by_cases hlt : r.deferredCount < r.tokens
    · rw [if_pos hlt]
      exact iff_of_true (.inl rfl)
        (.inr (.inr (.inr fun hdrops => BitVec.not_lt.mpr hdrops.1 hlt)))
    · rw [if_neg hlt]
      by_cases hfits : r.deferredCount - r.tokens < r.maxDeferred
      · rw [if_pos hfits]
        dsimp only
        exact iff_of_true (.inr (.inr ⟨rfl, by bv_omega⟩))
          (.inr (.inr (.inr fun hdrops => BitVec.not_lt.mpr hdrops.2 hfits)))
      · have hdrops : r.tokens ≤ r.deferredCount ∧
            r.maxDeferred ≤ r.deferredCount - r.tokens :=
          ⟨BitVec.not_lt.mp hlt, BitVec.not_lt.mp hfits⟩
        have hcount : 0#32 < r.deferredCount - r.tokens := by bv_omega
        rw [if_neg hfits]
        dsimp only
        rw [and_iff_left hcount, or_iff_left (not_not_intro hdrops)]

end Step

end SourceState

namespace HwIrqState

open Vplic

section Claims

variable {claimed : ℕ → Bool}

theorem foldl_applyEffect_of_notMem {es : List VplicEffect}
    (h : ∀ id, VplicEffect.plicComplete id ∉ es) : es.foldl applyEffect claimed = claimed := by
  induction es with
  | nil => rfl
  | cons e es ih =>
      have hhead : applyEffect claimed e = claimed := by
        cases e with
        | plicComplete id => exact absurd List.mem_cons_self (h id)
        | _ => rfl
      rw [List.foldl_cons, hhead]
      exact ih fun id hmem => h id (List.mem_cons_of_mem _ hmem)

/-- Only completions complete anything. -/
theorem plicComplete_notMem_guestEffects (platCpuNum : ℕ) (v : Vplic) {a : Access}
    (ha : ∀ vcntxt id, a ≠ .complete vcntxt id) (id : ℕ) :
    VplicEffect.plicComplete id ∉ v.guestEffects platCpuNum a := by
  cases a with
  | complete vcntxt i => exact absurd rfl (ha vcntxt i)
  | setPrio i prio =>
      rw [guestEffects, vplicSetPrio]
      split_ifs <;> simp
  | setEnbl vcntxt i set =>
      rw [guestEffects, vplicSetEnbl]
      split_ifs <;> simp
  | setThreshold vcntxt threshold =>
      rw [guestEffects, vplicSetThreshold]
      split_ifs <;> simp
  | claim vcntxt now =>
      rw [guestEffects, vplicClaim]
      split_ifs <;> simp
  | plicInject i now => simp [guestEffects]
  | inject vcpuId i now =>
      rw [guestEffects, vplicInject]
      split_ifs with hnew
      · dsimp only
        cases (irqBucketConsume now (v.buckets i)).2 with
        | allow =>
            dsimp only
            split_ifs <;> simp
        | _ => simp
      · simp

end Claims

section Machine

variable (platCpuNum : ℕ) (interruptBitmap hypInterruptBitmap : Bitmap)

/-- A hardware interrupt of the VM. -/
def Assigned (s : HwIrqState) (id : ℕ) : Prop :=
  0 < id ∧ id < plicMaxInterrupts ∧ bitmapGet interruptBitmap id = true ∧
    s.vplic.vplicGetHw id = true

/-- The vPLIC holds every hardware interrupt of the VM that is claimed and not
completed. -/
def NotWedged (s : HwIrqState) : Prop :=
  ∀ id, s.Assigned interruptBitmap id → s.claimed id = true → (s.vplic.source id).Held

/-- An external interrupt is not dropped while its source is idle and not marked
deferred, and `HC_PLIC_INJECT` does not empty the bucket of a claimed interrupt
that the vPLIC holds in its bucket only. -/
def KeepsHeld (s : HwIrqState) : HwIrqAct → Prop
  | .plicHandle _ id now =>
      s.Assigned interruptBitmap id →
        (s.vplic.source id).pend = true ∨ (s.vplic.source id).act = true ∨
          (s.vplic.source id).deferred = true ∨ ¬ (s.vplic.source id).Drops now
  | .access (.plicInject id now) =>
      s.Assigned interruptBitmap id → s.claimed id = true →
        (s.vplic.source id).pend = true ∨ (s.vplic.source id).act = true ∨
          ¬ (s.vplic.source id).LetsThrough now
  | .access _ => True

variable {platCpuNum : ℕ} {interruptBitmap hypInterruptBitmap : Bitmap} {s : HwIrqState}

theorem assigned_of_hw_eq {s' : HwIrqState} (h : s'.vplic.hw = s.vplic.hw) (id : ℕ) :
    s'.Assigned interruptBitmap id ↔ s.Assigned interruptBitmap id := by
  rw [Assigned, Assigned, vplicGetHw, vplicGetHw, h]

/-- An interrupt of the VM is claimed and injected. -/
theorem notWedged_inject_iff (hroom : s.vplic.HasRoom) (h : s.NotWedged interruptBitmap)
    (vcpuId id : ℕ) (now : BitVec 64) :
    NotWedged interruptBitmap
        { vplic := (s.vplic.vplicInject vcpuId id now).1
          claimed := Function.update s.claimed id true } ↔
      s.KeepsHeld interruptBitmap (.plicHandle vcpuId id now) := by
  have hhw : (s.vplic.vplicInject vcpuId id now).1.hw = s.vplic.hw :=
    hw_access s.vplic (.inject vcpuId id now)
  constructor
  · intro h' hassigned
    have hheld := h' id ((assigned_of_hw_eq hhw id).mpr hassigned) (Function.update_self ..)
    rw [source_vplicInject, if_pos ⟨rfl, hassigned.1, hassigned.2.1.le⟩] at hheld
    exact (SourceState.held_inject_iff now (hroom id hassigned.1 hassigned.2.1)).mp hheld
  · intro hkeeps i hassigned' hclaimed
    have hassigned : s.Assigned interruptBitmap i := (assigned_of_hw_eq hhw i).mp hassigned'
    rw [source_vplicInject]
    split_ifs with heq
    · have hroom' := hroom i hassigned.1 hassigned.2.1
      rw [heq.1] at hassigned hroom' ⊢
      exact (SourceState.held_inject_iff now hroom').mpr (hkeeps hassigned)
    · have hne : i ≠ id := fun heq' => heq ⟨heq', heq' ▸ hassigned.1, heq' ▸ hassigned.2.1.le⟩
      dsimp only at hclaimed
      rw [Function.update_of_ne hne] at hclaimed
      exact h i hassigned hclaimed

theorem notWedged_update (h : s.NotWedged interruptBitmap) {id : ℕ}
    (hirq : ¬ bitmapGet interruptBitmap id = true) (b : Bool) :
    NotWedged interruptBitmap { s with claimed := Function.update s.claimed id b } := by
  intro i hassigned hclaimed
  have hne : i ≠ id := fun heq => hirq (heq ▸ hassigned.2.2.1)
  dsimp only at hclaimed
  rw [Function.update_of_ne hne] at hclaimed
  exact h i hassigned hclaimed

theorem notWedged_plicHandle_iff (hroom : s.vplic.HasRoom)
    (h : s.NotWedged interruptBitmap) (vcpuId id : ℕ) (now : BitVec 64) :
    (s.plicHandle interruptBitmap hypInterruptBitmap vcpuId id now).NotWedged
        interruptBitmap ↔ s.KeepsHeld interruptBitmap (.plicHandle vcpuId id now) := by
  rw [plicHandle]
  by_cases hid : id ≠ 0
  · rw [if_pos hid, interruptsHandle]
    by_cases hirq : bitmapGet interruptBitmap id = true
    · rw [if_pos hirq]
      exact notWedged_inject_iff hroom h vcpuId id now
    · rw [if_neg hirq]
      refine iff_of_true ?_ fun hassigned => absurd hassigned.2.2.1 hirq
      by_cases hreserved : bitmapGet hypInterruptBitmap id = true
      · rw [if_pos hreserved]
        exact notWedged_update h hirq false
      · rw [if_neg hreserved]
        exact notWedged_update h hirq true
  · rw [if_neg hid]
    exact iff_of_true h fun hassigned => absurd (Nat.ne_of_gt hassigned.1) hid

theorem notWedged_complete (h : s.NotWedged interruptBitmap) (vcntxt : ℕ) {id : ℕ}
    (hid : id < plicMaxInterrupts) :
    (s.step platCpuNum interruptBitmap hypInterruptBitmap
      (.access (.complete vcntxt id))).NotWedged interruptBitmap := by
  rw [step, guestAccess, guestEffects, completeAny_of_lt platCpuNum _ vcntxt hid]
  split_ifs
  · intro i hassigned hclaimed
    have hassigned' : s.Assigned interruptBitmap i := hassigned
    dsimp only at hclaimed ⊢
    rw [source_vplicComplete]
    rw [vplicComplete] at hclaimed
    split_ifs with heq
    · rw [if_pos (heq ▸ hassigned'.2.2.2)] at hclaimed
      simp [applyEffect, heq] at hclaimed
    · refine h i hassigned' ?_
      dsimp only at hclaimed
      split_ifs at hclaimed
      · simpa [applyEffect, heq] using hclaimed
      · exact hclaimed
  · exact h

/-- An access that is no completion keeps the interrupts held exactly when it keeps
each claimed one held. -/
theorem notWedged_access_iff {a : Access} (ha : a.Below)
    (hcomplete : ∀ vcntxt id, a ≠ .complete vcntxt id) :
    (s.step platCpuNum interruptBitmap hypInterruptBitmap (.access a)).NotWedged
        interruptBitmap ↔
      ∀ id, s.Assigned interruptBitmap id → s.claimed id = true →
        ((s.vplic.access a).source id).Held := by
  rw [step, foldl_applyEffect_of_notMem
    (plicComplete_notMem_guestEffects platCpuNum s.vplic hcomplete),
    guestAccess_of_below platCpuNum s.vplic ha]
  refine forall_congr' fun id => ?_
  rw [assigned_of_hw_eq (hw_access s.vplic a)]

theorem notWedged_plicInject_iff (hroom : s.vplic.HasRoom)
    (h : s.NotWedged interruptBitmap) {id : ℕ} (hid : id < plicMaxInterrupts)
    (now : BitVec 64) :
    (s.step platCpuNum interruptBitmap hypInterruptBitmap
        (.access (.plicInject id now))).NotWedged interruptBitmap ↔
      s.KeepsHeld interruptBitmap (.access (.plicInject id now)) := by
  rw [notWedged_access_iff (a := .plicInject id now) hid (by simp)]
  constructor
  · intro h' hassigned hclaimed
    have hheld := h' id hassigned hclaimed
    rw [source_plicInject, if_pos rfl] at hheld
    exact (SourceState.held_plicInject_iff now (hroom id hassigned.1 hassigned.2.1)
      (h id hassigned hclaimed)).mp hheld
  · intro hkeeps i hassigned hclaimed
    rw [source_plicInject]
    split_ifs with heq
    · subst heq
      exact (SourceState.held_plicInject_iff now (hroom i hassigned.1 hassigned.2.1)
        (h i hassigned hclaimed)).mpr (hkeeps hassigned hclaimed)
    · exact h i hassigned hclaimed

theorem notWedged_step_iff (hroom : s.vplic.HasRoom) (h : s.NotWedged interruptBitmap)
    {a : HwIrqAct} (ha : a.Below) :
    (s.step platCpuNum interruptBitmap hypInterruptBitmap a).NotWedged interruptBitmap ↔
      s.KeepsHeld interruptBitmap a := by
  cases a with
  | plicHandle vcpuId id now => exact notWedged_plicHandle_iff hroom h vcpuId id now
  | access a =>
      cases a with
      | complete vcntxt id => exact iff_of_true (notWedged_complete h vcntxt ha) trivial
      | plicInject id now => exact notWedged_plicInject_iff hroom h ha now
      | setPrio id prio =>
          rw [notWedged_access_iff ha (by simp), access, vplicSetPrio]
          exact iff_of_true (by split_ifs <;> exact h) trivial
      | setEnbl vcntxt id set =>
          rw [notWedged_access_iff ha (by simp), access, vplicSetEnbl]
          exact iff_of_true (by split_ifs <;> exact h) trivial
      | setThreshold vcntxt threshold =>
          rw [notWedged_access_iff ha (by simp), access, vplicSetThreshold]
          exact iff_of_true (by split_ifs <;> exact h) trivial
      | claim vcntxt now =>
          rw [notWedged_access_iff ha (by simp), access]
          refine iff_of_true (fun i hassigned hclaimed => ?_) trivial
          have hheld := h i hassigned hclaimed
          split_ifs
          · rw [source_vplicClaim s.vplic vcntxt now hassigned.1 hassigned.2.1]
            refine SourceState.Held.drain now ?_
            split_ifs
            · exact .inr (.inl rfl)
            · exact hheld
          · exact hheld
      | inject vcpuId id now =>
          rw [notWedged_access_iff ha (by simp), access]
          refine iff_of_true (fun i hassigned hclaimed => ?_) trivial
          have hheld := h i hassigned hclaimed
          rw [source_vplicInject]
          split_ifs
          · rw [SourceState.held_inject_iff now (hroom i hassigned.1 hassigned.2.1)]
            rcases hheld with hpend | hact | hdeferred
            · exact .inl hpend
            · exact .inr (.inl hact)
            · exact .inr (.inr (.inl hdeferred.1))
          · exact hheld

theorem hasRoom_step (hroom : s.vplic.HasRoom) {a : HwIrqAct} (ha : a.Below) :
    (s.step platCpuNum interruptBitmap hypInterruptBitmap a).vplic.HasRoom := by
  cases a with
  | access a =>
      rw [step, guestAccess_of_below platCpuNum s.vplic ha]
      exact hroom.access a
  | plicHandle vcpuId id now =>
      rw [step, plicHandle, interruptsHandle]
      split_ifs
      · exact hroom.access (.inject vcpuId id now)
      all_goals exact hroom

end Machine

/-- A VM that is about to start, with no interrupt claimed. -/
def boot (cpuNum : ℕ) (criticality : VmCriticality) (now : BitVec 64) (hw : Bitmap) :
    HwIrqState where
  vplic := Vplic.boot cpuNum criticality now hw
  claimed := fun _ => false

/-- In a run whose accesses name interrupts below `plicMaxInterrupts`, the vPLIC
holds every claimed hardware interrupt after every step exactly when every step
meets its condition. -/
theorem along_notWedged_iff (platCpuNum cpuNum : ℕ) (interruptBitmap hypInterruptBitmap hw : Bitmap)
    (criticality : VmCriticality) (now : BitVec 64) (as : List HwIrqAct)
    (has : ∀ a ∈ as, a.Below) :
    Run.Along (step platCpuNum interruptBitmap hypInterruptBitmap)
        (fun s a => (s.step platCpuNum interruptBitmap hypInterruptBitmap a).NotWedged
          interruptBitmap)
        (boot cpuNum criticality now hw) as ↔
      Run.Along (step platCpuNum interruptBitmap hypInterruptBitmap)
        (KeepsHeld interruptBitmap) (boot cpuNum criticality now hw) as := by
  have hbelow : Run.Along (step platCpuNum interruptBitmap hypInterruptBitmap)
      (fun _ a => a.Below) (boot cpuNum criticality now hw) as :=
    Run.along_of_forall (fun a ha _ => has a ha) _
  exact hbelow.invariant_iff (J := fun s => s.vplic.HasRoom)
    (hasRoom_boot cpuNum criticality now hw) (fun _ _ hroom ha => hasRoom_step hroom ha)
    (fun _ _ hclaimed => absurd hclaimed Bool.false_ne_true)
    (fun _ _ hroom h ha => notWedged_step_iff hroom h ha)

def fiveBitmap : Bitmap := bitmapSet (fun _ => 0#32) 5

/-- An external interrupt of source 5, injected at once. -/
theorem along_notWedged_iff_once :
    Run.Along (step 4 fiveBitmap fun _ => 0#32)
        (fun s a => (s.step 4 fiveBitmap (fun _ => 0#32) a).NotWedged fiveBitmap)
        (boot 2 .low 0#64 fiveBitmap) [.plicHandle 0 5 0#64] ↔
      Run.Along (step 4 fiveBitmap fun _ => 0#32) (KeepsHeld fiveBitmap)
        (boot 2 .low 0#64 fiveBitmap) [.plicHandle 0 5 0#64] :=
  along_notWedged_iff 4 2 fiveBitmap (fun _ => 0#32) fiveBitmap .low 0#64
    [.plicHandle 0 5 0#64] (by decide)

/-- With the tokens used up and the buffer filled by `HC_PLIC_INJECT`, an external
interrupt is dropped. With the tokens used up it is deferred, and forgotten when
the guest completes 1029. -/
theorem not_notWedged_dropped :
    ¬ (Run.exec (step 4 fiveBitmap fun _ => 0#32) (boot 2 .low 0#64 fiveBitmap)
        (List.replicate 108 (.access (.plicInject 5 0#64)) ++
          [.plicHandle 0 5 0#64])).NotWedged fiveBitmap ∧
      ¬ (Run.exec (step 4 fiveBitmap fun _ => 0#32) (boot 2 .low 0#64 fiveBitmap)
        (List.replicate 100 (.access (.plicInject 5 0#64)) ++
          [.plicHandle 0 5 0#64, .access (.complete 1 1029)])).NotWedged fiveBitmap := by
  constructor
  · intro h
    have hfive := h 5 (by unfold Assigned; decide +kernel) (by decide +kernel)
    revert hfive
    unfold SourceState.Held
    decide +kernel
  · intro h
    have hfive := h 5 (by unfold Assigned; decide +kernel) (by decide +kernel)
    revert hfive
    unfold SourceState.Held
    decide +kernel

end HwIrqState

end BaoHypervisor
