import BaoHypervisor.Arch.Riscv.Vplic.Bits
import BaoHypervisor.Core.Recovery.System

/-!
# Interrupts after a recovery

The state of the vPLIC belongs to the VM and not to a vCPU, and no function of a
recovery touches it. A recovered guest therefore meets the interrupt state that
the failed one left behind: it is that of `vplic_init` only if the accesses have
cleared again each bit that they had set. In particular a source that was claimed
and not completed stays active, and nothing but its completion lets it be
delivered again.
-/

namespace BaoHypervisor

namespace Vplic

/-- A guest cannot tell the two vPLICs apart by its interrupt state. -/
structure SameObservable (v w : Vplic) : Prop where
  pend : ∀ id < plicMaxInterrupts, v.vplicGetPend id = w.vplicGetPend id
  act : ∀ id < plicMaxInterrupts, v.vplicGetAct id = w.vplicGetAct id
  deferred : ∀ id < plicMaxInterrupts,
    Bitmap.bitmapGet v.deferred id = Bitmap.bitmapGet w.deferred id
  enbl : ∀ vcntxt < w.cntxtNum, ∀ id < plicMaxInterrupts,
    v.vplicGetEnbl id vcntxt = w.vplicGetEnbl id vcntxt
  prio : ∀ id < plicMaxInterrupts, v.vplicGetPrio id = w.vplicGetPrio id
  threshold : ∀ vcntxt < w.cntxtNum, v.threshold vcntxt = w.threshold vcntxt

/-- Two vPLICs are the same to a guest if all the bits that it sees are. -/
theorem sameObservable_iff {v w : Vplic} :
    SameObservable v w ↔ ∀ b : VplicBit, b.Observable w.cntxtNum → v.bit b = w.bit b := by
  have hid : ∀ {id : ℕ} {x y : Bool}, id < plicMaxInterrupts →
      ((decide (id ≤ plicMaxInterrupts) && x) = (decide (id ≤ plicMaxInterrupts) && y) ↔
        x = y) := by
    intro id x y hid
    rw [decide_eq_true hid.le, Bool.true_and, Bool.true_and]
  have hprio : ∀ (u : Vplic) {id : ℕ}, id < plicMaxInterrupts → u.vplicGetPrio id = u.prio id :=
    fun u id hid => if_pos hid.le
  constructor
  · intro h b hb
    cases b with
    | pend id => exact (hid hb).mp (h.pend id hb)
    | act id => exact (hid hb).mp (h.act id hb)
    | deferred id => exact h.deferred id hb
    | enbl vcntxt id => exact (hid hb.2).mp (h.enbl vcntxt hb.1 id hb.2)
    | prio bit =>
        refine Bitmap.forall_word_eq_iff.mp (fun id hlt => ?_) bit hb
        rw [← hprio v hlt, ← hprio w hlt]
        exact h.prio id hlt
    | threshold bit => exact Bitmap.forall_word_eq_iff.mp h.threshold bit hb
  · intro h
    refine ⟨fun id hlt => (hid hlt).mpr (h (.pend id) hlt),
      fun id hlt => (hid hlt).mpr (h (.act id) hlt), fun id hlt => h (.deferred id) hlt,
      fun vcntxt hcntxt id hlt => (hid hlt).mpr (h (.enbl vcntxt id) ⟨hcntxt, hlt⟩),
      fun id hlt => ?_, Bitmap.forall_word_eq_iff.mpr fun bit hbit => h (.threshold bit) hbit⟩
    rw [hprio v hlt, hprio w hlt]
    exact Bitmap.forall_word_eq_iff.mpr (fun bit hbit => h (.prio bit) hbit) id hlt

theorem vplicGetAct_exec (platCpuNum : ℕ) {v : Vplic} {id : ℕ} (hact : v.vplicGetAct id = true)
    (as : List Access) (has : ∀ vcntxt, .complete vcntxt id ∉ as) :
    (Run.exec (guestAccess platCpuNum) v as).vplicGetAct id = true := by
  induction as generalizing v with
  | nil => exact hact
  | cons a as ih =>
      refine ih (vplicGetAct_guestAccess platCpuNum hact fun vcntxt heq => ?_)
        fun vcntxt hmem => ?_
      · exact has vcntxt (List.mem_cons.mpr (.inl heq.symm))
      · exact has vcntxt (List.mem_cons_of_mem _ hmem)

end Vplic

namespace RecoveryState

open Vplic

def vplicAccess (vm : Vm) (s : RecoveryState) : RecoveryAct → Option Access
  | .access cpu access => if s.Free vm cpu ∧ access.Emulated then some access else none
  | _ => none

def vplicAccesses (platCpuNum : ℕ) (vm : Vm) (s : RecoveryState) (as : List RecoveryAct) :
    List Access :=
  Run.emitted (step platCpuNum vm) (fun s a => (vplicAccess vm s a).toList) s as

theorem vplic_recoveryStart (vm : Vm) (s : RecoveryState) (cpu : ℕ)
    (result : VmHealth × Bool) : (s.recoveryStart vm cpu result).vplic = s.vplic := by
  rw [recoveryStart]
  split_ifs
  · rw [vplic_join]
    rfl
  · rfl

theorem vplic_afterBarrier (vm : Vm) (s : RecoveryState) (cpu : ℕ) (now : BitVec 64)
    (barrier : RecoveryBarrier) : (s.afterBarrier vm cpu now barrier).vplic = s.vplic := by
  cases barrier with
  | stopped => rfl
  | reset => rfl
  | installed =>
      rw [afterBarrier]
      split_ifs <;> rfl

/-- Nothing but an access changes the vPLIC. -/
theorem vplic_step (platCpuNum : ℕ) (vm : Vm) (s : RecoveryState) (a : RecoveryAct) :
    (step platCpuNum vm s a).vplic =
      Run.exec (guestAccess platCpuNum) s.vplic (vplicAccess vm s a).toList := by
  cases a with
  | heartbeat cpu now =>
      rw [step]
      split_ifs <;> rfl
  | check cpu now =>
      rw [step]
      split_ifs
      · exact vplic_recoveryStart vm s cpu _
      · rfl
  | start cpu =>
      rw [step]
      split_ifs
      · exact vplic_recoveryStart vm s cpu _
      · rfl
  | deliver cpu =>
      rw [step]
      split_ifs
      · exact vplic_join vm _ cpu
      · rfl
  | proceed cpu now =>
      rw [step]
      split_ifs
      · rcases proceed_cases vm s cpu now with ⟨-, heq⟩ | ⟨barrier, -, heq⟩
        · rw [heq]
          rfl
        · rw [heq]
          exact vplic_afterBarrier vm s cpu now barrier
      · rfl
  | access cpu access =>
      rw [step, vplicAccess]
      split_ifs <;> rfl
  | guest cpu target vcpu =>
      rw [step]
      split_ifs <;> rfl

theorem vplic_exec (platCpuNum : ℕ) (vm : Vm) (s : RecoveryState) (as : List RecoveryAct) :
    (Run.exec (step platCpuNum vm) s as).vplic =
      Run.exec (guestAccess platCpuNum) s.vplic (vplicAccesses platCpuNum vm s as) := by
  have hstep : ∀ (s : RecoveryState) (v : Vplic) (a : RecoveryAct), s.vplic = v →
      (step platCpuNum vm s a).vplic =
        Run.exec (guestAccess platCpuNum) v (vplicAccess vm s a).toList :=
    fun s v a hv => hv ▸ vplic_step platCpuNum vm s a
  exact Run.exec_simulates (R := fun (s : RecoveryState) v => s.vplic = v) hstep rfl as

/-- For every history before a recovery of all CPUs: the guest sees the interrupt
state of `vplic_init` afterwards exactly when for each bit that it sees the last
access that writes it, if any did, has cleared it. The accesses are those of the
history and those that CPUs still make while the recovery goes on. A source that
was active is delivered to no context until it is completed. -/
theorem recovered_sameObservable_iff (platCpuNum : ℕ) (vm : Vm) (criticality : VmCriticality)
    (t now : BitVec 64) (hw : Bitmap) (history recovery : List RecoveryAct) :
    let v := Vplic.boot vm.config.cpuNum criticality t hw
    let s := Run.exec (step platCpuNum vm) (boot vm now v) history
    let s' := Run.exec (step platCpuNum vm) s recovery
    Recovered vm s' →
      (SameObservable s'.vplic v ↔
        ∀ b : VplicBit, b.Observable v.cntxtNum →
          v.LeftClear platCpuNum
            (vplicAccesses platCpuNum vm (boot vm now v) (history ++ recovery)) b) ∧
        ∀ id, 0 < id → s.vplic.vplicGetAct id = true →
          ∀ later : List Access,
            (∀ vcntxt, .complete vcntxt id ∉ vplicAccesses platCpuNum vm s recovery ++ later) →
            ∀ vcntxt, (Run.exec (guestAccess platCpuNum) s'.vplic later).vplicNextPending vcntxt ≠
              id := by
  intro v s s' _
  constructor
  · have hvplic : s'.vplic = Run.exec (guestAccess platCpuNum) v
        (vplicAccesses platCpuNum vm (boot vm now v) (history ++ recovery)) := by
      have hs' : s' = Run.exec (step platCpuNum vm) (boot vm now v) (history ++ recovery) :=
        (Run.exec_append _ _ _ _).symm
      rw [hs', vplic_exec]
      rfl
    rw [sameObservable_iff, hvplic]
    refine forall₂_congr fun b _ => ?_
    have hclear : v.bit b = false := bit_boot _ _ _ _ b
    rw [hclear]
    exact bit_exec_eq_false_iff platCpuNum _ hclear
  · intro id hid hact later hlater vcntxt
    have hvplic : s'.vplic =
        Run.exec (guestAccess platCpuNum) s.vplic (vplicAccesses platCpuNum vm s recovery) :=
      vplic_exec platCpuNum vm s recovery
    rw [hvplic, ← Run.exec_append]
    exact vplicNextPending_ne_of_act hid (vplicGetAct_exec platCpuNum hact _ hlater) vcntxt

def undoneHistory : List RecoveryAct :=
  [.access 0 (.setPrio 5 1#32), .access 0 (.setPrio 5 0#32)]

/-- A recovery of a VM whose guest has taken back all that it had set. -/
theorem recovered_sameObservable_undone :
    let v := Vplic.boot 2 .low 0#64 (fun _ => 0#32)
    SameObservable
      (Run.exec (step 2 pairVm) (Run.exec (step 2 pairVm) (boot pairVm 0#64 v) undoneHistory)
        pairRecovery).vplic v := by
  refine (recovered_sameObservable_iff 2 pairVm .low 0#64 0#64 (fun _ => 0#32) undoneHistory
    pairRecovery (by decide)).1.mpr fun b _ => ?_
  have haccesses : vplicAccesses 2 pairVm
      (boot pairVm 0#64 (Vplic.boot pairVm.config.cpuNum .low 0#64 fun _ => 0#32))
      (undoneHistory ++ pairRecovery) = [.setPrio 5 1#32, .setPrio 5 0#32] := by decide
  rw [haccesses, LeftClear, bitWrites]
  intro set hset
  cases b with
  | prio bit =>
      simp only [Run.emitted, writes, List.append_nil] at hset
      split_ifs at hset with h
      · simpa using hset.symm
      · cases hset
  | _ => cases hset

/-- The guest on CPU 0 enables source 5, takes it and hangs before it completes
it. -/
def claimedHistory : List RecoveryAct :=
  [.access 0 (.setPrio 5 1#32), .access 0 (.setEnbl 1 5 true), .access 0 (.inject 0 5 0#64),
    .access 0 (.claim 1 0#64)]

/-- Source 5 is the only candidate once it is injected. -/
theorem vplicNextPending_injected {v : Vplic}
    (hv : v = Run.exec (guestAccess 2) (Vplic.boot 2 .low 0#64 fun _ => 0#32)
      [.setPrio 5 1#32, .setEnbl 1 5 true, .inject 0 5 0#64]) :
    v.vplicNextPending 1 = 5 := by
  have hpend : v.pend = Bitmap.bitmapSet (fun _ => 0#32) 5 := by rw [hv]; rfl
  have hcand : v.candidate 1 5 = true := by rw [hv]; rfl
  have hunique : ∀ i, i ≠ 5 → v.candidate 1 i = false := by
    intro i hi
    have hget : Bitmap.bitmapGet (fun _ => 0#32) i = false := by
      simp [Bitmap.bitmapGet_eq_getLsbD]
    rw [candidate, vplicGetPend, hpend, Bitmap.bitmapGet_bitmapSet, hget, decide_eq_false hi]
    simp
  have hprio : v.vplicGetPrio 5 = 1#32 := by rw [hv]; rfl
  have hthreshold : v.threshold 1 = 0#32 := by rw [hv]; rfl
  have hmem : 5 ∈ List.range (plicMaxInterrupts + 1) := List.mem_range.mpr (by decide)
  rw [vplicNextPending, nextPendingLoop_of_unique hcand hunique _
    (.inl (by rw [hprio]; decide)), if_pos hmem, hprio, hthreshold]
  rfl

theorem recovered_not_sameObservable_claimed :
    let v := Vplic.boot 2 .low 0#64 (fun _ => 0#32)
    let s := Run.exec (step 2 pairVm) (boot pairVm 0#64 v) (claimedHistory ++ pairRecovery)
    Recovered pairVm s ∧ s.vplic.vplicGetAct 5 = true ∧ ¬ SameObservable s.vplic v := by
  intro v s
  have haccesses : vplicAccesses 2 pairVm (boot pairVm 0#64 v) (claimedHistory ++ pairRecovery) =
      [.setPrio 5 1#32, .setEnbl 1 5 true, .inject 0 5 0#64] ++ [.claim 1 0#64] := by decide
  have hact : s.vplic.vplicGetAct 5 = true := by
    rw [vplic_exec, haccesses, Run.exec_concat]
    obtain ⟨w, hw⟩ : ∃ w, w = Run.exec (guestAccess 2) (Vplic.boot 2 .low 0#64 fun _ => 0#32)
      [.setPrio 5 1#32, .setEnbl 1 5 true, .inject 0 5 0#64] := ⟨_, rfl⟩
    have hvalid : w.vcntxtValid 1 = true := by rw [hw]; rfl
    have hboot : (boot pairVm 0#64 v).vplic = v := rfl
    rw [hboot, ← hw]
    change (w.access (.claim 1 0#64)).vplicGetAct 5 = true
    rw [access, if_pos hvalid]
    exact vplicGetAct_vplicClaim 0#64 (vplicNextPending_injected hw) (by decide)
  refine ⟨by decide, hact, fun h => ?_⟩
  have hnot := h.act 5 (by decide)
  rw [hact] at hnot
  revert hnot
  decide

end RecoveryState

end BaoHypervisor
