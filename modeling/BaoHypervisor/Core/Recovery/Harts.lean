import BaoHypervisor.Core.Recovery.System
import BaoHypervisor.Core.Vmm.Assign

/-!
# Hart states after a recovery

At boot the first vCPU of a VM is started and the others are stopped, and vCPU
ids follow CPU numbers. A recovery resets every vCPU to the entry point, but it
starts the one on the master CPU: a slave goes by the id of its vCPU, the master
does not. The two rules agree exactly when the master is the lowest CPU of the
VM, which the race of `vmm_assign_vcpu` does not ensure.
-/

namespace BaoHypervisor

namespace RecoveryState

variable {platCpuNum : ℕ} {vm : Vm} {s : RecoveryState} {cpu : ℕ}

/-- The vCPU is as the recovery resets it on the CPU. -/
structure ResetAs (vm : Vm) (cpu : ℕ) (vcpu : Vcpu) : Prop where
  sepc : vcpu.regs.sepc = vm.config.entry
  state : vcpu.sbiCtx.state =
    if cpu = vm.master then .started else bootState (vm.vmCalcVcpuId cpu)

/-- No vCPU changes its id, and each vCPU that waits at the final barrier or has
passed it is as the recovery resets it. -/
structure HartsReset (vm : Vm) (s : RecoveryState) : Prop where
  id : ∀ cpu, (s.vcpus cpu).id = vm.vmCalcVcpuId cpu
  waiting : ∀ cpu nextCount, s.mode cpu = .waiting .reset nextCount →
    ResetAs vm cpu (s.vcpus cpu)
  resumed : ∀ cpu vcpu, s.resumed cpu = some vcpu → ResetAs vm cpu vcpu

theorem hartsReset_boot (vm : Vm) (now : BitVec 64) (vplic : Vplic) :
    HartsReset vm (boot vm now vplic) where
  id := vm.vmVcpuInit_id
  waiting := nofun
  resumed := nofun

/-! ## One step -/

theorem notReset_of_mode {mode : CpuMode} (hmode : s.mode cpu = mode)
    (hne : ∀ nextCount, mode ≠ .waiting .reset nextCount) : s.NotReset cpu :=
  fun nextCount heq => hne nextCount (hmode.symm.trans heq)

theorem HartsReset.setVcpu (h : HartsReset vm s) {vcpu : Vcpu}
    (hid : vcpu.id = (s.vcpus cpu).id) (hnot : s.NotReset cpu) :
    HartsReset vm (s.setVcpu cpu vcpu) where
  id := fun c => by
    dsimp only [RecoveryState.setVcpu]
    by_cases hc : c = cpu
    · rw [hc, Function.update_self, hid, h.id]
    · rw [Function.update_of_ne hc, h.id]
  waiting := fun c nextCount hmode => by
    have hc : c ≠ cpu := fun heq => hnot nextCount (heq ▸ hmode)
    dsimp only [RecoveryState.setVcpu]
    rw [Function.update_of_ne hc]
    exact h.waiting c nextCount hmode
  resumed := h.resumed

theorem HartsReset.cpuSyncBarrier (h : HartsReset vm s) {barrier : RecoveryBarrier}
    (hreset : barrier = .reset → ResetAs vm cpu (s.vcpus cpu)) :
    HartsReset vm (s.cpuSyncBarrier cpu barrier) where
  id := h.id
  waiting := fun c nextCount hmode => by
    dsimp only [RecoveryState.cpuSyncBarrier] at hmode
    by_cases hc : c = cpu
    · rw [hc, Function.update_self] at hmode
      injection hmode with hbarrier _
      rw [hc]
      exact hreset hbarrier
    · rw [Function.update_of_ne hc] at hmode
      exact h.waiting c nextCount hmode
  resumed := h.resumed

theorem HartsReset.join (h : HartsReset vm s) (hmode : s.mode cpu = .running) :
    HartsReset vm (s.join vm cpu) := by
  rw [join_eq]
  refine (h.setVcpu ?_ (notReset_of_mode hmode nofun)).cpuSyncBarrier fun heq => ?_
  · rfl
  · cases heq

theorem HartsReset.recoveryStart (h : HartsReset vm s) (hmode : s.mode cpu = .running)
    (result : VmHealth × Bool) : HartsReset vm (s.recoveryStart vm cpu result) := by
  rw [RecoveryState.recoveryStart]
  split_ifs
  · exact HartsReset.join ⟨h.id, h.waiting, h.resumed⟩ hmode
  · exact ⟨h.id, h.waiting, h.resumed⟩

theorem HartsReset.resetVcpu (h : HartsReset vm s) (hnot : s.NotReset cpu) {state : SbiState}
    (hstate : state = if cpu = vm.master then .started else bootState (vm.vmCalcVcpuId cpu)) :
    HartsReset vm
      ((s.setVcpu cpu (resetVcpu vm.config.entry state (s.vcpus cpu))).cpuSyncBarrier
        cpu .reset) := by
  refine (h.setVcpu (resetVcpu_id _ _ _) hnot).cpuSyncBarrier fun _ => ?_
  dsimp only [RecoveryState.setVcpu]
  rw [Function.update_self]
  exact ⟨resetVcpu_sepc _ _ _, (resetVcpu_state _ _ _).trans hstate⟩

theorem HartsReset.vcpuRun (h : HartsReset vm s) (hreset : ResetAs vm cpu (s.vcpus cpu)) :
    HartsReset vm (s.vcpuRun cpu) where
  id := fun c => by
    dsimp only [RecoveryState.vcpuRun, RecoveryState.setVcpu]
    by_cases hc : c = cpu
    · rw [hc, Function.update_self]
      exact h.id cpu
    · rw [Function.update_of_ne hc, h.id]
  waiting := fun c nextCount hmode => by
    dsimp only [RecoveryState.vcpuRun, RecoveryState.setVcpu] at hmode ⊢
    by_cases hc : c = cpu
    · rw [hc, Function.update_self] at hmode
      cases hmode
    · rw [Function.update_of_ne hc] at hmode ⊢
      exact h.waiting c nextCount hmode
  resumed := fun c vcpu hresumed => by
    dsimp only [RecoveryState.vcpuRun] at hresumed
    by_cases hc : c = cpu
    · rw [hc, Function.update_self] at hresumed
      injection hresumed with hvcpu
      rw [hc, ← hvcpu]
      exact ⟨hreset.sepc, hreset.state⟩
    · rw [Function.update_of_ne hc] at hresumed
      exact h.resumed c vcpu hresumed

theorem HartsReset.afterBarrier (h : HartsReset vm s) {barrier : RecoveryBarrier}
    (hleaves : s.Leaves cpu barrier) (now : BitVec 64) :
    HartsReset vm (s.afterBarrier vm cpu now barrier) := by
  obtain ⟨nextCount, hmode, -⟩ := hleaves
  cases barrier with
  | stopped => exact h.cpuSyncBarrier nofun
  | reset => exact h.vcpuRun (h.waiting cpu nextCount hmode)
  | installed =>
      have hnot : s.NotReset cpu := notReset_of_mode hmode nofun
      rw [RecoveryState.afterBarrier]
      split_ifs with hcpu
      · have hreset := h.resetVcpu hnot (if_pos hcpu).symm
        exact ⟨hreset.id, hreset.waiting, hreset.resumed⟩
      · refine h.resetVcpu hnot ?_
        rw [if_neg hcpu, ← h.id cpu]
        rfl

theorem HartsReset.step (h : HartsReset vm s) (a : RecoveryAct) :
    HartsReset vm (step platCpuNum vm s a) := by
  cases a with
  | heartbeat cpu now =>
      rw [RecoveryState.step]
      split_ifs
      · exact ⟨h.id, h.waiting, h.resumed⟩
      · exact h
  | check cpu now =>
      rw [RecoveryState.step]
      split_ifs with hfree
      · exact h.recoveryStart hfree.2 _
      · exact h
  | start cpu =>
      rw [RecoveryState.step]
      split_ifs with hfree
      · exact h.recoveryStart hfree.2 _
      · exact h
  | deliver cpu =>
      rw [RecoveryState.step]
      split_ifs with hfree
      · exact HartsReset.join ⟨h.id, h.waiting, h.resumed⟩ hfree.1.2
      · exact h
  | proceed cpu now =>
      rw [RecoveryState.step]
      split_ifs
      · rcases proceed_cases vm s cpu now with ⟨-, heq⟩ | ⟨barrier, hleaves, heq⟩
        · rw [heq]
          exact h
        · rw [heq]
          exact h.afterBarrier hleaves now
      · exact h
  | access cpu access =>
      rw [RecoveryState.step]
      split_ifs
      · exact ⟨h.id, h.waiting, h.resumed⟩
      · exact h
  | guest cpu target vcpu =>
      rw [RecoveryState.step]
      split_ifs with hguest
      · exact h.setVcpu rfl hguest.2
      · exact h

theorem hartsReset_exec (platCpuNum : ℕ) (vm : Vm) (now : BitVec 64) (vplic : Vplic)
    (as : List RecoveryAct) :
    HartsReset vm (Run.exec (RecoveryState.step platCpuNum vm) (boot vm now vplic) as) :=
  Run.exec_invariant (hartsReset_boot vm now vplic) (fun _ a h => h.step a) as

/-! ## Recovery and boot -/

/-- The vCPU of each CPU passed the final barrier at the entry point and in the
hart state it had at boot. -/
def ResumedAsBooted (vm : Vm) (s : RecoveryState) : Prop :=
  ∀ cpu, vm.HasCpu cpu → ∀ vcpu, s.resumed cpu = some vcpu →
    vcpu.regs.sepc = vm.config.entry ∧
      vcpu.sbiCtx.state = (vm.vmVcpuInit cpu).sbiCtx.state

theorem resetAs_booted_iff {vcpu : Vcpu} (h : ResetAs vm cpu vcpu) :
    (vcpu.regs.sepc = vm.config.entry ∧
        vcpu.sbiCtx.state = (vm.vmVcpuInit cpu).sbiCtx.state) ↔
      (cpu = vm.master → vm.vmCalcVcpuId cpu = 0) := by
  have hboot : (vm.vmVcpuInit cpu).sbiCtx.state = bootState (vm.vmCalcVcpuId cpu) := rfl
  rw [hboot, h.state, bootState, and_iff_right h.sepc]
  by_cases hcpu : cpu = vm.master
  · rw [if_pos hcpu]
    by_cases hzero : vm.vmCalcVcpuId cpu = 0
    · simp [hzero]
    · simp [hcpu]
  · simp [hcpu]

/-- After a recovery of all its CPUs a VM is as booted exactly when the vCPU of
its master is the first one. -/
theorem resumedAsBooted_iff (hreset : HartsReset vm s) (hmaster : vm.HasCpu vm.master)
    (hrecovered : Recovered vm s) :
    ResumedAsBooted vm s ↔ ∀ c < vm.master, ¬ vm.HasCpu c := by
  rw [← vm.vmCalcVcpuId_eq_zero_iff]
  constructor
  · intro hbooted
    obtain ⟨vcpu, hvcpu⟩ := Option.isSome_iff_exists.mp (hrecovered vm.master hmaster)
    exact (resetAs_booted_iff (hreset.resumed _ _ hvcpu)).mp
      (hbooted vm.master hmaster vcpu hvcpu) rfl
  · intro hzero c _ vcpu hvcpu
    exact (resetAs_booted_iff (hreset.resumed _ _ hvcpu)).mpr fun heq => heq ▸ hzero

/-- The VM that an assignment makes: `vm_master_init` on the master, and
`vm_cpu_init` on each of its CPUs. -/
def assignedVm (config : Config) (cpuNum : ℕ) (assignment : AssignState) (i m : ℕ) : Vm where
  config := config.vmlist.getD i default
  master := m
  cpus := assignment.vmCpus i cpuNum

/-- For every assignment of CPUs and every run from boot in which all CPUs of
the VM complete a recovery, the harts are as at boot exactly when no CPU of the
VM has a lower number than the master. -/
theorem recovered_resumedAsBooted_iff (config : Config) {cpuNum : ℕ} (hcpus : cpuNum ≤ 64)
    (schedule : List ℕ) {i m : ℕ}
    (hm : (AssignState.after config cpuNum schedule).stage m = .done (some ⟨i, true⟩))
    (now : BitVec 64) (vplic : Vplic) (as : List RecoveryAct) :
    let assignment := AssignState.after config cpuNum schedule
    let vm := assignedVm config cpuNum assignment i m
    let s := Run.exec (RecoveryState.step cpuNum vm) (boot vm now vplic) as
    Recovered vm s →
      (ResumedAsBooted vm s ↔ ∀ c < m, ¬ assignment.AssignedTo i c) := by
  intro assignment vm s hrecovered
  have hhas : ∀ c, vm.HasCpu c ↔ assignment.AssignedTo i c := fun c =>
    (assignment.getLsbD_vmCpus i hcpus c).trans
      (and_iff_right_of_imp AssignState.lt_of_assignedTo)
  rw [resumedAsBooted_iff (hartsReset_exec cpuNum vm now vplic as) ((hhas m).mpr (.inl hm))
    hrecovered]
  simp only [hhas]
  rfl

def pairConfig : Config := { shmemlist := [], vmlist := [pairVmConfig] }

/-- CPU 0 takes the lock of the VM first and becomes the master. -/
theorem recovered_resumedAsBooted_first :
    let vm := assignedVm pairConfig 2 (AssignState.after pairConfig 2 [0, 1, 0, 1]) 0 0
    ResumedAsBooted vm
      (Run.exec (RecoveryState.step 2 vm) (boot vm 0#64 Vplic.zero) pairRecovery) :=
  (recovered_resumedAsBooted_iff pairConfig (by decide) [0, 1, 0, 1] (by decide) 0#64 Vplic.zero
    pairRecovery (by decide)).mpr nofun

/-- CPU 1 takes the lock first. Its vCPU is the second one, stopped at boot, and
comes out of the recovery started. -/
theorem recovered_not_resumedAsBooted_second :
    let assignment := AssignState.after pairConfig 2 [1, 0, 1, 0]
    let vm := assignedVm pairConfig 2 assignment 0 1
    let s := Run.exec (RecoveryState.step 2 vm) (boot vm 0#64 Vplic.zero) pairRecovery
    assignment.stage 1 = .done (some ⟨0, true⟩) ∧ Recovered vm s ∧ ¬ ResumedAsBooted vm s := by
  refine ⟨by decide, by decide, fun h => ?_⟩
  have hstate := (h 1 (by decide) _ rfl).2
  revert hstate
  decide

end RecoveryState

end BaoHypervisor
