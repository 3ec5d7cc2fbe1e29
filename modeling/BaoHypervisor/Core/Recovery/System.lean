import BaoHypervisor.Arch.Riscv.Vplic.Layout
import BaoHypervisor.Core.Health.Monitor
import BaoHypervisor.Core.Vm
import BaoHypervisor.Theory.Run

/-!
# Recovery on the CPUs of a VM

A recovery starts on whatever CPU finds the VM unhealthy. That CPU sends
`VM_RESET` to the others, and each of them joins when it takes the message. The
master re-installs the image between the first two barriers, every CPU resets
its vCPU between the last two, and all resume behind the third one.

A state holds what the CPUs of one VM share and where each of them is; an action
is one function running on one CPU up to its next barrier. A CPU that waits at a
barrier takes no interrupts, so only `proceed` moves it. An action that cannot
happen in a state leaves it as it is.
-/

namespace BaoHypervisor

/-- The barriers of a recovery: all CPUs have stopped, the image is installed,
all vCPUs are reset. -/
inductive RecoveryBarrier
  | stopped
  | installed
  | reset
deriving DecidableEq, Repr

/-- A CPU runs its guest, or idles, or waits at a barrier of a recovery for the
count to reach a value. -/
inductive CpuMode
  | running
  | waiting (barrier : RecoveryBarrier) (nextCount : ℕ)
deriving DecidableEq, Repr

/-- The state of a VM that its CPUs share. The vCPUs are given by their CPUs,
`pendingResets` counts the `VM_RESET` messages of a CPU that it has not taken,
and three fields record the past: the number of broadcasts, whether a recovery
has started and not yet reached `health_monitor_init`, and the vCPU that each
CPU last passed the final barrier with. -/
structure RecoveryState where
  health : VmHealth
  vplic : Vplic
  sync : CpuSynctoken
  vcpus : ℕ → Vcpu
  mode : ℕ → CpuMode
  pendingResets : ℕ → ℕ
  broadcasts : ℕ
  underway : Bool
  resumed : ℕ → Option Vcpu

/-- One function on one CPU. `guest` is any other progress of a guest, which may
change the vCPU of its own or, by way of the SBI, of another CPU. -/
inductive RecoveryAct
  | heartbeat (cpu : ℕ) (now : BitVec 64)
  | check (cpu : ℕ) (now : BitVec 64)
  | start (cpu : ℕ)
  | deliver (cpu : ℕ)
  | proceed (cpu : ℕ) (now : BitVec 64)
  | access (cpu : ℕ) (access : Vplic.Access)
  | guest (cpu target : ℕ) (vcpu : Vcpu)

namespace RecoveryState

/-- The VM when its CPUs first enter their guests, having passed the five
barriers of `vm_init` and `vmm_init`. -/
def boot (vm : Vm) (now : BitVec 64) (vplic : Vplic) : RecoveryState where
  health := healthMonitorInit vm.config.health now VmHealth.zero
  vplic := vplic
  sync := { CpuSynctoken.cpuSyncInit vm.config.cpuNum with count := 5 * vm.config.cpuNum }
  vcpus := fun cpu => { vm.vmVcpuInit cpu with active := true }
  mode := fun _ => .running
  pendingResets := fun _ => 0
  broadcasts := 0
  underway := false
  resumed := fun _ => none

section Functions

variable (vm : Vm) (s : RecoveryState) (cpu : ℕ)

def setVcpu (vcpu : Vcpu) : RecoveryState :=
  { s with vcpus := Function.update s.vcpus cpu vcpu }

def cpuSyncBarrier (barrier : RecoveryBarrier) : RecoveryState :=
  { s with
    sync := s.sync.cpuSyncBarrier.1
    mode := Function.update s.mode cpu (.waiting barrier s.sync.cpuSyncBarrier.2) }

/-- `vm_recovery_execute` up to its first barrier. -/
def vmRecoveryExecute : RecoveryState := s.cpuSyncBarrier cpu .stopped

/-- `vm_recovery_slave_execute` up to its first barrier. -/
def vmRecoverySlaveExecute : RecoveryState :=
  (s.setVcpu cpu { s.vcpus cpu with active := false }).cpuSyncBarrier cpu .stopped

def join : RecoveryState :=
  if cpu = vm.master then s.vmRecoveryExecute cpu else s.vmRecoverySlaveExecute cpu

/-- `vm_msg_broadcast` of `VM_RESET`. -/
def vmMsgBroadcast : RecoveryState :=
  { s with
    pendingResets := fun i => s.pendingResets i + (vm.vmMsgBroadcast cpu).count i
    broadcasts := s.broadcasts + 1 }

/-- What becomes of the health a check or a start leaves, with the rest of
`vm_recovery_start` if it goes on. -/
def recoveryStart (result : VmHealth × Bool) : RecoveryState :=
  if result.2 then
    ({ s with health := result.1, underway := true }.vmMsgBroadcast vm cpu).join vm cpu
  else { s with health := result.1 }

/-- `vm_recovery_execute` between its second and its third barrier. -/
def resetMaster (now : BitVec 64) : RecoveryState :=
  { s.setVcpu cpu (resetVcpu vm.config.entry .started (s.vcpus cpu)) with
    health := healthMonitorInit vm.config.health now s.health
    underway := false }

/-- `vm_recovery_slave_execute` between its second and its third barrier. -/
def resetSlave : RecoveryState :=
  s.setVcpu cpu
    (resetVcpu vm.config.entry (if (s.vcpus cpu).id = 0 then .started else .stopped)
      (s.vcpus cpu))

/-- `vcpu_run` behind the final barrier. -/
def vcpuRun : RecoveryState :=
  { s.setVcpu cpu { s.vcpus cpu with active := true } with
    mode := Function.update s.mode cpu .running
    resumed := Function.update s.resumed cpu (some { s.vcpus cpu with active := true }) }

/-- What a CPU does behind a barrier, up to the next one. The image that the
master re-installs behind the first barrier is not part of the state. -/
def afterBarrier (now : BitVec 64) : RecoveryBarrier → RecoveryState
  | .stopped => s.cpuSyncBarrier cpu .installed
  | .installed =>
      (if cpu = vm.master then s.resetMaster vm cpu now else s.resetSlave vm cpu).cpuSyncBarrier
        cpu .reset
  | .reset => s.vcpuRun cpu

def proceed (now : BitVec 64) : RecoveryState :=
  match s.mode cpu with
  | .running => s
  | .waiting barrier nextCount =>
      if nextCount ≤ s.sync.count then s.afterBarrier vm cpu now barrier else s

def Free : Prop := vm.HasCpu cpu ∧ s.mode cpu = .running

def GuestRuns : Prop := s.Free vm cpu ∧ (s.vcpus cpu).sbiCtx.state = .started

instance : Decidable (s.Free vm cpu) := inferInstanceAs (Decidable (_ ∧ _))

instance : Decidable (s.GuestRuns vm cpu) := inferInstanceAs (Decidable (_ ∧ _))

def NotReset : Prop := ∀ nextCount, s.mode cpu ≠ .waiting .reset nextCount

instance : Decidable (s.NotReset cpu) :=
  match h : s.mode cpu with
  | .waiting .reset nextCount => isFalse fun hnot => hnot nextCount h
  | .waiting .stopped _ => isTrue fun _ heq => by rw [h] at heq; cases heq
  | .waiting .installed _ => isTrue fun _ heq => by rw [h] at heq; cases heq
  | .running => isTrue fun _ heq => by rw [h] at heq; cases heq

end Functions

/-- One action, on a platform of `platCpuNum` CPUs. A guest does not touch a vCPU that waits,
reset, at the final barrier, and no guest changes the id of a vCPU. -/
def step (platCpuNum : ℕ) (vm : Vm) (s : RecoveryState) : RecoveryAct → RecoveryState
  | .heartbeat cpu now =>
      if s.GuestRuns vm cpu then { s with health := healthMonitorHeartbeat now s.health } else s
  | .check cpu now =>
      if s.Free vm cpu then
        s.recoveryStart vm cpu (healthMonitorCheck vm.config.health now s.health)
      else s
  | .start cpu =>
      if s.Free vm cpu then
        s.recoveryStart vm cpu (vmRecoveryStart vm.config.health s.health)
      else s
  | .deliver cpu =>
      if s.Free vm cpu ∧ 0 < s.pendingResets cpu then
        { s with
          pendingResets := Function.update s.pendingResets cpu (s.pendingResets cpu - 1) }.join
            vm cpu
      else s
  | .proceed cpu now => if vm.HasCpu cpu then s.proceed vm cpu now else s
  | .access cpu access =>
      if s.Free vm cpu ∧ access.Emulated then
        { s with vplic := s.vplic.guestAccess platCpuNum access }
      else s
  | .guest cpu target vcpu =>
      if s.GuestRuns vm cpu ∧ s.NotReset target then
        s.setVcpu target { vcpu with id := (s.vcpus target).id }
      else s

def Recovered (vm : Vm) (s : RecoveryState) : Prop :=
  ∀ cpu, vm.HasCpu cpu → (s.resumed cpu).isSome = true

instance (vm : Vm) (s : RecoveryState) : Decidable (Recovered vm s) :=
  decidable_of_iff (∀ cpu < 64, vm.HasCpu cpu → (s.resumed cpu).isSome = true)
    ⟨fun h cpu hcpu => h cpu hcpu.lt hcpu, fun h cpu _ hcpu => h cpu hcpu⟩

def pairVmConfig : VmConfig :=
  { (default : VmConfig) with
    entry := 0x80200000#64
    cpuAffinity := 3#64
    cpuNum := 2
    health := ⟨true, 1#64, 1#32, true, 0#32⟩ }

def pairVm : Vm where
  config := pairVmConfig
  master := 0
  cpus := 3#64

def pairRecovery : List RecoveryAct :=
  [.check 0 20000#64, .deliver 1, .proceed 0 20100#64, .proceed 1 20100#64,
    .proceed 0 20200#64, .proceed 1 20200#64, .proceed 0 20300#64, .proceed 1 20300#64]

/-! ## Joining and proceeding -/

section Lemmas

variable (vm : Vm) (s : RecoveryState) (cpu : ℕ)

/-- To join a recovery is to enter its first barrier, with the vCPU at most made
inactive. -/
theorem join_eq :
    s.join vm cpu =
      (s.setVcpu cpu { s.vcpus cpu with
        active := if cpu = vm.master then (s.vcpus cpu).active else false }).cpuSyncBarrier
          cpu .stopped := by
  rw [join]
  split_ifs
  · rw [vmRecoveryExecute, setVcpu, Function.update_eq_self]
  · rfl

@[simp] theorem health_join : (s.join vm cpu).health = s.health := by rw [join_eq]; rfl

@[simp] theorem vplic_join : (s.join vm cpu).vplic = s.vplic := by rw [join_eq]; rfl

@[simp] theorem broadcasts_join : (s.join vm cpu).broadcasts = s.broadcasts := by
  rw [join_eq]; rfl

@[simp] theorem underway_join : (s.join vm cpu).underway = s.underway := by rw [join_eq]; rfl

/-- A CPU that may leave its barrier. -/
def Leaves (barrier : RecoveryBarrier) : Prop :=
  ∃ nextCount, s.mode cpu = .waiting barrier nextCount ∧ nextCount ≤ s.sync.count

instance (barrier : RecoveryBarrier) : Decidable (s.Leaves cpu barrier) :=
  match h : s.mode cpu with
  | .running => isFalse fun ⟨_, heq, _⟩ => by rw [h] at heq; cases heq
  | .waiting barrier' nextCount =>
      if hle : barrier' = barrier ∧ nextCount ≤ s.sync.count then
        isTrue ⟨nextCount, by rw [h, hle.1], hle.2⟩
      else
        isFalse fun ⟨_, heq, hcount⟩ => by
          rw [h] at heq
          injection heq with hbarrier hnext
          exact hle ⟨hbarrier, hnext ▸ hcount⟩

/-- A CPU proceeds behind the barrier it may leave, or stays where it is. -/
theorem proceed_cases (now : BitVec 64) :
    ((∀ barrier, ¬ s.Leaves cpu barrier) ∧ s.proceed vm cpu now = s) ∨
      ∃ barrier, s.Leaves cpu barrier ∧
        s.proceed vm cpu now = s.afterBarrier vm cpu now barrier := by
  rw [proceed]
  cases hmode : s.mode cpu with
  | running =>
      refine .inl ⟨?_, rfl⟩
      rintro barrier ⟨nextCount, heq, -⟩
      rw [hmode] at heq
      cases heq
  | waiting barrier nextCount =>
      dsimp only
      split_ifs with hcount
      · exact .inr ⟨barrier, ⟨nextCount, hmode, hcount⟩, rfl⟩
      · refine .inl ⟨?_, rfl⟩
        rintro barrier' ⟨nextCount', heq, hle⟩
        rw [hmode] at heq
        injection heq with _ hnext
        exact hcount (hnext ▸ hle)

theorem Leaves.unique {barrier barrier' : RecoveryBarrier} {s : RecoveryState} {cpu : ℕ}
    (h : s.Leaves cpu barrier) (h' : s.Leaves cpu barrier') : barrier = barrier' := by
  obtain ⟨nextCount, heq, -⟩ := h
  obtain ⟨nextCount', heq', -⟩ := h'
  rw [heq] at heq'
  injection heq'

end Lemmas

end RecoveryState

end BaoHypervisor
