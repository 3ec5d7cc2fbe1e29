import BaoHypervisor.Arch.Riscv.Vcpu
import BaoHypervisor.Core.Config
import BaoHypervisor.Lib.Bitmap

/-!
# VMs, their vCPUs and their barriers

A VM knows the physical CPUs that were assigned to it. The id of a vCPU is the
number of CPUs of the VM below its own, so ids follow CPU numbers, whatever CPU
is the master. The CPUs of a VM meet at the barriers of its `cpu_synctoken`,
whose counts are natural numbers here.
-/

namespace BaoHypervisor

/-- `struct cpu_synctoken`, with counts that do not wrap. -/
structure CpuSynctoken where
  n : ℕ
  count : ℕ
deriving DecidableEq, Repr, Inhabited

namespace CpuSynctoken

def cpuSyncInit (n : ℕ) : CpuSynctoken := { n := n, count := 0 }

/-- The entry of `cpu_sync_barrier`: the token it leaves, and the count that the
CPU then waits for. -/
def cpuSyncBarrier (token : CpuSynctoken) : CpuSynctoken × ℕ :=
  ({ token with count := token.count + 1 },
    (token.count + 1 + token.n - 1) / token.n * token.n)

end CpuSynctoken

abbrev CpuMap := BitVec 64

/-- `1UL << i`, which takes the low six bits of `i`. -/
def cpuBit (i : ℕ) : CpuMap := 1#64 <<< (i % 64)

theorem cpuBit_eq_twoPow (i : ℕ) : cpuBit i = BitVec.twoPow 64 (i % 64) := by
  rw [cpuBit, BitVec.twoPow_eq]

theorem getLsbD_cpuBit (i j : ℕ) : (cpuBit i).getLsbD j = decide (j = i % 64) := by
  have hi := Nat.mod_lt i (by decide : 0 < 64)
  rw [cpuBit_eq_twoPow, BitVec.getLsbD_twoPow, Bool.eq_iff_iff]
  simp only [Bool.and_eq_true, decide_eq_true_eq]
  omega

theorem and_cpuBit_ne_zero_iff (mask : CpuMap) (i : ℕ) :
    mask &&& cpuBit i ≠ 0#64 ↔ mask.getLsbD (i % 64) = true := by
  have hi := Nat.mod_lt i (by decide : 0 < 64)
  rw [cpuBit_eq_twoPow, BitVec.and_twoPow]
  cases mask.getLsbD (i % 64) with
  | false => simp
  | true =>
      rw [if_pos rfl]
      refine iff_of_true (fun hzero => ?_) rfl
      have hbit := congrArg (BitVec.getLsbD · (i % 64)) hzero
      simp [hi] at hbit

/-- What is fixed of a `struct vm` once it is initialised. -/
structure Vm where
  config : VmConfig
  master : ℕ
  cpus : BitVec 64
deriving DecidableEq, Repr, Inhabited

namespace Vm

def HasCpu (vm : Vm) (cpu : ℕ) : Prop := vm.cpus.getLsbD cpu = true

instance (vm : Vm) (cpu : ℕ) : Decidable (vm.HasCpu cpu) :=
  inferInstanceAs (Decidable (_ = true))

theorem HasCpu.lt {vm : Vm} {cpu : ℕ} (h : vm.HasCpu cpu) : cpu < 64 :=
  BitVec.lt_of_getLsbD h

/-- `vm_calc_vcpu_id` on a CPU. -/
def vmCalcVcpuId (vm : Vm) (cpu : ℕ) : ℕ := (List.range cpu).countP vm.cpus.getLsbD

/-- The bits of `cpus`, read as the bitmap that their address is cast to. -/
def cpusBitmap (vm : Vm) : Bitmap := fun w => (vm.cpus >>> (32 * w)).setWidth 32

/-- `vm_translate_to_pcpuid`, where -1 and `none` are `INVALID_CPUID`. -/
def vmTranslateToPcpuid (vm : Vm) (vcpuid : ℤ) : Option ℕ :=
  Bitmap.bitmapFindNth vm.cpusBitmap 64 (vcpuid + 1).toNat 0 true

/-- `vm_vcpu_init` on a CPU, on memory for the vCPU that has been zeroed. -/
def vmVcpuInit (vm : Vm) (cpu : ℕ) : Vcpu :=
  vcpuArchReset vm.config.entry
    (vcpuArchInit { (default : Vcpu) with id := vm.vmCalcVcpuId cpu, physId := cpu })

/-- The loop of `vm_msg_broadcast` from its values of `i` and `n`: the CPUs it
sends to. The mask is a 32-bit one shifted by `i`, of which the shift takes the
low five bits; the fuel ends the loop behind the bits of a `cpumap_t`. -/
def broadcastLoop (vm : Vm) (self : ℕ) : ℕ → ℕ → ℕ → List ℕ
  | 0, _, _ => []
  | fuel + 1, i, n =>
      if n < vm.config.cpuNum - 1 then
        if vm.cpus.getLsbD (i % 32) = true ∧ i ≠ self then
          i :: vm.broadcastLoop self fuel (i + 1) (n + 1)
        else vm.broadcastLoop self fuel (i + 1) n
      else []

/-- `vm_msg_broadcast` on a CPU: the CPUs it sends the message to. -/
def vmMsgBroadcast (vm : Vm) (self : ℕ) : List ℕ := vm.broadcastLoop self 64 0 0

@[simp] theorem vmVcpuInit_id (vm : Vm) (cpu : ℕ) :
    (vm.vmVcpuInit cpu).id = vm.vmCalcVcpuId cpu := rfl

theorem vmCalcVcpuId_eq_zero_iff (vm : Vm) (cpu : ℕ) :
    vm.vmCalcVcpuId cpu = 0 ↔ ∀ c < cpu, ¬ vm.HasCpu c := by
  rw [vmCalcVcpuId, List.countP_eq_zero]
  simp only [List.mem_range, HasCpu]

end Vm

end BaoHypervisor
