import BaoHypervisor.Core.Cpu
import BaoHypervisor.Core.Vm.Ids

/-!
# IPIs and remote fences of a guest

A guest names harts to the SBI by a mask and a base. `sbi_ipi_handler` adds the base to
the number of each bit of the mask and sends a message to the CPU of that vCPU.
`sbi_rfence_handler` translates the whole mask at once, after it has shifted it by the
base: to the right, so bit `i` stands for the vCPU `i - base` and not for `base + i`.
-/

namespace BaoHypervisor

open Bitmap

inductive SbiError
  | success
  | failure
  | notSupported
  | invalidParam
  | denied
  | invalidAddress
  | alreadyAvailable
deriving DecidableEq, Repr, Inhabited

/-- `SBI_MSG_EVENTS`. -/
inductive SbiMsgEvent
  | sendIpi
  | hartStart
deriving DecidableEq, Repr

def SbiMsgEvent.code : SbiMsgEvent → BitVec 32
  | .sendIpi => 0#32
  | .hartStart => 1#32

/-- The fences that `sbi_rfence_handler` asks of the firmware. -/
inductive RemoteFence
  | fenceI (hartMask hartMaskBase : BitVec 64)
  | hfenceVvma (hartMask hartMaskBase startAddr size : BitVec 64)
  | hfenceVvmaAsid (hartMask hartMaskBase startAddr size asid : BitVec 64)
deriving DecidableEq, Repr

def RemoteFence.hartMask : RemoteFence → BitVec 64
  | .fenceI hartMask _ => hartMask
  | .hfenceVvma hartMask _ _ _ => hartMask
  | .hfenceVvmaAsid hartMask _ _ _ _ => hartMask

abbrev argReg (i : ℕ) : ℕ := 10 + i

section Handlers

variable (vm : Vm) (fid : BitVec 64) (regs : ArchRegs)

/-- The CPUs that `sbi_ipi_handler` sends its message to, in order. -/
def sbiIpiTargets (hartMask hartMaskBase : BitVec 64) : List CpuId :=
  (List.range 64).filterMap fun i =>
    let phartId := vm.translateToPcpuid (hartMaskBase + BitVec.ofNat 64 i)
    if bitmapGet (wordBitmap hartMask) i = true ∧ phartId ≠ invalidCpuid then some phartId
    else none

/-- `sbi_ipi_handler` on registers of the guest, when `sbiMsgId` is the number of the SBI
message handler: the messages it sends and what it returns. -/
def sbiIpiHandler (sbiMsgId : BitVec 32) : List (CpuId × CpuMsg) × SbiError :=
  if fid ≠ 0#64 then ([], .notSupported)
  else
    let hartMask := vcpuReadreg regs (argReg 0)
    let hartMaskBase := vcpuReadreg regs (argReg 1)
    let msg : CpuMsg :=
      { handler := sbiMsgId, event := SbiMsgEvent.sendIpi.code, data := 0#64 }
    ((sbiIpiTargets vm hartMask hartMaskBase).map fun cpu => (cpu, msg), .success)

/-- `sbi_rfence_handler`: the fence it asks for, or the error it returns without one. -/
def sbiRfenceHandler : Except SbiError RemoteFence :=
  let hartMask := vcpuReadreg regs (argReg 0)
  let hartMaskBase := vcpuReadreg regs (argReg 1)
  let startAddr := vcpuReadreg regs (argReg 2)
  let size := vcpuReadreg regs (argReg 3)
  let asid := vcpuReadreg regs (argReg 4)
  if hartMaskBase ≠ 0#64 ∧ (64 ≤ hartMaskBase.toNat ∨
      (bitmapFindNth (wordBitmap hartMask) 64 1 (64 - hartMaskBase.toNat) true).any
        (0 < ·) = true) then
    .error .invalidParam
  else
    let hartMask := hartMask >>> hartMaskBase
    let phartMask := vm.translateToPcpuMask hartMask 64#64
    if fid = 0#64 then .ok (.fenceI phartMask 0#64)
    else if fid = 1#64 then .ok (.hfenceVvma phartMask 0#64 startAddr size)
    else if fid = 2#64 then .ok (.hfenceVvmaAsid phartMask 0#64 startAddr size asid)
    else .error .notSupported

end Handlers

section Harts

variable {vm : Vm} {fid : BitVec 64} {regs : ArchRegs} {hartMask hartMaskBase : BitVec 64}

theorem mem_sbiIpiTargets {cpu : CpuId} :
    cpu ∈ sbiIpiTargets vm hartMask hartMaskBase ↔
      ∃ i < 64, hartMask.getLsbD i = true ∧
        vm.translateToPcpuid (hartMaskBase + BitVec.ofNat 64 i) = cpu ∧ cpu ≠ invalidCpuid := by
  simp only [sbiIpiTargets, List.mem_filterMap, List.mem_range, Option.ite_none_right_eq_some,
    Option.some.injEq, bitmapGet_wordBitmap]
  constructor
  · rintro ⟨i, hi, ⟨hbit, hvalid⟩, rfl⟩
    exact ⟨i, hi, hbit, rfl, hvalid⟩
  · rintro ⟨i, hi, hbit, rfl, hvalid⟩
    exact ⟨i, hi, ⟨hbit, hvalid⟩, rfl⟩

/-- The vCPU ids that a base below 64 leads to do not wrap. -/
theorem mem_sbiIpiTargets_of_lt (hbase : hartMaskBase.toNat < 64) {cpu : CpuId} :
    cpu ∈ sbiIpiTargets vm hartMask hartMaskBase ↔
      vm.HasCpu cpu.toNat ∧
        (hartMask <<< hartMaskBase).getLsbD (vm.vmCalcVcpuId cpu.toNat) = true := by
  have hsum : ∀ i < 64, (hartMaskBase + BitVec.ofNat 64 i).toNat = hartMaskBase.toNat + i := by
    intro i hi
    rw [BitVec.toNat_add, BitVec.toNat_ofNat, Nat.mod_eq_of_lt (by omega : i < 2 ^ 64),
      Nat.mod_eq_of_lt (by omega)]
  rw [mem_sbiIpiTargets, BitVec.shiftLeft_eq', BitVec.getLsbD_shiftLeft, Bool.and_eq_true,
    Bool.and_eq_true, decide_eq_true_iff, Bool.not_eq_true', decide_eq_false_iff_not]
  constructor
  · rintro ⟨i, hi, hbit, htranslate, hvalid⟩
    obtain ⟨hhas, heq⟩ := (Vm.translateToPcpuid_eq_iff hvalid).mp htranslate
    have hlt := (vm.vmCalcVcpuId_le cpu.toNat).trans_lt hhas.lt
    rw [hsum i hi] at heq
    refine ⟨hhas, ⟨hlt, by omega⟩, ?_⟩
    rwa [heq, Nat.add_sub_cancel_left]
  · rintro ⟨hhas, ⟨hlt, hle⟩, hbit⟩
    have hvalid := Vm.ne_invalidCpuid_of_hasCpu hhas
    refine ⟨vm.vmCalcVcpuId cpu.toNat - hartMaskBase.toNat, by omega, hbit, ?_, hvalid⟩
    rw [Vm.translateToPcpuid_eq_iff hvalid, hsum _ (by omega)]
    exact ⟨hhas, by omega⟩

/-- A fence that is asked for has the mask shifted to the right by a base below 64. -/
theorem hartMask_of_sbiRfenceHandler {fence : RemoteFence}
    (h : sbiRfenceHandler vm fid regs = .ok fence) :
    (vcpuReadreg regs (argReg 1)).toNat < 64 ∧
      fence.hartMask = vm.translateToPcpuMask
        (vcpuReadreg regs (argReg 0) >>> vcpuReadreg regs (argReg 1)) 64#64 := by
  rw [sbiRfenceHandler] at h
  dsimp only at h
  split_ifs at h with hinvalid hfence hvvma hasid
  all_goals
    rw [not_and_or, not_or] at hinvalid
    have hbase : (vcpuReadreg regs (argReg 1)).toNat < 64 := by
      rcases hinvalid with hzero | ⟨hlt, -⟩
      · rw [not_not.mp hzero]
        decide
      · exact Nat.not_le.mp hlt
    cases h
    exact ⟨hbase, rfl⟩

theorem exists_mem_sbiIpiHandler_iff {sbiMsgId : BitVec 32} {cpu : CpuId} :
    (∃ msg, (cpu, msg) ∈ (sbiIpiHandler vm 0#64 regs sbiMsgId).1) ↔
      cpu ∈ sbiIpiTargets vm (vcpuReadreg regs (argReg 0)) (vcpuReadreg regs (argReg 1)) := by
  rw [sbiIpiHandler, if_neg (not_not.mpr rfl)]
  simp

/-- A fence goes to the harts that an IPI with the same mask and base goes to, the CPUs of
the vCPUs that the mask names from the base on, exactly when it makes no difference for
the vCPUs of the VM which way the mask is shifted. -/
theorem sbiRfenceHandler_eq_ipi_iff (vm : Vm) (fid : BitVec 64) (regs : ArchRegs)
    (sbiMsgId : BitVec 32) (fence : RemoteFence)
    (h : sbiRfenceHandler vm fid regs = .ok fence) :
    let hartMask := vcpuReadreg regs (argReg 0)
    let hartMaskBase := vcpuReadreg regs (argReg 1)
    let sent := fun cpu : CpuId => ∃ msg, (cpu, msg) ∈ (sbiIpiHandler vm 0#64 regs sbiMsgId).1
    ((∀ cpu : CpuId, fence.hartMask.getLsbD cpu.toNat = true ↔ sent cpu) ∧
      ∀ cpu, sent cpu ↔ ∃ i < 64, hartMask.getLsbD i = true ∧
        vm.translateToPcpuid (hartMaskBase + BitVec.ofNat 64 i) = cpu ∧ cpu ≠ invalidCpuid) ↔
      ∀ j < vm.cpuSet.card,
        (hartMask >>> hartMaskBase).getLsbD j = (hartMask <<< hartMaskBase).getLsbD j := by
  intro hartMask hartMaskBase sent
  obtain ⟨hbase, hmask⟩ := hartMask_of_sbiRfenceHandler h
  have hsent : ∀ cpu, sent cpu ↔ _ := fun cpu => exists_mem_sbiIpiHandler_iff
  have hfence : ∀ cpu : CpuId, fence.hartMask.getLsbD cpu.toNat = true ↔
      vm.HasCpu cpu.toNat ∧
        (hartMask >>> hartMaskBase).getLsbD (vm.vmCalcVcpuId cpu.toNat) = true := by
    intro cpu
    rw [hmask, Vm.getLsbD_translateToPcpuMask _ (by decide)]
    refine and_congr_right fun hcpu => and_iff_right ?_
    exact (vm.vmCalcVcpuId_le cpu.toNat).trans_lt hcpu.lt
  constructor
  · rintro ⟨hsame, -⟩ j hj
    obtain ⟨cpu, hcpu, rfl⟩ := Vm.exists_vmCalcVcpuId hj
    have hnat : (BitVec.ofNat 64 cpu).toNat = cpu := Vm.toNat_cpuid hcpu.lt.le
    have hiff := hsame (BitVec.ofNat 64 cpu)
    rw [hfence, hsent, mem_sbiIpiTargets_of_lt hbase, hnat, and_congr_right_iff] at hiff
    exact Bool.eq_iff_iff.mpr (hiff hcpu)
  · intro hshift
    refine ⟨fun cpu => ?_, fun cpu => (hsent cpu).trans mem_sbiIpiTargets⟩
    rw [hfence, hsent, mem_sbiIpiTargets_of_lt hbase]
    refine and_congr_right fun hcpu => ?_
    rw [hshift _ (Vm.vmCalcVcpuId_lt hcpu)]

def hartMaskRegs (hartMask hartMaskBase : BitVec 64) : ArchRegs :=
  { (default : ArchRegs) with
    x := Function.update (Function.update (fun _ => 0#64) regA0 hartMask) regA1 hartMaskBase }

theorem sbiRfenceHandler_eq_ipi_iff_three :
    let fence := RemoteFence.fenceI 0b1000#64 0#64
    ∀ cpu : CpuId, fence.hartMask.getLsbD cpu.toNat = true ↔
      ∃ msg, (cpu, msg) ∈ (sbiIpiHandler Vm.threeCpus 0#64 (hartMaskRegs 0b10#64 0#64) 7#32).1 :=
  ((sbiRfenceHandler_eq_ipi_iff Vm.threeCpus 0#64 (hartMaskRegs 0b10#64 0#64) 7#32 _
    (by decide)).mpr (by decide)).1

/-- Bit 0 from base 1 on: the IPI goes to the second CPU of the VM, the fence to none. -/
theorem sbiRfenceHandler_misses :
    sbiRfenceHandler Vm.threeCpus 0#64 (hartMaskRegs 0b1#64 1#64) = .ok (.fenceI 0#64 0#64) ∧
      (sbiIpiHandler Vm.threeCpus 0#64 (hartMaskRegs 0b1#64 1#64) 7#32).1 =
        [(3#64, { handler := 7#32, event := 0#32, data := 0#64 })] := by
  decide

end Harts

end BaoHypervisor
