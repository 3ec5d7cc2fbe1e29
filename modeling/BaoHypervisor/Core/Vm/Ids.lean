import BaoHypervisor.Core.Vm
import BaoHypervisor.Lib.BitmapRun
import Mathlib.Data.Nat.Nth

/-!
# Ids of vCPUs and of physical CPUs

The id of a vCPU is the number of CPUs of the VM below its own. The way back is the search
for the set bit of `cpus` with that number of set bits before it, so the two translations
are inverse to each other, and so are the translations of masks that go bit by bit.
-/

namespace BaoHypervisor

open Bitmap

/-- `cpuid_t` and `vcpuid_t`. -/
abbrev CpuId := BitVec 64

def invalidCpuid : CpuId := BitVec.allOnes 64

/-- The loop of `vm_translate_to_pcpu_mask` and `vm_translate_to_vcpu_mask`. -/
def translateMask (translate : CpuId → CpuId) (mask : CpuMap) (len : ℕ) : CpuMap :=
  (List.range len).foldl (fun pmask i =>
    let shift := translate (BitVec.ofNat 64 i)
    if mask &&& cpuBit i ≠ 0#64 ∧ shift ≠ invalidCpuid then pmask ||| cpuBit shift.toNat
    else pmask) 0#64

def wordBitmap (word : BitVec 64) : Bitmap := fun w => (word >>> (32 * w)).setWidth 32

theorem bitmapGet_wordBitmap (word : BitVec 64) (i : ℕ) :
    bitmapGet (wordBitmap word) i = word.getLsbD i := by
  rw [bitmapGet_eq_getLsbD, wordBitmap, granuleLen, BitVec.getLsbD_setWidth,
    BitVec.getLsbD_ushiftRight, Nat.div_add_mod,
    decide_eq_true (Nat.mod_lt i (by decide : 0 < 32)), Bool.true_and]

namespace Vm

variable (vm : Vm)

def translateToPcpuid (vcpuid : CpuId) : CpuId :=
  match bitmapFindNth vm.cpusBitmap 64 (vcpuid + 1#64).toNat 0 true with
  | some i => BitVec.ofNat 64 i
  | none => invalidCpuid

def translateToVcpuid (pcpuid : CpuId) : CpuId :=
  if vm.cpus &&& cpuBit pcpuid.toNat ≠ 0#64 then
    BitVec.ofNat 64 (bitmapCount vm.cpusBitmap 0 pcpuid.toNat true)
  else invalidCpuid

def translateToPcpuMask (mask : CpuMap) (len : SizeT) : CpuMap :=
  translateMask vm.translateToPcpuid mask len.toNat

def translateToVcpuMask (mask : CpuMap) (len : SizeT) : CpuMap :=
  translateMask vm.translateToVcpuid mask len.toNat

def cpuSet : Finset ℕ := (Finset.range 64).filter vm.HasCpu

end Vm

/-- The bits of a translated mask are the translations of the bits of the mask. -/
theorem getLsbD_translateMask (translate : CpuId → CpuId) (mask : CpuMap) {len : ℕ}
    (hlen : len ≤ 64) (j : ℕ) :
    (translateMask translate mask len).getLsbD j = true ↔
      ∃ i < len, mask.getLsbD i = true ∧ translate (BitVec.ofNat 64 i) ≠ invalidCpuid ∧
        j = (translate (BitVec.ofNat 64 i)).toNat % 64 := by
  induction len with
  | zero => simp [translateMask]
  | succ len ih =>
      have hstep : translateMask translate mask (len + 1) =
          if mask &&& cpuBit len ≠ 0#64 ∧ translate (BitVec.ofNat 64 len) ≠ invalidCpuid then
            translateMask translate mask len |||
              cpuBit (translate (BitVec.ofNat 64 len)).toNat
          else translateMask translate mask len := by
        rw [translateMask, List.range_succ, List.foldl_append]
        rfl
      simp only [and_cpuBit_ne_zero_iff, Nat.mod_eq_of_lt (by omega : len < 64)] at hstep
      rw [hstep]
      by_cases hlast : mask.getLsbD len = true ∧ translate (BitVec.ofNat 64 len) ≠ invalidCpuid
      · rw [if_pos hlast, BitVec.getLsbD_or, Bool.or_eq_true, ih (by omega), getLsbD_cpuBit,
          decide_eq_true_eq]
        constructor
        · rintro (⟨i, hi, h⟩ | hj)
          · exact ⟨i, by omega, h⟩
          · exact ⟨len, Nat.lt_succ_self len, hlast.1, hlast.2, hj⟩
        · rintro ⟨i, hi, hbit, hvalid, hj⟩
          rcases Nat.lt_succ_iff_lt_or_eq.mp hi with hi | rfl
          · exact .inl ⟨i, hi, hbit, hvalid, hj⟩
          · exact .inr hj
      · rw [if_neg hlast, ih (by omega)]
        constructor
        · rintro ⟨i, hi, h⟩
          exact ⟨i, by omega, h⟩
        · rintro ⟨i, hi, hbit, hvalid, hj⟩
          rcases Nat.lt_succ_iff_lt_or_eq.mp hi with hi | rfl
          · exact ⟨i, hi, hbit, hvalid, hj⟩
          · exact absurd ⟨hbit, hvalid⟩ hlast

namespace Vm

variable {vm : Vm}

theorem mem_cpuSet {cpu : ℕ} : cpu ∈ vm.cpuSet ↔ vm.HasCpu cpu := by
  rw [cpuSet, Finset.mem_filter, Finset.mem_range]
  exact and_iff_right_of_imp HasCpu.lt

theorem bitmapGet_cpusBitmap (i : ℕ) :
    bitmapGet vm.cpusBitmap i = vm.cpus.getLsbD i :=
  bitmapGet_wordBitmap vm.cpus i

theorem vmCalcVcpuId_eq_count (vm : Vm) (cpu : ℕ) :
    vm.vmCalcVcpuId cpu = Nat.count vm.HasCpu cpu := by
  rw [vmCalcVcpuId, Nat.count]
  exact List.countP_congr fun i _ => decide_eq_true_iff.symm

theorem count_cpusBitmap (cpu : ℕ) :
    Nat.count (bitmapGet vm.cpusBitmap · = true) cpu = vm.vmCalcVcpuId cpu := by
  rw [vmCalcVcpuId, Nat.count]
  refine List.countP_congr fun i _ => ?_
  rw [bitmapGet_cpusBitmap, decide_eq_true_iff]

theorem card_cpuSet (vm : Vm) : vm.cpuSet.card = vm.vmCalcVcpuId 64 := by
  rw [vmCalcVcpuId_eq_count, Nat.count_eq_card_filter_range, cpuSet]

theorem vmCalcVcpuId_le (vm : Vm) (cpu : ℕ) : vm.vmCalcVcpuId cpu ≤ cpu := by
  rw [vmCalcVcpuId_eq_count]
  exact Nat.count_le _

theorem card_cpuSet_le (vm : Vm) : vm.cpuSet.card ≤ 64 := by
  rw [card_cpuSet]
  exact vm.vmCalcVcpuId_le 64

theorem vmCalcVcpuId_lt {cpu : ℕ} (h : vm.HasCpu cpu) :
    vm.vmCalcVcpuId cpu < vm.cpuSet.card := by
  rw [card_cpuSet, vmCalcVcpuId_eq_count, vmCalcVcpuId_eq_count]
  exact Nat.count_strict_mono h h.lt

theorem vmCalcVcpuId_injective {c d : ℕ} (hc : vm.HasCpu c) (hd : vm.HasCpu d)
    (heq : vm.vmCalcVcpuId c = vm.vmCalcVcpuId d) : c = d := by
  rw [vmCalcVcpuId_eq_count, vmCalcVcpuId_eq_count] at heq
  exact Nat.count_injective hc hd heq

theorem exists_vmCalcVcpuId {id : ℕ} (h : id < vm.cpuSet.card) :
    ∃ cpu, vm.HasCpu cpu ∧ vm.vmCalcVcpuId cpu = id := by
  rw [card_cpuSet, vmCalcVcpuId_eq_count] at h
  have hcard : ∀ hf : (Set.ofPred vm.HasCpu).Finite, id < hf.toFinset.card :=
    fun hf => h.trans_le (Nat.count_le_card hf 64)
  refine ⟨Nat.nth vm.HasCpu id, Nat.nth_mem id hcard, ?_⟩
  rw [vmCalcVcpuId_eq_count, Nat.count_nth hcard]

/-! ## The translations -/

/-- What `vm_translate_to_pcpuid` finds is the CPU that has the id. -/
theorem bitmapFindNth_cpusBitmap {vcpuid : CpuId} {cpu : ℕ} :
    bitmapFindNth vm.cpusBitmap 64 (vcpuid + 1#64).toNat 0 true = some cpu ↔
      vm.HasCpu cpu ∧ vm.vmCalcVcpuId cpu = vcpuid.toNat := by
  by_cases hwrap : vcpuid = BitVec.allOnes 64
  · subst hwrap
    refine iff_of_false ?_ ?_
    · rw [show (BitVec.allOnes 64 + 1#64).toNat = 0 from rfl, bitmapFindNth,
        if_pos (.inr rfl)]
      exact fun h => by cases h
    · rintro ⟨hcpu, heq⟩
      have hle := (vm.vmCalcVcpuId_le cpu).trans hcpu.lt.le
      rw [heq] at hle
      revert hle
      decide
  · have hsucc : (vcpuid + 1#64).toNat = vcpuid.toNat + 1 := by
      have hmax : (BitVec.allOnes 64).toNat = 2 ^ 64 - 1 := rfl
      bv_omega
    rw [hsucc, bitmapFindNth_eq_some_iff (Nat.succ_pos _)]
    constructor
    · rintro ⟨hlt, hbit, hcount⟩
      rw [bitmapGet_cpusBitmap] at hbit
      rw [count_cpusBitmap] at hcount
      exact ⟨hbit, Nat.succ.inj hcount⟩
    · rintro ⟨hcpu, hid⟩
      refine ⟨hcpu.lt, (bitmapGet_cpusBitmap cpu).trans hcpu, ?_⟩
      rw [count_cpusBitmap, hid]

theorem toNat_cpuid {n : ℕ} (h : n ≤ 64) : (BitVec.ofNat 64 n).toNat = n := by
  rw [BitVec.toNat_ofNat, Nat.mod_eq_of_lt (by omega)]

theorem ofNat_ne_invalidCpuid {cpu : ℕ} (h : cpu < 64) :
    BitVec.ofNat 64 cpu ≠ invalidCpuid := by
  intro heq
  have htoNat := congrArg BitVec.toNat heq
  rw [toNat_cpuid h.le, show invalidCpuid.toNat = 2 ^ 64 - 1 from rfl] at htoNat
  omega

theorem translateToPcpuid_of_hasCpu {cpu : ℕ} (h : vm.HasCpu cpu) {vcpuid : CpuId}
    (hid : vm.vmCalcVcpuId cpu = vcpuid.toNat) :
    vm.translateToPcpuid vcpuid = BitVec.ofNat 64 cpu := by
  rw [translateToPcpuid, bitmapFindNth_cpusBitmap.mpr ⟨h, hid⟩]

theorem translateToPcpuid_of_le {vcpuid : CpuId} (h : vm.cpuSet.card ≤ vcpuid.toNat) :
    vm.translateToPcpuid vcpuid = invalidCpuid := by
  rw [translateToPcpuid]
  cases hfind : bitmapFindNth vm.cpusBitmap 64 (vcpuid + 1#64).toNat 0 true with
  | none => rfl
  | some cpu =>
      obtain ⟨hcpu, hid⟩ := bitmapFindNth_cpusBitmap.mp hfind
      have hlt := vmCalcVcpuId_lt hcpu
      omega

theorem translateToPcpuid_eq_iff {vcpuid cpu : CpuId} (hvalid : cpu ≠ invalidCpuid) :
    vm.translateToPcpuid vcpuid = cpu ↔
      vm.HasCpu cpu.toNat ∧ vm.vmCalcVcpuId cpu.toNat = vcpuid.toNat := by
  constructor
  · intro h
    rw [translateToPcpuid] at h
    cases hfind : bitmapFindNth vm.cpusBitmap 64 (vcpuid + 1#64).toNat 0 true with
    | none =>
        rw [hfind] at h
        exact absurd h.symm hvalid
    | some c =>
        rw [hfind] at h
        obtain ⟨hc, hid⟩ := bitmapFindNth_cpusBitmap.mp hfind
        rw [← h]
        dsimp only
        rw [toNat_cpuid hc.lt.le]
        exact ⟨hc, hid⟩
  · rintro ⟨hcpu, hid⟩
    rw [translateToPcpuid_of_hasCpu hcpu hid, BitVec.ofNat_toNat, BitVec.setWidth_eq]

theorem ne_invalidCpuid_of_hasCpu {cpu : CpuId} (h : vm.HasCpu cpu.toNat) :
    cpu ≠ invalidCpuid := by
  rintro rfl
  exact absurd h.lt (by decide)

/-- The same translation with integers for ids and `none` for `INVALID_CPUID`. -/
theorem translateToPcpuid_eq_toInt (vm : Vm) (vcpuid : CpuId) :
    vm.translateToPcpuid vcpuid =
      match vm.vmTranslateToPcpuid vcpuid.toInt with
      | some cpu => BitVec.ofNat 64 cpu
      | none => invalidCpuid := by
  by_cases hneg : vcpuid.toNat < 2 ^ 63
  · have hint : vcpuid.toInt = vcpuid.toNat := BitVec.toInt_eq_toNat_of_lt (by omega)
    have hsucc : (vcpuid + 1#64).toNat = vcpuid.toNat + 1 := by bv_omega
    rw [translateToPcpuid, vmTranslateToPcpuid, hint, hsucc]
    rfl
  · have hcard := vm.card_cpuSet_le
    have hint : (vcpuid.toInt + 1).toNat = 0 := by
      have hlt := vcpuid.isLt
      rw [BitVec.toInt_eq_toNat_cond]
      omega
    rw [translateToPcpuid_of_le (by omega), vmTranslateToPcpuid, hint, bitmapFindNth,
      if_pos (.inr rfl)]

theorem exists_translateToPcpuid {vcpuid : CpuId} (h : vcpuid.toNat < vm.cpuSet.card) :
    ∃ cpu, vm.HasCpu cpu ∧ vm.vmCalcVcpuId cpu = vcpuid.toNat ∧
      vm.translateToPcpuid vcpuid = BitVec.ofNat 64 cpu := by
  obtain ⟨cpu, hcpu, hid⟩ := exists_vmCalcVcpuId h
  exact ⟨cpu, hcpu, hid, translateToPcpuid_of_hasCpu hcpu hid⟩

theorem translateToVcpuid_of_hasCpu {cpu : ℕ} (h : vm.HasCpu cpu) :
    vm.translateToVcpuid (BitVec.ofNat 64 cpu) = BitVec.ofNat 64 (vm.vmCalcVcpuId cpu) := by
  rw [translateToVcpuid, toNat_cpuid h.lt.le, if_pos, bitmapCount_eq_count, count_cpusBitmap]
  rw [and_cpuBit_ne_zero_iff, Nat.mod_eq_of_lt h.lt]
  exact h

theorem translateToVcpuid_of_not_hasCpu {cpu : ℕ} (hlt : cpu < 64) (h : ¬ vm.HasCpu cpu) :
    vm.translateToVcpuid (BitVec.ofNat 64 cpu) = invalidCpuid := by
  rw [translateToVcpuid, toNat_cpuid hlt.le, if_neg]
  rw [and_cpuBit_ne_zero_iff, Nat.mod_eq_of_lt hlt]
  exact h

/-- The CPUs in a translated mask are those whose vCPUs are in the mask. -/
theorem getLsbD_translateToPcpuMask (mask : CpuMap) {len : SizeT} (hlen : len.toNat ≤ 64)
    (cpu : ℕ) :
    (vm.translateToPcpuMask mask len).getLsbD cpu = true ↔
      vm.HasCpu cpu ∧ vm.vmCalcVcpuId cpu < len.toNat ∧
        mask.getLsbD (vm.vmCalcVcpuId cpu) = true := by
  rw [translateToPcpuMask, getLsbD_translateMask _ _ hlen]
  constructor
  · rintro ⟨i, hi, hbit, hvalid, rfl⟩
    have hid : i < vm.cpuSet.card := by
      by_contra hge
      exact hvalid (translateToPcpuid_of_le (by rw [toNat_cpuid (by omega)]; omega))
    have hid' : (BitVec.ofNat 64 i).toNat < vm.cpuSet.card := by
      rwa [toNat_cpuid (by omega)]
    obtain ⟨c, hc, hcid, htranslate⟩ := exists_translateToPcpuid hid'
    rw [toNat_cpuid (by omega)] at hcid
    rw [htranslate, toNat_cpuid hc.lt.le, Nat.mod_eq_of_lt hc.lt, hcid]
    exact ⟨hc, hi, hbit⟩
  · rintro ⟨hcpu, hlt, hbit⟩
    have htranslate : vm.translateToPcpuid (BitVec.ofNat 64 (vm.vmCalcVcpuId cpu)) =
        BitVec.ofNat 64 cpu :=
      translateToPcpuid_of_hasCpu hcpu (toNat_cpuid (by omega)).symm
    refine ⟨vm.vmCalcVcpuId cpu, hlt, hbit, ?_, ?_⟩
    · rw [htranslate]
      exact ofNat_ne_invalidCpuid hcpu.lt
    · rw [htranslate, toNat_cpuid hcpu.lt.le, Nat.mod_eq_of_lt hcpu.lt]

/-- The vCPUs in a translated mask are those of the CPUs of the VM in the mask. -/
theorem getLsbD_translateToVcpuMask (mask : CpuMap) (j : ℕ) :
    (vm.translateToVcpuMask mask 64#64).getLsbD j = true ↔
      ∃ cpu, vm.HasCpu cpu ∧ mask.getLsbD cpu = true ∧ j = vm.vmCalcVcpuId cpu := by
  have hid : ∀ {cpu}, vm.HasCpu cpu →
      (BitVec.ofNat 64 (vm.vmCalcVcpuId cpu)).toNat % 64 = vm.vmCalcVcpuId cpu := by
    intro cpu hcpu
    have hle := vm.vmCalcVcpuId_le cpu
    have hlt := hcpu.lt
    rw [BitVec.toNat_ofNat]
    omega
  rw [translateToVcpuMask, getLsbD_translateMask _ _ (by decide)]
  constructor
  · rintro ⟨cpu, hlt, hbit, hvalid, rfl⟩
    by_cases hcpu : vm.HasCpu cpu
    · refine ⟨cpu, hcpu, hbit, ?_⟩
      rw [translateToVcpuid_of_hasCpu hcpu, hid hcpu]
    · exact absurd (translateToVcpuid_of_not_hasCpu hlt hcpu) hvalid
  · rintro ⟨cpu, hcpu, hbit, rfl⟩
    refine ⟨cpu, hcpu.lt, hbit, ?_, ?_⟩
    · rw [translateToVcpuid_of_hasCpu hcpu]
      exact ofNat_ne_invalidCpuid ((vm.vmCalcVcpuId_le cpu).trans_lt hcpu.lt)
    · rw [translateToVcpuid_of_hasCpu hcpu, hid hcpu]

theorem vmCalcVcpuId_bijOn (vm : Vm) :
    Set.BijOn vm.vmCalcVcpuId vm.cpuSet (Set.Iio vm.cpuSet.card) := by
  refine ⟨fun cpu hcpu => ?_, fun c hc d hd heq => ?_, fun id hid => ?_⟩
  · exact vmCalcVcpuId_lt (mem_cpuSet.mp hcpu)
  · exact vmCalcVcpuId_injective (mem_cpuSet.mp hc) (mem_cpuSet.mp hd) heq
  · obtain ⟨cpu, hcpu, hid⟩ := exists_vmCalcVcpuId hid
    exact ⟨cpu, mem_cpuSet.mpr hcpu, hid⟩

/-- A mask of vCPUs comes back from its translation. -/
theorem translateToVcpuMask_translateToPcpuMask {mask : CpuMap} {len : SizeT}
    (hlen : len.toNat = vm.cpuSet.card) (hmask : mask.toNat < 2 ^ len.toNat) :
    vm.translateToVcpuMask (vm.translateToPcpuMask mask len) 64#64 = mask := by
  have hcard := vm.card_cpuSet_le
  refine BitVec.eq_of_getLsbD_eq fun j _ => ?_
  rw [Bool.eq_iff_iff, getLsbD_translateToVcpuMask]
  constructor
  · rintro ⟨cpu, -, hbit, rfl⟩
    exact ((getLsbD_translateToPcpuMask mask (by omega) cpu).mp hbit).2.2
  · intro hbit
    have hj : j < len.toNat := by
      by_contra hge
      rw [BitVec.getLsbD, Nat.testBit_lt_two_pow
        (hmask.trans_le (Nat.pow_le_pow_right (by decide) (Nat.not_lt.mp hge)))] at hbit
      cases hbit
    obtain ⟨cpu, hcpu, rfl⟩ := exists_vmCalcVcpuId (hlen ▸ hj)
    exact ⟨cpu, hcpu, (getLsbD_translateToPcpuMask mask (by omega) cpu).mpr ⟨hcpu, hj, hbit⟩,
      rfl⟩

/-- The ids of vCPUs and of physical CPUs correspond, one by one and in masks. -/
theorem ids_correspond (vm : Vm) (hnum : vm.config.cpuNum = vm.cpuSet.card) :
    Set.BijOn vm.vmCalcVcpuId vm.cpuSet (Set.Iio vm.config.cpuNum) ∧
    (∀ cpu ∈ vm.cpuSet,
      vm.translateToPcpuid (BitVec.ofNat 64 (vm.vmCalcVcpuId cpu)) = BitVec.ofNat 64 cpu) ∧
    (∀ vcpuid : CpuId, vm.config.cpuNum ≤ vcpuid.toNat →
      vm.translateToPcpuid vcpuid = invalidCpuid) ∧
    (∀ vcpuid : CpuId, vcpuid.toNat < vm.config.cpuNum →
      vm.translateToVcpuid (vm.translateToPcpuid vcpuid) = vcpuid) ∧
    (∀ cpu < 64, cpu ∉ vm.cpuSet →
      vm.translateToVcpuid (BitVec.ofNat 64 cpu) = invalidCpuid) ∧
    ∀ mask : CpuMap, mask.toNat < 2 ^ vm.config.cpuNum →
      let pmask := vm.translateToPcpuMask mask (BitVec.ofNat 64 vm.config.cpuNum)
      vm.translateToVcpuMask pmask 64#64 = mask ∧
        ∀ cpu, pmask.getLsbD cpu = true → cpu ∈ vm.cpuSet := by
  have hcard := vm.card_cpuSet_le
  have hlen : (BitVec.ofNat 64 vm.cpuSet.card).toNat = vm.cpuSet.card := toNat_cpuid hcard
  rw [hnum]
  refine ⟨vm.vmCalcVcpuId_bijOn, fun cpu hcpu => ?_, fun vcpuid h => ?_, fun vcpuid h => ?_,
    fun cpu hlt hcpu => ?_, fun mask hmask => ⟨?_, fun cpu hcpu => ?_⟩⟩
  · have hle := vm.vmCalcVcpuId_le cpu
    have hcpu := mem_cpuSet.mp hcpu
    have hlt := hcpu.lt
    exact translateToPcpuid_of_hasCpu hcpu (toNat_cpuid (by omega)).symm
  · exact translateToPcpuid_of_le h
  · obtain ⟨cpu, hcpu, hid, htranslate⟩ := exists_translateToPcpuid h
    rw [htranslate, translateToVcpuid_of_hasCpu hcpu, hid, BitVec.ofNat_toNat,
      BitVec.setWidth_eq]
  · exact translateToVcpuid_of_not_hasCpu hlt fun h => hcpu (mem_cpuSet.mpr h)
  · exact translateToVcpuMask_translateToPcpuMask hlen (by rwa [hlen])
  · have hbit := (getLsbD_translateToPcpuMask mask (by omega) cpu).mp hcpu
    exact mem_cpuSet.mpr hbit.1

def threeCpus : Vm :=
  { config := { (default : VmConfig) with cpuNum := 3 }, master := 3, cpus := 0b11010#64 }

theorem ids_correspond_three :
    threeCpus.translateToPcpuid 1#64 = 3#64 ∧ threeCpus.translateToVcpuid 4#64 = 2#64 ∧
      Set.BijOn threeCpus.vmCalcVcpuId threeCpus.cpuSet (Set.Iio 3) :=
  ⟨by decide, by decide, (ids_correspond threeCpus (by decide)).1⟩

end Vm

end BaoHypervisor
