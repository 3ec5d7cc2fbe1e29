import BaoHypervisor.Core.Vm.Ids

/-!
# Broadcasts in a VM

`vm_msg_broadcast` counts the peers it has sent to and goes on until it has found all of
them. It tests the CPUs with a mask of 32 bits: a CPU from 32 on is taken for the one that
has its low five bits, so it may be passed over, or a CPU of another VM found in its place.
-/

namespace BaoHypervisor

namespace Vm

/-- `1U << i`, which takes the low five bits of `i`, as a `cpumap_t`. -/
def broadcastBit (i : ℕ) : CpuMap := (1#32 <<< (i % 32)).setWidth 64

/-- The loop of `vm_msg_broadcast` from its values of `i`, a `size_t`, and `n`: the CPUs it
sends to, or `none` as long as the fuel does not end it. -/
def broadcastRun (vm : Vm) (self : ℕ) : ℕ → ℕ → ℕ → Option (List ℕ)
  | 0, _, _ => none
  | fuel + 1, i, n =>
      if n < vm.config.cpuNum - 1 then
        if broadcastBit i &&& vm.cpus ≠ 0#64 ∧ i ≠ self then
          (vm.broadcastRun self fuel ((i + 1) % 2 ^ 64) (n + 1)).map (i :: ·)
        else vm.broadcastRun self fuel ((i + 1) % 2 ^ 64) n
      else some []

/-- Up to the last peer of the CPU, the ids belong to the VM that have the low five bits of
a CPU of the VM. The CPU itself is left out. -/
def Unaliased (vm : Vm) (self : ℕ) : Prop :=
  ∀ cpu, vm.HasCpu cpu → cpu ≠ self →
    ∀ i ≤ cpu, i ≠ self → (vm.HasCpu (i % 32) ↔ vm.HasCpu i)

theorem broadcastBit_and_ne_zero_iff (i : ℕ) (cpus : CpuMap) :
    broadcastBit i &&& cpus ≠ 0#64 ↔ cpus.getLsbD (i % 32) = true := by
  have hi := Nat.mod_lt i (by decide : 0 < 32)
  have hbit : broadcastBit i = cpuBit (i % 32) := by
    refine BitVec.eq_of_getLsbD_eq fun j hj => ?_
    rw [getLsbD_cpuBit, broadcastBit, ← BitVec.twoPow_eq, BitVec.getLsbD_setWidth,
      BitVec.getLsbD_twoPow, Nat.mod_eq_of_lt (by omega : i % 32 < 64), Bool.eq_iff_iff]
    simp only [Bool.and_eq_true, decide_eq_true_eq]
    omega
  rw [hbit, BitVec.and_comm, and_cpuBit_ne_zero_iff, Nat.mod_eq_of_lt (by omega : i % 32 < 64)]

section Run

variable {vm : Vm} {self fuel i n : ℕ} {targets : List ℕ}

theorem hasCpu_of_mem_broadcastRun (h : vm.broadcastRun self fuel i n = some targets) {c : ℕ}
    (hc : c ∈ targets) : vm.HasCpu (c % 32) := by
  induction fuel generalizing i n targets with
  | zero => cases h
  | succ fuel ih =>
      rw [broadcastRun] at h
      split_ifs at h with hmore hfound
      · obtain ⟨rest, hrest, rfl⟩ := Option.map_eq_some_iff.mp h
        rcases List.mem_cons.mp hc with rfl | hc
        · exact (broadcastBit_and_ne_zero_iff _ _).mp hfound.1
        · exact ih hrest hc
      · exact ih h hc
      · cases h
        cases hc

/-- Before a CPU that the loop sends to, it has sent to all that its mask finds. -/
theorem mem_broadcastRun_of_le (h : vm.broadcastRun self fuel i n = some targets) {j c : ℕ}
    (hc : c ∈ targets) (hij : i ≤ j) (hjc : j ≤ c) (hlt : c < 2 ^ 64)
    (hj : vm.HasCpu (j % 32)) (hself : j ≠ self) : j ∈ targets := by
  induction fuel generalizing i n targets with
  | zero => cases h
  | succ fuel ih =>
      rw [broadcastRun] at h
      rcases hij.eq_or_lt with rfl | hij
      · have hfound : broadcastBit i &&& vm.cpus ≠ 0#64 ∧ i ≠ self :=
          ⟨(broadcastBit_and_ne_zero_iff _ _).mpr hj, hself⟩
        rw [if_pos hfound] at h
        split_ifs at h with hmore
        · obtain ⟨rest, -, rfl⟩ := Option.map_eq_some_iff.mp h
          exact List.mem_cons_self
        · cases h
          cases hc
      · have hnext : (i + 1) % 2 ^ 64 = i + 1 := Nat.mod_eq_of_lt (by omega)
        rw [hnext] at h
        split_ifs at h with hmore hfound
        · obtain ⟨rest, hrest, rfl⟩ := Option.map_eq_some_iff.mp h
          have hne : c ≠ i := by omega
          exact List.mem_cons_of_mem i
            (ih hrest ((List.mem_cons.mp hc).resolve_left hne) hij)
        · exact ih h hc hij
        · cases h
          cases hc

/-- A loop that ends behind the bits of a `cpumap_t` is the one that stops there. -/
theorem broadcastLoop_of_run (hfuel : i + fuel ≤ 64)
    (h : vm.broadcastRun self (fuel + 1) i n = some targets) :
    vm.broadcastLoop self fuel i n = targets := by
  induction fuel generalizing i n targets with
  | zero =>
      rw [broadcastRun] at h
      split_ifs at h
      · cases h
      · cases h
      · cases h
        rfl
  | succ fuel ih =>
      have hnext : (i + 1) % 2 ^ 64 = i + 1 := Nat.mod_eq_of_lt (by omega)
      rw [broadcastRun, hnext] at h
      simp only [broadcastBit_and_ne_zero_iff] at h
      rw [broadcastLoop]
      split_ifs at h ⊢
      · obtain ⟨rest, hrest, rfl⟩ := Option.map_eq_some_iff.mp h
        rw [ih (by omega) hrest]
      · exact ih (by omega) h
      · exact (Option.some.inj h).symm ▸ rfl

end Run

/-! ## The peers that are left -/

theorem card_filter_lt_succ (cpus : Finset ℕ) (i : ℕ) :
    (cpus.filter (· < i + 1)).card =
      (cpus.filter (· < i)).card + if i ∈ cpus then 1 else 0 := by
  have hsplit : cpus.filter (· < i + 1) = cpus.filter (· < i) ∪ cpus.filter (· = i) := by
    rw [← Finset.filter_or]
    exact Finset.filter_congr fun d _ => Nat.lt_succ_iff_lt_or_eq
  rw [hsplit, Finset.card_union_of_disjoint, Finset.filter_eq' cpus i]
  · split_ifs <;> rfl
  · exact Finset.disjoint_filter.mpr fun d _ hlt heq => hlt.ne heq

section Peers

variable {vm : Vm} {self : ℕ}

/-- The loop finds the peers that it has not come to, if its mask finds no others up to the
last of them. -/
theorem exists_broadcastRun (hunaliased : vm.Unaliased self)
    (hnum : vm.config.cpuNum - 1 = (vm.cpuSet.erase self).card) (fuel i n : ℕ)
    (hfuel : i + fuel = 64) (hn : n = ((vm.cpuSet.erase self).filter (· < i)).card) :
    ∃ targets, vm.broadcastRun self (fuel + 1) i n = some targets ∧
      ∀ c, targets.count c = if c ∈ vm.cpuSet.erase self ∧ i ≤ c then 1 else 0 := by
  have hlt64 : ∀ c ∈ vm.cpuSet.erase self, c < 64 := fun c hc =>
    (mem_cpuSet.mp (Finset.mem_of_mem_erase hc)).lt
  have hmask : ∀ c ∈ vm.cpuSet.erase self, ∀ i ≤ c,
      (broadcastBit i &&& vm.cpus ≠ 0#64 ∧ i ≠ self ↔ i ∈ vm.cpuSet.erase self) := by
    intro c hc i hi
    rw [Finset.mem_erase, mem_cpuSet] at hc ⊢
    rw [broadcastBit_and_ne_zero_iff, and_comm]
    exact and_congr_right fun hself => hunaliased c hc.2 hc.1 i hi hself
  generalize vm.cpuSet.erase self = peers at hlt64 hnum hn hmask ⊢
  induction fuel generalizing i n with
  | zero =>
      have hall : peers.filter (· < i) = peers :=
        Finset.filter_true_of_mem fun d hd => by
          have := hlt64 d hd
          omega
      refine ⟨[], ?_, fun c => (if_neg fun h => ?_).symm⟩
      · rw [broadcastRun, if_neg (by rw [hnum, hn, hall]; exact lt_irrefl _)]
      · have := hlt64 c h.1
        omega
  | succ fuel ih =>
      have hcard := card_filter_lt_succ peers i
      rw [broadcastRun, Nat.mod_eq_of_lt (by omega : i + 1 < 2 ^ 64)]
      by_cases hmore : n < vm.config.cpuNum - 1
      · -- a peer is left, so the mask finds what it should
        have hleft : ∃ c ∈ peers, i ≤ c := by
          by_contra hnone
          rw [not_exists] at hnone
          have hall : peers.filter (· < i) = peers :=
            Finset.filter_true_of_mem fun d hd => Nat.not_le.mp fun h => hnone d ⟨hd, h⟩
          rw [hall] at hn
          omega
        obtain ⟨d, hd, hid⟩ := hleft
        have hfound := hmask d hd i hid
        rw [if_pos hmore]
        by_cases hi : i ∈ peers
        · rw [if_pos hi] at hcard
          obtain ⟨rest, hrest, hcount⟩ := ih (i + 1) (n + 1) (by omega) (by omega)
          rw [if_pos (hfound.mpr hi), hrest]
          refine ⟨i :: rest, rfl, fun c => ?_⟩
          rw [List.count_cons, hcount]
          by_cases hc : c = i
          · subst hc
            simp [hi]
          · have hle : i + 1 ≤ c ↔ i ≤ c := by omega
            simp [Ne.symm hc, hle]
        · rw [if_neg hi] at hcard
          obtain ⟨rest, hrest, hcount⟩ := ih (i + 1) n (by omega) (by omega)
          rw [if_neg fun h => hi (hfound.mp h)]
          refine ⟨rest, hrest, fun c => (hcount c).trans ?_⟩
          refine if_congr (and_congr_right fun hc => ?_) rfl rfl
          have hne : c ≠ i := fun heq => hi (heq ▸ hc)
          omega
      · have hall : peers.filter (· < i) = peers :=
          Finset.eq_of_subset_of_card_le (Finset.filter_subset _ _) (by omega)
        rw [if_neg hmore]
        refine ⟨[], rfl, fun c => (if_neg fun h => ?_).symm⟩
        have hmem := h.1
        rw [← hall] at hmem
        exact Nat.not_le.mpr (Finset.mem_filter.mp hmem).2 h.2

/-- The broadcast of a CPU whose peers the mask tells apart ends, and reaches each of them
once and no one else. -/
theorem exists_broadcastRun_of_unaliased (hnum : vm.config.cpuNum = vm.cpuSet.card)
    (hself : vm.HasCpu self) (hunaliased : vm.Unaliased self) :
    ∃ targets, vm.broadcastRun self 65 0 0 = some targets ∧
      ∀ cpu, targets.count cpu = if vm.HasCpu cpu ∧ cpu ≠ self then 1 else 0 := by
  have hcard := Finset.card_erase_of_mem (mem_cpuSet.mpr hself)
  have hnone : (vm.cpuSet.erase self).filter (· < 0) = ∅ :=
    Finset.filter_false_of_mem fun d _ => Nat.not_lt_zero d
  obtain ⟨targets, hrun, hcount⟩ := exists_broadcastRun hunaliased (by rw [hnum, hcard]) 64 0 0
    rfl (Finset.card_eq_zero.mpr hnone).symm
  refine ⟨targets, hrun, fun c => (hcount c).trans (if_congr ?_ rfl rfl)⟩
  rw [Finset.mem_erase, mem_cpuSet, and_comm (a := c ≠ self)]
  exact and_iff_left (Nat.zero_le c)

theorem count_vmMsgBroadcast (hnum : vm.config.cpuNum = vm.cpuSet.card)
    (hself : vm.HasCpu self) (hunaliased : vm.Unaliased self) (cpu : ℕ) :
    (vm.vmMsgBroadcast self).count cpu = if vm.HasCpu cpu ∧ cpu ≠ self then 1 else 0 := by
  obtain ⟨targets, hrun, hcount⟩ := exists_broadcastRun_of_unaliased hnum hself hunaliased
  rw [vmMsgBroadcast, broadcastLoop_of_run le_rfl hrun, hcount]

theorem unaliased_of_lt (hlow : ∀ cpu, vm.HasCpu cpu → cpu ≠ self → cpu < 32) :
    vm.Unaliased self := by
  intro cpu hcpu hne i hi _
  rw [Nat.mod_eq_of_lt (hi.trans_lt (hlow cpu hcpu hne))]

/-- In a VM that has as many CPUs as it is configured with, the broadcast of one of them
ends and sends one copy to each other CPU of the VM and none elsewhere exactly when its
mask tells the peers apart. -/
theorem vmMsgBroadcast_reaches_iff (vm : Vm) (self : ℕ)
    (hnum : vm.cpuSet.card = vm.config.cpuNum) (hself : vm.HasCpu self) :
    (∃ fuel targets, vm.broadcastRun self fuel 0 0 = some targets ∧
      ∀ cpu, targets.count cpu = if vm.HasCpu cpu ∧ cpu ≠ self then 1 else 0) ↔
      vm.Unaliased self := by
  constructor
  · rintro ⟨fuel, targets, hrun, hcount⟩ cpu hcpu hne i hi hiself
    have hmem : ∀ c, c ∈ targets ↔ vm.HasCpu c ∧ c ≠ self := by
      intro c
      rw [← List.count_pos_iff, hcount]
      split_ifs with h
      · exact iff_of_true Nat.one_pos h
      · exact iff_of_false (lt_irrefl 0) h
    have hcpu' := (hmem cpu).mpr ⟨hcpu, hne⟩
    have hlt : cpu < 2 ^ 64 := hcpu.lt.trans (by decide)
    constructor
    · intro hbit
      exact ((hmem i).mp (mem_broadcastRun_of_le hrun hcpu' (Nat.zero_le i) hi hlt hbit
        hiself)).1
    · intro hi'
      exact hasCpu_of_mem_broadcastRun hrun ((hmem i).mpr ⟨hi', hiself⟩)
  · intro hunaliased
    exact ⟨65, exists_broadcastRun_of_unaliased hnum.symm hself hunaliased⟩

theorem vmMsgBroadcast_reaches_iff_three :
    (∃ fuel targets, threeCpus.broadcastRun 3 fuel 0 0 = some targets ∧
      ∀ cpu, targets.count cpu = if threeCpus.HasCpu cpu ∧ cpu ≠ 3 then 1 else 0) ↔
      threeCpus.Unaliased 3 :=
  vmMsgBroadcast_reaches_iff threeCpus 3 (by decide) (by decide)

def farCpus : Vm :=
  { (default : Vm) with
    config := { (default : VmConfig) with cpuNum := 2 }
    cpus := 0x200000001#64 }

/-- CPU 0 sends to CPU 32, which is not of the VM, and never to CPU 33. -/
theorem vmMsgBroadcast_misses :
    (farCpus.cpuSet.card = farCpus.config.cpuNum ∧ farCpus.HasCpu 0) ∧
      farCpus.broadcastRun 0 34 0 0 = some [32] ∧
        ¬ ∃ fuel targets, farCpus.broadcastRun 0 fuel 0 0 = some targets ∧
          ∀ cpu, targets.count cpu = if farCpus.HasCpu cpu ∧ cpu ≠ 0 then 1 else 0 := by
  refine ⟨by decide, by decide, ?_⟩
  rintro ⟨fuel, targets, hrun, hcount⟩
  have hmem : 33 ∈ targets := by
    rw [← List.count_pos_iff, hcount]
    decide
  exact absurd (hasCpu_of_mem_broadcastRun hrun hmem) (by decide)

end Peers

end Vm

end BaoHypervisor
