import BaoHypervisor.Theory.BitField
import Mathlib.Data.List.Basic

/-!
# Affinities of CPUs

The affinity of a CPU is made of the number of its cluster and its number in there, by the
clusters that the description of the platform names. Without clusters in the description it is the
number of the CPU, as it is in the first cluster.
-/

namespace BaoHypervisor

/-- The part of `struct platform` that is about CPUs: `cpu_num`, and `core_num` of each of
`arch.clusters`. -/
structure Platform where
  cpuNum : ℕ
  clusters : List ℕ
deriving DecidableEq, Repr

def mpidrRes1 : BitVec 64 := 0x80000000#64

def mpidrRes0Msk : BitVec 64 := ~~~ (0x1f#64 <<< 25)

def mpidrUBit : BitVec 64 := 1#64 <<< 30

def mpidrAffMsk : BitVec 64 := 0xffff#64

def invalidMpidr : BitVec 64 := ~~~ (~~~ mpidrRes1 &&& mpidrRes0Msk)

/-- The loop of `platform_arch_cpuid_to_mpdir` over the clusters from `i` on, which have CPUs from
`j` on. -/
def clusterLoop (cpuid : ℕ) : List ℕ → ℕ → ℕ → Option (BitVec 64)
  | coreNum :: clusters, i, j =>
      if cpuid < j + coreNum then
        some (BitVec.ofNat 64 i <<< 8 ||| BitVec.ofNat 64 (cpuid - j) &&& 0xff#64)
      else clusterLoop cpuid clusters (i + 1) (j + coreNum)
  | [], _, _ => none

/-- `platform_arch_cpuid_to_mpdir`, where `none` is the `ERROR` for a CPU that no cluster has. -/
def platformArchCpuidToMpdir (plat : Platform) (cpuid : ℕ) : Option (BitVec 64) :=
  if plat.cpuNum < cpuid then some invalidMpidr
  else
    let mpidr :=
      if 0 < plat.clusters.length then clusterLoop cpuid plat.clusters 0 0
      else some (BitVec.ofNat 64 cpuid)
    mpidr.map fun mpidr =>
      if plat.cpuNum = 1 then mpidr ||| mpidrRes1 ||| mpidrUBit else mpidr ||| mpidrRes1

/-- `vm_cpuid_to_mpidr` of a VM with so many vCPUs. -/
def vmCpuidToMpidr (cpuNum cpuid : ℕ) : BitVec 64 :=
  if cpuNum < cpuid then invalidMpidr
  else
    let mpidr := BitVec.ofNat 64 cpuid ||| mpidrRes1
    if cpuNum = 1 then mpidr ||| mpidrUBit else mpidr

/-- `vm_get_vcpu_by_mpidr` of a VM whose vCPUs have these values of VMPIDR. -/
def vmGetVcpuByMpidr {cpuNum : ℕ} (vmpidr : Fin cpuNum → BitVec 64) (mpidr : BitVec 64) :
    Option (Fin cpuNum) :=
  (List.finRange cpuNum).find? fun v => vmpidr v &&& mpidrAffMsk == mpidr &&& mpidrAffMsk

/-! ## Affinities -/

theorem toNat_and_affMsk (x : BitVec 64) : (x &&& mpidrAffMsk).toNat = x.toNat % 2 ^ 16 :=
  BitField.toNat_and_mask x (k := 16) (by decide)

theorem and_affMsk (x : BitVec 64) :
    (x ||| mpidrRes1) &&& mpidrAffMsk = x &&& mpidrAffMsk ∧
      (x ||| mpidrRes1 ||| mpidrUBit) &&& mpidrAffMsk = x &&& mpidrAffMsk := by
  have hres : mpidrRes1 &&& mpidrAffMsk = 0#64 := by decide
  have hu : mpidrUBit &&& mpidrAffMsk = 0#64 := by decide
  constructor
  · rw [BitVec.and_or_distrib_right, hres, BitVec.or_zero]
  · rw [BitVec.and_or_distrib_right, BitVec.and_or_distrib_right, hres, hu, BitVec.or_zero,
      BitVec.or_zero]

theorem ofNat_and_affMsk {n : ℕ} (h : n < 2 ^ 16) :
    BitVec.ofNat 64 n &&& mpidrAffMsk = BitVec.ofNat 64 n := by
  refine BitVec.eq_of_toNat_eq ?_
  rw [toNat_and_affMsk, BitVec.toNat_ofNat]
  omega

namespace Platform

variable {plat : Platform} {cpuid i j : ℕ}

/-- The affinity of a CPU by the description of the platform. -/
def affinity (plat : Platform) (cpuid : ℕ) : Option (BitVec 64) :=
  (platformArchCpuidToMpdir plat cpuid).map (· &&& mpidrAffMsk)

theorem affinity_eq (h : cpuid ≤ plat.cpuNum) :
    plat.affinity cpuid =
      (if plat.clusters = [] then some (BitVec.ofNat 64 cpuid)
        else clusterLoop cpuid plat.clusters 0 0).map (· &&& mpidrAffMsk) := by
  have hmpidr : (fun mpidr : BitVec 64 => (if plat.cpuNum = 1 then mpidr ||| mpidrRes1 ||| mpidrUBit
      else mpidr ||| mpidrRes1) &&& mpidrAffMsk) = fun mpidr => mpidr &&& mpidrAffMsk := by
    funext mpidr
    split_ifs
    · exact (and_affMsk mpidr).2
    · exact (and_affMsk mpidr).1
  rw [affinity, platformArchCpuidToMpdir, if_neg (Nat.not_lt.mpr h)]
  dsimp only
  rw [Option.map_map, Function.comp_def, hmpidr]
  cases plat.clusters with
  | nil => rfl
  | cons coreNum clusters => rfl

/-- The number of the cluster is the second byte of the affinity, and that in the cluster the
first. -/
theorem toNat_clusterAffinity (hi : i < 2 ^ 8) :
    ((BitVec.ofNat 64 i <<< 8 ||| BitVec.ofNat 64 j &&& 0xff#64) &&& mpidrAffMsk).toNat =
      i * 2 ^ 8 + j % 2 ^ 8 := by
  have hj : (BitVec.ofNat 64 j &&& 0xff#64).toNat = j % 2 ^ 8 := by
    refine (BitField.toNat_and_mask (BitVec.ofNat 64 j) (k := 8) (by decide)).trans ?_
    rw [BitVec.toNat_ofNat, Nat.mod_mod_of_dvd _ (by decide)]
  have hi64 : i % 2 ^ 64 = i := Nat.mod_eq_of_lt (hi.trans (by decide))
  have hshift : (BitVec.ofNat 64 i <<< 8).toNat = i <<< 8 := by
    rw [BitVec.toNat_shiftLeft, BitVec.toNat_ofNat, hi64, Nat.shiftLeft_eq,
      Nat.mod_eq_of_lt (by omega)]
  have hlow : j % 2 ^ 8 < 2 ^ 8 := Nat.mod_lt j (by decide)
  rw [toNat_and_affMsk, BitVec.toNat_or, hshift, hj,
    ← Nat.shiftLeft_add_eq_or_of_lt hlow, Nat.shiftLeft_eq, Nat.mod_eq_of_lt (by omega)]

theorem clusterLoop_ge {clusters : List ℕ} {x : BitVec 64}
    (h : clusterLoop cpuid clusters i j = some x) (hlen : i + clusters.length ≤ 2 ^ 8) :
    i * 2 ^ 8 ≤ (x &&& mpidrAffMsk).toNat := by
  induction clusters generalizing i j with
  | nil => cases h
  | cons coreNum clusters ih =>
      rw [List.length_cons] at hlen
      rw [clusterLoop] at h
      split_ifs at h with hlt
      · rw [← Option.some.inj h, toNat_clusterAffinity (by omega)]
        exact Nat.le_add_right _ _
      · exact (Nat.mul_le_mul_right _ (Nat.le_succ i)).trans (ih h (by omega))

/-- The affinity of one of the first CPUs is its number when it is in the first cluster. -/
theorem affinity_eq_iff (hlen : plat.clusters.length ≤ 2 ^ 8) (h : cpuid ≤ plat.cpuNum)
    (hcpuid : cpuid < 2 ^ 8) :
    plat.affinity cpuid = some (BitVec.ofNat 64 cpuid) ↔
      plat.clusters = [] ∨ ∃ coreNum ∈ plat.clusters.head?, cpuid < coreNum := by
  have hsame : BitVec.ofNat 64 cpuid &&& mpidrAffMsk = BitVec.ofNat 64 cpuid :=
    ofNat_and_affMsk (by omega)
  rw [affinity_eq h]
  cases hclusters : plat.clusters with
  | nil =>
      rw [if_pos rfl, Option.map_some, hsame]
      exact iff_of_true rfl (.inl rfl)
  | cons coreNum clusters =>
      rw [if_neg (List.cons_ne_nil _ _), clusterLoop, Nat.zero_add, Nat.sub_zero]
      by_cases hlt : cpuid < coreNum
      · have haff :
            (BitVec.ofNat 64 0 <<< 8 ||| BitVec.ofNat 64 cpuid &&& 0xff#64) &&& mpidrAffMsk =
              BitVec.ofNat 64 cpuid := by
          refine BitVec.eq_of_toNat_eq ?_
          rw [toNat_clusterAffinity (by decide), BitVec.toNat_ofNat]
          omega
        rw [if_pos hlt, Option.map_some, haff]
        exact iff_of_true rfl (.inr ⟨coreNum, rfl, hlt⟩)
      · rw [if_neg hlt]
        refine iff_of_false (fun heq => ?_) ?_
        · obtain ⟨x, hx, heq⟩ := Option.map_eq_some_iff.mp heq
          rw [hclusters, List.length_cons] at hlen
          have hge := clusterLoop_ge hx (by omega)
          rw [heq, BitVec.toNat_ofNat] at hge
          omega
        · rintro (hnil | ⟨coreNum', heq, hlt'⟩)
          · cases hnil
          · obtain rfl := Option.some.inj heq
            exact hlt hlt'

end Platform

end BaoHypervisor
