import BaoHypervisor.Arch.Armv8.Platform
import BaoHypervisor.Arch.Armv8.Vgic.Remote
import BaoHypervisor.Arch.Armv8.Vgic.RoundTrip
import Mathlib.Data.Fintype.Card

/-!
# Routed interrupts

On the GICv3 a guest routes a shared interrupt to the vCPU that it names by its affinity, or to any
vCPU. What is kept of the route is the affinity of the physical CPU of that vCPU, and this is what
`vgic_int_ptarget_mask` shifts a bit by, in a mask of eight bits, as if it were the number of the
CPU. A shift by more than the width of the mask leaves no bit here; from 32 on it is undefined
in C.
-/

namespace BaoHypervisor

variable {cpuNum intNum : ℕ}

namespace VgicVm

/-- The VM runs on CPUs of the platform that its description describes, whose registers tell them
apart. -/
structure Wired (vm : VgicVm cpuNum intNum) (plat : Platform) : Prop where
  cpus : vm.platformCpuNum = plat.cpuNum
  phys : ∀ v, vm.physId v < plat.cpuNum
  described : ∀ v,
    platformArchCpuidToMpdir plat (vm.physId v) = some (vm.cpuIdToMpidr (vm.physId v))
  vmpidr : ∀ v : Fin cpuNum, vm.vmpidr v = vmCpuidToMpidr cpuNum v
  mpidr : ∀ v, vm.mpidr v = vm.cpuIdToMpidr (vm.physId v) &&& mpidrAffMsk
  distinct : Function.Injective vm.mpidr

/-- The value of `GICD_IROUTER` names the vCPU by its affinity. -/
def RoutedTo (route : BitVec 64) (w : Fin cpuNum) : Prop :=
  route.getLsbD 31 = false ∧ route &&& mpidrAffMsk = BitVec.ofNat 64 w

def Reachable (plat : Platform) (cpu : ℕ) : Prop :=
  plat.affinity cpu = some (BitVec.ofNat 64 cpu) ∧ cpu < 8

variable {vm : VgicVm cpuNum intNum} {plat : Platform} {v w : Fin cpuNum}
  {route : BitVec 64}

theorem cpuNum_le (vm : VgicVm cpuNum intNum) : cpuNum ≤ 64 := by
  have hinj : Function.Injective fun v => (⟨vm.physId v, vm.physId_lt v⟩ : Fin 64) :=
    fun _ _ heq => vm.physId_injective (Fin.mk.inj heq)
  have hcard := Fintype.card_le_of_injective _ hinj
  rwa [Fintype.card_fin, Fintype.card_fin] at hcard

theorem Wired.vmpidr_and (h : vm.Wired plat) (v : Fin cpuNum) :
    vm.vmpidr v &&& mpidrAffMsk = BitVec.ofNat 64 v := by
  have hle := cpuNum_le vm
  have hv : BitVec.ofNat 64 v &&& mpidrAffMsk = BitVec.ofNat 64 v := ofNat_and_affMsk (by omega)
  rw [h.vmpidr, vmCpuidToMpidr, if_neg (by omega)]
  dsimp only
  split_ifs
  · rw [(and_affMsk _).2, hv]
  · rw [(and_affMsk _).1, hv]

theorem Wired.vmGetVcpuByMpidr (h : vm.Wired plat)
    (hroute : route &&& mpidrAffMsk = BitVec.ofNat 64 w) :
    vmGetVcpuByMpidr vm.vmpidr (route &&& 0xffff#64) = some w := by
  have hle := cpuNum_le vm
  have hfound : ∀ u : Fin cpuNum,
      (vm.vmpidr u &&& mpidrAffMsk == route &&& 0xffff#64 &&& mpidrAffMsk) = true ↔ u = w := by
    intro u
    change (vm.vmpidr u &&& mpidrAffMsk == route &&& mpidrAffMsk &&& mpidrAffMsk) = true ↔ u = w
    rw [h.vmpidr_and, BitVec.and_assoc, BitVec.and_self, hroute, beq_iff_eq, Fin.ext_iff]
    refine ⟨fun heq => ?_, fun heq => by rw [heq]⟩
    have hnat := congrArg BitVec.toNat heq
    rw [BitVec.toNat_ofNat, BitVec.toNat_ofNat] at hnat
    omega
  rw [BaoHypervisor.vmGetVcpuByMpidr]
  cases hfind : (List.finRange cpuNum).find? fun u =>
      vm.vmpidr u &&& mpidrAffMsk == route &&& 0xffff#64 &&& mpidrAffMsk with
  | none => exact absurd ((hfound w).mpr rfl) (List.find?_eq_none.mp hfind w (List.mem_finRange w))
  | some u =>
      have hu := List.find?_some hfind
      rw [(hfound u).mp hu]

theorem Wired.affinity (h : vm.Wired plat) (w : Fin cpuNum) :
    plat.affinity (vm.physId w) = some (vm.mpidr w) := by
  rw [Platform.affinity, h.described, Option.map_some, h.mpidr]

end VgicVm

namespace VgicState

variable {s : VgicState cpuNum intNum} {vm : VgicVm cpuNum intNum} {plat : Platform}
  {v : Fin cpuNum} {r : IntRef cpuNum intNum}

/-! ## Messages -/

theorem sent_vgicYieldOwnership : (s.vgicYieldOwnership vm v r).sent = s.sent := by
  rcases vgicYieldOwnership_cases s vm v r with heq | ⟨heq, -⟩
  · rw [heq]
  · rw [heq]
    rfl

theorem sent_vgicRemoveLr : (s.vgicRemoveLr vm v r).sent = s.sent := by
  rw [vgicRemoveLr]
  split_ifs
  · rfl
  · cases s.gichGetLr vm v r with
    | none => rfl
    | some lr => rfl

theorem sent_vgicWriteLr {i : ℕ} : (s.vgicWriteLr vm v r i).sent = s.sent := by
  change (s.forgetPrev vm v r i).sent = s.sent
  rw [forgetPrev]
  split_ifs
  · cases vgicGetInt (s.currLrs v i) v with
    | none => rfl
    | some prev =>
        dsimp only
        split_ifs
        · exact sent_vgicYieldOwnership
        · rfl
  · rfl

theorem sent_vgicSpillLr {i : ℕ} : (s.vgicSpillLr vm v i).sent = s.sent := by
  rw [vgicSpillLr]
  cases vgicGetInt (s.lrs v i).vid v with
  | none => rfl
  | some spilled => exact sent_vgicYieldOwnership.trans sent_vgicRemoveLr

theorem sent_vgicAddLr : (s.vgicAddLr vm v r).sent = s.sent := by
  rw [vgicAddLr]
  split_ifs
  · rfl
  · cases vm.firstLr (s.gichGetElrsr v) with
    | some i => exact sent_vgicWriteLr
    | none =>
        dsimp only
        cases vm.spillInd r (s.lrs v) (s.ints r) with
        | none => rfl
        | some i => exact sent_vgicWriteLr.trans sent_vgicSpillLr

/-- The message that `vgic_route` sends. -/
def routeMsg (v : Fin cpuNum) (r : IntRef cpuNum intNum) : VgicMsg :=
  { event := .route, vgicrId := BitVec.ofNat 16 v, intId := BitVec.ofNat 15 r.id, reg := 0#8
    val := 0#8 }

/-- The CPUs that `vgic_route` sends to. -/
def routeTargets (s : VgicState cpuNum intNum) (vm : VgicVm cpuNum intNum) (v : Fin cpuNum)
    (r : IntRef cpuNum intNum) : List ℕ :=
  (List.range vm.platformCpuNum).filter fun cpu =>
    (vm.vgicIntPtargetMask v (s.ints r)).getLsbD cpu && cpu != vm.physId v

theorem routeTargets_congr {s s' : VgicState cpuNum intNum} (h : SameConfig s s') :
    s'.routeTargets vm v r = s.routeTargets vm v r := by
  have hmask : vm.vgicIntPtargetMask v (s'.ints r) = vm.vgicIntPtargetMask v (s.ints r) := by
    have hconfig := h r
    injection hconfig with _ hroute hphys _ _ _ _ htargets
    rw [VgicVm.vgicIntPtargetMask, VgicVm.vgicIntPtargetMask, VgicVm.vgicBroadcast,
      VgicVm.vgicBroadcast, hroute, hphys, htargets]
  rw [routeTargets, routeTargets, hmask]

theorem sent_sendRoute {s' : VgicState cpuNum intNum} (h : SameConfig s s')
    (hsent : s'.sent = s.sent) :
    ((s'.vgicYieldOwnership vm v r).sendRoute vm v r).sent =
      s.sent ++ (s.routeTargets vm v r).map fun cpu => (cpu, routeMsg v r) := by
  have htargets : (s'.vgicYieldOwnership vm v r).routeTargets vm v r = s.routeTargets vm v r :=
    routeTargets_congr (h.trans sameConfig_vgicYieldOwnership)
  rw [← htargets, ← hsent, ← @sent_vgicYieldOwnership _ _ s' vm v r]
  rfl

theorem sent_vgicRoute (s : VgicState cpuNum intNum) (vm : VgicVm cpuNum intNum) (v : Fin cpuNum)
    (r : IntRef cpuNum intNum) :
    (s.vgicRoute vm v r).sent = s.sent ∨
      (s.vgicRoute vm v r).sent =
        s.sent ++ (s.routeTargets vm v r).map fun cpu => (cpu, routeMsg v r) := by
  rw [vgicRoute]
  dsimp only
  split_ifs
  · exact .inl rfl
  · exact .inr (sent_sendRoute sameConfig_vgicAddLr sent_vgicAddLr)
  · exact .inl sent_vgicAddLr
  · exact .inr (sent_sendRoute (.refl s) rfl)
  · exact .inl rfl

theorem sent_vgicRoute_of_not_target (hpend : (s.ints r).state ≠ .inv)
    (henabled : (s.ints r).enabled = true) (hin : (s.ints r).inLr = false)
    (hnot : vm.vgicIntVcpuIsTarget v r (s.ints r) = false)
    (hother : vm.vgicIntHasOtherTarget v r (s.ints r) = true) :
    (s.vgicRoute vm v r).sent =
      s.sent ++ (s.routeTargets vm v r).map fun cpu => (cpu, routeMsg v r) := by
  have hskip : ¬ ((s.ints r).state = .inv ∨ (s.ints r).enabled = false) := by
    rw [henabled]
    simpa using hpend
  rw [vgicRoute, if_neg hskip]
  dsimp only
  rw [hnot, if_neg Bool.false_ne_true, if_pos ⟨hin, hother⟩]
  exact sent_sendRoute (.refl s) rfl

/-! ## Routes -/

/-- The interrupt after a guest has written its `GICD_IROUTER` on a vCPU. -/
def routed (s : VgicState cpuNum intNum) (vm : VgicVm cpuNum intNum) (u : Fin cpuNum)
    (r : IntRef cpuNum intNum) (route : BitVec 64) : VgicState cpuNum intNum :=
  s.setInt r (vm.vgicIntSetRoute u r (s.ints r) route)

/-- `vgic_route` sends a message to the CPU of the vCPU that the interrupt is routed to and to no
other one, and to CPUs of the VM only when it is routed to any vCPU. -/
structure RoutesRight (s s' : VgicState cpuNum intNum) (vm : VgicVm cpuNum intNum) (v : Fin cpuNum)
    (r : IntRef cpuNum intNum) (route : BitVec 64) : Prop where
  target : ∀ w ≠ v, VgicVm.RoutedTo route w →
    s'.sent = s.sent ++ [(vm.physId w, routeMsg v r)]
  any : route.getLsbD 31 = true → ∃ cpus : List ℕ, (∀ cpu ∈ cpus, vm.vm.HasCpu cpu) ∧
    s'.sent = s.sent ++ cpus.map fun cpu => (cpu, routeMsg v r)

section Routed

variable {u w : Fin cpuNum} {route : BitVec 64}

theorem vgicIntSetRoute_broadcast (hshared : gicIsPriv r.id = false) (i : VgicInt cpuNum) :
    VgicVm.vgicBroadcast (vm.vgicIntSetRoute u r i route) = route.getLsbD 31 := by
  rw [VgicVm.vgicIntSetRoute, hshared, if_neg Bool.false_ne_true, VgicVm.vgicBroadcast,
    BitVec.getLsbD_and, getLsbD_routeMask 31 (by decide), decide_eq_true (by decide),
    Bool.and_true]

theorem vgicIntSetRoute_phys (hwired : vm.Wired plat) (hshared : gicIsPriv r.id = false)
    (hroute : VgicVm.RoutedTo route w) (i : VgicInt cpuNum) :
    (vm.vgicIntSetRoute u r i route).phys = vm.mpidr w := by
  rw [VgicVm.vgicIntSetRoute, hshared, if_neg Bool.false_ne_true, hroute.1,
    if_neg Bool.false_ne_true, hwired.vmGetVcpuByMpidr hroute.2]
  exact (hwired.mpidr w).symm

/-- The bit that the affinity shifts to is that of the CPU. -/
theorem routeTargets_eq_iff (hwired : vm.Wired plat) (hversion : vm.version = .gicv3)
    (hphys : (s.ints r).phys = vm.mpidr w) (hbroadcast : VgicVm.vgicBroadcast (s.ints r) = false)
    (hwv : w ≠ v) :
    s.routeTargets vm v r = [vm.physId w] ↔ VgicVm.Reachable plat (vm.physId w) := by
  have hlt := vm.physId_lt w
  have hne : vm.physId w ≠ vm.physId v := fun heq => hwv (vm.physId_injective heq)
  have hmask : vm.vgicIntPtargetMask v (s.ints r) = 1#8 <<< (vm.mpidr w).toNat := by
    rw [VgicVm.vgicIntPtargetMask, hversion, ← hphys]
    dsimp only
    rw [hbroadcast, if_neg Bool.false_ne_true]
  have hbit : ∀ cpu, (1#8 <<< (vm.mpidr w).toNat).getLsbD cpu = true ↔
      (vm.mpidr w).toNat = cpu ∧ cpu < 8 := by
    intro cpu
    rw [BitVec.getLsbD_shiftLeft, BitVec.getLsbD_one]
    simp
    omega
  have hmem : ∀ cpu, cpu ∈ s.routeTargets vm v r ↔ cpu < plat.cpuNum ∧
      ((vm.mpidr w).toNat = cpu ∧ cpu < 8) ∧ cpu ≠ vm.physId v := by
    intro cpu
    rw [routeTargets, List.mem_filter, List.mem_range, hwired.cpus, hmask, Bool.and_eq_true,
      hbit, bne_iff_ne]
  have hreach : VgicVm.Reachable plat (vm.physId w) ↔
      (vm.mpidr w).toNat = vm.physId w ∧ vm.physId w < 8 := by
    rw [VgicVm.Reachable, hwired.affinity, Option.some_inj]
    refine and_congr_left fun _ => ⟨fun heq => ?_, fun heq => BitVec.eq_of_toNat_eq ?_⟩
    · rw [heq, BitVec.toNat_ofNat]
      omega
    · rw [heq, BitVec.toNat_ofNat]
      omega
  rw [hreach]
  constructor
  · intro heq
    exact ((hmem _).mp (heq ▸ List.mem_singleton_self _)).2.1
  · rintro ⟨haff, hsmall⟩
    have hnodup : (s.routeTargets vm v r).Nodup := List.nodup_range.filter _
    refine List.perm_singleton.mp ((List.perm_ext_iff_of_nodup hnodup
      (List.nodup_singleton _)).mpr fun cpu => ?_)
    rw [hmem, List.mem_singleton]
    constructor
    · rintro ⟨-, ⟨heq, -⟩, -⟩
      exact heq.symm.trans haff
    · rintro rfl
      exact ⟨hwired.phys w, ⟨haff, hsmall⟩, hne⟩

/-- The interrupt is not for the current CPU, but for another one. -/
theorem target_of_routed (hwired : vm.Wired plat) (hversion : vm.version = .gicv3)
    (hshared : gicIsPriv r.id = false) {i : VgicInt cpuNum} (hphys : i.phys = vm.mpidr w)
    (hbroadcast : VgicVm.vgicBroadcast i = false) (hwv : w ≠ v) :
    vm.vgicIntVcpuIsTarget v r i = false ∧ vm.vgicIntHasOtherTarget v r i = true := by
  have hne : (vm.mpidr w == vm.mpidr v) = false :=
    beq_eq_false_iff_ne.mpr fun heq => hwv (hwired.distinct heq)
  have hvalid : (vm.mpidr w != VgicVm.gicdIrouterInv) = true := by
    rw [bne_iff_ne, hwired.mpidr]
    intro heq
    have hbit : (vm.cpuIdToMpidr (vm.physId w) &&& mpidrAffMsk).getLsbD 16 =
        VgicVm.gicdIrouterInv.getLsbD 16 := by rw [heq]
    rw [BitVec.getLsbD_and, show mpidrAffMsk.getLsbD 16 = false by decide,
      show VgicVm.gicdIrouterInv.getLsbD 16 = true by decide, Bool.and_false] at hbit
    cases hbit
  rw [VgicVm.vgicIntVcpuIsTarget, VgicVm.vgicIntHasOtherTarget, hversion, hphys, hbroadcast,
    hshared]
  dsimp only
  rw [hne, hvalid]
  exact ⟨rfl, rfl⟩

end Routed

/-- The route of an interrupt hits its target exactly when the affinities of the CPUs of the
vCPUs are their numbers, below eight. -/
theorem routesRight_vgicRoute_iff (hwired : vm.Wired plat) (hversion : vm.version = .gicv3)
    (u : Fin cpuNum) (hshared : gicIsPriv r.id = false) (hpend : (s.ints r).state.pend = true)
    (henabled : (s.ints r).enabled = true) (hin : (s.ints r).inLr = false) (route : BitVec 64) :
    RoutesRight (s.routed vm u r route) ((s.routed vm u r route).vgicRoute vm v r) vm v r route ↔
      ∀ w ≠ v, VgicVm.RoutedTo route w → VgicVm.Reachable plat (vm.physId w) := by
  have hself : (s.routed vm u r route).ints r = vm.vgicIntSetRoute u r (s.ints r) route :=
    ints_setInt_self
  have hkept : ((s.routed vm u r route).ints r).state = (s.ints r).state ∧
      ((s.routed vm u r route).ints r).enabled = (s.ints r).enabled ∧
        ((s.routed vm u r route).ints r).inLr = (s.ints r).inLr := by
    rw [hself, VgicVm.vgicIntSetRoute, hshared, if_neg Bool.false_ne_true]
    exact ⟨rfl, rfl, rfl⟩
  have hsent : ∀ w ≠ v, VgicVm.RoutedTo route w →
      (((s.routed vm u r route).vgicRoute vm v r).sent =
          (s.routed vm u r route).sent ++ [(vm.physId w, routeMsg v r)] ↔
        VgicVm.Reachable plat (vm.physId w)) := by
    intro w hwv hroute
    have hphys := vgicIntSetRoute_phys (u := u) hwired hshared hroute (s.ints r)
    have hbroadcast : VgicVm.vgicBroadcast (vm.vgicIntSetRoute u r (s.ints r) route) = false :=
      (vgicIntSetRoute_broadcast hshared _).trans hroute.1
    rw [← hself] at hphys hbroadcast
    obtain ⟨hnot, hother⟩ := target_of_routed hwired hversion hshared hphys hbroadcast hwv
    have hstate : ((s.routed vm u r route).ints r).state ≠ .inv := by
      rw [hkept.1]
      intro hinv
      rw [hinv] at hpend
      cases hpend
    rw [sent_vgicRoute_of_not_target hstate (hkept.2.1.trans henabled) (hkept.2.2.trans hin) hnot
      hother, List.append_cancel_left_eq,
      ← routeTargets_eq_iff hwired hversion hphys hbroadcast hwv]
    refine ⟨fun heq => ?_, fun heq => by rw [heq]; rfl⟩
    exact List.map_injective_iff.mpr (fun _ _ h => congrArg Prod.fst h) heq
  refine ⟨fun h w hwv hroute => (hsent w hwv hroute).mp (h.target w hwv hroute), fun h =>
    ⟨fun w hwv hroute => (hsent w hwv hroute).mpr (h w hwv hroute), fun hany => ?_⟩⟩
  rcases sent_vgicRoute (s.routed vm u r route) vm v r with heq | heq
  · exact ⟨[], fun cpu hcpu => absurd hcpu List.not_mem_nil, by rw [heq]; simp⟩
  · refine ⟨_, fun cpu hcpu => ?_, heq⟩
    rw [routeTargets, List.mem_filter, Bool.and_eq_true, VgicVm.vgicIntPtargetMask, hversion, hself,
      vgicIntSetRoute_broadcast hshared, hany] at hcpu
    have hbit := hcpu.2.1
    dsimp only at hbit
    rw [if_pos rfl, BitVec.getLsbD_setWidth, BitVec.getLsbD_and, Bool.and_eq_true,
      Bool.and_eq_true] at hbit
    exact hbit.2.1

/-- The VM on the CPUs of a platform. -/
def onPlatform (vm : VgicVm cpuNum intNum) (plat : Platform) : VgicVm cpuNum intNum :=
  { vm with
    platformCpuNum := plat.cpuNum
    mpidr := fun v => (plat.affinity v).getD 0#64
    cpuIdToMpidr := fun cpu => (platformArchCpuidToMpdir plat cpu).getD 0#64
    vmpidr := fun v => vmCpuidToMpidr cpuNum v }

def pendingOn (vm : VgicVm cpuNum intNum) (v : Fin cpuNum) (r : IntRef cpuNum intNum) :
    VgicState cpuNum intNum :=
  let s := start vm fun _ => false
  s.setInt r { s.ints r with owner := some v, state := .pending, enabled := true }

/-- Both CPUs are in one cluster. -/
theorem routesRight_oneCluster :
    let plat : Platform := ⟨2, [2]⟩
    let vm := onPlatform twoVcpus plat
    let s := pendingOn vm 0 (.spi 0)
    RoutesRight (s.routed vm 0 (.spi 0) 1#64)
        ((s.routed vm 0 (.spi 0) 1#64).vgicRoute vm 0 (.spi 0)) vm 0 (.spi 0) 1#64 ↔
      ∀ w ≠ 0, VgicVm.RoutedTo 1#64 w → VgicVm.Reachable plat (vm.physId w) := by
  intro plat vm s
  have hwired : vm.Wired plat :=
    ⟨rfl, by decide, by decide, fun _ => rfl, by decide, fun v w => by revert v w; decide⟩
  exact routesRight_vgicRoute_iff hwired rfl 0 (by decide) (by decide) (by decide) (by decide) 1#64

/-- Each CPU is in a cluster of its own: nothing is sent to the second one. -/
theorem not_routesRight_twoClusters :
    let plat : Platform := ⟨2, [1, 1]⟩
    let vm := onPlatform twoVcpus plat
    let s := pendingOn vm 0 (.spi 0)
    vm.Wired plat ∧
      ¬ RoutesRight (s.routed vm 0 (.spi 0) 1#64)
          ((s.routed vm 0 (.spi 0) 1#64).vgicRoute vm 0 (.spi 0)) vm 0 (.spi 0) 1#64 := by
  intro plat vm s
  refine ⟨⟨rfl, by decide, by decide, fun _ => rfl, by decide,
    fun v w => by revert v w; decide⟩, fun h => ?_⟩
  have hsent := h.target 1 (by decide) ⟨by decide, by decide⟩
  exact absurd hsent (by decide +kernel)

end VgicState

end BaoHypervisor
