import BaoHypervisor.Core.Mem.RootPool
import BaoHypervisor.Core.Mem.StaticMemory
import BaoHypervisor.Core.Vmm.Isolation

/-!
# Whose memory it is

The pools are made by `mem_init`, shared memory is taken from them, and then the VMs are set up.
What is in a pool belongs to the hypervisor, to the configuration of a VM, to a shared memory or to
the CPU that has got it from the pool, and to one of these only (`Guests.owns_unique`). A guest uses
pages that its CPU has got, those of its configuration, and those of shared memories that it has an
`ipc` for. So it never uses a page of the hypervisor, and a page that it has in common with another
guest is one of a shared memory that both have an `ipc` for.
-/

namespace BaoHypervisor

/-! ## Pages of ranges -/

namespace PhysRange

def Meets (r : PhysRange) (p : ℕ) : Prop :=
  ∃ a, r.base.toNat ≤ a ∧ a < r.base.toNat + r.size.toNat ∧ a / pageSize = p

theorem meets_of_page {r : PhysRange} {p : ℕ} (hbase : pageSize ∣ r.base.toNat)
    (hle : r.base.toNat / pageSize ≤ p)
    (hlt : p * pageSize < r.base.toNat + r.size.toNat) : r.Meets p := by
  refine ⟨p * pageSize, ?_, hlt, Nat.mul_div_cancel _ (by decide)⟩
  rw [← Nat.div_mul_cancel hbase]
  exact Nat.mul_le_mul_right _ hle

end PhysRange

theorem toNat_numPages_le (size : SizeT) :
    (numPages size).toNat ≤ (size.toNat + (pageSize - 1)) / pageSize := by
  by_cases hword : size.toNat + (pageSize - 1) < 2 ^ 64
  · rw [toNat_numPages hword]
  · -- the sum wraps around to less than a page
    have hsize := size.isLt
    have hsum : (size + BitVec.ofNat 64 pageSize - 1#64).toNat / pageSize = 0 := by
      unfold pageSize at *
      simp only [BitVec.toNat_sub, BitVec.toNat_add, BitVec.toNat_ofNat]
      omega
    have hzero : (size + BitVec.ofNat 64 pageSize - 1#64) / BitVec.ofNat 64 pageSize = 0#64 := by
      apply BitVec.eq_of_toNat_eq
      rw [BitVec.toNat_udiv]
      exact hsum
    rw [numPages, align, hzero, BitVec.zero_mul, BitVec.zero_udiv]
    exact Nat.zero_le _

theorem page_lt_of_numPages {base p : ℕ} {size : SizeT} (hbase : pageSize ∣ base)
    (hlt : p < base / pageSize + (numPages size).toNat) : p * pageSize < base + size.toNat := by
  have hle := toNat_numPages_le size
  obtain ⟨k, rfl⟩ := hbase
  rw [Nat.mul_div_cancel_left k (by decide)] at hlt
  unfold pageSize at *
  omega

theorem PagePool.touches_iff_meets {pool : PagePool} {r : PhysRange} {bit : ℕ}
    (hbit : bit < pool.size.toNat) :
    pool.Touches r bit ↔ r.Meets (pool.firstPage + bit) := by
  have hbase := Nat.div_mul_cancel (Nat.dvd_of_mod_eq_zero pool.base_aligned)
  have hin : ∀ a, pool.InPage bit a ↔ a / pageSize = pool.firstPage + bit := by
    intro a
    rw [InPage, firstPage, ← hbase]
    unfold pageSize
    omega
  rw [Touches, and_iff_right hbit]
  simp only [PhysRange.Meets, hin]

theorem PagePool.OnPages.exists_bit {pool : PagePool} {r : PhysRange} {p : ℕ}
    (h : pool.OnPages r) (hp : r.Meets p) : ∃ bit < pool.size.toNat, p = pool.firstPage + bit := by
  have hbase := Nat.div_mul_cancel (Nat.dvd_of_mod_eq_zero pool.base_aligned)
  have hle := h.base_le
  have hend := h.end_le
  obtain ⟨a, hlow, hhigh, rfl⟩ := hp
  rw [firstPage]
  rw [← hbase] at hle hend
  unfold pageSize at *
  refine ⟨a / 4096 - pool.base.toNat / 4096, by omega, by omega⟩

/-! ## Shared memory -/

/-- `ipc_alloc_shmem`, for memory without colours. There is no result in `ERROR`. -/
def ipcAllocShmem (numPools : ℕ) : List Shmem → PoolProg (Option (List Shmem))
  | [] => .ret (some [])
  | shmem :: shmems =>
      if shmem.placePhys then
        (ipcAllocShmem numPools shmems).bindSome fun rest => .ret (some (shmem :: rest))
      else
        (allocPpages (numPages shmem.size) false numPools 0).bindSome fun base =>
          (ipcAllocShmem numPools shmems).bindSome fun rest =>
            .ret (some ({ shmem with phys := base } :: rest))

def Shmem.range (shmem : Shmem) : PhysRange := ⟨shmem.phys, shmem.size⟩

/-- A shared memory has its place from the configuration, or from a call. -/
structure ShmemAt (log : List (PoolCall × Option Addr)) (shmem shmem' : Shmem) : Prop where
  size : shmem'.size = shmem.size
  placePhys : shmem'.placePhys = shmem.placePhys
  phys : shmem.placePhys = true → shmem'.phys = shmem.phys
  page : shmem.placePhys = false →
    ∃ e ∈ log, e.2 = some shmem'.phys ∧ e.1.numPages = numPages shmem'.size

def CallsApart (e e' : PoolCall × Option Addr) : Prop := ∀ p, ¬ (HasPage e p ∧ HasPage e' p)

/-- The pages of two shared memories that calls have returned are different. -/
def ShmemsApart (shmem shmem' : Shmem) : Prop :=
  shmem.placePhys = false → shmem'.placePhys = false → ∀ p,
    ¬ ((shmem.phys.toNat / pageSize ≤ p ∧
        p < shmem.phys.toNat / pageSize + (numPages shmem.size).toNat) ∧
      shmem'.phys.toNat / pageSize ≤ p ∧
        p < shmem'.phys.toNat / pageSize + (numPages shmem'.size).toNat)

variable {log log' : List (PoolCall × Option Addr)} {shmem shmem' : Shmem} {shmems : List Shmem}

theorem ShmemAt.mono (h : ShmemAt log shmem shmem') (hsub : log.Sublist log') :
    ShmemAt log' shmem shmem' where
  size := h.size
  placePhys := h.placePhys
  phys := h.phys
  page := fun hplace => (h.page hplace).imp fun _ he => ⟨hsub.subset he.1, he.2⟩

/-- What `ipc_alloc_shmem` returns, with the calls that it makes. -/
structure ShmemsAt (shmems : List Shmem) (calls : List (PoolCall × Option Addr))
    (shmems' : List Shmem) : Prop where
  each : List.Forall₂ (ShmemAt calls) shmems shmems'
  apart : calls.Pairwise CallsApart → shmems'.Pairwise ShmemsApart

theorem ShmemsAt.consPlaced {shmems' : List Shmem} (h : ShmemsAt shmems log shmems')
    (hplace : shmem.placePhys = true) : ShmemsAt (shmem :: shmems) log (shmem :: shmems') where
  each := .cons ⟨rfl, rfl, fun _ => rfl, fun hnot => by simp [hplace] at hnot⟩ h.each
  apart := fun hlog => List.pairwise_cons.mpr
    ⟨fun _ _ hnot => by simp [hplace] at hnot, h.apart hlog⟩

theorem ShmemsAt.consAllocated {shmems' : List Shmem} (h : ShmemsAt shmems log' shmems')
    (hplace : shmem.placePhys = false) (log : List (PoolCall × Option Addr)) (pool : ℕ)
    (base : Addr) :
    ShmemsAt (shmem :: shmems)
      (log ++ [(⟨pool, numPages shmem.size, false⟩, some base)] ++ log')
      ({ shmem with phys := base } :: shmems') where
  each := by
    refine .cons ⟨rfl, rfl, fun hnot => by simp [hplace] at hnot, fun _ => ?_⟩
      (h.each.imp fun _ _ hat => hat.mono (List.sublist_append_right _ _))
    exact ⟨(⟨pool, numPages shmem.size, false⟩, some base), by simp, rfl, rfl⟩
  apart := by
    intro hlog
    obtain ⟨-, hlater, hcross⟩ := List.pairwise_append.mp hlog
    refine List.pairwise_cons.mpr ⟨fun shmem' hmem _ hplace' p hboth => ?_, h.apart hlater⟩
    -- the call for the later one comes after
    obtain ⟨i, hi, rfl⟩ := List.getElem_of_mem hmem
    have hlen := h.each.length_eq
    have hat := List.Forall₂.get h.each (hlen ▸ hi) hi
    obtain ⟨e, he, hbase, hpages⟩ := hat.page (hat.placePhys ▸ hplace')
    refine hcross (⟨pool, numPages shmem.size, false⟩, some base) (by simp) e he p ⟨?_, ?_⟩
    · exact ⟨base, rfl, hboth.1⟩
    · exact ⟨_, hbase, by rw [hpages]; exact hboth.2⟩

theorem satSome_ipcAllocShmem (numPools : ℕ) (log : List (PoolCall × Option Addr)) :
    Client.SatSome (fun log' shmems' => ∃ calls, log' = log ++ calls ∧
      ShmemsAt shmems calls shmems') log (ipcAllocShmem numPools shmems) := by
  induction shmems generalizing log with
  | nil =>
      refine Client.satSome_some.mpr ⟨[], by simp, .nil, ?_⟩
      simp
  | cons shmem shmems ih =>
      rw [ipcAllocShmem]
      by_cases hplace : shmem.placePhys = true
      · rw [if_pos hplace]
        refine (ih log).bindSome ?_
        rintro _ rest ⟨calls, rfl, hrest⟩
        exact Client.satSome_some.mpr ⟨calls, rfl, hrest.consPlaced hplace⟩
      · rw [if_neg hplace, Client.SatSome, Client.bindSome, Client.sat_bind]
        apply Mmu.sat_allocPpages
        · intro log'
          exact Client.satSome_none
        · intro log' pool base
          refine (ih _).bindSome ?_
          rintro _ rest ⟨calls, rfl, hrest⟩
          have hall := hrest.consAllocated (Bool.eq_false_of_not_eq_true hplace) log' pool base
          refine Client.satSome_some.mpr ⟨_, ?_, hall⟩
          simp

/-! ## Owners -/

/-- What a page of a pool is for: the hypervisor, the configuration of a VM, a shared memory, or the
CPU that has got it from the pool. -/
inductive Owner (ι : Type*)
  | hyp
  | vm (k : ℕ)
  | shmem (k : ℕ)
  | cpu (i : ι)

namespace Config

variable {ι : Type*} (config : Config)

def ownRanges (vmConfig : VmConfig) : List PhysRange :=
  imageRange vmConfig :: physRanges vmConfig

/-- The ranges of `mem_reserve_physical_memory`, with what they are for. -/
def owned : List (Owner ι × PhysRange) :=
  ((config.vmlist.zipIdx.filter fun vm => !memVmImgInPhysRgn vm.1).map
      fun vm => (.vm vm.2, imageRange vm.1)) ++
    ((config.vmlist.zipIdx.flatMap fun vm => (physRanges vm.1).map fun r => (.vm vm.2, r)) ++
      (config.shmemlist.zipIdx.filter fun shmem => shmem.1.placePhys).map
        fun shmem => (.shmem shmem.2, shmem.1.range))

theorem map_snd_owned : (config.owned (ι := ι)).map Prod.snd = config.reservedRanges := by
  have hvms : config.vmlist = config.vmlist.zipIdx.map Prod.fst := by simp
  have hshmems : config.shmemlist = config.shmemlist.zipIdx.map Prod.fst := by simp
  have himages : config.imageRanges =
      (config.vmlist.zipIdx.filter fun vm => !memVmImgInPhysRgn vm.1).map
        fun vm => imageRange vm.1 := by
    conv_lhs => rw [imageRanges, hvms, List.filter_map, List.map_map]
    rfl
  have hregions : config.regionRanges =
      config.vmlist.zipIdx.flatMap fun vm => physRanges vm.1 := by
    conv_lhs => rw [regionRanges, hvms, List.flatMap_map]
  have hshmem : config.shmemRanges =
      (config.shmemlist.zipIdx.filter fun shmem => shmem.1.placePhys).map
        fun shmem => shmem.1.range := by
    conv_lhs => rw [shmemRanges, hshmems, List.filter_map, List.map_map]
    rfl
  rw [reservedRanges, himages, hregions, hshmem, owned]
  simp [List.map_flatMap, Function.comp_def]

variable {config} in
/-- A range of a VM is reserved for it, or inside one that is. -/
theorem exists_owned {vmConfig : VmConfig} {k : ℕ} {r : PhysRange}
    (hk : config.vmlist[k]? = some vmConfig) (hr : r ∈ ownRanges vmConfig) :
    ∃ r', (Owner.vm k, r') ∈ config.owned (ι := ι) ∧
      ∀ (pool : PagePool) (bit : ℕ), pool.Touches r bit → pool.Touches r' bit := by
  have hzip : (vmConfig, k) ∈ config.vmlist.zipIdx := by
    rw [List.mk_mem_zipIdx_iff_getElem?]
    exact hk
  have hregion : ∀ r ∈ physRanges vmConfig, (Owner.vm k, r) ∈ config.owned (ι := ι) := by
    intro r hr
    refine List.mem_append_right _ (List.mem_append_left _ (List.mem_flatMap.mpr ⟨_, hzip, ?_⟩))
    exact List.mem_map_of_mem hr
  rcases List.mem_cons.mp hr with rfl | hr
  · by_cases hin : memVmImgInPhysRgn vmConfig = true
    · -- the image is reserved with a region around it
      obtain ⟨region, hmem, hcond⟩ := List.any_eq_true.mp hin
      obtain ⟨hplace, hrange⟩ := (Bool.and_eq_true _ _).mp hcond
      refine ⟨⟨region.phys, region.size⟩, hregion _ ?_, fun pool bit htouch => ?_⟩
      · exact List.mem_map_of_mem (List.mem_filter.mpr ⟨hmem, hplace⟩)
      · exact htouch.of_rangeInRange hrange
    · refine ⟨_, List.mem_append_left _ (List.mem_map.mpr ⟨_, List.mem_filter.mpr ⟨hzip, ?_⟩, rfl⟩),
        fun _ _ => id⟩
      simp [hin]
  · exact ⟨r, hregion r hr, fun _ _ => id⟩

end Config

/-- The boot, and the set-up of VMs after it. The CPUs make the calls of `before` until the master
CPU has allocated shared memory. The configuration of the VM that the CPU `i` sets up is at `place`
in that of the hypervisor. -/
structure Guests (ι : Type*) where
  boot : Boot
  region : MemRegion
  booted : List PagePool
  before : ι → PoolProg (Option (List Shmem))
  beforeSchedule : List ι
  master : ι
  shmems : List Shmem
  vms : Set ι
  vm : ι → VmSetup
  place : ι → ℕ
  rounds : ι → ℕ
  clients : ι → PoolProg (Option PtEntries)
  schedule : List ι
  width : ℕ

namespace Guests

variable {ι : Type*} [DecidableEq ι] (g : Guests ι)

/-- The pools when VMs begin to be set up. -/
def pools : List PagePool := (shareRun g.booted g.before g.beforeSchedule).obj

/-- What is left of the set-ups. -/
def final : Client.Shared ι (List PagePool) PoolCall (Option Addr) (Option PtEntries) :=
  shareRun g.pools g.clients g.schedule

def callsBefore : List (ι × PoolCall × Option Addr) :=
  Client.calls ppAllocAt ⟨g.booted, g.before⟩ g.beforeSchedule

def calls : List (ι × PoolCall × Option Addr) :=
  Client.calls ppAllocAt ⟨g.pools, g.clients⟩ g.schedule

/-- The ranges that are reserved at boot. -/
def owned : List (Owner ι × PhysRange) :=
  (g.boot.hypRanges g.region).map (fun r => (.hyp, r)) ++ g.boot.config.owned

def Owns : Owner ι → ℕ → Prop
  | .hyp, p => ∃ r ∈ g.boot.hypRanges g.region, r.Meets p
  | .vm k, p => ∃ config, g.boot.config.vmlist[k]? = some config ∧
      ∃ r ∈ Config.ownRanges config, r.Meets p
  | .shmem k, p => ∃ shmem, g.shmems[k]? = some shmem ∧ shmem.range.Meets p
  | .cpu i, p => ∃ e, (i, e) ∈ g.calls ∧ HasPage e p

/-- The boot has gone through, with ranges that are on pages of a pool or not in it; the VMs have
the configurations and the shared memories of the hypervisor, and devices that are in no pool; and
no call has run over the end of its pool. -/
structure Ok : Prop where
  memInit : g.boot.memInit = some g.booted
  root : g.boot.memFindRootRegion.bind (g.boot.regions[·]?) = some g.region
  fits : g.boot.img.Fits g.boot.loadAddr (rootPool g.region)
  placed : ∀ pool ∈ g.booted, ∀ r ∈ g.boot.config.reservedRanges, pool.Placed r
  apart : g.booted.Pairwise PagePool.Apart
  room : ∀ pool ∈ g.booted, pool.base.toNat + pool.size.toNat * pageSize ≤ 2 ^ g.width
  alloc : g.before g.master = ipcAllocShmem g.booted.length g.boot.config.shmemlist
  allocated : (shareRun g.booted g.before g.beforeSchedule).clients g.master =
    .ret (some g.shmems)
  shmemSize : ∀ shmem ∈ g.boot.config.shmemlist, shmem.size.toNat + pageSize ≤ 2 ^ 64
  insideBefore : ∀ r ∈ outPages g.pools, r ∉ outPages g.booted → Inside g.booted r
  vmInit : ∀ i ∈ g.vms, g.clients i = (g.vm i).vmInit g.pools.length (g.rounds i)
  vmOk : ∀ i ∈ g.vms, (g.vm i).Ok g.width
  config : ∀ i ∈ g.vms, g.boot.config.vmlist[g.place i]? = some (g.vm i).config
  injOn : Set.InjOn g.place g.vms
  shmemlist : ∀ i ∈ g.vms, (g.vm i).shmemlist = g.shmems
  devices : ∀ i ∈ g.vms, ∀ r ∈ (g.vm i).arch ++ (g.vm i).devs.filterMap (g.vm i).initDev,
    ∀ base ∈ r.page, ∀ x < r.n, ∀ q, ¬ IsPage g.booted q (base.toNat / pageSize + x)
  inside : ∀ r ∈ outPages g.final.obj, r ∉ outPages g.pools → Inside g.pools r

variable {g} {o o' : Owner ι} {pool : PagePool} {k p : ℕ} {q : ℕ × ℕ} {r r' : PhysRange} {i j : ι}

/-! ## Reserved pages -/

theorem Ok.root_pool (h : g.Ok) : ∃ root, g.booted[0]? = some root ∧
    root.base = (rootPool g.region).base ∧ root.size = (rootPool g.region).size ∧
      ∃ pool₀ : PagePool, pool₀.reserveRanges (g.owned.map Prod.snd) = (true, root) := by
  obtain ⟨root, others, hpools, hret, -⟩ := Boot.pools_of_memInit h.memInit h.root
  have hextent := PagePool.extent_reserveRanges (clearedPool g.region (g.boot.mem g.region))
    (g.boot.hypRanges g.region ++ g.boot.config.reservedRanges)
  rw [hret] at hextent
  have howned : g.owned.map Prod.snd =
      g.boot.hypRanges g.region ++ g.boot.config.reservedRanges := by
    rw [owned, List.map_append, Config.map_snd_owned]
    simp
  refine ⟨root, by rw [hpools]; rfl, hextent.1, hextent.2,
    clearedPool g.region (g.boot.mem g.region), ?_⟩
  rw [howned, hret]

theorem Ok.onPages_hypRanges (h : g.Ok) {root : PagePool} (hroot : g.booted[0]? = some root)
    (hr : r ∈ g.boot.hypRanges g.region) : root.OnPages r ∧ 1 ≤ r.size.toNat := by
  obtain ⟨root', hroot', hbase, hsize, -⟩ := h.root_pool
  obtain rfl : root' = root := Option.some.inj (hroot'.symm.trans hroot)
  exact (h.fits.onPages r hr).imp_left fun hon => hon.congr hbase hsize

theorem Ok.isPage_of_hypRanges (h : g.Ok) (hr : r ∈ g.boot.hypRanges g.region) (hp : r.Meets p) :
    ∃ bit, IsPage g.booted (0, bit) p := by
  obtain ⟨root, hroot, -⟩ := h.root_pool
  obtain ⟨bit, hbit, rfl⟩ := (h.onPages_hypRanges hroot hr).1.exists_bit hp
  exact ⟨bit, root, hroot, hbit, rfl⟩

theorem Ok.exists_reserved (h : g.Ok) (hpool : g.booted[k]? = some pool) :
    ∃ (rs : List (Owner ι × PhysRange)) (pool₀ : PagePool),
      pool₀.reserveRanges (rs.map Prod.snd) = (true, pool) ∧ (∀ e ∈ rs, pool.Placed e.2) ∧
        ∀ e ∈ g.owned, ∀ bit, pool.Touches e.2 bit → e ∈ rs := by
  have hconfig : ∀ e ∈ g.boot.config.owned (ι := ι), pool.Placed e.2 := by
    intro e he
    apply h.placed pool (List.mem_of_getElem? hpool)
    rw [← Config.map_snd_owned (ι := ι)]
    exact List.mem_map_of_mem he
  cases k with
  | zero =>
      obtain ⟨root, hroot, -, -, pool₀, hret⟩ := h.root_pool
      obtain rfl : root = pool := Option.some.inj (hroot.symm.trans hpool)
      refine ⟨g.owned, pool₀, hret, fun e he => ?_, fun e he _ _ => he⟩
      rcases List.mem_append.mp he with hhyp | hrest
      · obtain ⟨r, hr, rfl⟩ := List.mem_map.mp hhyp
        exact .inl (h.onPages_hypRanges hpool hr)
      · exact hconfig e hrest
  | succ k =>
      obtain ⟨root, others, hpools, -, hothers⟩ := Boot.pools_of_memInit h.memInit h.root
      have hmem : pool ∈ others := by
        rw [hpools, List.getElem?_cons_succ] at hpool
        exact List.mem_of_getElem? hpool
      obtain ⟨pool₀, hret⟩ := hothers pool hmem
      refine ⟨g.boot.config.owned, pool₀, by rw [Config.map_snd_owned, hret], hconfig, ?_⟩
      intro e he bit htouch
      refine (List.mem_append.mp he).resolve_left fun hhyp => ?_
      obtain ⟨r, hr, rfl⟩ := List.mem_map.mp hhyp
      -- the pools are apart, so it is the page of another pool
      have hmeets := (PagePool.touches_iff_meets htouch.1).mp htouch
      obtain ⟨bit', hpage⟩ := h.isPage_of_hypRanges hr hmeets
      have hother : IsPage g.booted (k + 1, bit) (pool.firstPage + bit) :=
        ⟨pool, hpool, htouch.1, rfl⟩
      exact absurd (congrArg Prod.fst (hpage.unique h.apart hother)) (Nat.succ_ne_zero k).symm

/-- The pages of reserved ranges are marked. -/
theorem Ok.marked (h : g.Ok) (hpool : g.booted[k]? = some pool) {e : Owner ι × PhysRange}
    (he : e ∈ g.owned) {bit : ℕ} (htouch : pool.Touches e.2 bit) :
    (k, bit) ∈ outPages g.booted := by
  obtain ⟨rs, pool₀, hret, hplaced, hall⟩ := h.exists_reserved hpool
  have hmarked := (PagePool.marked_of_reserveRanges hret fun r hr => by
    obtain ⟨e, he, rfl⟩ := List.mem_map.mp hr
    exact hplaced e he).1
  exact ⟨pool, hpool, hmarked e.2 (List.mem_map_of_mem (hall e he bit htouch)) bit htouch⟩

theorem Ok.eq_of_reserved (h : g.Ok) (hpool : g.booted[k]? = some pool)
    {e e' : Owner ι × PhysRange} (he : e ∈ g.owned) (he' : e' ∈ g.owned) {bit : ℕ}
    (htouch : pool.Touches e.2 bit) (htouch' : pool.Touches e'.2 bit) : e = e' := by
  obtain ⟨rs, pool₀, hret, hplaced, hall⟩ := h.exists_reserved hpool
  have hapart := (PagePool.marked_of_reserveRanges hret fun r hr => by
    obtain ⟨e, he, rfl⟩ := List.mem_map.mp hr
    exact hplaced e he).2
  have hsymm : Std.Symm fun e e' : Owner ι × PhysRange =>
      ∀ bit, ¬ (pool.Touches e.2 bit ∧ pool.Touches e'.2 bit) :=
    ⟨fun _ _ hnot bit hboth => hnot bit hboth.symm⟩
  by_contra hne
  exact (List.pairwise_map.mp hapart).forall (hall e he bit htouch) (hall e' he' bit htouch') hne
    bit ⟨htouch, htouch'⟩

/-! ## Pages from calls -/

variable (g) in
theorem replays_before :
    Client.Replays ppAllocAt g.booted (g.callsBefore.map Prod.snd) g.pools :=
  Client.replays_exec ⟨g.booted, g.before⟩ g.beforeSchedule

variable (g) in
theorem replays_calls :
    Client.Replays ppAllocAt g.pools (g.calls.map Prod.snd) g.final.obj :=
  Client.replays_exec ⟨g.pools, g.clients⟩ g.schedule

variable (g) in
theorem places_pools : places g.pools = places g.booted :=
  (served_replays g.replays_before).places

theorem isPage_congr {pools pools' : List PagePool} (h : places pools' = places pools)
    (hpage : IsPage pools q p) : IsPage pools' q p := by
  obtain ⟨pool, hpool, hlt, rfl⟩ := hpage
  have hplace := congrArg (·[q.1]?) h
  simp only [places, List.getElem?_map, hpool, Option.map_some] at hplace
  obtain ⟨pool', hpool', heq⟩ := Option.map_eq_some_iff.mp hplace
  obtain ⟨hbase, hsize⟩ := Prod.mk.inj heq
  refine ⟨pool', hpool', by rw [hsize]; exact hlt, ?_⟩
  rw [PagePool.firstPage, PagePool.firstPage, hbase]

theorem outPages_pools (hq : q ∈ outPages g.booted) : q ∈ outPages g.pools :=
  (served_replays g.replays_before).grows q hq

theorem Ok.sound_before (h : g.Ok) : Sound g.width (g.callsBefore.map Prod.snd) ∧
    ∀ e ∈ g.callsBefore.map Prod.snd, ∀ p, HasPage e p →
      ∃ r ∉ outPages g.booted, r ∈ outPages g.pools ∧ IsPage g.booted r p :=
  replays_sound g.replays_before h.apart h.room h.insideBefore

theorem Ok.sharedMem (h : g.Ok) : ∃ calls, calls.Sublist (g.callsBefore.map Prod.snd) ∧
    ShmemsAt g.boot.config.shmemlist calls g.shmems := by
  have hstart : ∀ i, Client.Sat (fun log r => i = g.master → ∀ shmems ∈ r,
      ShmemsAt g.boot.config.shmemlist log shmems) [] (g.before i) := by
    intro i
    by_cases hi : i = g.master
    · rw [hi, h.alloc]
      refine Client.Sat.mono (satSome_ipcAllocShmem _ []) fun log r hr _ shmems hmem => ?_
      obtain ⟨calls, rfl, hat⟩ := hr shmems hmem
      exact hat
    · exact (Client.sat_true [] (g.before i)).mono fun _ _ _ hmem => absurd hmem hi
  have hend : Client.Sat _ (Client.callsOf g.master g.callsBefore) _ :=
    Client.sat_exec (s := ⟨g.booted, g.before⟩) hstart g.beforeSchedule g.master
  have hret := h.allocated
  rw [shareRun] at hret
  rw [hret, Client.sat_ret] at hend
  exact ⟨_, callsOf_sublist g.master, hend rfl g.shmems rfl⟩

/-- The pages of a shared memory are reserved for it, or returned by a call for it. -/
theorem Ok.shmem_cases (h : g.Ok) {shmem : Shmem} (hk : g.shmems[k]? = some shmem)
    (hp : shmem.range.Meets p) :
    (Owner.shmem k, shmem.range) ∈ g.owned ∨ shmem.placePhys = false ∧
      (∃ e ∈ g.callsBefore.map Prod.snd, HasPage e p) ∧
        shmem.phys.toNat / pageSize ≤ p ∧
          p < shmem.phys.toNat / pageSize + (numPages shmem.size).toNat := by
  obtain ⟨calls, hsub, hat⟩ := h.sharedMem
  obtain ⟨hlt, rfl⟩ := List.getElem?_eq_some_iff.mp hk
  have hlt' : k < g.boot.config.shmemlist.length := hat.each.length_eq ▸ hlt
  have hone := List.Forall₂.get hat.each hlt' hlt
  simp only [List.get_eq_getElem] at hone
  cases hplace : g.boot.config.shmemlist[k].placePhys with
  | true =>
      refine .inl (List.mem_append_right _ (List.mem_append_right _ (List.mem_append_right _ ?_)))
      have hrange : g.shmems[k].range = g.boot.config.shmemlist[k].range := by
        rw [Shmem.range, Shmem.range, hone.phys hplace, hone.size]
      rw [hrange]
      refine List.mem_map.mpr ⟨(g.boot.config.shmemlist[k], k), List.mem_filter.mpr ⟨?_, hplace⟩,
        rfl⟩
      rw [List.mk_mem_zipIdx_iff_getElem?]
      exact List.getElem?_eq_getElem hlt'
  | false =>
      obtain ⟨e, he, hbase, hpages⟩ := hone.page hplace
      have hdvd : pageSize ∣ g.shmems[k].phys.toNat := by
        apply h.sound_before.1.page e.1
        rw [← hbase]
        exact hsub.subset he
      have hsize := h.shmemSize _ (List.getElem_mem hlt')
      rw [← hone.size] at hsize
      have hn : (numPages g.shmems[k].size).toNat =
          (g.shmems[k].size.toNat + (pageSize - 1)) / pageSize :=
        toNat_numPages (by unfold pageSize at *; omega)
      obtain ⟨a, hlow, hhigh, rfl⟩ := hp
      have hrange : g.shmems[k].phys.toNat / pageSize ≤ a / pageSize ∧
          a / pageSize < g.shmems[k].phys.toNat / pageSize + (numPages g.shmems[k].size).toNat := by
        rw [hn]
        simp only [Shmem.range] at hlow hhigh
        unfold pageSize at *
        omega
      refine .inr ⟨hone.placePhys.trans hplace, ⟨e, hsub.subset he, _, hbase, ?_⟩, hrange⟩
      rw [hpages]
      exact hrange

/-- A page of a pool that belongs to something is reserved for it, was returned for it before VMs
are set up, or is returned by a call of the set-ups. -/
inductive Ok.Stage (g : Guests ι) (q : ℕ × ℕ) (p : ℕ) : Owner ι → Prop
  | reserved {o : Owner ι} {pool : PagePool} {r : PhysRange} (hpool : g.booted[q.1]? = some pool)
      (hr : (o, r) ∈ g.owned) (htouch : pool.Touches r q.2) : Stage g q p o
  | shared {k : ℕ} {shmem : Shmem} (hk : g.shmems[k]? = some shmem)
      (hplace : shmem.placePhys = false) (hfree : q ∉ outPages g.booted)
      (htaken : q ∈ outPages g.pools) (hle : shmem.phys.toNat / pageSize ≤ p)
      (hlt : p < shmem.phys.toNat / pageSize + (numPages shmem.size).toNat) :
      Stage g q p (.shmem k)
  | returned {i : ι} {e : PoolCall × Option Addr} (he : (i, e) ∈ g.calls)
      (hfree : q ∉ outPages g.pools) (hp : HasPage e p) : Stage g q p (.cpu i)

theorem Ok.apart_pools (h : g.Ok) : g.pools.Pairwise PagePool.Apart := by
  let R : Addr × SizeT → Addr × SizeT → Prop := fun x y => ∀ a,
    ¬ ((x.1.toNat ≤ a ∧ a < x.1.toNat + x.2.toNat * pageSize) ∧
      (y.1.toNat ≤ a ∧ a < y.1.toNat + y.2.toNat * pageSize))
  have hbooted : (places g.booted).Pairwise R := List.pairwise_map.mpr h.apart
  rw [← g.places_pools] at hbooted
  exact (List.pairwise_map.mp hbooted).imp fun hne => hne

theorem Ok.room_pools (h : g.Ok) {pool : PagePool} (hpool : pool ∈ g.pools) :
    pool.base.toNat + pool.size.toNat * pageSize ≤ 2 ^ g.width := by
  have hplace : (pool.base, pool.size) ∈ places g.pools := List.mem_map_of_mem hpool
  rw [g.places_pools] at hplace
  obtain ⟨pool', hpool', heq⟩ := List.mem_map.mp hplace
  rw [← (Prod.mk.inj heq).1, ← (Prod.mk.inj heq).2]
  exact h.room pool' hpool'

theorem Ok.sound_calls (h : g.Ok) : Sound g.width (g.calls.map Prod.snd) ∧
    ∀ e ∈ g.calls.map Prod.snd, ∀ p, HasPage e p →
      ∃ r ∉ outPages g.pools, r ∈ outPages g.final.obj ∧ IsPage g.pools r p :=
  replays_sound g.replays_calls h.apart_pools (fun _ => h.room_pools) h.inside

theorem Ok.stage_of_owns (h : g.Ok) (hpage : IsPage g.booted q p) (ho : g.Owns o p) :
    Ok.Stage g q p o := by
  have hunique : ∀ {r : ℕ × ℕ}, IsPage g.booted r p → r = q := fun hr =>
    hr.unique h.apart hpage
  obtain ⟨pool, hpool, hbit, hfirst⟩ := id hpage
  have htouch : ∀ {r : PhysRange}, r.Meets p → pool.Touches r q.2 := fun hr =>
    (PagePool.touches_iff_meets hbit).mpr (hfirst ▸ hr)
  cases o with
  | hyp =>
      obtain ⟨r, hr, hp⟩ := ho
      exact .reserved hpool (List.mem_append_left _ (List.mem_map_of_mem hr)) (htouch hp)
  | vm k =>
      obtain ⟨config, hk, r, hr, hp⟩ := ho
      obtain ⟨r', hr', hall⟩ := Config.exists_owned hk hr
      exact .reserved hpool (List.mem_append_right _ hr') (hall pool q.2 (htouch hp))
  | shmem k =>
      obtain ⟨shmem, hk, hp⟩ := ho
      rcases h.shmem_cases hk hp with hr | ⟨hplace, ⟨e, he, hcall⟩, hle, hlt⟩
      · exact .reserved hpool hr (htouch hp)
      · obtain ⟨r, hfree, htaken, hr⟩ := h.sound_before.2 e he p hcall
        obtain rfl := hunique hr
        exact .shared hk hplace hfree htaken hle hlt
  | cpu i =>
      obtain ⟨e, he, hcall⟩ := ho
      obtain ⟨r, hfree, -, hr⟩ := h.sound_calls.2 e (List.mem_map_of_mem he) p hcall
      obtain rfl := hunique (isPage_congr g.places_pools.symm hr)
      exact .returned he hfree hcall

/-- A page of a pool belongs to one thing only. -/
theorem Ok.owns_unique (h : g.Ok) (hpage : IsPage g.booted q p) (ho : g.Owns o p)
    (ho' : g.Owns o' p) : o = o' := by
  have hmarked : ∀ {o : Owner ι} {pool : PagePool} {r : PhysRange},
      g.booted[q.1]? = some pool → (o, r) ∈ g.owned → pool.Touches r q.2 →
        q ∈ outPages g.booted := fun hpool hr htouch => h.marked hpool hr htouch
  cases h.stage_of_owns hpage ho with
  | reserved hpool hr htouch =>
      have hq := hmarked hpool hr htouch
      cases h.stage_of_owns hpage ho' with
      | reserved hpool' hr' htouch' =>
          obtain rfl := Option.some.inj (hpool.symm.trans hpool')
          exact congrArg Prod.fst (h.eq_of_reserved hpool hr hr' htouch htouch')
      | shared _ _ hfree => exact absurd hq hfree
      | returned _ hfree => exact absurd (outPages_pools hq) hfree
  | @shared k shmem hk hplace hfree htaken hle hlt =>
      cases h.stage_of_owns hpage ho' with
      | reserved hpool' hr' htouch' => exact absurd (hmarked hpool' hr' htouch') hfree
      | @shared k' shmem' hk' hplace' _ _ hle' hlt' =>
          obtain ⟨calls, hsub, hat⟩ := h.sharedMem
          have hapart := List.pairwise_iff_getElem.mp
            (hat.apart (h.sound_before.1.apart.sublist hsub))
          obtain ⟨hlen, rfl⟩ := List.getElem?_eq_some_iff.mp hk
          obtain ⟨hlen', rfl⟩ := List.getElem?_eq_some_iff.mp hk'
          rcases Nat.lt_trichotomy k k' with hlow | rfl | hhigh
          · exact absurd ⟨⟨hle, hlt⟩, hle', hlt'⟩ (hapart _ _ hlen hlen' hlow hplace hplace' p)
          · rfl
          · exact absurd ⟨⟨hle', hlt'⟩, hle, hlt⟩ (hapart _ _ hlen' hlen hhigh hplace' hplace p)
      | returned _ hfree' => exact absurd htaken hfree'
  | returned he hfree hp =>
      cases h.stage_of_owns hpage ho' with
      | reserved hpool' hr' htouch' =>
          exact absurd (outPages_pools (hmarked hpool' hr' htouch')) hfree
      | shared _ _ _ htaken => exact absurd htaken hfree
      | returned he' _ hp' =>
          by_contra hne
          refine h.sound_calls.1.not_hasPage (fun heq => hne ?_) he he' hp hp'
          rw [heq]

/-! ## Pages of guests -/

omit [DecidableEq ι] in
/-- A page that is given for a region is one of the image or of the region. -/
theorem ownRange_of_given {vm : VmSetup} (hok : vm.Ok g.width) {reg : VmMemRegion} {r : MapRequest}
    (hreg : reg ∈ vm.config.regions) (hr : r ∈ vm.initMemRegion reg) {base : Addr}
    (hbase : r.page = some base) (hle : base.toNat / pageSize ≤ p)
    (hlt : p < base.toNat / pageSize + r.n) :
    ∃ own ∈ Config.ownRanges vm.config, own.Meets p := by
  have hmem : r ∈ vm.requests := by
    simp only [VmSetup.requests, List.mem_append, List.mem_flatMap]
    exact .inl (.inl (.inr ⟨reg, hreg, hr⟩))
  have hdvd := (hok.page r hmem base hbase).1
  rw [VmSetup.initMemRegion] at hr
  split_ifs at hr with himage
  · -- the image is mapped where it is
    simp only [VmSetup.mapImgRgnInplace, List.mem_cons, List.not_mem_nil, or_false] at hr
    rcases hr with rfl | rfl | rfl
    · cases hbase
    · obtain rfl := Option.some.inj hbase
      exact ⟨Config.imageRange vm.config, List.mem_cons_self,
        PhysRange.meets_of_page hdvd hle (page_lt_of_numPages hdvd hlt)⟩
    · cases hbase
  · obtain rfl := List.mem_singleton.mp hr
    cases hplace : reg.placePhys with
    | false => simp [VmSetup.mapMemRegion, hplace] at hbase
    | true =>
        obtain rfl : reg.phys = base := by simpa [VmSetup.mapMemRegion, hplace] using hbase
        refine ⟨⟨reg.phys, reg.size⟩, List.mem_cons_of_mem _ ?_,
          PhysRange.meets_of_page hdvd hle (page_lt_of_numPages hdvd hlt)⟩
        exact List.mem_map_of_mem (List.mem_filter.mpr ⟨hreg, hplace⟩)

/-- A page of a pool that is given to a VM is one of its configuration, or of a shared memory that
it has an `ipc` for. -/
theorem Ok.owns_of_given (h : g.Ok) (hi : i ∈ g.vms) (hgiven : p ∈ (g.vm i).given)
    (hpage : IsPage g.booted q p) :
    g.Owns (.vm (g.place i)) p ∨ ∃ ipc ∈ (g.vm i).ipcs, g.Owns (.shmem ipc.shmemId) p := by
  obtain ⟨r, hr, base, hbase, hle, hlt⟩ := hgiven
  have hbase' : r.page = some base := hbase
  have hdvd := ((h.vmOk i hi).page r hr base hbase).1
  have hdevice : r ∉ (g.vm i).arch ++ (g.vm i).devs.filterMap (g.vm i).initDev := by
    intro hdev
    refine h.devices i hi r hdev base hbase (p - base.toNat / pageSize) (by omega) q ?_
    rwa [Nat.add_sub_cancel' hle]
  simp only [VmSetup.requests, List.mem_append, List.mem_flatMap, List.mem_map] at hr hdevice
  rcases hr with ((harch | ⟨reg, hreg, hr⟩) | hdev) | ⟨region, hregion, rfl⟩
  · exact absurd (.inl harch) hdevice
  · exact .inl ⟨_, h.config i hi, ownRange_of_given (h.vmOk i hi) hreg hr hbase' hle hlt⟩
  · exact absurd (.inr hdev) hdevice
  · obtain ⟨ipc, hipc, hsome⟩ := List.mem_filterMap.mp hregion
    obtain ⟨shmem, hshmem, rfl⟩ := Option.map_eq_some_iff.mp hsome
    rw [h.shmemlist i hi] at hshmem
    obtain rfl : shmem.phys = base := by simpa [VmSetup.mapMemRegion] using hbase'
    refine .inr ⟨ipc, hipc, shmem, hshmem, PhysRange.meets_of_page hdvd hle ?_⟩
    refine (page_lt_of_numPages hdvd hlt).trans_le (Nat.add_le_add_left ?_ _)
    dsimp only
    split_ifs with hsize
    · exact le_rfl
    · exact Nat.le_of_not_lt fun hlow => hsize (BitVec.lt_def.mpr hlow)

theorem Ok.sharedSetup (h : g.Ok) :
    SharedSetup g.vms g.vm g.rounds g.pools g.clients g.schedule g.width where
  vmInit := h.vmInit
  ok := h.vmOk
  apart := h.apart_pools
  room := fun _ => h.room_pools
  inside := h.inside
  reserved := by
    intro i hi p hgiven q hpage
    have hbooted := isPage_congr g.places_pools.symm hpage
    have hstage : ∃ o, (∀ i, o ≠ .cpu i) ∧ Ok.Stage g q p o := by
      rcases h.owns_of_given hi hgiven hbooted with ho | ⟨ipc, -, ho⟩
      · exact ⟨_, by simp, h.stage_of_owns hbooted ho⟩
      · exact ⟨_, by simp, h.stage_of_owns hbooted ho⟩
    obtain ⟨o, hne, hstage⟩ := hstage
    cases hstage with
    | reserved hpool hr htouch => exact outPages_pools (h.marked hpool hr htouch)
    | shared _ _ _ htaken => exact htaken
    | returned => exact absurd rfl (hne _)

theorem Ok.exists_owner (h : g.Ok) (hi : i ∈ g.vms) {t : PtEntries}
    (ht : g.final.clients i = .ret (some t)) {u : PageUse} (hu : (g.vm i).mmu.Uses t u p)
    (hpage : IsPage g.booted q p) :
    ∃ o, g.Owns o p ∧ (o = .cpu i ∨ o = .vm (g.place i) ∨
      ∃ ipc ∈ (g.vm i).ipcs, o = .shmem ipc.shmemId) := by
  rcases h.sharedSetup.given_or_returned hi ht hu with ⟨hgiven, -⟩ | ⟨-, -, e, he, hp⟩
  · rcases h.owns_of_given hi hgiven hpage with ho | ⟨ipc, hipc, ho⟩
    · exact ⟨_, ho, .inr (.inl rfl)⟩
    · exact ⟨_, ho, .inr (.inr ⟨ipc, hipc, rfl⟩)⟩
  · exact ⟨.cpu i, ⟨e, he, hp⟩, .inl rfl⟩

/-- No guest shows a page of the hypervisor, and none of its page tables is there. -/
theorem Ok.hyp_apart (h : g.Ok) (hi : i ∈ g.vms) {t : PtEntries}
    (ht : g.final.clients i = .ret (some t)) {u : PageUse} (hu : (g.vm i).mmu.Uses t u p)
    (hr : r ∈ g.boot.hypRanges g.region) : ¬ r.Meets p := by
  intro hp
  obtain ⟨bit, hpage⟩ := h.isPage_of_hypRanges hr hp
  obtain ⟨o, ho, hcases⟩ := h.exists_owner hi ht hu hpage
  obtain rfl : o = .hyp := h.owns_unique hpage ho ⟨r, hr, hp⟩
  simp at hcases

/-- A page of a pool that two guests use is one of a shared memory that both have an `ipc` for. -/
theorem Ok.guests_apart (h : g.Ok) (hi : i ∈ g.vms) (hj : j ∈ g.vms) (hij : i ≠ j)
    {t t' : PtEntries} (ht : g.final.clients i = .ret (some t))
    (ht' : g.final.clients j = .ret (some t')) {u u' : PageUse}
    (hu : (g.vm i).mmu.Uses t u p) (hu' : (g.vm j).mmu.Uses t' u' p)
    (hpage : IsPage g.booted q p) :
    ∃ ipc ∈ (g.vm i).ipcs, ∃ ipc' ∈ (g.vm j).ipcs, ipc.shmemId = ipc'.shmemId ∧
      g.Owns (.shmem ipc.shmemId) p := by
  obtain ⟨o, ho, hcases⟩ := h.exists_owner hi ht hu hpage
  obtain ⟨o', ho', hcases'⟩ := h.exists_owner hj ht' hu' hpage
  obtain rfl := h.owns_unique hpage ho ho'
  have hplace : g.place i ≠ g.place j := fun heq => hij (h.injOn hi hj heq)
  rcases hcases with rfl | rfl | ⟨ipc, hipc, rfl⟩
  · simp [hij] at hcases'
  · simp [hplace] at hcases'
  · obtain ⟨ipc', hipc', heq⟩ : ∃ ipc' ∈ (g.vm j).ipcs, ipc.shmemId = ipc'.shmemId := by
      simpa using hcases'
    exact ⟨ipc, hipc, ipc', hipc', heq, ho⟩

end Guests

/-- A VM with a page of memory, and an image that is loaded at `load` but not mapped. -/
def pageVmConfig (load : Addr) : VmConfig :=
  { (default : VmConfig) with
    image := ⟨0x100000#64, load, 0x1000#64, false⟩
    regions := [⟨0x1000#64, 0x1000#64, 0#64, false, 0#64⟩] }

/-- A hypervisor for two such VMs and a page of shared memory, in a region of 128 MiB. -/
def pageBoot : Boot where
  img := ⟨0x2000#64, 0x1000#64, 0x2000#64, 0x2000#64⟩
  loadAddr := 0x80000000#64
  regions := [⟨0x80000000#64, 0x8000000#64, by decide⟩]
  mem := fun _ _ => BitVec.allOnes 32
  config :=
    { shmemlist := [⟨0x1000#64, 0#64, false, 0#64⟩]
      vmlist := [pageVmConfig 0x80002000#64, pageVmConfig 0x80003000#64] }

def pageBooted : List PagePool := pageBoot.memInit.getD []

def pageVm (i : Bool) : VmSetup :=
  { sharingVm with
    config := pageVmConfig (if i then 0x80003000#64 else 0x80002000#64)
    shmemlist := [⟨0x1000#64, 0#64, false, 0x80008000#64⟩] }

abbrev pageGuests : Guests Bool where
  boot := pageBoot
  region := ⟨0x80000000#64, 0x8000000#64, by decide⟩
  booted := pageBooted
  before := fun i => if i then .ret none else ipcAllocShmem 1 pageBoot.config.shmemlist
  beforeSchedule := [false]
  master := false
  shmems := [⟨0x1000#64, 0#64, false, 0x80008000#64⟩]
  vms := Set.univ
  vm := pageVm
  place := fun i => if i then 1 else 0
  rounds := fun _ => 6
  clients := fun i => (pageVm i).vmInit 1 6
  schedule := [false, true, true, false, true, false]
  width := 56

theorem memInit_pageBoot : pageBoot.memInit = some pageBooted := by
  have h : pageBoot.memInit.isSome = true := by decide +kernel
  rw [pageBooted, ← Option.some_get h, Option.getD_some]

theorem places_pageBooted : places pageBooted = [(0x80000000#64, 0x8000#64)] := by
  decide +kernel

/-- The two images are reserved, and are on pages of the pool. -/
theorem placed_pageBooted : ∀ pool ∈ pageBooted, ∀ r ∈ pageBoot.config.reservedRanges,
    pool.Placed r := by
  intro pool hpool r hr
  have hplace : (pool.base, pool.size) ∈ places pageBooted := List.mem_map_of_mem hpool
  rw [places_pageBooted] at hplace
  obtain ⟨hbase, hsize⟩ := Prod.mk.inj (List.mem_singleton.mp hplace)
  have hranges : pageBoot.config.reservedRanges =
      [⟨0x80002000#64, 0x1000#64⟩, ⟨0x80003000#64, 0x1000#64⟩] := by decide
  have hbounds : ∀ r ∈ pageBoot.config.reservedRanges, r.base.toNat % pageSize = 0 ∧
      0x80000000 ≤ r.base.toNat ∧
        r.base.toNat + r.size.toNat ≤ 0x80000000 + 0x8000 * pageSize ∧ 1 ≤ r.size.toNat := by
    rw [hranges]
    decide
  obtain ⟨haligned, hlow, hhigh, hpos⟩ := hbounds r hr
  refine .inl ⟨PagePool.onPages_mk haligned ?_ ?_, hpos⟩
  · rw [hbase]
    exact hlow
  · rw [hbase, hsize]
    exact hhigh

/-- The bitmap ends where the pool does, and the memory behind it is filled with ones. -/
theorem behind_pageBooted : ∀ pool ∈ pageBooted, ∀ i, pool.size.toNat ≤ i →
    pool.bits i = true := by
  have hregion : pageBoot.memFindRootRegion.bind (pageBoot.regions[·]?) =
      some pageGuests.region := rfl
  obtain ⟨root, others, hpools, hret, -⟩ := Boot.pools_of_memInit memInit_pageBoot hregion
  intro pool hpool i hi
  have hplaces := places_pageBooted
  rw [hpools] at hplaces hpool
  obtain ⟨hroot, hothers⟩ := List.cons.inj hplaces
  obtain rfl : pool = root := by simpa [List.map_eq_nil_iff.mp hothers] using hpool
  rw [(Prod.mk.inj hroot).2] at hi
  have hbits := PagePool.bits_reserveRanges (by rw [hret]) i
  rw [hret] at hbits
  refine hbits.mpr (.inl ?_)
  have hword : ¬ i / Bitmap.granuleLen <
      PagePool.bitmapPages (rootPool pageGuests.region).size.toNat * (pageSize / 4) := by
    have hone : PagePool.bitmapPages (rootPool pageGuests.region).size.toNat = 1 := by decide
    rw [hone]
    change 0x8000 ≤ i at hi
    unfold Bitmap.granuleLen pageSize
    omega
  rw [PagePool.bits, Bitmap.bitmapGet_eq_getLsbD, clearedPool]
  dsimp only
  rw [if_neg hword]
  change (BitVec.allOnes 32).getLsbD _ = true
  rw [BitVec.getLsbD_allOnes, decide_eq_true (Nat.mod_lt i (by decide))]

theorem page_pageVm (i : Bool) : ∀ r ∈ (pageVm i).requests, ∀ base ∈ r.page,
    base = 0x80008000#64 ∧ r.n = 1 := by
  have hrequests : ∀ i, (pageVm i).requests.map (fun r => (r.page, r.n)) =
      [(none, 1), (some 0x80008000#64, 1)] := by decide +kernel
  intro r hr base hbase
  have hmem := List.mem_map_of_mem (f := fun r : MapRequest => (r.page, r.n)) hr
  rw [hrequests, Option.mem_def.mp hbase] at hmem
  simpa using hmem

theorem pageGuests_ok : pageGuests.Ok where
  memInit := memInit_pageBoot
  root := rfl
  fits := by constructor <;> decide
  placed := placed_pageBooted
  apart := by
    obtain ⟨pool, hpools, -⟩ := List.map_eq_singleton_iff.mp places_pageBooted
    have hone : pageGuests.booted = [pool] := hpools
    rw [hone]
    exact List.pairwise_singleton _ _
  room := by
    intro pool hpool
    have hplace : (pool.base, pool.size) ∈ places pageBooted := List.mem_map_of_mem hpool
    rw [places_pageBooted] at hplace
    obtain ⟨hbase, hsize⟩ := Prod.mk.inj (List.mem_singleton.mp hplace)
    rw [hbase, hsize]
    decide
  alloc := by
    have hlen := congrArg List.length places_pageBooted
    rw [places, List.length_map] at hlen
    rw [hlen]
    rfl
  allocated := Client.eq_ret_of_result (by decide +kernel)
  shmemSize := by decide
  insideBefore := inside_of_marked pageGuests.replays_before behind_pageBooted
  vmInit := by
    have hplaces := congrArg List.length (pageGuests.places_pools.trans places_pageBooted)
    rw [places, List.length_map] at hplaces
    have hlen : pageGuests.pools.length = 1 := hplaces
    intro i _
    rw [hlen]
  vmOk := by
    intro i _
    refine ⟨rfl, fun _ _ => trivial, fun r hr base hbase => ?_⟩
    obtain ⟨rfl, hn⟩ := page_pageVm i r hr base hbase
    rw [hn]
    decide
  config := by
    intro i _
    cases i <;> rfl
  injOn := by
    intro i _ j _ h
    cases i <;> cases j <;> simp_all
  shmemlist := fun _ _ => rfl
  devices := by
    intro i _ r hr
    simp [pageVm, sharingVm] at hr
  inside := by
    apply inside_of_marked pageGuests.replays_calls
    exact (served_replays pageGuests.replays_before).marked_behind behind_pageBooted

theorem exists_translate_pageGuests (i : Bool) : ∃ t pa,
    pageGuests.final.clients i = .ret (some t) ∧ (pageVm i).mmu.memTranslate t 0x1000 = some pa ∧
      (pageVm i).mmu.memTranslate t 0x2000 = some 0x80008000#64 := by
  have hresult : ∀ i, ((pageGuests.final.clients i).result.bind fun t => t.bind fun t =>
      ((pageVm i).mmu.memTranslate t 0x1000).bind fun pa =>
        if (pageVm i).mmu.memTranslate t 0x2000 = some 0x80008000#64 then some pa
        else none).isSome = true := by decide +kernel
  obtain ⟨pa, hpa⟩ := Option.isSome_iff_exists.mp (hresult i)
  obtain ⟨r, hr, hsome⟩ := Option.bind_eq_some_iff.mp hpa
  obtain ⟨t, rfl, htrans⟩ := Option.bind_eq_some_iff.mp hsome
  obtain ⟨pa', hpa', hshared⟩ := Option.bind_eq_some_iff.mp htrans
  exact ⟨t, pa', Client.eq_ret_of_result hr, hpa', (Option.ite_none_right_eq_some.mp hshared).1⟩

/-- The page of memory of a guest is none of the hypervisor. -/
theorem hyp_apart_pageGuests : ∃ t pa, pageGuests.final.clients false = .ret (some t) ∧
    (pageVm false).mmu.memTranslate t 0x1000 = some pa ∧
      ∀ r ∈ pageBoot.hypRanges pageGuests.region, ¬ r.Meets (pa.toNat / pageSize) := by
  obtain ⟨t, pa, ht, htrans, -⟩ := exists_translate_pageGuests false
  refine ⟨t, pa, ht, htrans, fun r hr => ?_⟩
  have hu : (pageVm false).mmu.Uses t (.shown 1) (pa.toNat / pageSize) :=
    ⟨0x1000, pa, by decide, htrans, rfl⟩
  exact pageGuests_ok.hyp_apart (Set.mem_univ false) ht hu hr

/-- The page that both guests show is that of the shared memory. -/
theorem guests_apart_pageGuests : ∃ t t', pageGuests.final.clients false = .ret (some t) ∧
    pageGuests.final.clients true = .ret (some t') ∧
      (pageVm false).mmu.Uses t (.shown 2) 0x80008 ∧
      (pageVm true).mmu.Uses t' (.shown 2) 0x80008 ∧
        ∃ ipc ∈ (pageVm false).ipcs, ∃ ipc' ∈ (pageVm true).ipcs,
          ipc.shmemId = ipc'.shmemId ∧ pageGuests.Owns (.shmem ipc.shmemId) 0x80008 := by
  obtain ⟨t, -, ht, -, htrans⟩ := exists_translate_pageGuests false
  obtain ⟨t', -, ht', -, htrans'⟩ := exists_translate_pageGuests true
  have hu : (pageVm false).mmu.Uses t (.shown 2) 0x80008 :=
    ⟨0x2000, _, by decide, htrans, by decide⟩
  have hu' : (pageVm true).mmu.Uses t' (.shown 2) 0x80008 :=
    ⟨0x2000, _, by decide, htrans', by decide⟩
  obtain ⟨root, hroot, hbase, hsize, -⟩ := pageGuests_ok.root_pool
  have hpage : IsPage pageGuests.booted (0, 8) 0x80008 := by
    refine ⟨root, hroot, ?_, ?_⟩
    · rw [hsize]
      decide
    · rw [PagePool.firstPage, hbase]
      decide
  exact ⟨t, t', ht, ht', hu, hu', pageGuests_ok.guests_apart (Set.mem_univ false)
    (Set.mem_univ true) Bool.false_ne_true ht ht' hu hu' hpage⟩

end BaoHypervisor
