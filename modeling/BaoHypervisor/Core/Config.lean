import BaoHypervisor.Core.Mem.PagePool

/-!
# The configuration

The description of the guests that the hypervisor is built with: the image of
each VM, the regions of its memory and its health monitoring, and the shared
memories. Physical placement is fixed by the configuration for images, for the
regions and for the shared memories marked `place_phys`.
-/

namespace BaoHypervisor

/-- The `image` of a `struct vm_config`. -/
structure VmImage where
  baseAddr : Addr
  loadAddr : Addr
  size : SizeT
  inplace : Bool
deriving DecidableEq, Repr, Inhabited

structure VmMemRegion where
  base : Addr
  size : SizeT
  colors : ColorMap
  placePhys : Bool
  phys : Addr
deriving DecidableEq, Repr, Inhabited

structure VmHealthConfig where
  enabled : Bool
  timeoutMs : BitVec 64
  maxMissed : BitVec 32
  autoRecover : Bool
  maxRecoveries : BitVec 32
deriving DecidableEq, Repr, Inhabited

/-- `struct vm_config`, with the number of CPUs and the regions of its
`platform`. -/
structure VmConfig where
  image : VmImage
  entry : Addr
  cpuAffinity : BitVec 64
  cpuNum : ℕ
  regions : List VmMemRegion
  health : VmHealthConfig
deriving DecidableEq, Repr, Inhabited

structure Shmem where
  size : SizeT
  colors : ColorMap
  placePhys : Bool
  phys : Addr
deriving DecidableEq, Repr, Inhabited

/-- The lists of `struct config`. -/
structure Config where
  shmemlist : List Shmem
  vmlist : List VmConfig
deriving DecidableEq, Repr, Inhabited

/-- A range of physical addresses that the configuration fixes. -/
structure PhysRange where
  base : Addr
  size : SizeT
deriving DecidableEq, Repr, Inhabited

namespace PhysRange

def ppages (r : PhysRange) : PPages := memPpagesGet r.base (numPages r.size)

end PhysRange

/-- The image of a VM lies in a `place_phys` region of the VM. -/
def memVmImgInPhysRgn (vmConfig : VmConfig) : Bool :=
  vmConfig.regions.any fun region =>
    region.placePhys &&
      rangeInRange vmConfig.image.loadAddr vmConfig.image.size region.phys region.size

namespace Config

def imageRange (vmConfig : VmConfig) : PhysRange :=
  { base := vmConfig.image.loadAddr, size := vmConfig.image.size }

/-- The ranges the first loop of `mem_reserve_physical_memory` reserves. -/
def imageRanges (config : Config) : List PhysRange :=
  (config.vmlist.filter fun vmConfig => !memVmImgInPhysRgn vmConfig).map imageRange

/-- The ranges of the `place_phys` regions of a VM. -/
def physRanges (vmConfig : VmConfig) : List PhysRange :=
  (vmConfig.regions.filter fun region => region.placePhys).map
    fun region => { base := region.phys, size := region.size }

def regionRanges (config : Config) : List PhysRange :=
  config.vmlist.flatMap physRanges

def shmemRanges (config : Config) : List PhysRange :=
  (config.shmemlist.filter fun shmem => shmem.placePhys).map
    fun shmem => { base := shmem.phys, size := shmem.size }

def reservedRanges (config : Config) : List PhysRange :=
  config.imageRanges ++ (config.regionRanges ++ config.shmemRanges)

/-- All ranges the configuration fixes: those reserved, and the images that
are left to the region they lie in. -/
def fixedRanges (config : Config) : List PhysRange :=
  config.vmlist.map imageRange ++ (config.regionRanges ++ config.shmemRanges)

theorem mem_fixedRanges_of_mem_reservedRanges {config : Config} {r : PhysRange}
    (h : r ∈ config.reservedRanges) : r ∈ config.fixedRanges := by
  rw [reservedRanges, List.mem_append] at h
  rw [fixedRanges, List.mem_append]
  rcases h with himage | hrest
  · obtain ⟨vmConfig, hvm, rfl⟩ := List.mem_map.mp himage
    exact .inl (List.mem_map_of_mem (List.mem_filter.mp hvm).1)
  · exact .inr hrest

/-- A range that is not reserved as such is an image inside a reserved
region. -/
theorem mem_reservedRanges_or_in_region {config : Config} {r : PhysRange}
    (h : r ∈ config.fixedRanges) :
    r ∈ config.reservedRanges ∨
      ∃ g ∈ config.reservedRanges, rangeInRange r.base r.size g.base g.size = true := by
  rw [fixedRanges, List.mem_append] at h
  rcases h with himage | hrest
  · obtain ⟨vmConfig, hvm, rfl⟩ := List.mem_map.mp himage
    cases hin : memVmImgInPhysRgn vmConfig with
    | false =>
        refine .inl (List.mem_append_left _ (List.mem_map_of_mem ?_))
        exact List.mem_filter.mpr ⟨hvm, by rw [hin]; rfl⟩
    | true =>
        obtain ⟨region, hregion, hcond⟩ := List.any_eq_true.mp hin
        rw [Bool.and_eq_true] at hcond
        refine .inr ⟨{ base := region.phys, size := region.size }, ?_, hcond.2⟩
        refine List.mem_append_right _ (List.mem_append_left _ ?_)
        refine List.mem_flatMap.mpr ⟨vmConfig, hvm, List.mem_map.mpr ⟨region, ?_, rfl⟩⟩
        exact List.mem_filter.mpr ⟨hregion, hcond.1⟩
  · exact .inl (List.mem_append_right _ hrest)

end Config

end BaoHypervisor
