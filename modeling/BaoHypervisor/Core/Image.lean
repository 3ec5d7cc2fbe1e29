import BaoHypervisor.Core.Config
import BaoHypervisor.Core.Mem.AddrSpace
import BaoHypervisor.Lib.String

/-!
# Guest images

An image is loaded at its `load_addr` and belongs at its `base_addr` in the
guest. `vm_install_image` copies it there through two windows of the hypervisor,
unless the configuration says that the two are the same place; an image that is
used in place is not copied at boot either. The physical memory is a function
from addresses to bytes, and `none` is a call that stops in `ERROR`.
-/

namespace BaoHypervisor

abbrev PhysMem := Addr → BitVec 8

namespace VmConfig

variable (config : VmConfig) (as : AddrSpace) (reg : VmMemRegion)

def imgNumPages : ℕ := (numPages config.image.size).toNat

/-- The image is taken to be installed: its region is placed physically and its
base address is its load address. -/
def Installed : Prop := reg.placePhys = true ∧ config.image.baseAddr = config.image.loadAddr

/-- The load range of an image in a region that is placed physically overlaps its
runtime range. -/
def LoadOverlaps : Prop :=
  reg.placePhys = true ∧
    rangeOverlapRange config.image.baseAddr config.image.size config.image.loadAddr
      config.image.size = true

instance : Decidable (config.Installed reg) := inferInstanceAs (Decidable (_ ∧ _))

instance : Decidable (config.LoadOverlaps reg) := inferInstanceAs (Decidable (_ ∧ _))

/-- `vm_install_image`. Both windows start on page boundaries, so `memcpy` finds
its pointers aligned. -/
def vmInstallImage (m : PhysMem) : Option PhysMem :=
  if config.Installed reg then some m
  else if config.LoadOverlaps reg then none
  else
    (memMap config.image.loadAddr config.imgNumPages).bind fun srcPages =>
      (memMapCpy as config.image.baseAddr config.imgNumPages).map fun dstPages =>
        memcpy (windowAddr dstPages) (windowAddr srcPages) true config.image.size.toNat m

/-- What `vm_map_img_rgn` does to the memory, for a VM without colours. -/
def vmMapImgRgn (m : PhysMem) : Option PhysMem :=
  if reg.placePhys = false ∧ config.image.inplace = true then some m
  else config.vmInstallImage as reg m

def imageRegion : Option VmMemRegion :=
  config.regions.find? fun reg =>
    rangeInRange config.image.baseAddr config.image.size reg.base reg.size

def vmReinstallImage (m : PhysMem) : Option PhysMem :=
  match config.imageRegion with
  | some reg => config.vmInstallImage as reg m
  | none => some m

variable {config as reg}

theorem wordsApart_windowAddr {dstPages srcPages : List Addr} (hdst : PagesAligned dstPages)
    (hsrc : PagesAligned srcPages) : WordsApart (windowAddr dstPages) (windowAddr srcPages) := by
  intro i j k hi hj hk heq
  have hload := toNat_windowAddr_mod hsrc (i + j)
  have hstore := toNat_windowAddr_mod hdst (i + k)
  rw [heq] at hload
  unfold wordSize at *
  omega

/-- `vm_install_image` leaves the memory alone, stops, or takes each byte from
its source in the copy between the two windows. -/
theorem vmInstallImage_of_windows (hinstalled : ¬ config.Installed reg)
    (hoverlap : ¬ config.LoadOverlaps reg) {srcPages dstPages : List Addr}
    (hsrc : memMap config.image.loadAddr config.imgNumPages = some srcPages)
    (hdst : memMapCpy as config.image.baseAddr config.imgNumPages = some dstPages)
    (m : PhysMem) :
    config.vmInstallImage as reg m =
      some fun a => m (Copy.source (windowAddr dstPages) (windowAddr srcPages)
        config.image.size.toNat a) := by
  have hwords := wordsApart_windowAddr (pagesAligned_memMapCpyLoop hdst)
    (pagesAligned_memMap hsrc)
  rw [vmInstallImage, if_neg hinstalled, if_neg hoverlap, hsrc, Option.bind_some, hdst,
    Option.map_some, memcpy_eq_copyTo hwords]
  exact congrArg some (funext fun a => Copy.copyTo_apply _ m a)

theorem vmInstallImage_cases (config : VmConfig) (as : AddrSpace) (reg : VmMemRegion)
    {m m' : PhysMem} (h : config.vmInstallImage as reg m = some m') :
    (config.Installed reg ∧ m' = m) ∨
      (¬ config.Installed reg ∧ ¬ config.LoadOverlaps reg ∧ ∃ srcPages dstPages,
        memMap config.image.loadAddr config.imgNumPages = some srcPages ∧
        memMapCpy as config.image.baseAddr config.imgNumPages = some dstPages ∧
        ∀ a, m' a = m (Copy.source (windowAddr dstPages) (windowAddr srcPages)
          config.image.size.toNat a)) := by
  by_cases hinstalled : config.Installed reg
  · rw [vmInstallImage, if_pos hinstalled] at h
    exact .inl ⟨hinstalled, (Option.some.inj h).symm⟩
  · by_cases hoverlap : config.LoadOverlaps reg
    · rw [vmInstallImage, if_neg hinstalled, if_pos hoverlap] at h
      cases h
    · refine .inr ⟨hinstalled, hoverlap, ?_⟩
      have hcopy := h
      rw [vmInstallImage, if_neg hinstalled, if_neg hoverlap] at hcopy
      obtain ⟨srcPages, hsrc, hcopy⟩ := Option.bind_eq_some_iff.mp hcopy
      obtain ⟨dstPages, hdst, -⟩ := Option.map_eq_some_iff.mp hcopy
      refine ⟨srcPages, dstPages, hsrc, hdst, fun a => ?_⟩
      rw [vmInstallImage_of_windows hinstalled hoverlap hsrc hdst] at h
      rw [← Option.some.inj h]

end VmConfig

end BaoHypervisor
