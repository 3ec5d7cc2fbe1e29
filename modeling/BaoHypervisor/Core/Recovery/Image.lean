import BaoHypervisor.Core.Image
import BaoHypervisor.Theory.Run

/-!
# Images after a recovery

Between boot and recovery a guest may write to all of its memory. The recovery
copies the image from its load range once more, which gives the guest the bytes
it started with exactly when each of them still has a pristine copy: the copy
takes it from an address that the guest cannot write and that held it at boot.
There is none when the guest runs on the load range itself, be it that the image
is used in place or that its base address is its load address, and the latter is
not even copied.
-/

namespace BaoHypervisor

/-- A byte that the guest writes at one of its addresses. -/
structure GuestWrite where
  va : Addr
  byte : BitVec 8
deriving DecidableEq, Repr

/-- A write reaches the memory that the address space of the guest maps. -/
def guestWrite (as : AddrSpace) (m : PhysMem) (w : GuestWrite) : PhysMem :=
  match as.translate w.va with
  | some a => Function.update m a w.byte
  | none => m

theorem exec_guestWrite_of_not_maps {as : AddrSpace} {a : Addr} (ha : ¬ as.Maps a)
    (m : PhysMem) (writes : List GuestWrite) : Run.exec (guestWrite as) m writes a = m a := by
  refine Run.exec_invariant (I := fun m' : PhysMem => m' a = m a) rfl ?_ writes
  intro m' w hm'
  rw [guestWrite]
  cases htrans : as.translate w.va with
  | none => exact hm'
  | some b =>
      have hne : a ≠ b := fun heq => ha ⟨w.va, heq ▸ htrans⟩
      dsimp only
      rw [Function.update_of_ne hne]
      exact hm'

theorem exists_guestWrite_ne {as : AddrSpace} {a : Addr} (ha : as.Maps a) (m : PhysMem) :
    ∃ writes, Run.exec (guestWrite as) m writes a ≠ m a := by
  obtain ⟨va, hva⟩ := ha
  refine ⟨[⟨va, m a + 1#8⟩], ?_⟩
  rw [Run.exec_cons, Run.exec_nil, guestWrite]
  dsimp only
  rw [hva]
  dsimp only
  rw [Function.update_self]
  intro heq
  have hone := BitVec.add_right_eq_self.mp heq
  revert hone
  decide

namespace VmConfig

variable (config : VmConfig) (as : AddrSpace) (m : PhysMem)

/-- The address of the byte `k` of the image in the guest. -/
def imageAddr (k : ℕ) : Addr := config.image.baseAddr + BitVec.ofNat 64 k

def IsImageByte (a : Addr) : Prop :=
  ∃ k < config.image.size.toNat, as.translate (config.imageAddr k) = some a

/-- Whatever the guest wrote since it started with the memory `m`, the image
that `vm_reinstall_image` leaves is the one it started with. -/
def RestoresImage : Prop :=
  ∀ writes : List GuestWrite, ∃ m',
    config.vmReinstallImage as (Run.exec (guestWrite as) m writes) = some m' ∧
      ∀ a, config.IsImageByte as a → m' a = m a

/-- The image is copied, through windows that can be mapped, and each byte of it
comes from an address that the guest does not map and that holds this byte when
the guest starts with the memory `m`. -/
def PristineCopy (reg : VmMemRegion) : Prop :=
  ¬ config.Installed reg ∧ ¬ config.LoadOverlaps reg ∧ ∃ srcPages dstPages,
    memMap config.image.loadAddr config.imgNumPages = some srcPages ∧
    memMapCpy as config.image.baseAddr config.imgNumPages = some dstPages ∧
    ∀ a, config.IsImageByte as a →
      ¬ as.Maps (Copy.source (windowAddr dstPages) (windowAddr srcPages)
          config.image.size.toNat a) ∧
        m (Copy.source (windowAddr dstPages) (windowAddr srcPages)
          config.image.size.toNat a) = m a

variable {config as m} {reg : VmMemRegion}

theorem vmReinstallImage_of_imageRegion (hreg : config.imageRegion = some reg) (m : PhysMem) :
    config.vmReinstallImage as m = config.vmInstallImage as reg m := by
  rw [vmReinstallImage, hreg]

theorem IsImageByte.maps {a : Addr} (h : config.IsImageByte as a) : as.Maps a := by
  obtain ⟨k, -, hk⟩ := h
  exact ⟨_, hk⟩

theorem PristineCopy.restoresImage (hreg : config.imageRegion = some reg)
    (h : config.PristineCopy as m reg) : config.RestoresImage as m := by
  obtain ⟨hinstalled, hoverlap, srcPages, dstPages, hsrc, hdst, hbytes⟩ := h
  intro writes
  refine ⟨_, (vmReinstallImage_of_imageRegion hreg _).trans
    (vmInstallImage_of_windows hinstalled hoverlap hsrc hdst _), fun a ha => ?_⟩
  obtain ⟨hmaps, hbyte⟩ := hbytes a ha
  rw [exec_guestWrite_of_not_maps hmaps, hbyte]

theorem not_restoresImage_of_installed (hreg : config.imageRegion = some reg)
    {a : Addr} (ha : config.IsImageByte as a) (hinstalled : config.Installed reg) :
    ¬ config.RestoresImage as m := by
  intro h
  obtain ⟨writes, hne⟩ := exists_guestWrite_ne ha.maps m
  obtain ⟨m', hm', hbytes⟩ := h writes
  rw [vmReinstallImage_of_imageRegion hreg, vmInstallImage, if_pos hinstalled] at hm'
  have heq := hbytes a ha
  rw [← Option.some.inj hm'] at heq
  exact hne heq

/-! ## Images backed by consecutive addresses -/

/-- The image of the guest is backed by the memory from `pa` on. -/
def BackedFrom (config : VmConfig) (as : AddrSpace) (pa : Addr) : Prop :=
  ∀ k < config.image.size.toNat,
    as.translate (config.imageAddr k) = some (pa + BitVec.ofNat 64 k)

theorem imgNumPages_eq (hfits : config.image.size.toNat + (pageSize - 1) < 2 ^ 64) :
    config.imgNumPages = (config.image.size.toNat + (pageSize - 1)) / pageSize :=
  toNat_numPages hfits

theorem BackedFrom.contiguous {pa : Addr} (h : config.BackedFrom as pa)
    (hfits : config.image.size.toNat + (pageSize - 1) < 2 ^ 64) :
    as.Contiguous config.image.baseAddr pa config.imgNumPages := by
  intro i hi
  rw [imgNumPages_eq hfits] at hi
  have hlt : i * pageSize < config.image.size.toNat := by
    unfold pageSize at *
    omega
  exact h _ hlt

theorem byteAddr_injOn {pa : Addr} {j k : ℕ} (hj : j < config.image.size.toNat)
    (hk : k < config.image.size.toNat) (h : pa + BitVec.ofNat 64 j = pa + BitVec.ofNat 64 k) :
    j = k := by
  have hsize := config.image.size.isLt
  have hnat := congrArg BitVec.toNat (add_left_cancel h)
  rw [BitVec.toNat_ofNat, BitVec.toNat_ofNat, Nat.mod_eq_of_lt (hj.trans hsize),
    Nat.mod_eq_of_lt (hk.trans hsize)] at hnat
  exact hnat

theorem windowAddr_image {pa : Addr} {pages : List Addr}
    (hfits : config.image.size.toNat + (pageSize - 1) < 2 ^ 64)
    (hpages : pages = (List.range config.imgNumPages).map (pageAddr pa)) {k : ℕ}
    (hk : k < config.image.size.toNat) : windowAddr pages k = pa + BitVec.ofNat 64 k := by
  rw [hpages]
  refine windowAddr_range ?_
  rw [imgNumPages_eq hfits]
  unfold pageSize at *
  omega

theorem eq_of_memMap {pa : Addr} {n : ℕ} {pages : List Addr} (h : memMap pa n = some pages) :
    pages = (List.range n).map (pageAddr pa) := by
  rw [memMap] at h
  split_ifs at h
  exact (Option.some.inj h).symm

/-- An image that the guest uses where it was loaded is not restored: its bytes
are copied onto themselves. -/
theorem not_pristineCopy_of_inplace {a : Addr} (ha : config.IsImageByte as a)
    (hfits : config.image.size.toNat + (pageSize - 1) < 2 ^ 64)
    (hback : config.BackedFrom as config.image.loadAddr) :
    ¬ config.PristineCopy as m reg := by
  rintro ⟨-, -, srcPages, dstPages, hsrc, hdst, hbytes⟩
  have hdst' := memMapCpy_of_contiguous (hback.contiguous hfits) hdst
  have hsource := Copy.source_of_eq (fun k hk =>
    (windowAddr_image hfits hdst' hk).trans (windowAddr_image hfits (eq_of_memMap hsrc) hk).symm) a
  have hmaps := (hbytes a ha).1
  rw [hsource] at hmaps
  exact hmaps ha.maps

/-- An image that was copied at boot to memory that the guest sees as consecutive
is restored, if no byte of its load range is memory of the guest. -/
theorem pristineCopy_of_copied {pa : Addr} {before : PhysMem}
    (hfits : config.image.size.toNat + (pageSize - 1) < 2 ^ 64)
    (hboot : config.vmMapImgRgn as reg before = some m)
    (hinplace : ¬ (reg.placePhys = false ∧ config.image.inplace = true))
    (hinstalled : ¬ config.Installed reg) (hback : config.BackedFrom as pa)
    (hload : ∀ k < config.image.size.toNat,
      ¬ as.Maps (config.image.loadAddr + BitVec.ofNat 64 k)) :
    config.PristineCopy as m reg := by
  rw [vmMapImgRgn, if_neg hinplace] at hboot
  rcases vmInstallImage_cases config as reg hboot with
    ⟨hskip, -⟩ | ⟨-, hoverlap, srcPages, dstPages, hsrc, hdst, hcopied⟩
  · exact absurd hskip hinstalled
  refine ⟨hinstalled, hoverlap, srcPages, dstPages, hsrc, hdst, ?_⟩
  have hdstAddr : ∀ k < config.image.size.toNat,
      windowAddr dstPages k = pa + BitVec.ofNat 64 k := fun k hk =>
    windowAddr_image hfits (memMapCpy_of_contiguous (hback.contiguous hfits) hdst) hk
  have hsrcAddr : ∀ k < config.image.size.toNat,
      windowAddr srcPages k = config.image.loadAddr + BitVec.ofNat 64 k := fun k hk =>
    windowAddr_image hfits (eq_of_memMap hsrc) hk
  have hdisj : ∀ j < config.image.size.toNat, ∀ k < config.image.size.toNat,
      windowAddr srcPages j ≠ windowAddr dstPages k := by
    intro j hj k hk heq
    rw [hsrcAddr j hj, hdstAddr k hk] at heq
    exact hload j hj ⟨_, heq ▸ hback k hk⟩
  have hinj : ∀ j < config.image.size.toNat, ∀ k < config.image.size.toNat,
      windowAddr dstPages j = windowAddr dstPages k → j = k := by
    intro j hj k hk heq
    rw [hdstAddr j hj, hdstAddr k hk] at heq
    exact byteAddr_injOn hj hk heq
  rintro a ⟨k, hk, htrans⟩
  have ha : a = windowAddr dstPages k := by
    rw [hback k hk] at htrans
    rw [hdstAddr k hk, Option.some.inj htrans]
  have hload' : ∀ j < config.image.size.toNat, windowAddr srcPages k ≠ windowAddr dstPages j :=
    hdisj k hk
  rw [ha, Copy.source_of_disjoint hinj hdisj hk]
  refine ⟨?_, ?_⟩
  · rw [hsrcAddr k hk]
    exact hload k hk
  · rw [hcopied, hcopied, Copy.source_of_disjoint hinj hdisj hk, Copy.source_of_ne hload']

/-- For every configuration with an image of at least one byte that the guest
maps, every address space and every memory at the start of the guest: a recovery
restores the image, whatever the guest wrote, exactly when there is a pristine
copy of each of its bytes. -/
theorem restoresImage_iff (hreg : config.imageRegion = some reg)
    (hsize : 0 < config.image.size.toNat)
    (hmapped : ∀ k < config.image.size.toNat, (as.translate (config.imageAddr k)).isSome = true) :
    config.RestoresImage as m ↔ config.PristineCopy as m reg := by
  refine ⟨fun h => ?_, PristineCopy.restoresImage hreg⟩
  obtain ⟨a₀, ha₀⟩ := Option.isSome_iff_exists.mp (hmapped 0 hsize)
  obtain ⟨m', hm', hbytes⟩ := h []
  rw [vmReinstallImage_of_imageRegion hreg, Run.exec_nil] at hm'
  rcases vmInstallImage_cases config as reg hm' with
    ⟨hinstalled, -⟩ | ⟨hinstalled, hoverlap, srcPages, dstPages, hsrc, hdst, hsource⟩
  · exact absurd h (not_restoresImage_of_installed hreg ⟨0, hsize, ha₀⟩ hinstalled)
  · refine ⟨hinstalled, hoverlap, srcPages, dstPages, hsrc, hdst, fun a ha => ?_⟩
    have hbyte := (hsource a).symm.trans (hbytes a ha)
    refine ⟨fun hmaps => ?_, hbyte⟩
    obtain ⟨writes, hne⟩ := exists_guestWrite_ne hmaps m
    obtain ⟨m₁, hm₁, hbytes₁⟩ := h writes
    rw [vmReinstallImage_of_imageRegion hreg,
      vmInstallImage_of_windows hinstalled hoverlap hsrc hdst] at hm₁
    have heq := hbytes₁ a ha
    rw [← Option.some.inj hm₁, ← hbyte] at heq
    exact hne heq

/-- A guest on one page, which is backed by the page `pa`. -/
def onePage (va pa : Addr) : AddrSpace := fun a =>
  if alignFloor a 0x1000#64 = va then some ⟨0x1000#64, pa, ⟨1, rfl⟩⟩ else none

/-- An image of 16 bytes in a region of one page, with an address to load it
from. -/
def smallConfig (placePhys : Bool) (loadAddr : Addr) : VmConfig :=
  { (default : VmConfig) with
    image := ⟨0x80200000#64, loadAddr, 16#64, false⟩
    regions := [⟨0x80200000#64, 0x1000#64, 0#64, placePhys, 0x80200000#64⟩] }

theorem toNat_sub_lt_of_maps_onePage {va pa a : Addr} (h : (onePage va pa).Maps a) :
    (a - pa).toNat < pageSize := by
  obtain ⟨va', htrans⟩ := h
  have hfloor : (alignFloor va' 0x1000#64).toNat = va'.toNat / pageSize * pageSize :=
    toNat_alignFloor_page va'
  have hlt := va'.isLt
  rw [AddrSpace.translate, onePage] at htrans
  split_ifs at htrans with hpage
  · have ha : AddrSpace.physAddr ⟨0x1000#64, pa, ⟨1, rfl⟩⟩ va' = a := Option.some.inj htrans
    rw [← ha, AddrSpace.physAddr, add_sub_cancel_left, BitVec.toNat_sub, hfloor]
    unfold pageSize
    omega
  · cases htrans

/-- The image is loaded outside the guest and copied to the page it was given. -/
theorem restoresImage_smallConfig :
    ∃ m, (smallConfig false 0x90000000#64).vmMapImgRgn (onePage 0x80200000#64 0xa0000000#64)
        ⟨0x80200000#64, 0x1000#64, 0#64, false, 0x80200000#64⟩
        (fun a => if a = 0x90000000#64 then 1#8 else 0#8) = some m ∧
      (smallConfig false 0x90000000#64).RestoresImage (onePage 0x80200000#64 0xa0000000#64) m := by
  have hback : (smallConfig false 0x90000000#64).BackedFrom
      (onePage 0x80200000#64 0xa0000000#64) 0xa0000000#64 := by
    unfold BackedFrom
    decide
  have hmapped : ∀ k < (smallConfig false 0x90000000#64).image.size.toNat,
      ((onePage 0x80200000#64 0xa0000000#64).translate
        ((smallConfig false 0x90000000#64).imageAddr k)).isSome = true := by decide
  have hfar : ∀ k < (smallConfig false 0x90000000#64).image.size.toNat,
      pageSize ≤ ((smallConfig false 0x90000000#64).image.loadAddr + BitVec.ofNat 64 k -
        0xa0000000#64).toNat := by decide
  refine ⟨_, rfl, (restoresImage_iff rfl (by decide) hmapped).mpr
    (pristineCopy_of_copied (by decide) rfl (by decide) (by decide) hback fun k hk hmaps => ?_)⟩
  exact absurd (toNat_sub_lt_of_maps_onePage hmaps) (Nat.not_lt.mpr (hfar k hk))

/-- The image is at its base address from the beginning, and the guest writes to
its first byte. -/
theorem not_restoresImage_identity :
    ∃ reg, (smallConfig true 0x80200000#64).imageRegion = some reg ∧
      (smallConfig true 0x80200000#64).vmMapImgRgn (onePage 0x80200000#64 0x80200000#64) reg
        (fun _ => 0#8) = some (fun _ => 0#8) ∧
      ¬ (smallConfig true 0x80200000#64).RestoresImage (onePage 0x80200000#64 0x80200000#64)
        (fun _ => 0#8) := by
  refine ⟨_, rfl, rfl, fun h => ?_⟩
  obtain ⟨m', hm', hbytes⟩ := h [⟨0x80200000#64, 1#8⟩]
  have hbyte := hbytes 0x80200000#64 ⟨0, by decide, rfl⟩
  have hcopy := Option.some.inj hm'
  rw [← hcopy] at hbyte
  revert hbyte
  decide

end VmConfig

end BaoHypervisor
