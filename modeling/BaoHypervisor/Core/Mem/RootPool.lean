import BaoHypervisor.Core.Mem.Accounting
import BaoHypervisor.Core.Mem.Pools
import BaoHypervisor.Core.Mem.Reservation

/-!
# The root pool

The memory region that the hypervisor was loaded to gets the first pool. What the hypervisor takes
up of it is reserved before anything is allocated: the two parts of its image, with the images of
VMs between them, the memory of the CPUs, and behind it the bitmap of the pool itself. Then come the
ranges of the configuration. If all of this succeeds, no two of these ranges have a page in common,
and the rest of the pool is free (`memInitRoot_partition`).
-/

namespace BaoHypervisor

open Bitmap BitRun

/-- The sizes of what the hypervisor was loaded with: the part of its image with contents, the part
without, the images of VMs, and `platform.cpu_num * mem_cpu_boot_alloc_size()`. -/
structure HypImage where
  loadSize : SizeT
  noloadSize : SizeT
  vmImageSize : SizeT
  cpuSize : SizeT

namespace HypImage

variable (img : HypImage) (loadAddr : Addr)

def imageSize : SizeT := img.loadSize + img.noloadSize

def imageNoloadAddr : Addr := loadAddr + img.loadSize + img.vmImageSize

def cpuBaseAddr : Addr := img.imageNoloadAddr loadAddr + img.noloadSize

def bitmapBase : Addr := loadAddr + img.imageSize + img.vmImageSize + img.cpuSize

/-- The ranges of `pp_root_reserve_hyp_mem`. -/
def hypRanges : List PhysRange :=
  [⟨loadAddr, img.loadSize⟩, ⟨img.imageNoloadAddr loadAddr, img.noloadSize⟩,
    ⟨img.cpuBaseAddr loadAddr, img.cpuSize⟩]

def bitmapRange (pool : PagePool) : PhysRange :=
  ⟨img.bitmapBase loadAddr, pageBytes (BitVec.ofNat 64 (PagePool.bitmapPages pool.size.toNat))⟩

/-- `root_pool_set_up_bitmap`: `mem` is the memory behind the pointer that it maps. -/
def rootPoolSetUpBitmap (mem : Bitmap) (pool : PagePool) : Bool × PagePool :=
  let bitmapNumPages := PagePool.bitmapPages pool.size.toNat
  if pool.size.toNat ≤ bitmapNumPages then (false, pool)
  else
    let bitmapPp := memPpagesGet (img.bitmapBase loadAddr) (BitVec.ofNat 64 bitmapNumPages)
    let pool := { pool with
      bitmap := fun w => if w < bitmapNumPages * (pageSize / 4) then 0#32 else mem w }
    pool.memReservePpoolPpages bitmapPp

def ppRootReserveHypMem (pool : PagePool) : Bool × PagePool :=
  let imagesLoad := memPpagesGet loadAddr (numPages img.loadSize)
  let imagesNoload := memPpagesGet (img.imageNoloadAddr loadAddr) (numPages img.noloadSize)
  let cpus := memPpagesGet (img.cpuBaseAddr loadAddr) (numPages img.cpuSize)
  let (imageLoadReserved, pool) := pool.memReservePpoolPpages imagesLoad
  let (imageNoloadReserved, pool) := pool.memReservePpoolPpages imagesNoload
  let (cpuReserved, pool) := pool.memReservePpoolPpages cpus
  (imageLoadReserved && imageNoloadReserved && cpuReserved, pool)

end HypImage

theorem MemRegion.aligned_align_base (region : MemRegion) :
    (align region.base (BitVec.ofNat 64 pageSize)).toNat % pageSize = 0 := by
  rw [region.toNat_align_base]
  exact Nat.mul_mod_left _ _

theorem MemRegion.extent_wholePages (region : MemRegion) :
    (align region.base (BitVec.ofNat 64 pageSize)).toNat +
      (region.size / BitVec.ofNat 64 pageSize).toNat * pageSize < 2 ^ 64 := by
  have hext := region.extent
  rw [region.toNat_align_base, BitVec.toNat_udiv]
  have hpage : (BitVec.ofNat 64 pageSize).toNat = pageSize := rfl
  rw [hpage]
  unfold pageSize at *
  omega

/-- The pool of a region as `pp_root_init` starts with it. -/
def rootPool (region : MemRegion) : PagePool where
  base := align region.base (BitVec.ofNat 64 pageSize)
  size := region.size / BitVec.ofNat 64 pageSize
  free := region.size / BitVec.ofNat 64 pageSize
  last := 0
  bitmap := fun _ => 0#32
  base_aligned := region.aligned_align_base
  extent := region.extent_wholePages

/-- What the boot starts with: the regions of the platform, with the memory that bitmaps are put in,
and the configuration. -/
structure Boot where
  img : HypImage
  loadAddr : Addr
  regions : List MemRegion
  mem : MemRegion → Bitmap
  config : Config

namespace Boot

variable (boot : Boot)

def ppRootInit (region : MemRegion) : Option PagePool :=
  match boot.img.rootPoolSetUpBitmap boot.loadAddr (boot.mem region) (rootPool region) with
  | (false, _) => none
  | (true, pool) =>
      match boot.img.ppRootReserveHypMem boot.loadAddr pool with
      | (false, _) => none
      | (true, pool) => some { pool with last := 0 }

def memFindRootRegion : Option ℕ :=
  boot.regions.findIdx? fun region =>
    rangeInRange boot.loadAddr boot.img.imageSize region.base region.size

def memSetupRootPool : Option (ℕ × PagePool) :=
  boot.memFindRootRegion.bind fun i =>
    (boot.regions[i]?).bind fun region => (boot.ppRootInit region).map fun pool => (i, pool)

/-- `mem_reserve_physical_memory`, for a pool that is used only if it succeeds. -/
def reserveConfig (pool : PagePool) : Option PagePool :=
  match pool.memReservePhysicalMemory boot.config with
  | (false, _) => none
  | (true, pool) => some pool

/-- The root pool that `mem_init` puts in the list, and which region it is for. -/
def memInitRoot : Option (ℕ × PagePool) :=
  boot.memSetupRootPool.bind fun (i, pool) => (boot.reserveConfig pool).map fun pool => (i, pool)

/-- `mem_create_ppools`: the pools that it puts in the list. The pages of their bitmaps, and of the
page tables that show these, come from the pools before. There is no result where `pp_init` returns
early, with which the code goes on with a pool that has no bitmap. -/
def memCreatePpools : List MemRegion → Option (List PagePool)
  | [] => some []
  | region :: regions =>
      ((ppInit region (boot.mem region)).bind boot.reserveConfig).bind fun pool =>
        (memCreatePpools regions).map fun pools => pool :: pools

/-- `mem_init`: the list of pools, for a hypervisor that stays where it was loaded. -/
def memInit : Option (List PagePool) :=
  boot.memInitRoot.bind fun (i, root) =>
    (boot.memCreatePpools (boot.regions.eraseIdx i)).map fun pools => root :: pools

end Boot

/-! ## Ranges of a pool -/

namespace PagePool

variable {pool : PagePool} {r : PhysRange} {rs : List PhysRange}

/-- A range is on the pages of the pool, or has nothing to do with them. -/
def Placed (pool : PagePool) (r : PhysRange) : Prop :=
  (pool.OnPages r ∧ 1 ≤ r.size.toNat) ∨
    (pool.hasPpages r.ppages = false ∧ ∀ p, ¬ pool.Touches r p)

theorem Placed.congr {pool' : PagePool} (hbase : pool'.base = pool.base)
    (hsize : pool'.size = pool.size) (h : pool.Placed r) : pool'.Placed r := by
  refine h.imp (fun ⟨hpages, hpos⟩ => ⟨hpages.congr hbase hsize, hpos⟩) ?_
  rintro ⟨hin, htouch⟩
  refine ⟨?_, fun p hp => htouch p ((touches_congr hbase hsize).mp hp)⟩
  rwa [hasPpages, hbase, hsize]

theorem OnPages.numPages_ne_zero (h : pool.OnPages r) (hpos : 1 ≤ r.size.toNat) :
    numPages r.size ≠ 0#64 := by
  intro hzero
  have hn := h.numPages_eq
  rw [hzero] at hn
  unfold pageSize at hn
  change 0 = _ at hn
  omega

theorem OnPages.mem_reservedRun_iff (h : pool.OnPages r) (hpos : 1 ≤ r.size.toNat) {p : ℕ} :
    p ∈ pool.reservedRun r.ppages ↔ pool.Touches r p := by
  have hn : 0 < (numPages r.size).toNat :=
    Nat.pos_of_ne_zero (BitVec.toNat_ne.mp (h.numPages_ne_zero hpos))
  rw [h.touches_iff, reservedRun, Finset.mem_Ico, show r.ppages.numPages = numPages r.size from rfl,
    consecSpan_of_pos _ hn]

theorem Placed.reserves_iff (h : pool.Placed r) {p : ℕ} :
    pool.Reserves r p ↔ pool.Touches r p := by
  rcases h with ⟨hpages, hpos⟩ | ⟨hin, htouch⟩
  · rw [Reserves, hpages.mem_reservedRun_iff hpos]
    exact and_iff_right hpages.hasPpages
  · refine iff_of_false (fun hres => ?_) (htouch p)
    rw [hres.1] at hin
    cases hin

theorem reserveRanges_cons (h : (pool.memReservePpoolPpages r.ppages).1 = true) :
    pool.reserveRanges (r :: rs) = (pool.memReservePpoolPpages r.ppages).2.reserveRanges rs := by
  rw [reserveRanges]
  rcases hone : pool.memReservePpoolPpages r.ppages with ⟨ok, pool'⟩
  rw [hone] at h
  obtain rfl : ok = true := h
  rfl

theorem onPages_mk {base : Addr} {size : SizeT} (haligned : base.toNat % pageSize = 0)
    (hbase : pool.base.toNat ≤ base.toNat)
    (hend : base.toNat + size.toNat ≤ pool.base.toNat + pool.size.toNat * pageSize) :
    pool.OnPages ⟨base, size⟩ := ⟨haligned, hbase, hend⟩

theorem Placed.accurate_reserve (h : pool.Placed r) (hacc : pool.Accurate)
    (hret : (pool.memReservePpoolPpages r.ppages).1 = true) :
    (pool.memReservePpoolPpages r.ppages).2.Accurate := by
  refine (step_reserve_accurate_iff (c := Coloring.initial) hacc r.ppages).mpr fun hin => ?_
  rcases h with ⟨hpages, hpos⟩ | ⟨hnot, -⟩
  · have hn : r.ppages.numPages ≠ 0#64 := hpages.numPages_ne_zero hpos
    rw [if_neg hn]
    intro p hp
    have htouch := (hpages.mem_reservedRun_iff hpos).mp hp
    exact ⟨htouch.1, hpages.clear_of_reserve hret htouch⟩
  · rw [hnot] at hin
    cases hin

theorem accurate_reserveRanges (hacc : pool.Accurate) (hplaced : ∀ r ∈ rs, pool.Placed r)
    (hret : (pool.reserveRanges rs).1 = true) : (pool.reserveRanges rs).2.Accurate := by
  induction rs generalizing pool with
  | nil => exact hacc
  | cons r rs ih =>
      obtain ⟨hone, heq⟩ := reserveRanges_cons_eq_true hret
      rw [heq] at hret ⊢
      refine ih ((hplaced r List.mem_cons_self).accurate_reserve hacc hone) (fun q hq => ?_) hret
      exact (hplaced q (List.mem_cons_of_mem r hq)).congr (base_memReservePpoolPpages pool _)
        (size_memReservePpoolPpages pool _)

/-- Ranges that are not in the pool are passed over. -/
theorem reserveRanges_filter (pool : PagePool) (rs : List PhysRange) :
    pool.reserveRanges (rs.filter fun r => pool.hasPpages r.ppages) = pool.reserveRanges rs := by
  induction rs generalizing pool with
  | nil => rfl
  | cons r rs ih =>
      have hcongr : ∀ q, (pool.memReservePpoolPpages r.ppages).2.hasPpages q = pool.hasPpages q :=
        fun q => by
          rw [hasPpages, base_memReservePpoolPpages, size_memReservePpoolPpages]
          rfl
      cases hin : pool.hasPpages r.ppages with
      | true =>
          rw [List.filter_cons, if_pos hin, reserveRanges, reserveRanges]
          have hrest := ih (pool.memReservePpoolPpages r.ppages).2
          simp only [hcongr] at hrest
          rcases hone : pool.memReservePpoolPpages r.ppages with ⟨ok, pool'⟩
          rw [hone] at hrest
          cases ok with
          | false => rfl
          | true => exact hrest
      | false =>
          have hskip : pool.memReservePpoolPpages r.ppages = (true, pool) := by
            rw [memReservePpoolPpages, hin, if_neg Bool.false_ne_true]
          rw [List.filter_cons, hin, if_neg Bool.false_ne_true, ih, reserveRanges, hskip]

/-- Ranges that are reserved one after the other meet no page marked before, and no page of each
other. -/
theorem reserveRanges_apart (hplaced : ∀ r ∈ rs, pool.Placed r)
    (hret : (pool.reserveRanges rs).1 = true) :
    (∀ r ∈ rs, ∀ p, pool.Touches r p → pool.bits p = false) ∧
      rs.Pairwise fun r r' => ∀ p, ¬ (pool.Touches r p ∧ pool.Touches r' p) := by
  have hin : ∀ r ∈ rs, ∀ p, pool.Touches r p → pool.hasPpages r.ppages = true := by
    intro r hr p hp
    exact ((hplaced r hr).reserves_iff.mpr hp).1
  rw [← reserveRanges_filter] at hret
  obtain ⟨hclear, hapart⟩ := reserveRanges_disjoint hret fun r hr => by
    obtain ⟨hmem, hpages⟩ := List.mem_filter.mp hr
    rcases hplaced r hmem with h | h
    · exact h.1
    · rw [h.1] at hpages
      cases hpages
  refine ⟨fun r hr p hp => hclear r (List.mem_filter.mpr ⟨hr, hin r hr p hp⟩) p hp, ?_⟩
  rw [List.pairwise_filter] at hapart
  refine hapart.imp_of_mem fun {r r'} hr hr' hne p hboth => ?_
  exact hne (hin r hr p hboth.1) (hin r' hr' p hboth.2) p hboth

/-- What holds of a pool after each reservation holds after all of them, or those before one that
fails. -/
theorem reserveRanges_rec {P : PagePool → Prop}
    (hstep : ∀ (pool : PagePool) (r : PhysRange), P pool →
      P (pool.memReservePpoolPpages r.ppages).2)
    (h : P pool) (rs : List PhysRange) : P (pool.reserveRanges rs).2 := by
  induction rs generalizing pool with
  | nil => exact h
  | cons r rs ih =>
      have hone := hstep pool r h
      rw [reserveRanges]
      rcases hres : pool.memReservePpoolPpages r.ppages with ⟨ok, pool'⟩
      rw [hres] at hone
      cases ok with
      | false => exact hone
      | true => exact ih hone

theorem extent_reserveRanges (pool : PagePool) (rs : List PhysRange) :
    (pool.reserveRanges rs).2.base = pool.base ∧ (pool.reserveRanges rs).2.size = pool.size :=
  reserveRanges_rec (P := fun q => q.base = pool.base ∧ q.size = pool.size)
    (fun q _ hq => ⟨(base_memReservePpoolPpages q _).trans hq.1,
      (size_memReservePpoolPpages q _).trans hq.2⟩) ⟨rfl, rfl⟩ rs

theorem last_reserveRanges (pool : PagePool) (rs : List PhysRange) :
    (pool.reserveRanges rs).2.last = pool.last := by
  refine reserveRanges_rec (P := fun q => q.last = pool.last) (fun q r hq => ?_) rfl rs
  rw [← hq, memReservePpoolPpages]
  split_ifs <;> rfl

/-- Of ranges that have been reserved all pages are marked, and no two have a page in common. -/
theorem marked_of_reserveRanges {pool₀ : PagePool} (hret : pool₀.reserveRanges rs = (true, pool))
    (hplaced : ∀ r ∈ rs, pool.Placed r) :
    (∀ r ∈ rs, ∀ p, pool.Touches r p → pool.bits p = true) ∧
      rs.Pairwise fun r r' => ∀ p, ¬ (pool.Touches r p ∧ pool.Touches r' p) := by
  have hok : (pool₀.reserveRanges rs).1 = true := by rw [hret]
  obtain ⟨hbase, hsize⟩ := extent_reserveRanges pool₀ rs
  have hbits := bits_reserveRanges hok
  rw [hret] at hbase hsize hbits
  have hplaced₀ : ∀ r ∈ rs, pool₀.Placed r := fun r hr =>
    (hplaced r hr).congr hbase.symm hsize.symm
  have htouch : ∀ r p, pool.Touches r p ↔ pool₀.Touches r p := fun _ _ =>
    touches_congr hbase hsize
  refine ⟨fun r hr p hp => (hbits p).mpr (.inr ⟨r, hr, ?_⟩), ?_⟩
  · exact (hplaced₀ r hr).reserves_iff.mpr ((htouch r p).mp hp)
  · refine (reserveRanges_apart hplaced₀ hok).2.imp fun hne p hboth => ?_
    exact hne p ⟨(htouch _ p).mp hboth.1, (htouch _ p).mp hboth.2⟩

end PagePool

/-! ## The memory of the hypervisor -/

theorem numPages_pageBytes {n : SizeT} (h : n.toNat < 2 ^ 52) : numPages (pageBytes n) = n := by
  have hbytes := toNat_pageBytes h
  refine BitVec.eq_of_toNat_eq ?_
  rw [toNat_numPages, hbytes]
  · unfold pageSize
    omega
  · rw [hbytes]
    unfold pageSize
    omega

theorem PagePool.bitmapPages_lt (pool : PagePool) : bitmapPages pool.size.toNat < 2 ^ 52 := by
  have hsize := pool.size_lt
  unfold bitmapPages pageBits pageSize
  split_ifs <;> omega

theorem PagePool.bitmapPages_pos {size : ℕ} (h : 0 < size) : 0 < bitmapPages size := by
  unfold bitmapPages pageBits pageSize
  split_ifs <;> omega

namespace HypImage

variable {img : HypImage} {loadAddr : Addr} {pool pool' : PagePool}

/-- The memory of the hypervisor is in the pool, and its parts are in pages of their own. -/
structure Fits (img : HypImage) (loadAddr : Addr) (pool : PagePool) : Prop where
  addr_aligned : pageSize ∣ loadAddr.toNat
  load_aligned : pageSize ∣ img.loadSize.toNat
  noload_aligned : pageSize ∣ img.noloadSize.toNat
  vmImage_aligned : pageSize ∣ img.vmImageSize.toNat
  cpu_aligned : pageSize ∣ img.cpuSize.toNat
  load_pos : 1 ≤ img.loadSize.toNat
  noload_pos : 1 ≤ img.noloadSize.toNat
  cpu_pos : 1 ≤ img.cpuSize.toNat
  base_le : pool.base.toNat ≤ loadAddr.toNat
  end_le : loadAddr.toNat + img.loadSize.toNat + img.vmImageSize.toNat + img.noloadSize.toNat +
      img.cpuSize.toNat + PagePool.bitmapPages pool.size.toNat * pageSize ≤
    pool.base.toNat + pool.size.toNat * pageSize

theorem toNat_size_bitmapRange (img : HypImage) (loadAddr : Addr) (pool : PagePool) :
    (img.bitmapRange loadAddr pool).size.toNat =
      PagePool.bitmapPages pool.size.toNat * pageSize := by
  have hn := pool.bitmapPages_lt
  have hword : (BitVec.ofNat 64 (PagePool.bitmapPages pool.size.toNat)).toNat =
      PagePool.bitmapPages pool.size.toNat := Nat.mod_eq_of_lt (hn.trans (by decide))
  rw [bitmapRange, toNat_pageBytes (by rw [hword]; exact hn), hword]

section Fits

variable (h : img.Fits loadAddr pool)
include h

theorem Fits.toNat_imageNoloadAddr : (img.imageNoloadAddr loadAddr).toNat =
    loadAddr.toNat + img.loadSize.toNat + img.vmImageSize.toNat := by
  have hext := pool.extent
  have hend := h.end_le
  rw [imageNoloadAddr, BitVec.toNat_add, BitVec.toNat_add, Nat.mod_add_mod,
    Nat.mod_eq_of_lt (by omega)]

theorem Fits.toNat_cpuBaseAddr : (img.cpuBaseAddr loadAddr).toNat =
    loadAddr.toNat + img.loadSize.toNat + img.vmImageSize.toNat + img.noloadSize.toNat := by
  have hext := pool.extent
  have hend := h.end_le
  rw [cpuBaseAddr, BitVec.toNat_add, h.toNat_imageNoloadAddr, Nat.mod_eq_of_lt (by omega)]

theorem Fits.toNat_bitmapBase : (img.bitmapBase loadAddr).toNat =
    loadAddr.toNat + img.loadSize.toNat + img.vmImageSize.toNat + img.noloadSize.toNat +
      img.cpuSize.toNat := by
  have hext := pool.extent
  have hend := h.end_le
  rw [bitmapBase, imageSize, BitVec.toNat_add, BitVec.toNat_add, BitVec.toNat_add,
    BitVec.toNat_add]
  omega

theorem Fits.onPages_of_offset {base : Addr} {size : SizeT} {a : ℕ}
    (hbase : base.toNat = loadAddr.toNat + a) (ha : pageSize ∣ a)
    (hend : a + size.toNat ≤ img.loadSize.toNat + img.vmImageSize.toNat + img.noloadSize.toNat +
      img.cpuSize.toNat + PagePool.bitmapPages pool.size.toNat * pageSize) :
    pool.OnPages ⟨base, size⟩ := by
  have hfit := h.end_le
  refine PagePool.onPages_mk (Nat.mod_eq_zero_of_dvd ?_) ?_ ?_
  · rw [hbase]
    exact Nat.dvd_add h.addr_aligned ha
  · rw [hbase]
    exact h.base_le.trans (Nat.le_add_right _ _)
  · rw [hbase]
    omega

theorem Fits.bitmapPages_pos : 0 < PagePool.bitmapPages pool.size.toNat := by
  refine PagePool.bitmapPages_pos (Nat.pos_of_ne_zero fun hzero => ?_)
  have hload := h.load_pos
  have hbase := h.base_le
  have hend := h.end_le
  rw [hzero, Nat.zero_mul] at hend
  omega

/-- Each range of the hypervisor is on pages of the pool. -/
theorem Fits.onPages : ∀ r ∈ img.bitmapRange loadAddr pool :: img.hypRanges loadAddr,
    pool.OnPages r ∧ 1 ≤ r.size.toNat := by
  have hnoload := Nat.dvd_add h.load_aligned h.vmImage_aligned
  have hcpu := Nat.dvd_add hnoload h.noload_aligned
  have hbitmap := Nat.dvd_add hcpu h.cpu_aligned
  have hbits := img.toNat_size_bitmapRange loadAddr pool
  intro r hr
  simp only [hypRanges, List.mem_cons, List.not_mem_nil, or_false] at hr
  rcases hr with rfl | rfl | rfl | rfl
  · refine ⟨h.onPages_of_offset ?_ hbitmap (Nat.add_le_add_left hbits.le _), ?_⟩
    · rw [h.toNat_bitmapBase]
      omega
    · rw [hbits]
      exact Nat.mul_pos h.bitmapPages_pos (by decide)
  · refine ⟨h.onPages_of_offset rfl (Nat.dvd_zero _) ?_, h.load_pos⟩
    omega
  · refine ⟨h.onPages_of_offset ?_ hnoload ?_, h.noload_pos⟩
    · rw [h.toNat_imageNoloadAddr, Nat.add_assoc]
    · omega
  · refine ⟨h.onPages_of_offset ?_ hcpu ?_, h.cpu_pos⟩
    · rw [h.toNat_cpuBaseAddr]
      omega
    · omega

end Fits

theorem memPpagesGet_numPages (base : Addr) (size : SizeT) :
    memPpagesGet base (numPages size) = PhysRange.ppages ⟨base, size⟩ := rfl

theorem reserveRanges_hypRanges
    (h : img.ppRootReserveHypMem loadAddr pool = (true, pool')) :
    pool.reserveRanges (img.hypRanges loadAddr) = (true, pool') := by
  simp only [ppRootReserveHypMem, memPpagesGet_numPages] at h
  obtain ⟨hall, rfl⟩ := Prod.mk.inj h
  rw [Bool.and_eq_true, Bool.and_eq_true] at hall
  obtain ⟨⟨hload, hnoload⟩, hcpu⟩ := hall
  rw [hypRanges, PagePool.reserveRanges_cons hload, PagePool.reserveRanges_cons hnoload,
    PagePool.reserveRanges_cons hcpu]
  rfl

end HypImage

/-! ## After the boot -/

def clearedPool (region : MemRegion) (mem : Bitmap) : PagePool :=
  { rootPool region with
    bitmap := fun w =>
      if w < PagePool.bitmapPages (rootPool region).size.toNat * (pageSize / 4) then 0#32
      else mem w }

theorem fresh_clearedPool (region : MemRegion) (mem : Bitmap) : (clearedPool region mem).Fresh := by
  refine ⟨fun i hi => ?_, rfl, rfl⟩
  have hword : i / granuleLen <
      PagePool.bitmapPages (rootPool region).size.toNat * (pageSize / 4) := by
    change i < PagePool.bitmapPages (rootPool region).size.toNat * PagePool.pageBits at hi
    unfold PagePool.pageBits pageSize at hi
    unfold granuleLen pageSize
    omega
  rw [PagePool.bits, bitmapGet_eq_getLsbD, clearedPool]
  dsimp only
  rw [if_pos hword]
  exact BitVec.getLsbD_zero

theorem rootPoolSetUpBitmap_eq {img : HypImage} {loadAddr : Addr} {region : MemRegion}
    {mem : Bitmap} {pool : PagePool}
    (h : img.rootPoolSetUpBitmap loadAddr mem (rootPool region) = (true, pool)) :
    (clearedPool region mem).memReservePpoolPpages
      (img.bitmapRange loadAddr (rootPool region)).ppages = (true, pool) := by
  have hword : (BitVec.ofNat 64 (PagePool.bitmapPages (rootPool region).size.toNat)).toNat <
      2 ^ 52 :=
    (Nat.mod_le _ _).trans_lt (rootPool region).bitmapPages_lt
  rw [HypImage.rootPoolSetUpBitmap] at h
  rw [PhysRange.ppages, HypImage.bitmapRange, numPages_pageBytes hword]
  dsimp only at h ⊢
  by_cases hsize : (rootPool region).size.toNat ≤
      PagePool.bitmapPages (rootPool region).size.toNat
  · rw [if_pos hsize] at h
    cases (Prod.mk.inj h).1
  · rw [if_neg hsize] at h
    exact h

namespace Boot

variable {boot : Boot} {region : MemRegion} {pool pool' : PagePool} {i : ℕ}

def hypRanges (boot : Boot) (region : MemRegion) : List PhysRange :=
  boot.img.bitmapRange boot.loadAddr (rootPool region) :: boot.img.hypRanges boot.loadAddr

theorem reserveRanges_of_ppRootInit (h : boot.ppRootInit region = some pool) :
    (clearedPool region (boot.mem region)).reserveRanges (boot.hypRanges region) =
      (true, pool) := by
  have hlast := (clearedPool region (boot.mem region)).last_reserveRanges (boot.hypRanges region)
  rw [ppRootInit] at h
  rcases hbitmap : boot.img.rootPoolSetUpBitmap boot.loadAddr (boot.mem region)
    (rootPool region) with ⟨ok, pool₁⟩
  rw [hbitmap] at h
  cases ok with
  | false => cases h
  | true =>
      dsimp only at h
      rcases hhyp : boot.img.ppRootReserveHypMem boot.loadAddr pool₁ with ⟨ok, pool₂⟩
      rw [hhyp] at h
      cases ok with
      | false => cases h
      | true =>
          have hone := rootPoolSetUpBitmap_eq hbitmap
          have hall : (clearedPool region (boot.mem region)).reserveRanges
              (boot.hypRanges region) = (true, pool₂) := by
            rw [hypRanges, PagePool.reserveRanges_cons (by rw [hone]), hone]
            exact HypImage.reserveRanges_hypRanges hhyp
          rw [hall] at hlast ⊢
          change pool₂.last = 0 at hlast
          rw [← Option.some.inj h, ← hlast]

theorem reserveRanges_of_reserveConfig (h : boot.reserveConfig pool = some pool') :
    pool.reserveRanges boot.config.reservedRanges = (true, pool') := by
  rw [reserveConfig, PagePool.memReservePhysicalMemory_eq] at h
  rcases hres : pool.reserveRanges boot.config.reservedRanges with ⟨ok, pool₂⟩
  rw [hres] at h
  cases ok with
  | false => cases h
  | true => rw [Option.some.inj h]

theorem reserveRanges_of_memInitRoot (h : boot.memInitRoot = some (i, pool))
    (hregion : boot.regions[i]? = some region) :
    (clearedPool region (boot.mem region)).reserveRanges
      (boot.hypRanges region ++ boot.config.reservedRanges) = (true, pool) := by
  obtain ⟨⟨j, pool₁⟩, hsetup, hmap⟩ := Option.bind_eq_some_iff.mp h
  obtain ⟨pool₂, hreserve, heq⟩ := Option.map_eq_some_iff.mp hmap
  obtain ⟨rfl, rfl⟩ := Prod.mk.inj heq
  obtain ⟨k, -, hroot⟩ := Option.bind_eq_some_iff.mp hsetup
  obtain ⟨region', hregion', hinit⟩ := Option.bind_eq_some_iff.mp hroot
  obtain ⟨pool₀, hpool, heq⟩ := Option.map_eq_some_iff.mp hinit
  obtain ⟨rfl, rfl⟩ := Prod.mk.inj heq
  obtain rfl : region' = region := Option.some.inj (hregion'.symm.trans hregion)
  rw [PagePool.reserveRanges_append, reserveRanges_of_ppRootInit hpool]
  exact reserveRanges_of_reserveConfig hreserve

/-- After a boot that goes on, no two ranges of the hypervisor and of the configuration have a page
of the root pool in common, exactly their pages are marked, and the counter counts the others. -/
theorem memInitRoot_partition (h : boot.memInitRoot = some (i, pool))
    (hregion : boot.regions[i]? = some region)
    (hfits : boot.img.Fits boot.loadAddr (rootPool region))
    (hplaced : ∀ r ∈ boot.config.reservedRanges, (rootPool region).Placed r) :
    ((boot.hypRanges region ++ boot.config.reservedRanges).Pairwise fun r r' =>
        ∀ p, ¬ (pool.Touches r p ∧ pool.Touches r' p)) ∧
      (∀ p < pool.size.toNat, pool.bits p = true ↔
        ∃ r ∈ boot.hypRanges region ++ boot.config.reservedRanges, pool.Touches r p) ∧
      pool.Accurate := by
  have heq := reserveRanges_of_memInitRoot h hregion
  have hret : ((clearedPool region (boot.mem region)).reserveRanges
      (boot.hypRanges region ++ boot.config.reservedRanges)).1 = true := by rw [heq]
  have hbase₀ : (clearedPool region (boot.mem region)).base = (rootPool region).base := rfl
  have hsize₀ : (clearedPool region (boot.mem region)).size = (rootPool region).size := rfl
  obtain ⟨hbase, hsize⟩ := PagePool.extent_reserveRanges (clearedPool region (boot.mem region))
    (boot.hypRanges region ++ boot.config.reservedRanges)
  rw [heq] at hbase hsize
  have hall : ∀ r ∈ boot.hypRanges region ++ boot.config.reservedRanges,
      (rootPool region).Placed r := by
    intro r hr
    rcases List.mem_append.mp hr with hhyp | hconfig
    · exact .inl (hfits.onPages r hhyp)
    · exact hplaced r hconfig
  have hcleared : ∀ r ∈ boot.hypRanges region ++ boot.config.reservedRanges,
      (clearedPool region (boot.mem region)).Placed r := fun r hr =>
    (hall r hr).congr hbase₀ hsize₀
  have hfresh := fresh_clearedPool region (boot.mem region)
  have hbits := PagePool.bits_reserveRanges hret
  have hacc := PagePool.accurate_reserveRanges hfresh.accurate hcleared hret
  rw [heq] at hbits hacc
  obtain ⟨hmarked, hapart⟩ := PagePool.marked_of_reserveRanges heq fun r hr =>
    (hcleared r hr).congr hbase hsize
  refine ⟨hapart, fun p hp => ⟨fun hset => ?_, fun ⟨r, hr, htouch⟩ => hmarked r hr p htouch⟩, hacc⟩
  rw [hsize] at hp
  rw [hbits p, hfresh.bits_eq_false hp, or_iff_right Bool.false_ne_true] at hset
  obtain ⟨r, hr, hres⟩ := hset
  refine ⟨r, hr, (PagePool.touches_congr hbase hsize).mpr ?_⟩
  exact (hcleared r hr).reserves_iff.mp hres

/-- A hypervisor in a region of sixteen pages, with the image of a VM between the parts of its own
and a region that the configuration places. -/
def sixteenPages : Boot where
  img := ⟨0x2000#64, 0x1000#64, 0x1000#64, 0x2000#64⟩
  loadAddr := 0x80000000#64
  regions := [⟨0x80000000#64, 0x10000#64, by decide⟩]
  mem := fun _ _ => 0#32
  config :=
    { shmemlist := []
      vmlist :=
        [{ (default : VmConfig) with
            image := ⟨0x0#64, 0x80002000#64, 0x800#64, false⟩
            regions := [⟨0x0#64, 0x2000#64, 0#64, true, 0x80008000#64⟩] }] }

theorem memInitRoot_partition_sixteenPages : ∃ region pool,
    sixteenPages.memInitRoot = some (0, pool) ∧
      ((sixteenPages.hypRanges region ++ sixteenPages.config.reservedRanges).Pairwise fun r r' =>
          ∀ p, ¬ (pool.Touches r p ∧ pool.Touches r' p)) ∧
        (∀ p < pool.size.toNat, pool.bits p = true ↔
          ∃ r ∈ sixteenPages.hypRanges region ++ sixteenPages.config.reservedRanges,
            pool.Touches r p) ∧
        pool.Accurate := by
  have hsome : (sixteenPages.memInitRoot.map Prod.fst) = some 0 := by decide +kernel
  obtain ⟨⟨i, pool⟩, hinit, rfl⟩ := Option.map_eq_some_iff.mp hsome
  refine ⟨_, pool, hinit, memInitRoot_partition hinit rfl (by constructor <;> decide) ?_⟩
  have hpages : ∀ r ∈ sixteenPages.config.reservedRanges,
      (rootPool ⟨0x80000000#64, 0x10000#64, by decide⟩).OnPages r ∧ 1 ≤ r.size.toNat := by decide
  exact fun r hr => .inl (hpages r hr)

theorem memFindRootRegion_of_memInitRoot (h : boot.memInitRoot = some (i, pool)) :
    boot.memFindRootRegion = some i := by
  obtain ⟨⟨j, pool₁⟩, hsetup, hmap⟩ := Option.bind_eq_some_iff.mp h
  obtain ⟨_, -, heq⟩ := Option.map_eq_some_iff.mp hmap
  obtain ⟨k, hfind, hroot⟩ := Option.bind_eq_some_iff.mp hsetup
  obtain ⟨_, -, hinit⟩ := Option.bind_eq_some_iff.mp hroot
  obtain ⟨_, -, heq'⟩ := Option.map_eq_some_iff.mp hinit
  rw [hfind, (Prod.mk.inj heq').1, (Prod.mk.inj heq).1]

theorem reserveRanges_of_memCreatePpools {regions : List MemRegion} {pools : List PagePool}
    (h : boot.memCreatePpools regions = some pools) :
    ∀ pool ∈ pools, ∃ pool₀ : PagePool,
      pool₀.reserveRanges boot.config.reservedRanges = (true, pool) := by
  induction regions generalizing pools with
  | nil =>
      obtain rfl := Option.some.inj h
      simp
  | cons region regions ih =>
      obtain ⟨pool, hpool, hrest⟩ := Option.bind_eq_some_iff.mp h
      obtain ⟨pools, hpools, rfl⟩ := Option.map_eq_some_iff.mp hrest
      obtain ⟨pool₀, -, hreserve⟩ := Option.bind_eq_some_iff.mp hpool
      simp only [List.mem_cons, forall_eq_or_imp]
      exact ⟨⟨pool₀, reserveRanges_of_reserveConfig hreserve⟩, ih hpools⟩

theorem pools_of_memInit {pools : List PagePool} (h : boot.memInit = some pools)
    (hroot : boot.memFindRootRegion.bind (boot.regions[·]?) = some region) :
    ∃ root others, pools = root :: others ∧
      (clearedPool region (boot.mem region)).reserveRanges
        (boot.hypRanges region ++ boot.config.reservedRanges) = (true, root) ∧
      ∀ pool ∈ others, ∃ pool₀ : PagePool,
        pool₀.reserveRanges boot.config.reservedRanges = (true, pool) := by
  obtain ⟨⟨i, root⟩, hinit, hothers⟩ := Option.bind_eq_some_iff.mp h
  obtain ⟨others, hcreate, rfl⟩ := Option.map_eq_some_iff.mp hothers
  rw [memFindRootRegion_of_memInitRoot hinit, Option.bind_some] at hroot
  exact ⟨root, others, rfl, reserveRanges_of_memInitRoot hinit hroot,
    reserveRanges_of_memCreatePpools hcreate⟩

end Boot

end BaoHypervisor
