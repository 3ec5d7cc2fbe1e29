import BaoHypervisor.Core.Vm.InplaceImage
import BaoHypervisor.Core.Vm.InstallImage

/-!
# The memory regions of a VM

`vm_init_mem_regions` maps the regions of a VM, one after the other, and installs the image when it
comes to a region that has it. What is mapped stays mapped, so no other region can have the image
copied again, and the guest reads what the first one has left (`vmInitMemRegions_of_copied`).

Where the base address of the image is its load address, nothing is copied if its region is placed
physically. But one is an address of the guest, and the other one of the machine.
-/

namespace BaoHypervisor

/-- The tables of a VM, the page pools, and the memory. -/
structure VmMem where
  tables : PtEntries
  pools : List PagePool
  mem : PhysMem

namespace VmMemRegion

/-- The pages that `vm_map_mem_region` maps, if they are given. -/
def ppages (reg : VmMemRegion) : Option PPages :=
  if reg.placePhys then
    some { memPpagesGet reg.phys (numPages reg.size) with colors := reg.colors }
  else none

/-- A region without colours that has room in the address space, and ends before its last page. -/
structure Fits (reg : VmMemRegion) (m : Mmu) (c : Coloring) : Prop where
  colors : c.allClrs reg.colors = true
  extent : reg.base.toNat + reg.size.toNat + pageSize < 2 ^ 64
  span : reg.size.toNat ≤ m.dscr.shape.span

def pageNum (reg : VmMemRegion) : ℕ := (numPages reg.size).toNat

end VmMemRegion

namespace Mmu

variable (m : Mmu) (c : Coloring) (colors : ColorMap) (rounds : ℕ)

/-- `vm_map_mem_region`. There is no result in `ERROR`. -/
def vmMapMemRegion (t : PtEntries) (pools : List PagePool) (reg : VmMemRegion) :
    Option (PtEntries × List PagePool) :=
  (m.memAllocMap c colors rounds t pools 0 reg.ppages (targetVa reg.base) reg.pageNum
    m.fmt.vmFlags).bind fun (t', pools', va) =>
      if va = targetVa reg.base then some (t', pools') else none

end Mmu

namespace VmConfig

variable (config : VmConfig) (m : Mmu) (c : Coloring) (colors : ColorMap) (rounds : ℕ)

def imgIsInRgn (reg : VmMemRegion) : Bool :=
  rangeInRange config.image.baseAddr config.image.size reg.base reg.size

def IsInplace (reg : VmMemRegion) : Prop := reg.placePhys = false ∧ config.image.inplace = true

instance (reg : VmMemRegion) : Decidable (config.IsInplace reg) :=
  inferInstanceAs (Decidable (_ ∧ _))

/-- A round of the loop of `vm_init_mem_regions`, with `vm_map_img_rgn`. -/
def vmInitMemRegion (s : VmMem) (reg : VmMemRegion) : Option VmMem :=
  if config.imgIsInRgn reg then
    if config.IsInplace reg then
      (config.vmMapImgRgnInplace reg m c colors rounds s.tables s.pools).map fun r =>
        { s with tables := r.tables, pools := r.pools }
    else
      (m.vmMapMemRegion c colors rounds s.tables s.pools reg).bind fun (t', pools') =>
        (config.vmInstallImage (m.addrSpace t') reg s.mem).map fun mem => ⟨t', pools', mem⟩
  else
    (m.vmMapMemRegion c colors rounds s.tables s.pools reg).map fun (t', pools') =>
      { s with tables := t', pools := pools' }

/-- `vm_init_mem_regions`. There is no result where it does not return. -/
def vmInitMemRegions (s : VmMem) : Option VmMem :=
  config.regions.foldlM (config.vmInitMemRegion m c colors rounds) s

/-- A VM without colours and its regions. The section of its address space has all addresses. -/
structure RegionsFit (config : VmConfig) (m : Mmu) (c : Coloring) (colors : ColorMap) : Prop where
  sections : m.sections = [⟨0, maxVa⟩]
  colors : c.allClrs colors = true
  region : ∀ reg ∈ config.regions, reg.Fits m c
  size_pos : 0 < config.image.size.toNat

/-- After `vm_init_mem_regions` the guest reads the loaded image, whatever memory there was. -/
def ReadsImage (t : PtEntries) (pools : List PagePool) : Prop :=
  ∀ mem s, config.vmInitMemRegions m c colors rounds ⟨t, pools, mem⟩ = some s →
    ∀ k < config.image.size.toNat, ∃ a,
      (m.addrSpace s.tables).translate (config.imageAddr k) = some a ∧
        s.mem a = mem (config.image.loadAddr + BitVec.ofNat 64 k)

end VmConfig

/-! ## The mapping of a region -/

variable {m : Mmu} {c : Coloring} {colors : ColorMap} {rounds : ℕ} {t t' : PtEntries}
  {pools pools' : List PagePool} {reg : VmMemRegion}

theorem targetVa_of_lt {va : Addr} (h : va.toNat + 1 < 2 ^ 64) : targetVa va = some va.toNat := by
  rw [targetVa, if_neg]
  rintro rfl
  exact absurd h (by decide)

namespace Mmu

theorem pageSize_dvd_span (m : Mmu) : pageSize ∣ m.dscr.shape.span :=
  (PtDscr.pageSize_dvd_ptLvlsize m.dscr.lvls_pos).trans (Radix.Shape.size_dvd_span m.dscr.lvls_pos)

theorem numPages_mul_le {size : SizeT} (hword : size.toNat + (pageSize - 1) < 2 ^ 64)
    (hspan : size.toNat ≤ m.dscr.shape.span) :
    (numPages size).toNat * pageSize ≤ m.dscr.shape.span := by
  obtain ⟨q, hq⟩ := m.pageSize_dvd_span
  rw [toNat_numPages hword, hq]
  rw [hq] at hspan
  unfold pageSize at *
  omega

end Mmu

namespace VmMemRegion.Fits

variable (h : reg.Fits m c)

include h

theorem word : reg.size.toNat + (pageSize - 1) < 2 ^ 64 := by
  have hextent := h.extent
  unfold pageSize at *
  omega

theorem pageNum_mul_le : reg.pageNum * pageSize ≤ m.dscr.shape.span :=
  Mmu.numPages_mul_le h.word h.span

theorem size_le : reg.size.toNat ≤ reg.pageNum * pageSize := by
  rw [pageNum, toNat_numPages h.word]
  unfold pageSize
  omega

theorem targetVa_base : targetVa reg.base = some reg.base.toNat := by
  have hextent := h.extent
  refine targetVa_of_lt ?_
  unfold pageSize at hextent
  omega

theorem colors_ppages : ∀ p, reg.ppages = some p → c.allClrs p.colors = true := by
  intro p hp
  rw [ppages] at hp
  split_ifs at hp
  rw [← Option.some.inj hp]
  exact h.colors

end VmMemRegion.Fits

namespace Mmu

/-- A region whose mapping returns had nothing mapped, and is backed now. -/
theorem vmMapMemRegion_backs (hfits : reg.Fits m c) (hsec : m.sections = [⟨0, maxVa⟩])
    (hclosed : m.Closed t) (hmark : m.Unmarked t) (hclr : c.allClrs colors = true)
    (h : m.vmMapMemRegion c colors rounds t pools reg = some (t', pools')) :
    (∀ x < reg.pageNum * pageSize, m.leafAt t (reg.base.toNat + x) = none) ∧
      m.Backs t t' reg.base.toNat reg.pageNum ∧
      (reg.placePhys = true → m.ShowsFrom t' reg.base.toNat reg.phys reg.pageNum) := by
  rw [vmMapMemRegion, hfits.targetVa_base] at h
  obtain ⟨⟨t₁, pools₁, va⟩, hmap, h⟩ := Option.bind_eq_some_iff.mp h
  dsimp only at h
  split_ifs at h with hva
  cases h
  obtain ⟨hfree, hbacks, hshows⟩ := memAllocMap_backs hsec hclosed hmark m.fmt.vmFlags_ok
    hfits.pageNum_mul_le hclr hfits.colors_ppages (fun _ => by rw [hva, Option.isSome_some]) hmap
  refine ⟨hfree, hbacks, fun hphys => ?_⟩
  have hpages := hshows { memPpagesGet reg.phys (numPages reg.size) with colors := reg.colors }
    (by rw [VmMemRegion.ppages, if_pos hphys])
  exact hpages

theorem keeps_vmMapMemRegion (hfits : reg.Fits m c) (hsec : m.sections = [⟨0, maxVa⟩])
    (hclosed : m.Closed t) (hmark : m.Unmarked t) (hclr : c.allClrs colors = true)
    (h : m.vmMapMemRegion c colors rounds t pools reg = some (t', pools')) : m.Keeps t t' := by
  obtain ⟨hfree, hbacks, -⟩ := vmMapMemRegion_backs hfits hsec hclosed hmark hclr h
  exact hbacks.keeps hclosed hfree

end Mmu

namespace VmConfig

variable {config : VmConfig}

theorem bounds_of_imgIsInRgn (hfits : reg.Fits m c) (h : config.imgIsInRgn reg = true) :
    reg.base.toNat ≤ config.image.baseAddr.toNat ∧
      config.image.baseAddr.toNat + config.image.size.toNat ≤
        reg.base.toNat + reg.size.toNat := by
  obtain ⟨hlow, hhigh⟩ := (rangeInRange_iff _ _ _ _).mp h
  have hextent := hfits.extent
  unfold pageSize at hextent
  omega

/-- The three calls for an image that is mapped in place, and the pages that they are for. -/
structure InplaceCalls (config : VmConfig) (reg : VmMemRegion) (m : Mmu) (c : Coloring)
    (colors : ColorMap) (rounds : ℕ) (t : PtEntries) (pools : List PagePool) (r : InplaceMaps)
    (t₁ t₂ : PtEntries) (pools₁ pools₂ : List PagePool) : Prop where
  before : m.memAllocMap c colors rounds t pools 0 none (some reg.base.toNat)
    (config.nBefore reg).toNat m.fmt.vmFlags = some (t₁, pools₁, r.before)
  img : m.memAllocMap c colors rounds t₁ pools₁ 0
    (some (memPpagesGet config.image.loadAddr config.nImg)) (some config.image.baseAddr.toNat)
    config.nImg.toNat m.fmt.vmFlags = some (t₂, pools₂, r.img)
  aft : m.memAllocMap c colors rounds t₂ pools₂ 0 none
    (some (config.image.baseAddr.toNat + config.nImg.toNat * pageSize))
    (config.nAft reg).toNat m.fmt.vmFlags = some (r.tables, r.pools, r.aft)

/-- The pages of the three calls are not more than those of the region. -/
theorem inplacePages_le (hfits : reg.Fits m c) (hin : config.imgIsInRgn reg = true) :
    ((config.nBefore reg).toNat ≤ reg.pageNum ∧ config.nImg.toNat ≤ reg.pageNum ∧
      (config.nAft reg).toNat ≤ reg.pageNum) ∧
    (config.nBefore reg).toNat =
        (config.image.baseAddr.toNat - reg.base.toNat + (pageSize - 1)) / pageSize ∧
      config.nImg.toNat = (config.image.size.toNat + (pageSize - 1)) / pageSize := by
  obtain ⟨hlow, hhigh⟩ := bounds_of_imgIsInRgn hfits hin
  have hextent : reg.base.toNat + reg.size.toNat + pageSize < 2 ^ 64 := hfits.extent
  have hbefore : (config.image.baseAddr - reg.base).toNat =
      config.image.baseAddr.toNat - reg.base.toNat := BitVec.toNat_sub_of_le hlow
  have haft := toNat_after hhigh (by omega)
  unfold pageSize at hextent
  rw [nBefore, nImg, nAft, VmMemRegion.pageNum, toNat_numPages hfits.word,
    toNat_numPages (by rw [hbefore]; unfold pageSize; omega), hbefore,
    toNat_numPages (by unfold pageSize; omega),
    toNat_numPages (by rw [haft]; unfold pageSize; omega), haft]
  unfold pageSize
  omega

theorem inplaceCalls_of_vmMapImgRgnInplace {r : InplaceMaps} (hfits : reg.Fits m c)
    (hin : config.imgIsInRgn reg = true)
    (h : config.vmMapImgRgnInplace reg m c colors rounds t pools = some r) :
    ∃ t₁ t₂ pools₁ pools₂,
      config.InplaceCalls reg m c colors rounds t pools r t₁ t₂ pools₁ pools₂ := by
  obtain ⟨hlow, hhigh⟩ := bounds_of_imgIsInRgn hfits hin
  obtain ⟨-, -, hnImg⟩ := inplacePages_le hfits hin
  have hextent : reg.base.toNat + reg.size.toNat + pageSize < 2 ^ 64 := hfits.extent
  have hbytes : (pageBytes config.nImg).toNat = config.nImg.toNat * pageSize :=
    toNat_pageBytes (by rw [hnImg]; unfold pageSize at *; omega)
  have htarget : (config.image.baseAddr + pageBytes config.nImg).toNat =
      config.image.baseAddr.toNat + config.nImg.toNat * pageSize := by
    rw [BitVec.toNat_add, hbytes, hnImg]
    unfold pageSize at *
    omega
  unfold pageSize at hextent
  rw [vmMapImgRgnInplace] at h
  dsimp only at h
  rw [targetVa_of_lt (by omega), targetVa_of_lt (by omega), targetVa_of_lt (by
    rw [htarget, hnImg]
    unfold pageSize
    omega), htarget] at h
  obtain ⟨⟨t₁, pools₁, before⟩, h₁, h⟩ := Option.bind_eq_some_iff.mp h
  obtain ⟨⟨t₂, pools₂, img⟩, h₂, h⟩ := Option.bind_eq_some_iff.mp h
  obtain ⟨⟨t₃, pools₃, aft⟩, h₃, heq⟩ := Option.map_eq_some_iff.mp h
  cases heq
  exact ⟨t₁, t₂, pools₁, pools₂, h₁, h₂, h₃⟩

/-- Whether the calls for an image that is mapped in place return addresses or not, what is mapped
stays mapped. -/
theorem InplaceCalls.keeps {r : InplaceMaps} {t₁ t₂ : PtEntries} {pools₁ pools₂ : List PagePool}
    (h : config.InplaceCalls reg m c colors rounds t pools r t₁ t₂ pools₁ pools₂)
    (hfits : reg.Fits m c) (hin : config.imgIsInRgn reg = true)
    (hsec : m.sections = [⟨0, maxVa⟩]) (hclosed : m.Closed t) (hmark : m.Unmarked t)
    (hclr : c.allClrs colors = true) :
    m.Keeps t t₁ ∧ m.Keeps t₁ t₂ ∧ m.Keeps t₂ r.tables := by
  obtain ⟨⟨hbefore, himg, haft⟩, -⟩ := inplacePages_le hfits hin
  have hroom : ∀ {n : ℕ}, n ≤ reg.pageNum → n * pageSize ≤ m.dscr.shape.span := fun hle =>
    (Nat.mul_le_mul_right _ hle).trans hfits.pageNum_mul_le
  have hnone : ∀ p : PPages, none = some p → c.allClrs p.colors = true := fun p hp => by cases hp
  have hk₁ := Mmu.keeps_memAllocMap hsec hclosed hmark m.fmt.vmFlags_ok (hroom hbefore) hclr hnone
    h.before
  have hk₂ := Mmu.keeps_memAllocMap hsec hk₁.closed hk₁.unmarked m.fmt.vmFlags_ok (hroom himg) hclr
    (fun p hp => by rw [← Option.some.inj hp]; exact c.allClrs_zero) h.img
  exact ⟨hk₁, hk₂, Mmu.keeps_memAllocMap hsec hk₂.closed hk₂.unmarked m.fmt.vmFlags_ok (hroom haft)
    hclr hnone h.aft⟩

theorem keeps_vmMapImgRgnInplace {r : InplaceMaps} (hfits : reg.Fits m c)
    (hin : config.imgIsInRgn reg = true) (hsec : m.sections = [⟨0, maxVa⟩])
    (hclosed : m.Closed t) (hmark : m.Unmarked t) (hclr : c.allClrs colors = true)
    (h : config.vmMapImgRgnInplace reg m c colors rounds t pools = some r) :
    m.Keeps t r.tables := by
  obtain ⟨t₁, t₂, pools₁, pools₂, hcalls⟩ := inplaceCalls_of_vmMapImgRgnInplace hfits hin h
  obtain ⟨hk₁, hk₂, hk₃⟩ := hcalls.keeps hfits hin hsec hclosed hmark hclr
  exact (hk₁.trans hk₂).trans hk₃

/-! ## Rounds of the loop -/

def IsCopied (config : VmConfig) (reg : VmMemRegion) : Prop :=
  config.imgIsInRgn reg = true ∧ ¬ config.IsInplace reg

variable {s s' : VmMem} {regs : List VmMemRegion} (hfit : config.RegionsFit m c colors)

include hfit

theorem keeps_vmInitMemRegion (hreg : reg ∈ config.regions) (hclosed : m.Closed s.tables)
    (hmark : m.Unmarked s.tables)
    (h : config.vmInitMemRegion m c colors rounds s reg = some s') :
    m.Keeps s.tables s'.tables := by
  have hfits := hfit.region reg hreg
  rw [vmInitMemRegion] at h
  split_ifs at h with hin hinplace
  · obtain ⟨r, hr, heq⟩ := Option.map_eq_some_iff.mp h
    cases heq
    exact keeps_vmMapImgRgnInplace hfits hin hfit.sections hclosed hmark hfit.colors hr
  · obtain ⟨⟨t', pools'⟩, hmap, h⟩ := Option.bind_eq_some_iff.mp h
    obtain ⟨mem, -, heq⟩ := Option.map_eq_some_iff.mp h
    cases heq
    exact Mmu.keeps_vmMapMemRegion hfits hfit.sections hclosed hmark hfit.colors hmap
  · obtain ⟨⟨t', pools'⟩, hmap, heq⟩ := Option.map_eq_some_iff.mp h
    cases heq
    exact Mmu.keeps_vmMapMemRegion hfits hfit.sections hclosed hmark hfit.colors hmap

/-- Where the image is not copied, a round does the same for every memory. It is not copied where
it was mapped before, because its pages are not free. -/
theorem vmInitMemRegion_mem (hreg : reg ∈ config.regions) (hclosed : m.Closed s.tables)
    (hmark : m.Unmarked s.tables)
    (h : ¬ config.IsCopied reg ∨ (m.leafAt s.tables config.image.baseAddr.toNat).isSome = true)
    (mem : PhysMem) :
    config.vmInitMemRegion m c colors rounds { s with mem := mem } reg =
      (config.vmInitMemRegion m c colors rounds s reg).map fun s' => { s' with mem := mem } := by
  rw [vmInitMemRegion, vmInitMemRegion]
  split_ifs with hin hinplace
  · rw [Option.map_map]
    rfl
  · have hnone : m.vmMapMemRegion c colors rounds s.tables s.pools reg = none := by
      rw [Option.eq_none_iff_forall_ne_some]
      rintro ⟨t', pools'⟩ hmap
      have hfits := hfit.region reg hreg
      obtain ⟨hfree, -, -⟩ :=
        Mmu.vmMapMemRegion_backs hfits hfit.sections hclosed hmark hfit.colors hmap
      obtain ⟨hlow, hhigh⟩ := bounds_of_imgIsInRgn hfits hin
      have hpages := hfits.size_le
      have hsize := hfit.size_pos
      have hbase := hfree (config.image.baseAddr.toNat - reg.base.toNat) (by omega)
      rw [Nat.add_sub_cancel' hlow] at hbase
      rcases h with hcopied | hmapped
      · exact hcopied ⟨hin, hinplace⟩
      · rw [hbase] at hmapped
        cases hmapped
    dsimp only
    rw [hnone, Option.bind_none, Option.bind_none, Option.map_none]
  · rw [Option.map_map]
    rfl

theorem keeps_foldlM (hregs : ∀ reg ∈ regs, reg ∈ config.regions) (hclosed : m.Closed s.tables)
    (hmark : m.Unmarked s.tables)
    (h : regs.foldlM (config.vmInitMemRegion m c colors rounds) s = some s') :
    m.Keeps s.tables s'.tables := by
  induction regs generalizing s with
  | nil =>
      cases h
      exact ⟨hclosed, hmark, fun _ _ => id⟩
  | cons reg regs ih =>
      rw [List.forall_mem_cons] at hregs
      rw [List.foldlM_cons] at h
      obtain ⟨s₁, hstep, h⟩ := Option.bind_eq_some_iff.mp h
      have hkeeps := keeps_vmInitMemRegion hfit hregs.1 hclosed hmark hstep
      exact hkeeps.trans (ih hregs.2 hkeeps.closed hkeeps.unmarked h)

variable (rounds) in
/-- Rounds in which the image is not copied do the same for every memory. -/
theorem foldlM_mem (hregs : ∀ reg ∈ regs, reg ∈ config.regions) (hclosed : m.Closed s.tables)
    (hmark : m.Unmarked s.tables)
    (h : (∀ reg ∈ regs, ¬ config.IsCopied reg) ∨
      (m.leafAt s.tables config.image.baseAddr.toNat).isSome = true) (mem : PhysMem) :
    regs.foldlM (config.vmInitMemRegion m c colors rounds) { s with mem := mem } =
      (regs.foldlM (config.vmInitMemRegion m c colors rounds) s).map
        fun s' => { s' with mem := mem } := by
  induction regs generalizing s with
  | nil => rfl
  | cons reg regs ih =>
      rw [List.forall_mem_cons] at hregs
      rw [List.foldlM_cons, List.foldlM_cons, vmInitMemRegion_mem hfit hregs.1 hclosed hmark
        (h.imp_left fun hcopied => hcopied reg List.mem_cons_self)]
      cases hstep : config.vmInitMemRegion m c colors rounds s reg with
      | none => rfl
      | some s₁ =>
          have hkeeps := keeps_vmInitMemRegion hfit hregs.1 hclosed hmark hstep
          refine ih hregs.2 hkeeps.closed hkeeps.unmarked (h.imp (fun hcopied reg' hreg' =>
            hcopied reg' (List.mem_cons_of_mem _ hreg')) fun hmapped => ?_)
          obtain ⟨e, he⟩ := Option.isSome_iff_exists.mp hmapped
          rw [hkeeps.leafAt _ e he, Option.isSome_some]

end VmConfig

/-! ## The region of the image -/

/-- The tables back a region, by its own pages if these are given. -/
structure RegionBacked (m : Mmu) (t : PtEntries) (reg : VmMemRegion) : Prop where
  closed : m.Closed t
  backed : ∀ x < reg.pageNum * pageSize, (m.leafAt t (reg.base.toNat + x)).isSome = true
  page : ∀ x < reg.pageNum * pageSize, ∀ e, m.leafAt t (reg.base.toNat + x) = some e →
    pageSize ∣ (m.fmt.pteAddr e.2).toNat
  shows : reg.placePhys = true → m.ShowsFrom t reg.base.toNat reg.phys reg.pageNum

theorem RegionBacked.keeps (h : RegionBacked m t reg) (hkeeps : m.Keeps t t') :
    RegionBacked m t' reg := by
  have hleaf : ∀ x < reg.pageNum * pageSize,
      m.leafAt t' (reg.base.toNat + x) = m.leafAt t (reg.base.toNat + x) := fun x hx =>
    hkeeps.leafAt_eq (h.backed x hx)
  refine ⟨hkeeps.closed, fun x hx => ?_, fun x hx e he => ?_,
    fun hphys => (h.shows hphys).keeps hkeeps⟩
  · rw [hleaf x hx]
    exact h.backed x hx
  · rw [hleaf x hx] at he
    exact h.page x hx e he

namespace Mmu

theorem pageWise_addrSpace (hclosed : m.Closed t) : (m.addrSpace t).PageWise :=
  fun _ hva _ ho => translate_add_offset hclosed hva ho

/-- Only from a page boundary on can pages be copied. -/
theorem dvd_of_memMapCpy (hclosed : m.Closed t) {va : Addr} {n : ℕ} {pages : List Addr}
    (hpage : ∀ e, m.leafAt t va.toNat = some e → pageSize ∣ (m.fmt.pteAddr e.2).toNat)
    (hn : n ≠ 0) (h : BaoHypervisor.memMapCpy (m.addrSpace t) va n = some pages) :
    pageSize ∣ va.toNat := by
  obtain ⟨n, rfl⟩ := Nat.exists_eq_succ_of_ne_zero hn
  rw [BaoHypervisor.memMapCpy, BaoHypervisor.memMapCpyLoop, if_neg hn] at h
  obtain ⟨leaf, hleaf, h⟩ := Option.bind_eq_some_iff.mp h
  obtain ⟨first, hfirst, -⟩ := Option.bind_eq_some_iff.mp h
  rw [BaoHypervisor.memMap] at hfirst
  split_ifs at hfirst with haligned
  have htrans : (m.addrSpace t).translate va = some (AddrSpace.physAddr leaf va) := by
    rw [AddrSpace.translate, hleaf, Option.map_some]
  rw [translate_addrSpace hclosed] at htrans
  obtain ⟨e, he, haddr⟩ := Option.map_eq_some_iff.mp htrans
  have hlvl : e.1 < m.dscr.lvls := by
    rw [← (leafAt_eq_some_iff.mp he).1]
    exact look_fst_lt hclosed _
  obtain ⟨p, hp⟩ := hpage e he
  rw [← haddr, BitVec.toNat_add, BitVec.toNat_ofNat, hp,
    Nat.mod_eq_of_lt ((Nat.mod_le _ _).trans_lt va.isLt),
    Nat.mod_mod_of_dvd _ (show pageSize ∣ 2 ^ 64 by decide), Nat.mul_add_mod,
    Nat.mod_mod_of_dvd _ (PtDscr.pageSize_dvd_ptLvlsize hlvl)] at haligned
  exact Nat.dvd_of_mod_eq_zero haligned

end Mmu

namespace VmConfig

variable {config : VmConfig} {s : VmMem} {mem : PhysMem} (hfit : config.RegionsFit m c colors)

theorem toNat_imageAddr (hfits : reg.Fits m c) (hin : config.imgIsInRgn reg = true) {k : ℕ}
    (hk : k < config.image.size.toNat) :
    (config.imageAddr k).toNat =
        reg.base.toNat + (config.image.baseAddr.toNat - reg.base.toNat + k) ∧
      config.image.baseAddr.toNat - reg.base.toNat + k < reg.pageNum * pageSize := by
  obtain ⟨hlow, hhigh⟩ := bounds_of_imgIsInRgn hfits hin
  have hextent := hfits.extent
  have hpages := hfits.size_le
  have hsize := config.image.size.isLt
  rw [imageAddr, BitVec.toNat_add, BitVec.toNat_ofNat, Nat.mod_eq_of_lt (hk.trans hsize),
    Nat.mod_eq_of_lt (by omega)]
  omega

theorem imgNumPages_fits (hfits : reg.Fits m c) (hin : config.imgIsInRgn reg = true) :
    config.image.size.toNat + (pageSize - 1) < 2 ^ 64 := by
  obtain ⟨hlow, hhigh⟩ := bounds_of_imgIsInRgn hfits hin
  have hextent := hfits.extent
  unfold pageSize at *
  omega

theorem isSome_translate_imageAddr (hfits : reg.Fits m c) (hin : config.imgIsInRgn reg = true)
    (h : RegionBacked m t reg) {k : ℕ} (hk : k < config.image.size.toNat) :
    ((m.addrSpace t).translate (config.imageAddr k)).isSome = true := by
  obtain ⟨haddr, hlt⟩ := toNat_imageAddr hfits hin hk
  rw [Mmu.isSome_translate h.closed, haddr]
  exact h.backed _ hlt

theorem backedFrom_of_placePhys (hfits : reg.Fits m c) (hin : config.imgIsInRgn reg = true)
    (h : RegionBacked m t reg) (hphys : reg.placePhys = true)
    (hroom : reg.phys.toNat + reg.pageNum * pageSize ≤ 2 ^ m.fmt.addrWidth) :
    config.BackedFrom (m.addrSpace t) (reg.phys + (config.image.baseAddr - reg.base)) := by
  intro k hk
  obtain ⟨haddr, hlt⟩ := toNat_imageAddr hfits hin hk
  have hoff : config.image.baseAddr - reg.base =
      BitVec.ofNat 64 (config.image.baseAddr.toNat - reg.base.toNat) := by
    rw [← BitVec.toNat_sub_of_le (bounds_of_imgIsInRgn hfits hin).1, BitVec.ofNat_toNat,
      BitVec.setWidth_eq]
  rw [Mmu.translate_eq_memTranslate h.closed, haddr,
    (h.shows hphys).translate_of_le hroom hlt, hoff, BitVec.add_assoc, ← BitVec.ofNat_add]
  intro e he
  rw [haddr] at he
  exact (h.shows hphys).aligned _ hlt e he

theorem vmInstallImage_congr {as as' : AddrSpace}
    (h : ∀ i < config.imgNumPages, as (pageAddr config.image.baseAddr i) =
      as' (pageAddr config.image.baseAddr i)) (mem : PhysMem) :
    config.vmInstallImage as reg mem = config.vmInstallImage as' reg mem := by
  rw [vmInstallImage, vmInstallImage, memMapCpy, memMapCpy, memMapCpyLoop_congr h]

variable (m c colors rounds) in
theorem vmInitMemRegion_of_copied (h : config.IsCopied reg) (s : VmMem) (mem : PhysMem) :
    config.vmInitMemRegion m c colors rounds { s with mem := mem } reg =
      (m.vmMapMemRegion c colors rounds s.tables s.pools reg).bind fun (t', pools') =>
        (config.vmInstallImage (m.addrSpace t') reg mem).map fun mem' => ⟨t', pools', mem'⟩ := by
  rw [vmInitMemRegion, if_pos h.1, if_neg h.2]

theorem addrSpace_pageAddr_of_keeps (hfits : reg.Fits m c) (hin : config.imgIsInRgn reg = true)
    (h : RegionBacked m t reg) (hkeeps : m.Keeps t t') {i : ℕ} (hi : i < config.imgNumPages) :
    m.addrSpace t (pageAddr config.image.baseAddr i) =
      m.addrSpace t' (pageAddr config.image.baseAddr i) := by
  rw [imgNumPages_eq (imgNumPages_fits hfits hin)] at hi
  obtain ⟨haddr, hlt⟩ := toNat_imageAddr hfits hin (k := i * pageSize) (by
    unfold pageSize at *
    omega)
  obtain ⟨e, he⟩ := Option.isSome_iff_exists.mp (h.backed _ hlt)
  rw [← haddr] at he
  have he' := hkeeps.leafAt _ e he
  change m.leafAt t (pageAddr config.image.baseAddr i).toNat = some e at he
  change m.leafAt t' (pageAddr config.image.baseAddr i).toNat = some e at he'
  rw [Mmu.addrSpace, Mmu.addrSpace, he, he']

/-- A call that returns leaves the region of a copied image backed, and does to any memory what the
installation does. -/
theorem vmInitMemRegions_of_copied (hfit : config.RegionsFit m c colors) (hclosed : m.Closed t)
    (hmark : m.Unmarked t) (hreg : config.imageRegion = some reg)
    (hcopied : ¬ config.IsInplace reg)
    (h : config.vmInitMemRegions m c colors rounds ⟨t, pools, mem⟩ = some s) :
    RegionBacked m s.tables reg ∧ ∀ mem',
      config.vmInitMemRegions m c colors rounds ⟨t, pools, mem'⟩ =
        (config.vmInstallImage (m.addrSpace s.tables) reg mem').map
          fun mem'' => { s with mem := mem'' } := by
  obtain ⟨hin, pre, post, hregions, hbefore⟩ := List.find?_eq_some_iff_append.mp hreg
  have hmem : ∀ reg' ∈ pre ++ reg :: post, reg' ∈ config.regions := fun _ h => hregions ▸ h
  rw [List.forall_mem_append, List.forall_mem_cons] at hmem
  obtain ⟨hpre, hself, hpost⟩ := hmem
  have hfits := hfit.region reg hself
  have hround := vmInitMemRegion_of_copied m c colors rounds ⟨hin, hcopied⟩
  have hsplit : ∀ mem', config.vmInitMemRegions m c colors rounds ⟨t, pools, mem'⟩ =
      (pre.foldlM (config.vmInitMemRegion m c colors rounds) ⟨t, pools, mem'⟩).bind fun s =>
        (config.vmInitMemRegion m c colors rounds s reg).bind fun s =>
          post.foldlM (config.vmInitMemRegion m c colors rounds) s := by
    intro mem'
    rw [vmInitMemRegions, hregions, List.foldlM_append]
    rfl
  rw [hsplit] at h
  obtain ⟨s₀, h₀, h⟩ := Option.bind_eq_some_iff.mp h
  obtain ⟨s₁, h₁, h₂⟩ := Option.bind_eq_some_iff.mp h
  have hkeeps₀ := keeps_foldlM hfit hpre hclosed hmark h₀
  rw [hround s₀ s₀.mem] at h₁
  obtain ⟨⟨t₁, pools₁⟩, hmap, hinst⟩ := Option.bind_eq_some_iff.mp h₁
  obtain ⟨mem₁, -, rfl⟩ := Option.map_eq_some_iff.mp hinst
  obtain ⟨-, hbacks, hshows⟩ := Mmu.vmMapMemRegion_backs hfits hfit.sections hkeeps₀.closed
    hkeeps₀.unmarked hfit.colors hmap
  have hback : RegionBacked m t₁ reg := ⟨hbacks.closed, hbacks.backed, hbacks.page, hshows⟩
  have hkeeps := keeps_foldlM hfit hpost hbacks.closed hbacks.unmarked h₂
  refine ⟨hback.keeps hkeeps, fun mem' => ?_⟩
  -- the regions before do not have the image, and for those behind it is mapped
  have hbefore' : ∀ reg' ∈ pre, ¬ config.IsCopied reg' := by
    intro reg' hreg' himage
    have hnot := hbefore reg' hreg'
    rw [Bool.not_eq_true'] at hnot
    exact absurd himage.1 (by rw [imgIsInRgn, hnot]; exact Bool.false_ne_true)
  have hmapped : (m.leafAt t₁ config.image.baseAddr.toNat).isSome = true := by
    obtain ⟨haddr, hlt⟩ := toNat_imageAddr hfits hin hfit.size_pos
    rw [imageAddr, BitVec.add_zero] at haddr
    rw [haddr]
    exact hbacks.backed _ hlt
  have hprefix := foldlM_mem rounds (s := ⟨t, pools, mem⟩) hfit hpre hclosed hmark
    (.inl hbefore') mem'
  rw [h₀, Option.map_some] at hprefix
  rw [hsplit, hprefix, Option.bind_some, hround, hmap, Option.bind_some,
    ← vmInstallImage_congr fun i hi => addrSpace_pageAddr_of_keeps hfits hin hback hkeeps hi]
  dsimp only
  cases config.vmInstallImage (m.addrSpace t₁) reg mem' with
  | none => rfl
  | some mem'' =>
      have hsuffix := foldlM_mem rounds (s := ⟨t₁, pools₁, mem₁⟩) hfit hpost hbacks.closed
        hbacks.unmarked (.inr hmapped) mem''
      rw [h₂, Option.map_some] at hsuffix
      exact hsuffix

theorem vmInitMemRegions_of_inplace (hfit : config.RegionsFit m c colors) (hclosed : m.Closed t)
    (hmark : m.Unmarked t) (hcopied : ∀ reg ∈ config.regions, ¬ config.IsCopied reg)
    (h : config.vmInitMemRegions m c colors rounds ⟨t, pools, mem⟩ = some s) (mem' : PhysMem) :
    config.vmInitMemRegions m c colors rounds ⟨t, pools, mem'⟩ =
      some { s with mem := mem' } := by
  have hall := foldlM_mem rounds (s := ⟨t, pools, mem⟩) hfit (fun _ => id) hclosed hmark
    (.inl hcopied) mem'
  rw [vmInitMemRegions] at h ⊢
  rw [hall, h, Option.map_some]

theorem readsImage_iff_installs {as : AddrSpace} (has : as = m.addrSpace s.tables)
    (h : ∀ mem', config.vmInitMemRegions m c colors rounds ⟨t, pools, mem'⟩ =
      (config.vmInstallImage as reg mem').map fun mem'' => { s with mem := mem'' }) :
    config.ReadsImage m c colors rounds t pools ↔ config.Installs as reg := by
  refine forall_congr' fun mem => ⟨fun hreads mem' hmem => ?_, fun hreads s' hs' => ?_⟩
  · have hread := hreads { s with mem := mem' } (by rw [h, hmem, Option.map_some])
    rw [← has] at hread
    exact hread
  · rw [h] at hs'
    obtain ⟨mem', hmem, rfl⟩ := Option.map_eq_some_iff.mp hs'
    rw [← has]
    exact hreads mem' hmem

/-- An image that was copied in its region reads back iff its memory has no byte twice and the pages
of each step of the copy follow each other. -/
theorem installs_iff_of_backed (hfit : config.RegionsFit m c colors) (hfits : reg.Fits m c)
    (hin : config.imgIsInRgn reg = true) (h : RegionBacked m t reg)
    (hinstalled : ¬ config.Installed reg) (hapart : config.LoadApart (m.addrSpace t))
    {mem' : PhysMem} (hret : config.vmInstallImage (m.addrSpace t) reg mem = some mem') :
    (config.Installs (m.addrSpace t) reg ↔ config.DistinctBytes (m.addrSpace t) ∧
        (m.addrSpace t).CpyFollows config.imgNumPages config.image.baseAddr config.imgNumPages) ∧
      pageSize ∣ config.image.baseAddr.toNat ∧
      ∃ pages, memMapCpy (m.addrSpace t) config.image.baseAddr config.imgNumPages = some pages := by
  have hword := imgNumPages_fits hfits hin
  have hsize := hfit.size_pos
  rcases vmInstallImage_cases config _ reg hret with ⟨hskip, -⟩ | ⟨-, -, -, dstPages, -, hdst, -⟩
  · exact absurd hskip hinstalled
  have hpages : config.imgNumPages ≠ 0 := by
    rw [imgNumPages_eq hword]
    unfold pageSize
    omega
  have hbase : pageSize ∣ config.image.baseAddr.toNat := by
    obtain ⟨haddr, hlt⟩ := toNat_imageAddr hfits hin hsize
    rw [imageAddr, BitVec.add_zero] at haddr
    refine Mmu.dvd_of_memMapCpy h.closed (fun e he => ?_) hpages hdst
    rw [haddr] at he
    exact h.page _ hlt e he
  exact ⟨installs_iff_of_copied (Mmu.pageWise_addrSpace h.closed) hbase hword
    (fun k hk => isSome_translate_imageAddr hfits hin h hk) hinstalled hapart hret, hbase, dstPages,
    hdst⟩

end VmConfig

end BaoHypervisor
