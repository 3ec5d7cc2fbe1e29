import BaoHypervisor.Core.Config
import BaoHypervisor.Core.Mem.PageTable.MapPages

/-!
# Images that stay where they are

`vm_map_img_rgn_inplace` covers a region with three mappings: the pages before an image, the image
where it was loaded, and the pages after it. The pages after it are counted from its last byte, but
mapped from its last page on. So behind an image that does not fill its last page, they go one page
over the end of the region.
-/

namespace BaoHypervisor

/-- An address as a target of `mem_alloc_vpage`: `INVALID_VA` is none. -/
def targetVa (va : Addr) : Option ℕ := if va = BitVec.allOnes 64 then none else some va.toNat

/-- The tables and pools after a call of `vm_map_img_rgn_inplace`, with the addresses that its
three calls of `mem_alloc_map` return. -/
structure InplaceMaps where
  tables : PtEntries
  pools : List PagePool
  before : Option ℕ
  img : Option ℕ
  aft : Option ℕ

namespace VmConfig

variable (config : VmConfig) (reg : VmMemRegion)

def nBefore : SizeT := numPages (config.image.baseAddr - reg.base)

def nAft : SizeT :=
  numPages ((reg.base + reg.size) - (config.image.baseAddr + config.image.size))

def nImg : SizeT := numPages config.image.size

/-- `vm_map_img_rgn_inplace`, for a VM without colours. -/
def vmMapImgRgnInplace (m : Mmu) (c : Coloring) (colors : ColorMap) (rounds : ℕ)
    (t : PtEntries) (pools : List PagePool) : Option InplaceMaps :=
  let imgBase := config.image.baseAddr
  let paImg := memPpagesGet config.image.loadAddr config.nImg
  (m.memAllocMap c colors rounds t pools 0 none (targetVa reg.base) (config.nBefore reg).toNat
    m.fmt.vmFlags).bind fun (t₁, pools₁, before) =>
  (m.memAllocMap c colors rounds t₁ pools₁ 0 (some paImg) (targetVa imgBase) config.nImg.toNat
    m.fmt.vmFlags).bind fun (t₂, pools₂, img) =>
  (m.memAllocMap c colors rounds t₂ pools₂ 0 none (targetVa (imgBase + pageBytes config.nImg))
    (config.nAft reg).toNat m.fmt.vmFlags).map fun (t₃, pools₃, aft) =>
      ⟨t₃, pools₃, before, img, aft⟩

/-- Each call for some pages has returned an address. -/
structure InplaceMapped (r : InplaceMaps) : Prop where
  before : (config.nBefore reg).toNat ≠ 0 → r.before.isSome = true
  img : config.nImg.toNat ≠ 0 → r.img.isSome = true
  aft : (config.nAft reg).toNat ≠ 0 → r.aft.isSome = true

/-- The image is in the region. Both start a page, and the region ends with one. -/
structure InplaceImage : Prop where
  base_aligned : pageSize ∣ reg.base.toNat
  size_aligned : pageSize ∣ reg.size.toNat
  img_aligned : pageSize ∣ config.image.baseAddr.toNat
  size_pos : 0 < config.image.size.toNat
  low : reg.base.toNat ≤ config.image.baseAddr.toNat
  high : config.image.baseAddr.toNat + config.image.size.toNat ≤ reg.base.toNat + reg.size.toNat
  extent : reg.base.toNat + reg.size.toNat < 2 ^ 64

/-- The pages of the region are mapped, those of the image to where it was loaded, and all other
addresses translate as before. -/
structure InplaceExact (m : Mmu) (t t' : PtEntries) : Prop where
  region : ∀ x < reg.size.toNat, (m.memTranslate t' (reg.base.toNat + x)).isSome = true
  image : ∀ x < config.nImg.toNat * pageSize,
    m.memTranslate t' (config.image.baseAddr.toNat + x) =
      some (config.image.loadAddr + BitVec.ofNat 64 x)
  frame : ∀ a, (∀ x < reg.size.toNat,
      a % m.dscr.shape.span ≠ (reg.base.toNat + x) % m.dscr.shape.span) →
    m.memTranslate t' a = m.memTranslate t a

variable {config reg}

/-! ## The pages of the three mappings -/

theorem targetVa_of_aligned {va : Addr} (h : pageSize ∣ va.toNat) :
    targetVa va = some va.toNat := by
  rw [targetVa, if_neg]
  rintro rfl
  exact absurd h (by decide)

theorem toNat_after (hhigh : config.image.baseAddr.toNat + config.image.size.toNat ≤
      reg.base.toNat + reg.size.toNat) (hext : reg.base.toNat + reg.size.toNat < 2 ^ 64) :
    ((reg.base + reg.size) - (config.image.baseAddr + config.image.size)).toNat =
      reg.base.toNat + reg.size.toNat -
        (config.image.baseAddr.toNat + config.image.size.toNat) := by
  have hregion : (reg.base + reg.size).toNat = reg.base.toNat + reg.size.toNat := by
    rw [BitVec.toNat_add, Nat.mod_eq_of_lt hext]
  have himg : (config.image.baseAddr + config.image.size).toNat =
      config.image.baseAddr.toNat + config.image.size.toNat := by
    rw [BitVec.toNat_add, Nat.mod_eq_of_lt (hhigh.trans_lt hext)]
  rw [BitVec.toNat_sub_of_le (by rw [BitVec.le_def, hregion, himg]; exact hhigh), hregion, himg]

/-- The pages before and in the image, and that the mappings end with the region, or a page behind
it. -/
theorem InplaceImage.pages (h : config.InplaceImage reg) :
    reg.base.toNat + (config.nBefore reg).toNat * pageSize = config.image.baseAddr.toNat ∧
      config.image.size.toNat ≤ config.nImg.toNat * pageSize ∧
      (pageSize ∣ config.image.size.toNat →
        config.nImg.toNat * pageSize = config.image.size.toNat) ∧
      config.image.baseAddr.toNat + config.nImg.toNat * pageSize ≤
        reg.base.toNat + reg.size.toNat ∧
      config.image.baseAddr.toNat + config.nImg.toNat * pageSize +
          (config.nAft reg).toNat * pageSize =
        reg.base.toNat + reg.size.toNat +
          if pageSize ∣ config.image.size.toNat then 0 else pageSize := by
  obtain ⟨⟨b, hb⟩, ⟨s, hs⟩, ⟨i, hi⟩, hpos, hlow, hhigh, hext⟩ := h
  have hbefore : (config.image.baseAddr - reg.base).toNat =
      config.image.baseAddr.toNat - reg.base.toNat := BitVec.toNat_sub_of_le hlow
  have haft := toNat_after hhigh hext
  have hsize := reg.size.isLt
  unfold pageSize at *
  rw [nBefore, nImg, nAft, toNat_numPages (by rw [hbefore]; unfold pageSize; omega), hbefore,
    toNat_numPages (by unfold pageSize; omega),
    toNat_numPages (by rw [haft]; unfold pageSize; omega), haft]
  unfold pageSize
  generalize reg.base.toNat = base at *
  generalize reg.size.toNat = size at *
  generalize config.image.baseAddr.toNat = imgBase at *
  generalize config.image.size.toNat = imgSize at *
  refine ⟨by omega, by omega, by omega, by omega, ?_⟩
  split_ifs <;> omega

variable {m : Mmu} {c : Coloring} {colors : ColorMap} {rounds : ℕ} {t t' : PtEntries}
  {pools : List PagePool} {r : InplaceMaps}

/-- What the three calls do, one after the other. -/
theorem backs_of_vmMapImgRgnInplace (h : config.InplaceImage reg)
    (hsec : m.sections = [⟨0, maxVa⟩]) (hwf : m.WellFormed t)
    (hspan : reg.size.toNat ≤ m.dscr.shape.span) (hclr : c.allClrs colors = true)
    (hrun : config.vmMapImgRgnInplace reg m c colors rounds t pools = some r)
    (hmapped : config.InplaceMapped reg r) :
    ∃ t₂, m.Backs t t₂ reg.base.toNat ((config.nBefore reg).toNat + config.nImg.toNat) ∧
      m.ShowsFrom t₂ config.image.baseAddr.toNat config.image.loadAddr config.nImg.toNat ∧
      (∀ x < (config.nAft reg).toNat * pageSize, m.leafAt t₂
        (config.image.baseAddr.toNat + config.nImg.toNat * pageSize + x) = none) ∧
      m.Backs t₂ r.tables (config.image.baseAddr.toNat + config.nImg.toNat * pageSize)
        (config.nAft reg).toNat := by
  obtain ⟨hbefore, hsize, -, hend, htotal⟩ := h.pages
  have hle : (if pageSize ∣ config.image.size.toNat then 0 else pageSize) ≤ pageSize := by
    split_ifs
    · exact Nat.zero_le _
    · exact le_rfl
  have hpos := h.size_pos
  have hlow := h.low
  have hext := h.extent
  have himg : pageSize ≤ config.nImg.toNat * pageSize :=
    Nat.le_mul_of_pos_left _ (Nat.pos_of_mul_pos_right (hpos.trans_le hsize))
  have hlt : config.nImg.toNat < 2 ^ 52 := by
    unfold pageSize at *
    omega
  have hbytes := toNat_pageBytes hlt
  have haddr : (config.image.baseAddr + pageBytes config.nImg).toNat =
      config.image.baseAddr.toNat + config.nImg.toNat * pageSize := by
    rw [BitVec.toNat_add, hbytes, Nat.mod_eq_of_lt (hend.trans_lt hext)]
  have haft : pageSize ∣ (config.image.baseAddr + pageBytes config.nImg).toNat := by
    rw [haddr]
    exact Nat.dvd_add h.img_aligned (Nat.dvd_mul_left _ _)
  rw [vmMapImgRgnInplace] at hrun
  dsimp only at hrun
  rw [targetVa_of_aligned h.base_aligned, targetVa_of_aligned h.img_aligned,
    targetVa_of_aligned haft, haddr] at hrun
  obtain ⟨⟨t₁, pools₁, before⟩, h₁, hrun⟩ := Option.bind_eq_some_iff.mp hrun
  obtain ⟨⟨t₂, pools₂, img⟩, h₂, hrun⟩ := Option.bind_eq_some_iff.mp hrun
  obtain ⟨⟨t₃, pools₃, aft⟩, h₃, heq⟩ := Option.map_eq_some_iff.mp hrun
  cases heq
  have hnone : ∀ p : PPages, none = some p → c.allClrs p.colors = true := fun p hp => by cases hp
  obtain ⟨-, hb₁, -⟩ := Mmu.memAllocMap_backs hsec hwf.closed hwf.table m.fmt.vmFlags_ok
    (by omega) hclr hnone hmapped.before h₁
  obtain ⟨-, hb₂, hmaps⟩ := Mmu.memAllocMap_backs hsec hb₁.closed hb₁.unmarked m.fmt.vmFlags_ok
    (by omega) hclr (fun p hp => by rw [← Option.some.inj hp]; exact c.allClrs_zero) hmapped.img h₂
  obtain ⟨hfree, hb₃, -⟩ := Mmu.memAllocMap_backs hsec hb₂.closed hb₂.unmarked m.fmt.vmFlags_ok
    (by omega) hclr hnone hmapped.aft h₃
  rw [← hbefore] at hb₂
  refine ⟨t₂, hb₁.append hb₂ ?_, hmaps _ rfl, hfree, hb₃⟩
  rw [Nat.add_mul]
  omega

/-! ## Whether the mappings are exact -/

/-- Behind an image that does not fill its last page, the page behind the region is mapped. -/
theorem not_inplaceExact (h : config.InplaceImage reg)
    (hsec : m.sections = [⟨0, maxVa⟩]) (hwf : m.WellFormed t)
    (hspan : reg.size.toNat ≤ m.dscr.shape.span) (hclr : c.allClrs colors = true)
    (hrun : config.vmMapImgRgnInplace reg m c colors rounds t pools = some r)
    (hmapped : config.InplaceMapped reg r) (hpart : ¬ pageSize ∣ config.image.size.toNat) :
    ¬ config.InplaceExact reg m t r.tables := by
  intro hexact
  obtain ⟨t₂, hcover, -, hfree, haft⟩ :=
    backs_of_vmMapImgRgnInplace h hsec hwf hspan hclr hrun hmapped
  obtain ⟨hbefore, hsize, -, hend, htotal⟩ := h.pages
  rw [if_neg hpart] at htotal
  have hpos := h.size_pos
  have hlow := h.low
  obtain ⟨top, htop⟩ : ∃ top, top = reg.base.toNat + reg.size.toNat := ⟨_, rfl⟩
  obtain ⟨x, hx, hxtop⟩ : ∃ x < (config.nAft reg).toNat * pageSize,
      config.image.baseAddr.toNat + config.nImg.toNat * pageSize + x = top := by
    refine ⟨top - (config.image.baseAddr.toNat + config.nImg.toNat * pageSize), ?_, ?_⟩
    · unfold pageSize at *
      omega
    · omega
  have hnone := hfree x hx
  have hsome := haft.backed x hx
  rw [hxtop] at hnone hsome
  have hpages : ((config.nBefore reg).toNat + config.nImg.toNat) * pageSize ≤ reg.size.toNat := by
    rw [Nat.add_mul]
    omega
  rcases hspan.eq_or_lt with heq | hlt
  · -- the page behind the region is its first one
    have hfirst := hcover.backed 0 (by rw [Nat.add_mul]; omega)
    rw [← Mmu.leafAt_of_mod_span hcover.closed (b := top), hnone] at hfirst
    · cases hfirst
    · rw [htop, heq, Nat.add_mod_right, Nat.add_zero]
  · have hout := hexact.frame top fun y hy => (Radix.mod_ne_of_lt (by omega) (by omega)).symm
    have hleaf := hcover.frame top fun y hy => (Radix.mod_ne_of_lt (by omega) (by omega)).symm
    have hsame := congrArg Option.isSome hout
    rw [Mmu.isSome_memTranslate, Mmu.isSome_memTranslate, ← hleaf, hnone, hsome] at hsame
    cases hsame

/-- With all pages obtained, the mappings are exact iff the image fills its last page, and entries
have room for its addresses. -/
theorem inplaceExact_iff (h : config.InplaceImage reg)
    (hsec : m.sections = [⟨0, maxVa⟩]) (hwf : m.WellFormed t)
    (hspan : reg.size.toNat ≤ m.dscr.shape.span) (hclr : c.allClrs colors = true)
    (hrun : config.vmMapImgRgnInplace reg m c colors rounds t pools = some r)
    (hmapped : config.InplaceMapped reg r) :
    config.InplaceExact reg m t r.tables ↔ pageSize ∣ config.image.size.toNat ∧
      config.image.loadAddr.toNat + config.image.size.toNat ≤ 2 ^ m.fmt.addrWidth := by
  obtain ⟨t₂, hcover, hmaps, -, haft⟩ :=
    backs_of_vmMapImgRgnInplace h hsec hwf hspan hclr hrun hmapped
  obtain ⟨hbefore, -, hfull, hend, htotal⟩ := h.pages
  have hpos := h.size_pos
  constructor
  · intro hexact
    have hdvd : pageSize ∣ config.image.size.toNat := by
      by_contra hpart
      exact not_inplaceExact h hsec hwf hspan hclr hrun hmapped hpart hexact
    refine ⟨hdvd, ?_⟩
    by_contra hroom
    have hwidth : 2 ^ m.fmt.addrWidth < 2 ^ 64 :=
      Nat.pow_lt_pow_right (by decide) m.fmt.addrWidth_lt
    have hload := config.image.loadAddr.isLt
    have hlt := Mmu.toNat_lt_of_memTranslate haft.closed
      (hexact.image (2 ^ m.fmt.addrWidth - config.image.loadAddr.toNat)
        (by rw [hfull hdvd]; omega))
    rw [BitVec.toNat_add, BitVec.toNat_ofNat] at hlt
    omega
  · rintro ⟨hdvd, hroom⟩
    rw [if_pos hdvd, Nat.add_zero] at htotal
    rw [hfull hdvd] at hend htotal
    have haft' : m.Backs t₂ r.tables (reg.base.toNat +
        ((config.nBefore reg).toNat + config.nImg.toNat) * pageSize) (config.nAft reg).toNat := by
      rw [Nat.add_mul, ← Nat.add_assoc, hbefore]
      exact haft
    have hsize : ((config.nBefore reg).toNat + config.nImg.toNat + (config.nAft reg).toNat) *
        pageSize = reg.size.toNat := by
      rw [Nat.add_mul, Nat.add_mul, hfull hdvd]
      omega
    have hall := hcover.append haft' (hsize.le.trans hspan)
    refine ⟨fun x hx => ?_, fun x hx => ?_, fun a ha => ?_⟩
    · rw [Mmu.isSome_memTranslate]
      exact hall.backed x (by rwa [hsize])
    · rw [← hmaps.translate_of_le (by rwa [hfull hdvd]) hx, Mmu.memTranslate_eq,
        Mmu.memTranslate_eq, haft.frame]
      intro y hy
      rw [hfull hdvd] at hx ⊢
      exact Radix.mod_ne_of_lt (by omega) (by omega)
    · rw [Mmu.memTranslate_eq, Mmu.memTranslate_eq, hall.frame a (by rwa [hsize])]

end VmConfig

def threePages : VmMemRegion :=
  { (default : VmMemRegion) with base := 0x200000#64, size := 0x3000#64 }

def middleImage (size : SizeT) : VmConfig :=
  { (default : VmConfig) with
    image := { baseAddr := 0x201000#64, loadAddr := 0x80200000#64, size := size, inplace := true } }

def middleImageMaps (size : SizeT) : Option InplaceMaps :=
  (middleImage size).vmMapImgRgnInplace threePages someVmMmu Coloring.initial 0#64 6 emptyTables
    [sixteenPages]

theorem exists_middleImageMaps (size : SizeT)
    (h : (middleImageMaps size).map (fun r => (r.before, r.img, r.aft)) =
      some (some 0x200000, some 0x201000, some 0x202000)) :
    ∃ r, middleImageMaps size = some r ∧ (middleImage size).InplaceMapped threePages r := by
  obtain ⟨r, hr, hres⟩ := Option.map_eq_some_iff.mp h
  rw [Prod.mk.injEq, Prod.mk.injEq] at hres
  obtain ⟨hbefore, himg, haft⟩ := hres
  exact ⟨r, hr, fun _ => by rw [hbefore, Option.isSome_some],
    fun _ => by rw [himg, Option.isSome_some], fun _ => by rw [haft, Option.isSome_some]⟩

theorem inplaceExact_iff_full_page :
    ∃ r, middleImageMaps 0x1000#64 = some r ∧
      (middleImage 0x1000#64).InplaceExact threePages someVmMmu emptyTables r.tables := by
  obtain ⟨r, hr, hmapped⟩ := exists_middleImageMaps 0x1000#64 (by decide +kernel)
  refine ⟨r, hr, (VmConfig.inplaceExact_iff ⟨by decide, by decide, by decide, by decide, by decide,
    by decide, by decide⟩ rfl (Mmu.wellFormed_emptyTables _) (by decide) (by decide) hr
    hmapped).mpr ⟨by decide, by decide⟩⟩

/-- An image of one byte has the page behind the region mapped. -/
theorem not_inplaceExact_one_byte :
    (middleImage 1#64).InplaceImage threePages ∧
      ∃ r, middleImageMaps 1#64 = some r ∧ (middleImage 1#64).InplaceMapped threePages r ∧
        ¬ (middleImage 1#64).InplaceExact threePages someVmMmu emptyTables r.tables := by
  have himage : (middleImage 1#64).InplaceImage threePages :=
    ⟨by decide, by decide, by decide, by decide, by decide, by decide, by decide⟩
  obtain ⟨r, hr, hmapped⟩ := exists_middleImageMaps 1#64 (by decide +kernel)
  exact ⟨himage, r, hr, hmapped, VmConfig.not_inplaceExact himage rfl
    (Mmu.wellFormed_emptyTables _) (by decide) (by decide) hr hmapped (by decide)⟩

end BaoHypervisor
