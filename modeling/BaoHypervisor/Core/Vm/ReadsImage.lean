import BaoHypervisor.Core.Mem.PageTable.AllocComplete
import BaoHypervisor.Core.Vm.CopiedImage

/-!
# The image that the guest reads

What decides, before `vm_init_mem_regions`, whether the guest reads its image. An image in a region
that is placed physically may be taken to be installed where it is not, an image that is copied is
in `Core.Vm.CopiedImage`, and for an image that is mapped in place, `vm_map_img_rgn_inplace` ignores
whether its pages could be mapped. They are not if it starts inside a page.
-/

namespace BaoHypervisor

variable {m : Mmu} {c : Coloring} {colors : ColorMap} {rounds n : ℕ} {t t' : PtEntries}
  {pools pools' : List PagePool} {reg : VmMemRegion} {config : VmConfig} {s s' : VmMem}
  {regs : List VmMemRegion} {mem : PhysMem}

namespace VmConfig

/-! ## Images that are mapped in place -/

/-- The pages of the image are free, and no region without the image has one of them. There is room
for twice as many, as a space check of `mem_alloc_vpage` asks for. -/
structure ImageFree (config : VmConfig) (m : Mmu) (t : PtEntries) : Prop where
  free : ∀ x < config.nImg.toNat * pageSize, m.IsFree t (config.image.baseAddr.toNat + x)
  apart : ∀ reg ∈ config.regions, config.imgIsInRgn reg = false →
    ∀ x < config.nImg.toNat * pageSize, ∀ y < reg.pageNum * pageSize,
      (config.image.baseAddr.toNat + x) % m.dscr.shape.span ≠
        (reg.base.toNat + y) % m.dscr.shape.span
  lap : config.image.baseAddr.toNat % m.dscr.shape.span + config.nImg.toNat * pageSize ≤
    m.dscr.shape.span
  room : config.image.baseAddr.toNat + 2 * (config.nImg.toNat * pageSize) ≤ 2 ^ 64

/-- The first page of the load range is not one that the pools, or calls that run over the end of
one, can give away. -/
def LoadTaken (config : VmConfig) (pools : List PagePool) (n : ℕ) : Prop :=
  ∀ (k : ℕ) (pool : PagePool), pools[k]? = some pool → ∀ i < pool.size.toNat + n,
    config.image.loadAddr.toNat / pageSize = pool.firstPage + i → (k, i) ∈ outPages pools

end VmConfig

namespace Mmu

/-- A call of `mem_alloc_map` for free pages with room behind them maps them. -/
theorem memAllocMap_target {a : ℕ} {page : Option PPages} {flags : Pte} {res : Option ℕ}
    (hsec : m.sections = [⟨0, maxVa⟩]) (hclosed : m.Closed t) (hmark : m.Unmarked t) (hn : 0 < n)
    (hdvd : pageSize ∣ a) (hfree : ∀ x < n * pageSize, m.IsFree t (a + x))
    (hlap : a % m.dscr.shape.span + n * pageSize ≤ m.dscr.shape.span)
    (hroom : a + 2 * (n * pageSize) ≤ 2 ^ 64)
    (h : m.memAllocMap c colors rounds t pools 0 page (some a) n flags =
      some (t', pools', res)) : res = some a := by
  obtain ⟨⟨t₁, address⟩, halloc, hmap⟩ := Option.bind_eq_some_iff.mp h
  have hsec0 : m.sections[0]? = some ⟨0, maxVa⟩ := by rw [hsec]; rfl
  have hpages := Nat.le_mul_of_pos_left pageSize hn
  have ha : a < 2 ^ 64 := by
    unfold pageSize at *
    omega
  have hsearch : m.Searches ⟨0, maxVa⟩ 0 (some a) :=
    ⟨fun b hb => by rw [← Option.some.inj hb, memFindSec_of_all hsec ha],
      Nat.le_sub_one_of_lt ha, hdvd⟩
  have hsplit := Nat.div_add_mod' a m.dscr.shape.span
  have haddress := memAllocVpage_target hclosed hmark hn hsec0 le_rfl hsearch hfree
    (by rw [Nat.add_mul, Nat.one_mul]; omega)
    (by rwa [show maxVa + 1 = 2 ^ 64 from rfl]) halloc
  rw [haddress] at hmap
  obtain ⟨_, -, heq⟩ := Option.map_eq_some_iff.mp hmap
  cases heq
  rfl

end Mmu

namespace VmConfig

/-- A round for a region without the image leaves its pages free. -/
theorem isFree_vmInitMemRegion (hfit : config.RegionsFit m c colors) (hreg : reg ∈ config.regions)
    (hclosed : m.Closed s.tables) (hmark : m.Unmarked s.tables)
    (hout : config.imgIsInRgn reg = false) (hfree : config.ImageFree m t) {x : ℕ}
    (hx : x < config.nImg.toNat * pageSize)
    (h : config.vmInitMemRegion m c colors rounds s reg = some s') :
    m.leafAt s'.tables (config.image.baseAddr.toNat + x) =
        m.leafAt s.tables (config.image.baseAddr.toNat + x) ∧
      m.isReserved s'.tables (config.image.baseAddr.toNat + x) =
        m.isReserved s.tables (config.image.baseAddr.toNat + x) := by
  rw [vmInitMemRegion, hout, if_neg Bool.false_ne_true] at h
  obtain ⟨⟨t', pools'⟩, hmap, heq⟩ := Option.map_eq_some_iff.mp h
  cases heq
  obtain ⟨-, hbacks, -⟩ := Mmu.vmMapMemRegion_backs (hfit.region reg hreg) hfit.sections hclosed
    hmark hfit.colors hmap
  have happart := hfree.apart reg hreg hout x hx
  exact ⟨hbacks.frame _ happart, hbacks.reserved _ happart⟩

theorem isFree_foldlM (hfit : config.RegionsFit m c colors)
    (hregs : ∀ reg ∈ regs, reg ∈ config.regions) (hclosed : m.Closed s.tables)
    (hmark : m.Unmarked s.tables) (hout : ∀ reg ∈ regs, config.imgIsInRgn reg = false)
    (hfree : config.ImageFree m t)
    (hfrees : ∀ x < config.nImg.toNat * pageSize,
      m.IsFree s.tables (config.image.baseAddr.toNat + x))
    (h : regs.foldlM (config.vmInitMemRegion m c colors rounds) s = some s') :
    ∀ x < config.nImg.toNat * pageSize,
      m.IsFree s'.tables (config.image.baseAddr.toNat + x) := by
  induction regs generalizing s with
  | nil =>
      cases h
      exact hfrees
  | cons reg regs ih =>
      rw [List.forall_mem_cons] at hregs hout
      rw [List.foldlM_cons] at h
      obtain ⟨s₁, hstep, h⟩ := Option.bind_eq_some_iff.mp h
      have hkeeps := keeps_vmInitMemRegion hfit hregs.1 hclosed hmark hstep
      refine ih hregs.2 hkeeps.closed hkeeps.unmarked hout.2 (fun x hx => ?_) h
      obtain ⟨hleaf, hres⟩ :=
        isFree_vmInitMemRegion hfit hregs.1 hclosed hmark hout.1 hfree hx hstep
      exact ⟨hleaf.trans (hfrees x hx).leafAt, hres.trans (hfrees x hx).isReserved⟩

section Inplace

variable {r : InplaceMaps} {t₁ t₂ : PtEntries} {pools₁ pools₂ : List PagePool}
  (hcalls : config.InplaceCalls reg m c colors rounds t pools r t₁ t₂ pools₁ pools₂)
  (hfits : reg.Fits m c) (hin : config.imgIsInRgn reg = true)
  (hsec : m.sections = [⟨0, maxVa⟩]) (hclosed : m.Closed t) (hmark : m.Unmarked t)
  (hclr : c.allClrs colors = true)

include hcalls hfits hin hsec hclosed hmark hclr

/-- The pages before an image that starts a page are not its own. -/
theorem isFree_before (hdvd : pageSize ∣ config.image.baseAddr.toNat)
    (hfree : ∀ x < config.nImg.toNat * pageSize, m.IsFree t (config.image.baseAddr.toNat + x)) :
    ∀ x < config.nImg.toNat * pageSize, m.IsFree t₁ (config.image.baseAddr.toNat + x) := by
  obtain ⟨⟨hbefore, -, -⟩, hnBefore, hnImg⟩ := inplacePages_le hfits hin
  obtain ⟨hlow, hhigh⟩ := bounds_of_imgIsInRgn hfits hin
  have hspan := (Nat.mul_le_mul_right pageSize hbefore).trans hfits.pageNum_mul_le
  have hcall := hcalls.before
  intro x hx
  by_cases hres : (config.nBefore reg).toNat ≠ 0 → r.before.isSome = true
  · obtain ⟨-, hbacks, -⟩ := Mmu.memAllocMap_backs hsec hclosed hmark m.fmt.vmFlags_ok hspan hclr
      (fun p hp => by cases hp) hres hcall
    have happart : ∀ y < (config.nBefore reg).toNat * pageSize,
        (config.image.baseAddr.toNat + x) % m.dscr.shape.span ≠
          (reg.base.toNat + y) % m.dscr.shape.span := by
      intro y hy
      have hne : (config.nBefore reg).toNat ≠ 0 := by
        intro hzero
        rw [hzero, Nat.zero_mul] at hy
        exact absurd hy (Nat.not_lt_zero y)
      obtain ⟨v, hv⟩ := Option.isSome_iff_exists.mp (hres hne)
      rw [hv] at hcall
      obtain ⟨-, b, hb⟩ := Mmu.target_of_memAllocMap hsec hclosed hmark hspan
        (Nat.pos_of_ne_zero hne) hcall
      obtain ⟨i, hi⟩ := hdvd
      have hroom := hfits.pageNum_mul_le
      have hsize : reg.size.toNat ≤ reg.pageNum * pageSize := hfits.size_le
      rw [hnBefore] at hy
      rw [hnImg] at hx
      refine (Radix.mod_ne_of_lt ?_ ?_).symm
      · unfold pageSize at *
        omega
      · have hpageNum : reg.pageNum = (reg.size.toNat + (pageSize - 1)) / pageSize :=
          toNat_numPages hfits.word
        rw [hpageNum] at hroom
        unfold pageSize at *
        omega
    exact ⟨(hbacks.frame _ happart).trans (hfree x hx).leafAt,
      (hbacks.reserved _ happart).trans (hfree x hx).isReserved⟩
  · rw [Classical.not_imp, Bool.not_eq_true, Option.isSome_eq_false_iff,
      Option.isNone_iff_eq_none] at hres
    obtain ⟨hne, hnone⟩ := hres
    rw [hnone] at hcall
    have hsame := Mmu.sameLeaves_memAllocMap hsec hclosed hmark hspan hne hcall
    exact ⟨(hsame.leafAt _).trans (hfree x hx).leafAt,
      (hsame.isReserved _).trans (hfree x hx).isReserved⟩

/-- An image with free pages that starts a page is mapped to where it was loaded. -/
theorem shows_of_inplace (hsize : 0 < config.image.size.toNat)
    (hdvd : pageSize ∣ config.image.baseAddr.toNat)
    (hlap : config.image.baseAddr.toNat % m.dscr.shape.span + config.nImg.toNat * pageSize ≤
      m.dscr.shape.span)
    (hroom : config.image.baseAddr.toNat + 2 * (config.nImg.toNat * pageSize) ≤ 2 ^ 64)
    (hfree : ∀ x < config.nImg.toNat * pageSize, m.IsFree t (config.image.baseAddr.toNat + x)) :
    m.ShowsFrom r.tables config.image.baseAddr.toNat config.image.loadAddr config.nImg.toNat := by
  obtain ⟨⟨-, himg, -⟩, -, hnImg⟩ := inplacePages_le hfits hin
  obtain ⟨hk₁, -, hk₃⟩ := hcalls.keeps hfits hin hsec hclosed hmark hclr
  have hpos : 0 < config.nImg.toNat := by
    rw [hnImg]
    unfold pageSize
    omega
  have hres := Mmu.memAllocMap_target hsec hk₁.closed hk₁.unmarked hpos hdvd
    (isFree_before hcalls hfits hin hsec hclosed hmark hclr hdvd hfree) hlap hroom hcalls.img
  obtain ⟨-, -, hshows⟩ := Mmu.memAllocMap_backs hsec hk₁.closed hk₁.unmarked m.fmt.vmFlags_ok
    ((Nat.mul_le_mul_right pageSize himg).trans hfits.pageNum_mul_le) hclr
    (fun p hp => by rw [← Option.some.inj hp]; exact c.allClrs_zero)
    (fun _ => by rw [hres, Option.isSome_some]) hcalls.img
  exact (hshows _ rfl).keeps hk₃

/-- Behind the calls for an image that does not start a page, a leaf is one that was there before,
or shows pages of the pools. -/
theorem leafAt_of_inplace (hsize : 0 < config.image.size.toNat)
    (hdvd : ¬ pageSize ∣ config.image.baseAddr.toNat) :
    ∃ log, Client.Replays ppAllocAt pools log r.pools ∧
      (∀ e ∈ log, e.1.numPages.toNat ≤ reg.pageNum) ∧
        ∀ b e, m.leafAt r.tables b = some e → m.leafAt t b = some e ∨ m.Drawn log e := by
  obtain ⟨⟨hbefore, himg, haft⟩, -, hnImg⟩ := inplacePages_le hfits hin
  obtain ⟨hk₁, hk₂, -⟩ := hcalls.keeps hfits hin hsec hclosed hmark hclr
  have hspan : ∀ {n : ℕ}, n ≤ reg.pageNum → n * pageSize ≤ m.dscr.shape.span := fun hle =>
    (Nat.mul_le_mul_right _ hle).trans hfits.pageNum_mul_le
  have hpos : 0 < config.nImg.toNat := by
    rw [hnImg]
    unfold pageSize
    omega
  obtain ⟨log₁, hlog₁, hnum₁, hleaf₁⟩ := Mmu.leafAt_memAllocMap hsec hclosed hmark
    m.fmt.vmFlags_ok (hspan hbefore) hclr hcalls.before
  obtain ⟨log₂, hlog₂, hnum₂, -⟩ := Mmu.memAllocMap_draws hsec hk₁.closed hk₁.unmarked
    m.fmt.vmFlags_ok (hspan himg) hclr hcalls.img
  obtain ⟨log₃, hlog₃, hnum₃, hleaf₃⟩ := Mmu.leafAt_memAllocMap hsec hk₂.closed hk₂.unmarked
    m.fmt.vmFlags_ok (hspan haft) hclr hcalls.aft
  -- the pages of the image are not even searched
  have hnone : r.img = none := by
    rw [Option.eq_none_iff_forall_ne_some]
    intro v hv
    have himgCall := hcalls.img
    rw [hv] at himgCall
    exact hdvd (Mmu.target_of_memAllocMap hsec hk₁.closed hk₁.unmarked (hspan himg) hpos
      himgCall).2
  have himgCall := hcalls.img
  rw [hnone] at himgCall
  have hsame := Mmu.sameLeaves_memAllocMap hsec hk₁.closed hk₁.unmarked (hspan himg) hpos.ne'
    himgCall
  refine ⟨log₁ ++ (log₂ ++ log₃), hlog₁.append (hlog₂.append hlog₃), fun e he => ?_,
    fun b e he => ?_⟩
  · rcases List.mem_append.mp he with he | he
    · exact (hnum₁ e he).trans hbefore
    rcases List.mem_append.mp he with he | he
    · exact (hnum₂ e he).trans himg
    · exact (hnum₃ e he).trans haft
  · rcases hleaf₃ b e he with he | hdrawn
    · rw [hsame.leafAt] at he
      exact (hleaf₁ b e he).imp_right fun hdrawn => hdrawn.mono (List.subset_append_left _ _)
    · exact .inr (hdrawn.mono fun e he =>
        List.mem_append_right _ (List.mem_append_right _ he))

end Inplace

/-- Where an image that does not start a page has a leaf behind rounds that map it in place, its
first byte is in a page of the pools. -/
theorem leafAt_foldlM (hfit : config.RegionsFit m c colors)
    (hregs : ∀ reg ∈ regs, reg ∈ config.regions) (hn : ∀ reg ∈ config.regions, reg.pageNum ≤ n)
    (hclosed : m.Closed s.tables) (hmark : m.Unmarked s.tables)
    (hone : ∀ reg ∈ config.regions, config.imgIsInRgn reg = true → config.IsInplace reg)
    (hpos : 0 < config.nImg.toNat * pageSize) (hfree : config.ImageFree m t)
    (hdvd : ¬ pageSize ∣ config.image.baseAddr.toNat)
    (h : regs.foldlM (config.vmInitMemRegion m c colors rounds) s = some s') :
    ∃ log, Client.Replays ppAllocAt s.pools log s'.pools ∧
      (∀ e ∈ log, e.1.numPages.toNat ≤ n) ∧
        ∀ e, m.leafAt s'.tables config.image.baseAddr.toNat = some e →
          m.leafAt s.tables config.image.baseAddr.toNat = some e ∨ m.Drawn log e := by
  induction regs generalizing s with
  | nil =>
      cases h
      exact ⟨[], rfl, by simp, fun e he => .inl he⟩
  | cons reg regs ih =>
      rw [List.forall_mem_cons] at hregs
      rw [List.foldlM_cons] at h
      obtain ⟨s₁, hstep, h⟩ := Option.bind_eq_some_iff.mp h
      have hfits := hfit.region reg hregs.1
      have hkeeps := keeps_vmInitMemRegion hfit hregs.1 hclosed hmark hstep
      obtain ⟨log', hlog', hnum', hleaf'⟩ := ih hregs.2 hkeeps.closed hkeeps.unmarked h
      have hround : ∃ log, Client.Replays ppAllocAt s.pools log s₁.pools ∧
          (∀ e ∈ log, e.1.numPages.toNat ≤ reg.pageNum) ∧
            ∀ e, m.leafAt s₁.tables config.image.baseAddr.toNat = some e →
              m.leafAt s.tables config.image.baseAddr.toNat = some e ∨ m.Drawn log e := by
        by_cases hin : config.imgIsInRgn reg = true
        · rw [vmInitMemRegion, if_pos hin, if_pos (hone reg hregs.1 hin)] at hstep
          obtain ⟨r, hr, heq⟩ := Option.map_eq_some_iff.mp hstep
          cases heq
          obtain ⟨t₁, t₂, pools₁, pools₂, hcalls⟩ := inplaceCalls_of_vmMapImgRgnInplace hfits hin hr
          obtain ⟨log, hlog, hnum, hleaf⟩ := leafAt_of_inplace hcalls hfits hin hfit.sections
            hclosed hmark hfit.colors hfit.size_pos hdvd
          exact ⟨log, hlog, hnum, hleaf _⟩
        · rw [Bool.not_eq_true] at hin
          obtain ⟨log, hlog, hnum⟩ := replays_vmInitMemRegion hfit hregs.1 hclosed hmark hstep
          obtain ⟨hleaf, -⟩ :=
            isFree_vmInitMemRegion hfit hregs.1 hclosed hmark hin hfree hpos hstep
          exact ⟨log, hlog, hnum, fun e he => .inl (hleaf.symm.trans he)⟩
      obtain ⟨log, hlog, hnum, hleaf⟩ := hround
      refine ⟨log ++ log', hlog.append hlog', fun e he => ?_, fun e he => ?_⟩
      · rcases List.mem_append.mp he with he | he
        · exact (hnum e he).trans (hn reg hregs.1)
        · exact hnum' e he
      · rcases hleaf' e he with he | hdrawn
        · exact (hleaf e he).imp_right fun hdrawn => hdrawn.mono (List.subset_append_left _ _)
        · exact .inr (hdrawn.mono (List.subset_append_right _ _))

/-! ## When the guest reads the image -/

theorem readsImage_iff_of_inplace (hfit : config.RegionsFit m c colors) (hwf : m.WellFormed t)
    (hone : ∀ reg ∈ config.regions, config.imgIsInRgn reg = true → config.IsInplace reg)
    (hret : config.vmInitMemRegions m c colors rounds ⟨t, pools, mem⟩ = some s) :
    config.ReadsImage m c colors rounds t pools ↔
      config.BackedFrom (m.addrSpace s.tables) config.image.loadAddr := by
  have hrun := vmInitMemRegions_of_inplace hfit hwf.closed hwf.table
    (fun reg hreg himage => himage.2 (hone reg hreg himage.1)) hret
  rw [← backedFrom_iff_of_kept]
  refine forall_congr' fun mem' => ⟨fun h => h _ (hrun mem'), fun h s' hs' => ?_⟩
  rw [hrun] at hs'
  rw [← Option.some.inj hs']
  exact h

/-- An image that is mapped in place starts a page in the load range. -/
theorem shows_of_regions (hfit : config.RegionsFit m c colors) (hwf : m.WellFormed t)
    (hreg : config.imageRegion = some reg)
    (hone : ∀ reg ∈ config.regions, config.imgIsInRgn reg = true → config.IsInplace reg)
    (hfree : config.ImageFree m t) (hdvd : pageSize ∣ config.image.baseAddr.toNat)
    (hret : config.vmInitMemRegions m c colors rounds ⟨t, pools, mem⟩ = some s) :
    m.ShowsFrom s.tables config.image.baseAddr.toNat config.image.loadAddr
      config.nImg.toNat := by
  have hin : config.imgIsInRgn reg = true := List.find?_some hreg
  have hmark : m.Unmarked t := hwf.table
  obtain ⟨-, pre, post, hregions, hbefore⟩ := List.find?_eq_some_iff_append.mp hreg
  have hmem : ∀ reg' ∈ pre ++ reg :: post, reg' ∈ config.regions := fun _ h => hregions ▸ h
  rw [List.forall_mem_append, List.forall_mem_cons] at hmem
  obtain ⟨hpre, hself, hpost⟩ := hmem
  have hfits := hfit.region reg hself
  have hout : ∀ reg' ∈ pre, config.imgIsInRgn reg' = false := by
    intro reg' hreg'
    have hnot := hbefore reg' hreg'
    rwa [Bool.not_eq_true'] at hnot
  rw [vmInitMemRegions, hregions, List.foldlM_append] at hret
  obtain ⟨s₀, h₀, hret⟩ := Option.bind_eq_some_iff.mp hret
  rw [List.foldlM_cons] at hret
  obtain ⟨s₁, h₁, h₂⟩ := Option.bind_eq_some_iff.mp hret
  have hkeeps₀ := keeps_foldlM hfit hpre hwf.closed hmark h₀
  have hkeeps₁ := keeps_vmInitMemRegion hfit hself hkeeps₀.closed hkeeps₀.unmarked h₁
  have hkeeps₂ := keeps_foldlM hfit hpost hkeeps₁.closed hkeeps₁.unmarked h₂
  have hfrees := isFree_foldlM hfit hpre hwf.closed hmark hout hfree hfree.free h₀
  rw [vmInitMemRegion, if_pos hin, if_pos (hone reg hself hin)] at h₁
  obtain ⟨r, hr, heq⟩ := Option.map_eq_some_iff.mp h₁
  cases heq
  obtain ⟨t₁, t₂, pools₁, pools₂, hcalls⟩ := inplaceCalls_of_vmMapImgRgnInplace hfits hin hr
  exact (shows_of_inplace hcalls hfits hin hfit.sections hkeeps₀.closed hkeeps₀.unmarked hfit.colors
    hfit.size_pos hdvd hfree.lap hfree.room hfrees).keeps hkeeps₂

/-- What the bytes of an image that is mapped in place translate to. -/
theorem translate_of_shows (hfits : reg.Fits m c) (hin : config.imgIsInRgn reg = true)
    (hclosed : m.Closed t) (h : m.ShowsFrom t config.image.baseAddr.toNat config.image.loadAddr
      config.nImg.toNat) {k : ℕ} (hk : k < config.image.size.toNat) :
    (m.addrSpace t).translate (config.imageAddr k) =
      some (BitVec.ofNat 64 ((config.image.loadAddr.toNat + k) % 2 ^ m.fmt.addrWidth)) := by
  obtain ⟨-, -, hnImg⟩ := inplacePages_le hfits hin
  obtain ⟨hlow, hhigh⟩ := bounds_of_imgIsInRgn hfits hin
  obtain ⟨haddr, -⟩ := toNat_imageAddr hfits hin hk
  rw [← Nat.add_assoc, Nat.add_sub_cancel' hlow] at haddr
  have hlt : k < config.nImg.toNat * pageSize := by
    rw [hnImg]
    unfold pageSize
    omega
  rw [Mmu.translate_eq_memTranslate hclosed, haddr, h.translate k hlt]
  intro e he
  rw [haddr] at he
  exact h.aligned k hlt e he

/-- An image that is mapped in place and reads back starts a page. -/
theorem dvd_of_readsImage (hfit : config.RegionsFit m c colors) (hwf : m.WellFormed t)
    (hreg : config.imageRegion = some reg) (hn : ∀ reg ∈ config.regions, reg.pageNum ≤ n)
    (hone : ∀ reg ∈ config.regions, config.imgIsInRgn reg = true → config.IsInplace reg)
    (hfree : config.ImageFree m t) (hpools : PoolsApart pools n m.fmt.addrWidth)
    (hload : config.LoadTaken pools n)
    (hret : config.vmInitMemRegions m c colors rounds ⟨t, pools, mem⟩ = some s)
    (h : config.BackedFrom (m.addrSpace s.tables) config.image.loadAddr) :
    pageSize ∣ config.image.baseAddr.toNat := by
  by_contra hdvd
  have hmark : m.Unmarked t := hwf.table
  have hin : config.imgIsInRgn reg = true := List.find?_some hreg
  have hfits := hfit.region reg (List.mem_of_find?_eq_some hreg)
  obtain ⟨-, -, hnImg⟩ := inplacePages_le hfits hin
  have hsize := hfit.size_pos
  have hpos : 0 < config.nImg.toNat * pageSize := by
    rw [hnImg]
    unfold pageSize
    omega
  have hclosed := (keeps_foldlM hfit (fun _ => id) hwf.closed hmark hret).closed
  obtain ⟨log, hlog, hnum, hleaf⟩ := leafAt_foldlM hfit (fun _ => id) hn hwf.closed hmark hone hpos
    hfree hdvd hret
  have hsound := sound_of_poolsApart hlog hpools hnum
  have hfirst := h 0 hsize
  rw [imageAddr, BitVec.add_zero, BitVec.add_zero] at hfirst
  obtain ⟨e, he⟩ := Option.isSome_iff_exists.mp
    ((Mmu.isSome_translate hclosed _).symm.trans (by rw [hfirst, Option.isSome_some]))
  have hlvl : e.1 < m.dscr.lvls := by
    rw [← (Mmu.leafAt_eq_some_iff.mp he).1]
    exact Mmu.look_fst_lt hclosed _
  have hbase := (hfree.free 0 hpos).leafAt
  rw [Nat.add_zero] at hbase
  have hdrawn := (hleaf e he).resolve_left (by rw [hbase]; exact Option.some_ne_none e ∘ Eq.symm)
  obtain ⟨pa, htrans, -, hpage, -⟩ := hdrawn.toNat_translate hclosed he hsound
  rw [hfirst, Option.some.injEq] at htrans
  obtain ⟨call, hcall, -, hpageOf⟩ := hdrawn.hasPage hlvl hsound config.image.baseAddr.toNat
  obtain ⟨pool, bit, x, -, hpool, -, hfreeBit, hlt, hplace⟩ :=
    (served_replays hlog).page_of_le hcall (hnum call hcall) hpageOf
  exact hfreeBit (hload _ pool hpool _ hlt (by rw [htrans, hpage, hplace]))

end VmConfig

def oneByteImage (loadAddr : Addr) (placePhys inplace : Bool) : VmConfig :=
  { (default : VmConfig) with
    image := ⟨0x201000#64, loadAddr, 1#64, inplace⟩
    regions := [{ threePages with placePhys := placePhys, phys := 0x80200000#64 }] }

def oneByteImageCall (loadAddr : Addr) (placePhys inplace : Bool) : Option VmMem :=
  (oneByteImage loadAddr placePhys inplace).vmInitMemRegions someVmMmu Coloring.initial 0#64 6
    ⟨emptyTables, [sixteenPages], fun _ => 0#8⟩

section OneByte

variable (loadAddr : Addr) (placePhys inplace : Bool)

theorem regionsFit_oneByteImage :
    (oneByteImage loadAddr placePhys inplace).RegionsFit someVmMmu Coloring.initial 0#64 := by
  have hfits : threePages.Fits someVmMmu Coloring.initial := ⟨by decide, by decide, by decide⟩
  refine ⟨rfl, by decide, fun reg hreg => ?_, Nat.zero_lt_one⟩
  rw [List.mem_singleton.mp hreg]
  exact ⟨hfits.colors, hfits.extent, hfits.span⟩

theorem imageRegion_oneByteImage : (oneByteImage loadAddr placePhys inplace).imageRegion =
    some { threePages with placePhys := placePhys, phys := 0x80200000#64 } :=
  List.find?_cons_of_pos (by decide : rangeInRange 0x201000#64 1#64 0x200000#64 0x3000#64 = true)

theorem pageNum_oneByteImage :
    ∀ reg ∈ (oneByteImage loadAddr placePhys inplace).regions, reg.pageNum ≤ 3 := by
  intro reg hreg
  have hpages : threePages.pageNum ≤ 3 := by decide
  rw [List.mem_singleton.mp hreg]
  exact hpages

variable {loadAddr placePhys inplace}

theorem loadApart_oneByteImage {as : AddrSpace} {pa : Addr}
    (h : as.translate 0x201000#64 = some pa) :
    (oneByteImage loadAddr placePhys inplace).LoadApart as := by
  by_cases heq : pa = loadAddr
  · refine .inr fun k hk => ?_
    obtain rfl := Nat.lt_one_iff.mp hk
    rw [VmConfig.imageAddr, BitVec.add_zero, BitVec.add_zero]
    exact h.trans (congrArg some heq)
  · refine .inl fun j hj k hk hsame => ?_
    obtain rfl := Nat.lt_one_iff.mp hj
    obtain rfl := Nat.lt_one_iff.mp hk
    rw [VmConfig.imageAddr, BitVec.add_zero, BitVec.add_zero] at hsame
    exact heq (Option.some.inj (h.symm.trans hsame))

theorem not_straddles_oneByteImage (lvl : ℕ) (reg : VmMemRegion) :
    ¬ (oneByteImage loadAddr placePhys inplace).Straddles someVmMmu reg lvl := by
  rintro ⟨-, -, -, hbehind⟩
  have hpos : 0 < someVmMmu.dscr.ptLvlsize lvl := PtDscr.ptLvlsize_pos
  have hlt := Nat.lt_mul_div_succ 0x201000 hpos
  rw [Nat.mul_comm] at hlt
  exact absurd (Nat.le_of_lt_succ hbehind) (Nat.not_le.mpr hlt)

end OneByte

theorem poolsApart_sixteenPages : PoolsApart [sixteenPages] 3 someVmMmu.fmt.addrWidth where
  room := fun pool hpool => by
    rw [List.mem_singleton.mp hpool]
    decide
  apart := fun j k pool pool' hj hk => by
    have hzero : ∀ {i : ℕ} {pool : PagePool}, [sixteenPages][i]? = some pool → i = 0 := by
      intro i pool hi
      obtain ⟨hlt, -⟩ := List.getElem?_eq_some_iff.mp hi
      exact Nat.lt_one_iff.mp hlt
    exact fun _ _ _ _ _ => (hzero hj).trans (hzero hk).symm

theorem imageFree_oneByteImage :
    (oneByteImage 0x80300000#64 false true).ImageFree someVmMmu emptyTables where
  free := fun x _ => ⟨Mmu.leafAt_emptyTables _ _, Mmu.isReserved_emptyTables _ _⟩
  apart := fun reg hreg hout => by
    rw [List.mem_singleton.mp hreg] at hout
    exact absurd hout (by decide)
  lap := by decide
  room := by decide

def lowSuperpage : PagePool where
  base := 0x90000000#64
  size := 512#64
  free := 512#64
  last := 0
  bitmap := fun _ => 0#32
  base_aligned := by decide
  extent := by decide

def highSuperpage : PagePool :=
  { lowSuperpage with
    base := 0x90400000#64
    base_aligned := by decide
    extent := by decide }

def twoSuperpages : VmMemRegion :=
  { (default : VmMemRegion) with base := 0x200000#64, size := 0x400000#64 }

/-- An image on the last page of one of them and the first page of the other one. -/
def straddlingImage : VmConfig :=
  { (default : VmConfig) with
    image := ⟨0x3ff000#64, 0x80300000#64, 0x2000#64, false⟩
    regions := [twoSuperpages] }

def straddlingImageCall : Option VmMem :=
  straddlingImage.vmInitMemRegions someVmMmu Coloring.initial 0#64 6
    ⟨emptyTables, [lowSuperpage, highSuperpage], fun _ => 0#8⟩

theorem loadApart_straddlingImage {t : PtEntries} (hclosed : someVmMmu.Closed t)
    (hfirst : (someVmMmu.addrSpace t).translate 0x3ff000#64 = some 0x901ff000#64)
    (hsecond : (someVmMmu.addrSpace t).translate 0x400000#64 = some 0x90400000#64) :
    straddlingImage.LoadApart (someVmMmu.addrSpace t) := by
  refine .inl fun j hj k hk heq => ?_
  have hsize : straddlingImage.image.size.toNat = 0x2000 := by decide
  rw [hsize] at hj hk
  have hload : (straddlingImage.image.loadAddr + BitVec.ofNat 64 k).toNat = 0x80300000 + k := by
    rw [show straddlingImage.image.loadAddr = 0x80300000#64 from rfl]
    rw [BitVec.toNat_add, BitVec.toNat_ofNat, BitVec.toNat_ofNat]
    omega
  have haddr : straddlingImage.imageAddr j = 0x3ff000#64 + BitVec.ofNat 64 j := by
    rw [VmConfig.imageAddr, show straddlingImage.image.baseAddr = 0x3ff000#64 from rfl]
  obtain ⟨pa, hpa, hhigh⟩ : ∃ pa, (someVmMmu.addrSpace t).translate (straddlingImage.imageAddr j) =
      some pa ∧ 0x90000000 ≤ pa.toNat := by
    rw [haddr]
    by_cases hpage : j < pageSize
    · rw [Mmu.translate_add_offset hclosed (by decide) hpage, hfirst, Option.map_some]
      refine ⟨_, rfl, ?_⟩
      rw [BitVec.toNat_add, BitVec.toNat_ofNat, BitVec.toNat_ofNat]
      omega
    · have hnext : 0x3ff000#64 + BitVec.ofNat 64 j =
          0x400000#64 + BitVec.ofNat 64 (j - pageSize) := by
        obtain ⟨i, rfl⟩ := Nat.exists_eq_add_of_le (Nat.not_lt.mp hpage)
        rw [BitVec.ofNat_add, ← BitVec.add_assoc, Nat.add_sub_cancel_left]
        rfl
      rw [hnext, Mmu.translate_add_offset hclosed (by decide) (by unfold pageSize at *; omega),
        hsecond, Option.map_some]
      refine ⟨_, rfl, ?_⟩
      rw [BitVec.toNat_add, BitVec.toNat_ofNat, BitVec.toNat_ofNat]
      omega
  rw [hpa, Option.some.injEq] at heq
  rw [heq, hload] at hhigh
  omega

/-- What is copied for the second page goes to the memory behind the first superpage. -/
theorem not_readsImage_straddling :
    (∃ s, straddlingImageCall = some s ∧
        straddlingImage.LoadApart (someVmMmu.addrSpace s.tables)) ∧
      ¬ straddlingImage.ReadsImage someVmMmu Coloring.initial 0#64 6 emptyTables
        [lowSuperpage, highSuperpage] := by
  have hrun : straddlingImageCall.map (fun s =>
      ((someVmMmu.addrSpace s.tables).translate 0x3ff000#64,
        (someVmMmu.addrSpace s.tables).translate 0x400000#64,
        (someVmMmu.addrSpace s.tables 0x3ff000#64).map fun leaf => leaf.lvlSize)) =
      some (some 0x901ff000#64, some 0x90400000#64, some 0x200000#64) := by decide +kernel
  obtain ⟨s, hs, hres⟩ := Option.map_eq_some_iff.mp hrun
  rw [Prod.mk.injEq, Prod.mk.injEq] at hres
  obtain ⟨hfirst, hsecond, hsize⟩ := hres
  have hfits : straddlingImage.RegionsFit someVmMmu Coloring.initial 0#64 := by
    refine ⟨rfl, by decide, fun reg hreg => ?_, by decide⟩
    rw [List.mem_singleton.mp hreg]
    exact ⟨by decide, by decide, by decide⟩
  have hreg : straddlingImage.imageRegion = some twoSuperpages := rfl
  obtain ⟨hregion, hall⟩ := VmConfig.vmInitMemRegions_of_copied hfits
    (Mmu.wellFormed_emptyTables someVmMmu).closed (Mmu.wellFormed_emptyTables someVmMmu).table hreg
    (fun hinplace => absurd hinplace.2 (by decide)) hs
  have hapart := loadApart_straddlingImage hregion.closed hfirst hsecond
  refine ⟨⟨s, hs, hapart⟩, fun h => ?_⟩
  have hret := hs
  rw [straddlingImageCall, hall] at hret
  obtain ⟨mem, hmem, -⟩ := Option.map_eq_some_iff.mp hret
  rw [VmConfig.readsImage_iff_installs rfl hall, (VmConfig.installs_iff_of_backed hfits
    (hfits.region _ (List.mem_of_find?_eq_some hreg)) (by decide) hregion
    (fun hinstalled => absurd hinstalled.1 (by decide)) hapart hmem).1] at h
  obtain ⟨leaf, hleaf, hlvl⟩ := Option.map_eq_some_iff.mp hsize
  have hstep := (h.2.resolve_left (by decide)) leaf hleaf
  dsimp only at hstep
  rw [hlvl] at hstep
  have hpage := hstep.1 1 (by decide)
  have hphys : AddrSpace.physAddr leaf 0x3ff000#64 = 0x901ff000#64 := by
    rw [AddrSpace.translate, hleaf] at hfirst
    exact Option.some.inj hfirst
  change (someVmMmu.addrSpace s.tables).translate 0x400000#64 =
    some (pageAddr (AddrSpace.physAddr leaf 0x3ff000#64) 1) at hpage
  rw [hsecond, hphys] at hpage
  exact absurd (Option.some.inj hpage) (by decide)

end BaoHypervisor
