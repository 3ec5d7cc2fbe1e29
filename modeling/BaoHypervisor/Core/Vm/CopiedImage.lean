import BaoHypervisor.Core.Mem.PageTable.Draws
import BaoHypervisor.Core.Vm.MemRegions

/-!
# Images that are copied

`mem_map_cpy` copies from the first page of a step for the whole size of its entry. If an image
starts inside a superpage and ends behind it, that is more than is left of the superpage, and what
follows in the memory need not be the next page of the region. Where the pools have no superpage for
the place, no image does so.
-/

namespace BaoHypervisor

namespace Mmu

variable {m : Mmu} {t : PtEntries}

/-- The pages of an entry from an address on translate to pages that follow each other. -/
theorem translate_pageAddr (hclosed : m.Closed t) {va : Addr} {e : ℕ × Pte} {i : ℕ}
    (he : m.leafAt t va.toNat = some e) (hword : va.toNat + i * pageSize < 2 ^ 64)
    (hin : va.toNat % m.dscr.ptLvlsize e.1 + i * pageSize < m.dscr.ptLvlsize e.1) :
    (m.addrSpace t).translate (pageAddr va i) =
      ((m.addrSpace t).translate va).map fun pa => pageAddr pa i := by
  have haddr : (pageAddr va i).toNat = va.toNat + i * pageSize := by
    rw [pageAddr, BitVec.toNat_add, BitVec.toNat_ofNat,
      Nat.mod_eq_of_lt ((Nat.le_add_left _ _).trans_lt hword), Nat.mod_eq_of_lt hword]
  have hsplit := Nat.div_add_mod va.toNat (m.dscr.ptLvlsize e.1)
  have hsum : va.toNat + i * pageSize = m.dscr.ptLvlsize e.1 * (va.toNat / m.dscr.ptLvlsize e.1) +
      (va.toNat % m.dscr.ptLvlsize e.1 + i * pageSize) := by omega
  have hdiv : (va.toNat + i * pageSize) / m.dscr.ptLvlsize e.1 =
      va.toNat / m.dscr.ptLvlsize e.1 := by
    rw [hsum, Nat.mul_add_div PtDscr.ptLvlsize_pos, Nat.div_eq_of_lt hin, Nat.add_zero]
  have hmod : (va.toNat + i * pageSize) % m.dscr.ptLvlsize e.1 =
      va.toNat % m.dscr.ptLvlsize e.1 + i * pageSize := by
    rw [hsum, Nat.mul_add_mod, Nat.mod_eq_of_lt hin]
  rw [translate_addrSpace hclosed, translate_addrSpace hclosed, haddr, he,
    leafAt_of_div_eq hclosed he hdiv, Option.map_some, Option.map_some, Option.map_some, hmod,
    pageAddr, BitVec.ofNat_add, BitVec.add_assoc]

/-- Pages follow each other in each step of the copy, if the first step starts with its entry or
ends in it. All other steps start with their entries. -/
theorem cpyFollows_of_first (hclosed : m.Closed t) {fuel left : ℕ} {vas : Addr}
    (hdvd : pageSize ∣ vas.toNat) (hword : vas.toNat + left * pageSize ≤ 2 ^ 64)
    (hfirst : ∀ e, m.leafAt t vas.toNat = some e → m.dscr.ptLvlsize e.1 ∣ vas.toNat ∨
      vas.toNat % m.dscr.ptLvlsize e.1 + left * pageSize ≤ m.dscr.ptLvlsize e.1) :
    (m.addrSpace t).CpyFollows fuel vas left := by
  induction fuel generalizing vas left with
  | zero => trivial
  | succ fuel ih =>
      rw [AddrSpace.CpyFollows]
      by_cases hleft : left = 0
      · exact .inl hleft
      refine .inr fun leaf hleaf => ?_
      obtain ⟨e, he, hsize⟩ := addrSpace_eq_some hclosed hleaf
      have hlvl : e.1 < m.dscr.lvls := by
        rw [← (leafAt_eq_some_iff.mp he).1]
        exact look_fst_lt hclosed _
      have htrans : (m.addrSpace t).translate vas = some (AddrSpace.physAddr leaf vas) := by
        rw [AddrSpace.translate, hleaf, Option.map_some]
      obtain ⟨npages, hnpages⟩ : ∃ npages, npages =
          (min (left * pageSize) leaf.lvlSize.toNat + (pageSize - 1)) / pageSize := ⟨_, rfl⟩
      obtain ⟨hstep, hle⟩ := leaf.stepPages_spec hnpages
      dsimp only
      rw [← hnpages, hstep]
      rw [hsize] at hstep
      have hstart := hfirst e he
      have hmul := Nat.mul_le_mul_right pageSize hle
      refine ⟨fun i hi => ?_, ?_⟩
      · have hlt := Nat.mul_lt_mul_of_pos_right hi (show 0 < pageSize by decide)
        rw [translate_pageAddr hclosed he (by omega), htrans, Option.map_some]
        rcases hstart with hstart | hstart
        · rw [Nat.mod_eq_zero_of_dvd hstart]
          omega
        · omega
      · by_cases hlast : npages = left
        · rw [hlast, Nat.sub_self]
          cases fuel with
          | zero => trivial
          | succ fuel => exact .inl rfl
        · -- the step takes the whole entry, so it has started with it
          have hlt := Nat.mul_lt_mul_of_pos_right (lt_of_le_of_ne hle hlast)
            (show 0 < pageSize by decide)
          have hfull : npages * pageSize = m.dscr.ptLvlsize e.1 := by omega
          have hstart : m.dscr.ptLvlsize e.1 ∣ vas.toNat := hstart.resolve_right (by omega)
          have hnext : (vas + BitVec.ofNat 64 (npages * pageSize)).toNat =
              vas.toNat + npages * pageSize := by
            rw [BitVec.toNat_add, BitVec.toNat_ofNat, Nat.mod_eq_of_lt (by omega),
              Nat.mod_eq_of_lt (by omega)]
          refine ih ?_ ?_ fun e' he' => .inl ?_
          · rw [hnext]
            exact Nat.dvd_add hdvd (Nat.dvd_mul_left _ _)
          · rw [hnext, Nat.sub_mul]
            omega
          · rw [hnext] at he' ⊢
            by_contra hinside
            -- an entry that starts before has the last page of the step too
            have hlvl' : e'.1 < m.dscr.lvls := by
              rw [← (leafAt_eq_some_iff.mp he').1]
              exact look_fst_lt hclosed _
            have hback : pageSize ≤ (vas.toNat + npages * pageSize) % m.dscr.ptLvlsize e'.1 := by
              refine Nat.le_of_dvd (Nat.pos_of_ne_zero fun hzero => hinside
                (Nat.dvd_of_mod_eq_zero hzero)) ?_
              exact (Nat.dvd_mod_iff (PtDscr.pageSize_dvd_ptLvlsize hlvl')).mpr
                (Nat.dvd_add hdvd (Nat.dvd_mul_left _ _))
            have hpos : pageSize ≤ m.dscr.ptLvlsize e.1 :=
              Nat.le_of_dvd PtDscr.ptLvlsize_pos (PtDscr.pageSize_dvd_ptLvlsize hlvl)
            have hlast' : m.leafAt t (vas.toNat + npages * pageSize - pageSize) = some e' :=
              leafAt_of_div_eq hclosed he' (Radix.sub_div_of_le_mod hback)
            have hself : m.leafAt t (vas.toNat + npages * pageSize - pageSize) = some e := by
              refine leafAt_of_div_eq hclosed he ?_
              obtain ⟨q, hq⟩ := hstart
              rw [hq, hfull, Nat.add_sub_assoc hpos, Nat.mul_add_div PtDscr.ptLvlsize_pos,
                Nat.div_eq_of_lt (Nat.sub_lt PtDscr.ptLvlsize_pos (by decide)), Nat.add_zero,
                Nat.mul_div_cancel_left _ PtDscr.ptLvlsize_pos]
            obtain rfl := Option.some.inj (hself.symm.trans hlast')
            exact hinside (Nat.dvd_add hstart (dvd_of_eq hfull.symm))

end Mmu

variable {m : Mmu} {c : Coloring} {colors : ColorMap} {rounds n : ℕ} {t t' : PtEntries}
  {pools pools' : List PagePool} {reg : VmMemRegion} {config : VmConfig} {s s' : VmMem}
  {regs : List VmMemRegion} {mem : PhysMem}

/-! ## What the rounds take from the pools -/

namespace Mmu

theorem replays_vmMapMemRegion (hfits : reg.Fits m c) (hsec : m.sections = [⟨0, maxVa⟩])
    (hclosed : m.Closed t) (hmark : m.Unmarked t) (hclr : c.allClrs colors = true)
    (h : m.vmMapMemRegion c colors rounds t pools reg = some (t', pools')) :
    ∃ log, Client.Replays ppAllocAt pools log pools' ∧
      (∀ e ∈ log, e.1.numPages.toNat ≤ reg.pageNum) ∧
        (reg.placePhys = false → m.Draws log t' reg.base.toNat reg.pageNum) := by
  rw [vmMapMemRegion, hfits.targetVa_base] at h
  obtain ⟨⟨t₁, pools₁, va⟩, hmap, h⟩ := Option.bind_eq_some_iff.mp h
  dsimp only at h
  split_ifs at h with hva
  cases h
  obtain ⟨log, hlog, hnum, hdraws⟩ := memAllocMap_draws hsec hclosed hmark m.fmt.vmFlags_ok
    hfits.pageNum_mul_le hclr hmap
  refine ⟨log, hlog, hnum, fun hphys => hdraws ?_ (by rw [hva, Option.isSome_some])⟩
  rw [VmMemRegion.ppages, hphys, if_neg Bool.false_ne_true]

end Mmu

namespace VmConfig

theorem InplaceCalls.replays {r : InplaceMaps} {t₁ t₂ : PtEntries} {pools₁ pools₂ : List PagePool}
    (h : config.InplaceCalls reg m c colors rounds t pools r t₁ t₂ pools₁ pools₂)
    (hfits : reg.Fits m c) (hin : config.imgIsInRgn reg = true)
    (hsec : m.sections = [⟨0, maxVa⟩]) (hclosed : m.Closed t) (hmark : m.Unmarked t)
    (hclr : c.allClrs colors = true) :
    ∃ log, Client.Replays ppAllocAt pools log r.pools ∧
      ∀ e ∈ log, e.1.numPages.toNat ≤ reg.pageNum := by
  obtain ⟨⟨hbefore, himg, haft⟩, -⟩ := inplacePages_le hfits hin
  obtain ⟨hk₁, hk₂, -⟩ := h.keeps hfits hin hsec hclosed hmark hclr
  have hroom : ∀ {n : ℕ}, n ≤ reg.pageNum → n * pageSize ≤ m.dscr.shape.span := fun hle =>
    (Nat.mul_le_mul_right _ hle).trans hfits.pageNum_mul_le
  obtain ⟨log₁, hlog₁, hnum₁, -⟩ := Mmu.memAllocMap_draws hsec hclosed hmark m.fmt.vmFlags_ok
    (hroom hbefore) hclr h.before
  obtain ⟨log₂, hlog₂, hnum₂, -⟩ := Mmu.memAllocMap_draws hsec hk₁.closed hk₁.unmarked
    m.fmt.vmFlags_ok (hroom himg) hclr h.img
  obtain ⟨log₃, hlog₃, hnum₃, -⟩ := Mmu.memAllocMap_draws hsec hk₂.closed hk₂.unmarked
    m.fmt.vmFlags_ok (hroom haft) hclr h.aft
  refine ⟨log₁ ++ (log₂ ++ log₃), hlog₁.append (hlog₂.append hlog₃), fun e he => ?_⟩
  rcases List.mem_append.mp he with he | he
  · exact (hnum₁ e he).trans hbefore
  rcases List.mem_append.mp he with he | he
  · exact (hnum₂ e he).trans himg
  · exact (hnum₃ e he).trans haft

theorem replays_vmInitMemRegion (hfit : config.RegionsFit m c colors) (hreg : reg ∈ config.regions)
    (hclosed : m.Closed s.tables) (hmark : m.Unmarked s.tables)
    (h : config.vmInitMemRegion m c colors rounds s reg = some s') :
    ∃ log, Client.Replays ppAllocAt s.pools log s'.pools ∧
      ∀ e ∈ log, e.1.numPages.toNat ≤ reg.pageNum := by
  have hfits := hfit.region reg hreg
  have hmapped : ∀ {t' pools'},
      m.vmMapMemRegion c colors rounds s.tables s.pools reg = some (t', pools') →
        ∃ log, Client.Replays ppAllocAt s.pools log pools' ∧
          ∀ e ∈ log, e.1.numPages.toNat ≤ reg.pageNum := by
    intro t' pools' hmap
    obtain ⟨log, hlog, hnum, -⟩ :=
      Mmu.replays_vmMapMemRegion hfits hfit.sections hclosed hmark hfit.colors hmap
    exact ⟨log, hlog, hnum⟩
  rw [vmInitMemRegion] at h
  split_ifs at h with hin hinplace
  · obtain ⟨r, hr, heq⟩ := Option.map_eq_some_iff.mp h
    cases heq
    obtain ⟨t₁, t₂, pools₁, pools₂, hcalls⟩ := inplaceCalls_of_vmMapImgRgnInplace hfits hin hr
    exact hcalls.replays hfits hin hfit.sections hclosed hmark hfit.colors
  · obtain ⟨⟨t', pools'⟩, hmap, h⟩ := Option.bind_eq_some_iff.mp h
    obtain ⟨mem, -, heq⟩ := Option.map_eq_some_iff.mp h
    cases heq
    exact hmapped hmap
  · obtain ⟨⟨t', pools'⟩, hmap, heq⟩ := Option.map_eq_some_iff.mp h
    cases heq
    exact hmapped hmap

theorem replays_foldlM (hfit : config.RegionsFit m c colors)
    (hregs : ∀ reg ∈ regs, reg ∈ config.regions) (hn : ∀ reg ∈ config.regions, reg.pageNum ≤ n)
    (hclosed : m.Closed s.tables) (hmark : m.Unmarked s.tables)
    (h : regs.foldlM (config.vmInitMemRegion m c colors rounds) s = some s') :
    ∃ log, Client.Replays ppAllocAt s.pools log s'.pools ∧
      ∀ e ∈ log, e.1.numPages.toNat ≤ n := by
  induction regs generalizing s with
  | nil =>
      cases h
      exact ⟨[], rfl, by simp⟩
  | cons reg regs ih =>
      rw [List.forall_mem_cons] at hregs
      rw [List.foldlM_cons] at h
      obtain ⟨s₁, hstep, h⟩ := Option.bind_eq_some_iff.mp h
      have hkeeps := keeps_vmInitMemRegion hfit hregs.1 hclosed hmark hstep
      obtain ⟨log, hlog, hnum⟩ := replays_vmInitMemRegion hfit hregs.1 hclosed hmark hstep
      obtain ⟨log', hlog', hnum'⟩ := ih hregs.2 hkeeps.closed hkeeps.unmarked h
      refine ⟨log ++ log', hlog.append hlog', fun e he => ?_⟩
      rcases List.mem_append.mp he with he | he
      · exact (hnum e he).trans (hn reg hregs.1)
      · exact hnum' e he

/-- The region of a copied image gets its pages from calls for the pools, unless it is placed
physically. -/
theorem draws_of_copied (hfit : config.RegionsFit m c colors) (hclosed : m.Closed t)
    (hmark : m.Unmarked t) (hn : ∀ reg ∈ config.regions, reg.pageNum ≤ n)
    (hreg : config.imageRegion = some reg) (hcopied : ¬ config.IsInplace reg)
    (hphys : reg.placePhys = false)
    (h : config.vmInitMemRegions m c colors rounds ⟨t, pools, mem⟩ = some s) :
    ∃ log pools', Client.Replays ppAllocAt pools log pools' ∧
      (∀ e ∈ log, e.1.numPages.toNat ≤ n) ∧
        m.Draws log s.tables reg.base.toNat reg.pageNum := by
  obtain ⟨hin, pre, post, hregions, -⟩ := List.find?_eq_some_iff_append.mp hreg
  have hmem : ∀ reg' ∈ pre ++ reg :: post, reg' ∈ config.regions := fun _ h => hregions ▸ h
  rw [List.forall_mem_append, List.forall_mem_cons] at hmem
  obtain ⟨hpre, hself, hpost⟩ := hmem
  have hfits := hfit.region reg hself
  rw [vmInitMemRegions, hregions, List.foldlM_append] at h
  obtain ⟨s₀, h₀, h⟩ := Option.bind_eq_some_iff.mp h
  rw [List.foldlM_cons] at h
  obtain ⟨s₁, h₁, h₂⟩ := Option.bind_eq_some_iff.mp h
  have hkeeps₀ := keeps_foldlM hfit hpre hclosed hmark h₀
  obtain ⟨log₀, hlog₀, hnum₀⟩ := replays_foldlM hfit hpre hn hclosed hmark h₀
  rw [vmInitMemRegion_of_copied m c colors rounds ⟨hin, hcopied⟩ s₀ s₀.mem] at h₁
  obtain ⟨⟨t₁, pools₁⟩, hmap, hinst⟩ := Option.bind_eq_some_iff.mp h₁
  obtain ⟨mem₁, -, rfl⟩ := Option.map_eq_some_iff.mp hinst
  obtain ⟨-, hbacks, -⟩ := Mmu.vmMapMemRegion_backs hfits hfit.sections hkeeps₀.closed
    hkeeps₀.unmarked hfit.colors hmap
  obtain ⟨log₁, hlog₁, hnum₁, hdraws⟩ := Mmu.replays_vmMapMemRegion hfits hfit.sections
    hkeeps₀.closed hkeeps₀.unmarked hfit.colors hmap
  have hkeeps := keeps_foldlM hfit hpost hbacks.closed hbacks.unmarked h₂
  refine ⟨log₀ ++ log₁, pools₁, hlog₀.append hlog₁, fun e he => ?_,
    ((hdraws hphys).mono (List.sublist_append_right _ _)).keeps hkeeps hbacks.backed⟩
  rcases List.mem_append.mp he with he | he
  · exact hnum₀ e he
  · exact (hnum₁ e he).trans (hn reg hself)

/-! ## Images that are copied -/

/-- The image starts inside an entry of the level, of which the region has the start, and ends
behind it. -/
def Straddles (config : VmConfig) (m : Mmu) (reg : VmMemRegion) (lvl : ℕ) : Prop :=
  m.dscr.lvlTerm lvl = true ∧
    reg.base.toNat ≤
      config.image.baseAddr.toNat / m.dscr.ptLvlsize lvl * m.dscr.ptLvlsize lvl ∧
    config.image.baseAddr.toNat / m.dscr.ptLvlsize lvl * m.dscr.ptLvlsize lvl <
      config.image.baseAddr.toNat ∧
    (config.image.baseAddr.toNat / m.dscr.ptLvlsize lvl + 1) * m.dscr.ptLvlsize lvl <
      config.image.baseAddr.toNat + config.image.size.toNat

end VmConfig

/-- A pool has `n` free pages at a place where they are aligned. -/
def HasAligned (pools : List PagePool) (n : ℕ) : Prop :=
  ∃ pool ∈ pools, ∃ bit < pool.size.toNat, (pool.firstPage + bit) % n = 0 ∧
    ∀ x < n, pool.bits (bit + x) = false

/-- What is behind an entry was free before the calls. -/
theorem Mmu.Drawn.hasAligned {log : List (PoolCall × Option Addr)} {e : ℕ × Pte}
    (h : m.Drawn log e) (hlvl : e.1 < m.dscr.lvls)
    (hlog : Client.Replays ppAllocAt pools log pools') :
    HasAligned pools (m.dscr.lvlPages e.1) := by
  obtain ⟨-, k, base, hmem, -⟩ := h
  have hcount : (BitVec.ofNat 64 (m.dscr.lvlPages e.1)).toNat = m.dscr.lvlPages e.1 :=
    Nat.mod_eq_of_lt (Mmu.lvlPages_lt hlvl)
  have hne : BitVec.ofNat 64 (m.dscr.lvlPages e.1) ≠ 0#64 := by
    intro hzero
    rw [hzero] at hcount
    exact (PtDscr.lvlPages_pos hlvl).ne hcount
  obtain ⟨place, bit, htaken⟩ := (served_replays hlog).taken _ base hmem hne
  have hget := htaken.takes.get
  rw [places, List.getElem?_map, Option.map_eq_some_iff] at hget
  obtain ⟨pool, hpool, rfl⟩ := hget
  have haligned := htaken.takes.aligned rfl
  dsimp only at haligned hpool
  rw [hcount] at haligned
  refine ⟨pool, List.mem_of_getElem? hpool, bit, htaken.takes.lt_size, haligned, fun x hx => ?_⟩
  have hfree := htaken.free x (by rwa [hcount])
  rw [← Bool.not_eq_true]
  exact fun hbit => hfree ⟨pool, hpool, hbit⟩

namespace VmConfig

section Copied

variable {log : List (PoolCall × Option Addr)} (hfits : reg.Fits m c)
  (hin : config.imgIsInRgn reg = true) (h : RegionBacked m t reg)
  (hdraws : m.Draws log t reg.base.toNat reg.pageNum)

include hfits hin h hdraws

theorem distinctBytes_of_draws (hsound : Sound m.fmt.addrWidth log) :
    config.DistinctBytes (m.addrSpace t) := by
  have hbyte : ∀ k < config.image.size.toNat, ∃ e pa,
      m.leafAt t (reg.base.toNat + (config.image.baseAddr.toNat - reg.base.toNat + k)) = some e ∧
        (m.addrSpace t).translate (config.imageAddr k) = some pa ∧
        pa.toNat / pageSize = m.pageOf e
          (reg.base.toNat + (config.image.baseAddr.toNat - reg.base.toNat + k)) ∧
        pa.toNat % pageSize =
          (reg.base.toNat + (config.image.baseAddr.toNat - reg.base.toNat + k)) % pageSize := by
    intro k hk
    obtain ⟨haddr, hlt⟩ := toNat_imageAddr hfits hin hk
    obtain ⟨e, he⟩ := Option.isSome_iff_exists.mp (h.backed _ hlt)
    have hdrawn := hdraws.drawn _ hlt e he
    rw [← haddr] at he ⊢
    obtain ⟨pa, htrans, -, hpage, hoff⟩ := hdrawn.toNat_translate h.closed he hsound
    exact ⟨e, pa, he, htrans, hpage, hoff⟩
  intro j hj k hk heq
  obtain ⟨e, pa, he, htrans, hpage, hoff⟩ := hbyte j hj
  obtain ⟨e', pa', he', htrans', hpage', hoff'⟩ := hbyte k hk
  rw [htrans, htrans', Option.some.injEq] at heq
  obtain ⟨-, hlt⟩ := toNat_imageAddr hfits hin hj
  obtain ⟨-, hlt'⟩ := toNat_imageAddr hfits hin hk
  have hsame := hdraws.sole hsound _ hlt _ hlt' e e' he he' (by rw [← hpage, ← hpage', heq])
  rw [heq, hoff'] at hoff
  unfold pageSize at *
  omega

theorem cpyFollows_of_draws (hsize : 0 < config.image.size.toNat)
    (hdvd : pageSize ∣ config.image.baseAddr.toNat)
    (hlog : Client.Replays ppAllocAt pools log pools')
    (hstraddles : ∀ lvl, config.Straddles m reg lvl → ¬ HasAligned pools (m.dscr.lvlPages lvl)) :
    (m.addrSpace t).CpyFollows config.imgNumPages config.image.baseAddr config.imgNumPages := by
  obtain ⟨hlow, hhigh⟩ := bounds_of_imgIsInRgn hfits hin
  have hextent : reg.base.toNat + reg.size.toNat + pageSize < 2 ^ 64 := hfits.extent
  have hpages := imgNumPages_eq (imgNumPages_fits hfits hin)
  obtain ⟨-, hlt⟩ := toNat_imageAddr hfits hin hsize
  rw [Nat.add_zero] at hlt
  refine Mmu.cpyFollows_of_first h.closed hdvd ?_ fun e he => ?_
  · rw [hpages]
    unfold pageSize at *
    omega
  have hlvl : e.1 < m.dscr.lvls := by
    rw [← (Mmu.leafAt_eq_some_iff.mp he).1]
    exact Mmu.look_fst_lt h.closed _
  rw [← Nat.add_sub_cancel' hlow] at he
  have hdrawn := hdraws.drawn _ hlt e he
  have hstart := hdraws.start _ hlt e he
  rw [Nat.add_sub_cancel' hlow] at hstart
  by_contra hnot
  rw [not_or, not_le] at hnot
  obtain ⟨hinside, hbehind⟩ := hnot
  refine hstraddles e.1 ⟨hdrawn.1, ?_⟩ (hdrawn.hasAligned hlvl hlog)
  have hsplit := Nat.div_add_mod' config.image.baseAddr.toNat (m.dscr.ptLvlsize e.1)
  have hpos := Nat.pos_of_ne_zero fun hzero => hinside (Nat.dvd_of_mod_eq_zero hzero)
  have hsize : 0 < m.dscr.ptLvlsize e.1 := PtDscr.ptLvlsize_pos
  have hmod := Nat.mod_lt config.image.baseAddr.toNat hsize
  refine ⟨by omega, by omega, ?_⟩
  rw [Nat.add_mul, Nat.one_mul]
  -- the entry ends with a page, and so do the pages of the image
  obtain ⟨p, hp⟩ := PtDscr.pageSize_dvd_ptLvlsize hlvl
  obtain ⟨q, hq⟩ := (Nat.dvd_mod_iff (PtDscr.pageSize_dvd_ptLvlsize hlvl)).mpr hdvd
  rw [hpages] at hbehind
  unfold pageSize at *
  omega

end Copied

/-- The image of a region that gets its pages from the pools reads back, if it ends in the superpage
that it starts in, or the pools have none. -/
theorem readsImage_of_copied (hfit : config.RegionsFit m c colors) (hwf : m.WellFormed t)
    (hreg : config.imageRegion = some reg) (hn : ∀ reg ∈ config.regions, reg.pageNum ≤ n)
    (hret : config.vmInitMemRegions m c colors rounds ⟨t, pools, mem⟩ = some s)
    (hapart : config.LoadApart (m.addrSpace s.tables)) (hphys : reg.placePhys = false)
    (hplace : config.image.inplace = false) (hpools : PoolsApart pools n m.fmt.addrWidth)
    (hstraddles : ∀ lvl, config.Straddles m reg lvl →
      ¬ HasAligned pools (m.dscr.lvlPages lvl)) :
    config.ReadsImage m c colors rounds t pools := by
  have hin : config.imgIsInRgn reg = true := List.find?_some hreg
  have hfits := hfit.region reg (List.mem_of_find?_eq_some hreg)
  have hcopied : ¬ config.IsInplace reg := fun hinplace =>
    absurd hinplace.2 (by rw [hplace]; exact Bool.false_ne_true)
  obtain ⟨hregion, hrun⟩ := vmInitMemRegions_of_copied hfit hwf.closed hwf.table hreg hcopied hret
  obtain ⟨log, pools', hlog, hnum, hdraws⟩ :=
    draws_of_copied hfit hwf.closed hwf.table hn hreg hcopied hphys hret
  obtain ⟨mem', hmem⟩ : ∃ mem',
      config.vmInstallImage (m.addrSpace s.tables) reg mem = some mem' := by
    rw [hrun] at hret
    obtain ⟨mem', hmem, -⟩ := Option.map_eq_some_iff.mp hret
    exact ⟨mem', hmem⟩
  obtain ⟨hiff, hdvd, -⟩ := installs_iff_of_backed hfit hfits hin hregion (fun hinstalled =>
    absurd hinstalled.1 (by rw [hphys]; exact Bool.false_ne_true)) hapart hmem
  rw [readsImage_iff_installs rfl hrun, hiff]
  exact ⟨distinctBytes_of_draws hfits hin hregion hdraws (sound_of_poolsApart hlog hpools hnum),
    cpyFollows_of_draws hfits hin hregion hdraws hfit.size_pos hdvd hlog hstraddles⟩

end VmConfig

end BaoHypervisor
