import BaoHypervisor.Core.Config
import BaoHypervisor.Core.Mem.PageTable.MapPages
import BaoHypervisor.Core.Mem.PageTable.SplitTables

/-!
# The memory of a VM

`vmm_alloc_vm` takes pages for the `struct vm` of a VM and its vCPUs from `mem_alloc_page`, which
first takes physical pages from the pools and then a range of a section to map them in. If either
is missing it returns `INVALID_VA`, the last address, and keeps the physical pages that it has. But
`vmm_alloc_vm` compares with `NULL`.

The search for the range takes pages for new tables from the pools as well, and stops in `ERROR`
where there are none. What the `memset` of the pages does to them is left out, and the tables that
`mem_map` puts below reserved entries have pages of their own.
-/

namespace BaoHypervisor

/-- The index of `SEC_HYP_VM`. -/
def secHypVm : ℕ := 3

structure VmAllocation where
  base : Addr
  size : SizeT
  vm : Addr
  vcpus : Addr
deriving DecidableEq, Repr, Inhabited

/-- The sizes of `struct vm` and of `struct vcpu`, and the alignment of the latter. -/
structure VmSizes where
  vm : SizeT
  vcpu : SizeT
  vcpuAlign : SizeT

namespace VmSizes

variable (sizes : VmSizes) (cpuNum : ℕ)

def vcpusOffset : SizeT := align sizes.vm sizes.vcpuAlign

def totalSize : SizeT :=
  align (sizes.vcpusOffset + BitVec.ofNat 64 cpuNum * sizes.vcpu) (BitVec.ofNat 64 pageSize)

end VmSizes

/-- What a call of `vmm_alloc_vm` returns and leaves behind. -/
structure AllocVm where
  ok : Bool
  tables : PtEntries
  pools : List PagePool
  vmAlloc : VmAllocation

namespace Mmu

variable (m : Mmu) (c : Coloring) (colors : ColorMap) (rounds : ℕ) (t : PtEntries)
  (pools : List PagePool)

/-- `mem_alloc_page`, in the address space of the CPU. The result is `none` if no page is left for
a table, and there is no result where the call does not end, or stops in `mem_map`. -/
def memAllocPage (n : SizeT) (sectionIdx : ℕ) (physAligned : Bool) :
    Option (Option (PtEntries × List PagePool × Addr)) :=
  let (ppages, pools₁) := memAllocPpages c colors n physAligned pools
  if ppages.numPages = n then
    match m.takeTables c colors (m.vpageSplits n.toNat rounds t sectionIdx none) pools₁ with
    | none => some none
    | some pools₂ =>
        (m.memAllocMap c colors rounds t pools₂ sectionIdx (some ppages) none n.toNat
          m.fmt.hypFlags).map fun (t', pools₃, vpage) =>
            some (t', pools₃, (vpage.map (BitVec.ofNat 64)).getD (BitVec.allOnes 64))
  else some (some (t, pools₁, BitVec.allOnes 64))

def vmmAllocVm (sizes : VmSizes) (config : VmConfig) (vmAlloc : VmAllocation) :
    Option (Option AllocVm) :=
  let totalSize := sizes.totalSize config.cpuNum
  (m.memAllocPage c colors rounds t pools (numPages totalSize) secHypVm false).map
    (Option.map fun (t', pools', allocation) =>
      if allocation = 0#64 then ⟨false, t', pools', vmAlloc⟩
      else
        ⟨true, t', pools', ⟨allocation, totalSize, allocation, allocation + sizes.vcpusOffset⟩⟩)

def PhysObtained (n : SizeT) : Prop := ∃ pool ∈ pools, pool.finds c colors n false = true

/-- `mem_alloc_vpage` has the virtual range at an address, and the pools have pages for its
tables. -/
def VirtObtained (n : SizeT) (v : ℕ) : Prop :=
  (∃ t', m.memAllocVpage n.toNat rounds t secHypVm none = some (t', some v)) ∧
    (m.takeTables c colors (m.vpageSplits n.toNat rounds t secHypVm none)
      (memAllocPpages c colors n false pools).2).isSome = true

/-- The search of `mem_alloc_vpage` comes to an address, and the pools have pages for its tables. -/
def VirtFound (sec : VaSection) (n : SizeT) (v : ℕ) : Prop :=
  m.Searches sec secHypVm none ∧
    (∃ s, m.allocSearch false n.toNat sec rounds (allocStart t sec.beg) = some s ∧
      s.vpage = some v) ∧
    (m.takeTables c colors (m.vpageSplits n.toNat rounds t secHypVm none)
      (memAllocPpages c colors n false pools).2).isSome = true

def RangeIn (sec : VaSection) (base : Addr) (size : SizeT) : Prop :=
  sec.beg ≤ base.toNat ∧ base.toNat + size.toNat ≤ sec.last + 1

/-- A call that cannot obtain its pages returns `false` and changes neither the bitmaps of the pools
nor the allocation, and one that returns `true` has mapped the range of the allocation in the
section. -/
structure AllocAtomic (sec : VaSection) (n : SizeT) (vmAlloc : VmAllocation)
    (res : Option AllocVm) : Prop where
  fails : ¬ (PhysObtained c colors pools n ∧ ∃ v, m.VirtObtained c colors rounds t pools n v) →
    ∃ r, res = some r ∧ r.pools.map PagePool.bitmap = pools.map PagePool.bitmap ∧ r.ok = false ∧
      r.vmAlloc = vmAlloc
  mapped : ∀ r, res = some r → r.ok = true →
    (∀ x < r.vmAlloc.size.toNat,
      (m.memTranslate r.tables (r.vmAlloc.base.toNat + x)).isSome = true) ∧
        RangeIn sec r.vmAlloc.base r.vmAlloc.size

variable {m c colors rounds t pools} {n : SizeT} {sizes : VmSizes} {config : VmConfig}
  {vmAlloc : VmAllocation} {sec : VaSection} {res : Option AllocVm}

/-- What a call that returns, or stops for lack of a table, does. Without its pages it returns
`INVALID_VA`, or stops. -/
theorem memAllocPage_cases {found : Option (PtEntries × List PagePool × Addr)}
    (h : m.memAllocPage c colors rounds t pools n secHypVm false = some found) :
    (¬ (PhysObtained c colors pools n ∧ ∃ v, m.VirtObtained c colors rounds t pools n v) ∧
        ∀ t' pools' a, found = some (t', pools', a) → a = BitVec.allOnes 64) ∨
      ∃ t₁ v pools₂ t' pools' ok, PhysObtained c colors pools n ∧
        m.VirtObtained c colors rounds t pools n v ∧
        m.memAllocVpage n.toNat rounds t secHypVm none = some (t₁, some v) ∧
        m.memMapPages c colors rounds t₁ pools₂ v (some (memAllocPpages c colors n false pools).1)
          n.toNat m.fmt.hypFlags = some (t', pools', ok) ∧
        (memAllocPpages c colors n false pools).1.numPages = n ∧
        found = some (t', pools', BitVec.ofNat 64 v) := by
  rw [memAllocPage] at h
  dsimp only at h
  by_cases hnum : (memAllocPpages c colors n false pools).1.numPages = n
  swap
  · rw [if_neg hnum] at h
    cases h
    refine .inl ⟨fun ⟨hphys, v, ⟨t', hvirt⟩, _⟩ => ?_, fun t' pools' a ha => by cases ha; rfl⟩
    by_cases hn : n = 0#64
    · rw [hn] at hvirt
      exact absurd (memAllocVpage_zero hvirt).2 (Option.some_ne_none v)
    · exact hnum ((numPages_memAllocPpages hn pools).mpr hphys)
  rw [if_pos hnum] at h
  cases htables : m.takeTables c colors (m.vpageSplits n.toNat rounds t secHypVm none)
      (memAllocPpages c colors n false pools).2 with
  | none =>
      rw [htables] at h
      cases h
      refine .inl ⟨fun ⟨_, v, _, hsome⟩ => ?_, fun t' pools' a ha => by cases ha⟩
      rw [htables] at hsome
      cases hsome
  | some pools₂ =>
      rw [htables] at h
      obtain ⟨⟨t', pools', vpage⟩, hmap, rfl⟩ := Option.map_eq_some_iff.mp h
      obtain ⟨⟨t₁, address⟩, halloc, hrest⟩ := Option.bind_eq_some_iff.mp hmap
      cases address with
      | none =>
          cases hrest
          refine .inl ⟨fun ⟨_, v, ⟨t', hvirt⟩, _⟩ => ?_, fun t' pools' a ha => by cases ha; rfl⟩
          rw [halloc] at hvirt
          cases hvirt
      | some v =>
          obtain ⟨⟨t₂, pools₃, ok⟩, hpages, heq⟩ := Option.map_eq_some_iff.mp hrest
          cases heq
          have hn : n ≠ 0#64 := by
            rintro rfl
            exact absurd (memAllocVpage_zero halloc).2 (Option.some_ne_none v)
          exact .inr ⟨t₁, v, pools₂, t', pools', ok,
            (numPages_memAllocPpages hn pools).mp hnum,
            ⟨⟨t₁, halloc⟩, by rw [htables, Option.isSome_some]⟩, halloc, hpages, hnum, rfl⟩

theorem address_allocMark {s : AllocState} {r : PtEntries × Option ℕ} {n : ℕ}
    (h : m.allocMark n s = some r) : r.2 = s.vpage := by
  rw [allocMark] at h
  split at h
  · rename_i v hv _
    obtain ⟨t', -, rfl⟩ := Option.map_eq_some_iff.mp h
    exact hv.symm
  · obtain rfl := Option.some.inj h
    rfl

theorem VirtObtained.found {v : ℕ} (hsec : m.sections[secHypVm]? = some sec)
    (h : m.VirtObtained c colors rounds t pools n v) :
    m.VirtFound c colors rounds t pools sec n v := by
  obtain ⟨⟨t', hcall⟩, htables⟩ := h
  by_cases hsearch : m.Searches sec secHypVm none
  · rw [memAllocVpage_of_searches hsec hsearch] at hcall
    obtain ⟨s, hs, hmark⟩ := Option.bind_eq_some_iff.mp hcall
    exact ⟨hsearch, ⟨s, hs, (address_allocMark hmark).symm⟩, htables⟩
  · rw [memAllocVpage_of_not_searches hsec hsearch] at hcall
    cases hcall

/-- In a call that does not stop, what is found is obtained. -/
theorem VirtFound.obtained {v : ℕ} {found : Option (PtEntries × List PagePool × Addr)}
    (hsec : m.sections[secHypVm]? = some sec)
    (hcall : m.memAllocPage c colors rounds t pools n secHypVm false = some found)
    (hphys : PhysObtained c colors pools n) (h : m.VirtFound c colors rounds t pools sec n v) :
    m.VirtObtained c colors rounds t pools n v := by
  obtain ⟨hsearch, ⟨s, hs, hv⟩, htables⟩ := h
  have hn : n ≠ 0#64 := by
    rintro rfl
    cases rounds with
    | zero => cases hs
    | succ rounds =>
        cases hs
        cases hv
  obtain ⟨pools₂, hpools₂⟩ := Option.isSome_iff_exists.mp htables
  rw [memAllocPage] at hcall
  dsimp only at hcall
  rw [if_pos ((numPages_memAllocPpages hn pools).mpr hphys), hpools₂] at hcall
  obtain ⟨r, hmap, -⟩ := Option.map_eq_some_iff.mp hcall
  obtain ⟨⟨t', address⟩, halloc, -⟩ := Option.bind_eq_some_iff.mp hmap
  have hmark := halloc
  rw [memAllocVpage_of_searches hsec hsearch, Option.isSome_none, Option.getD_none, hs,
    Option.bind_some] at hmark
  obtain rfl := (address_allocMark hmark).trans hv
  exact ⟨⟨t', halloc⟩, htables⟩

/-- The whole of an allocation is made of pages. -/
theorem toNat_totalSize (sizes : VmSizes) (cpuNum : ℕ) :
    (numPages (sizes.totalSize cpuNum)).toNat * pageSize = (sizes.totalSize cpuNum).toNat := by
  obtain ⟨val, hval⟩ : ∃ val, val =
      sizes.vcpusOffset + BitVec.ofNat 64 cpuNum * sizes.vcpu + BitVec.ofNat 64 pageSize - 1#64 :=
    ⟨_, rfl⟩
  have hlt := val.isLt
  have htotal : (sizes.totalSize cpuNum).toNat = val.toNat / pageSize * pageSize := by
    rw [VmSizes.totalSize, align, ← hval, BitVec.toNat_mul, BitVec.toNat_udiv]
    exact Nat.mod_eq_of_lt ((Nat.div_mul_le_self _ _).trans_lt hlt)
  have hle : (sizes.totalSize cpuNum).toNat + (pageSize - 1) < 2 ^ 64 := by
    rw [htotal]
    unfold pageSize
    omega
  rw [toNat_numPages hle, htotal]
  unfold pageSize
  omega

/-- The pages of a call are obtained and mapped iff a pool has them and the search comes to a range
in the section, or at address 0. -/
theorem vmmAllocVm_atomic_iff (hwf : m.WellFormed t) (hsec : m.sections[secHypVm]? = some sec)
    (hlast : sec.last ≤ maxVa) (hspan : sec.last + 1 ≤ sec.beg + m.dscr.shape.span)
    (hown : ∀ a, sec.beg ≤ a → a ≤ sec.last → m.memFindSec a = some secHypVm)
    (hrun : m.vmmAllocVm c colors rounds t pools sizes config vmAlloc = some res) :
    m.AllocAtomic c colors rounds t pools sec (numPages (sizes.totalSize config.cpuNum)) vmAlloc
        res ↔
      PhysObtained c colors pools (numPages (sizes.totalSize config.cpuNum)) ∧
        ∃ v, m.VirtFound c colors rounds t pools sec (numPages (sizes.totalSize config.cpuNum)) v ∧
          (BitVec.ofNat 64 v = 0#64 ∨
            RangeIn sec (BitVec.ofNat 64 v) (sizes.totalSize config.cpuNum)) := by
  have hsize := toNat_totalSize sizes config.cpuNum
  obtain ⟨n, hn⟩ : ∃ n, n = numPages (sizes.totalSize config.cpuNum) := ⟨_, rfl⟩
  rw [vmmAllocVm] at hrun
  dsimp only at hrun
  rw [← hn] at hsize hrun ⊢
  obtain ⟨found, hpage, rfl⟩ := Option.map_eq_some_iff.mp hrun
  rcases memAllocPage_cases hpage with ⟨hnot, hinvalid⟩ |
    ⟨t₁, v, pools₂, t', pools', ok, hphys, hvirt, halloc, hmap, hnum, rfl⟩
  · refine iff_of_false (fun h => ?_) fun ⟨hphys, v, hfound, _⟩ =>
      hnot ⟨hphys, v, hfound.obtained hsec hpage hphys⟩
    obtain ⟨r, hr, -, hok, -⟩ := h.fails hnot
    obtain ⟨⟨t', pools', a⟩, hfound, rfl⟩ := Option.map_eq_some_iff.mp hr
    have hne : ¬ a = 0#64 := by
      rw [hinvalid t' pools' a hfound]
      decide
    rw [if_neg hne] at hok
    cases hok
  rw [Option.map_some]
  dsimp only
  by_cases hzero : BitVec.ofNat 64 v = 0#64
  · rw [if_pos hzero]
    refine iff_of_true ⟨fun hnot => absurd ⟨hphys, v, hvirt⟩ hnot, fun r hr hok => ?_⟩
      ⟨hphys, v, hvirt.found hsec, .inl hzero⟩
    cases hr
    cases hok
  rw [if_neg hzero]
  constructor
  · intro h
    exact ⟨hphys, v, hvirt.found hsec, .inr (h.mapped _ rfl rfl).2⟩
  · rintro ⟨-, w, hfound, hin⟩
    obtain ⟨⟨t₂, hw⟩, -⟩ := hfound.obtained hsec hpage hphys
    rw [halloc] at hw
    cases hw
    have hin := hin.resolve_left hzero
    refine ⟨fun hnot => absurd ⟨hphys, v, hvirt⟩ hnot, fun r hr _ => ?_⟩
    cases hr
    refine ⟨fun x hx => ?_, hin⟩
    dsimp only at hx ⊢
    rw [← hsize] at hx
    have hpos : 0 < n.toNat := Nat.pos_of_mul_pos_right ((Nat.zero_le x).trans_lt hx)
    obtain ⟨hbeg, hend⟩ := hin
    rw [← hsize] at hend
    have hspan' : n.toNat * pageSize ≤ m.dscr.shape.span := by omega
    obtain ⟨-, -, -, -, -, hres⟩ :=
      (memAllocVpage_eq_some_iff hwf.closed hwf.table hspan' hpos hsec hlast).mp halloc
    have hv : (BitVec.ofNat 64 v).toNat = v := by
      rw [BitVec.toNat_ofNat, Nat.mod_eq_of_lt hres.lt]
    rw [hv] at hbeg hend ⊢
    have hpages : 0 < n.toNat * pageSize := Nat.mul_pos hpos (by decide)
    have hlastPage : (v + n.toNat * pageSize + maxVa) % 2 ^ 64 = v + n.toNat * pageSize - 1 := by
      unfold maxVa at *
      omega
    rw [isSome_memTranslate]
    refine memMapPages_maps hres.closed
      (unmarked_memAllocVpage hwf.closed hwf.table hspan' hpos hsec hlast halloc)
      m.fmt.hypFlags_ok (pageSize_dvd_memAllocVpage hwf.closed hwf.table hspan' hpos hsec hlast
        halloc) hspan' ?_ (by rw [hnum]) hmap x hx
    rw [InSection, hlastPage, hown v hbeg (by omega), hown _ (by omega) (by omega)]
    exact ⟨rfl, rfl⟩

end Mmu

def vmSecMmu : Mmu :=
  Riscv.hypMmu
    [⟨0x100000, 0x1fffff⟩, ⟨0x200000, 0x2fffff⟩, ⟨0x300000, 0x3fffff⟩, ⟨0x400000, 0x40ffff⟩]
    fun lvl k => BitVec.ofNat 64 (0xa0000000 + (2048 * lvl + k) * pageSize)

def twoPageSizes : VmSizes := ⟨0x1000#64, 0x800#64, 0x10#64⟩

def oneCpuVm : VmConfig := { (default : VmConfig) with cpuNum := 1 }

def noPages : PagePool := { sixteenPages with free := 0#64, bitmap := fun _ => BitVec.allOnes 32 }

def oneCpuAlloc (pools : List PagePool) : Option (Option AllocVm) :=
  vmSecMmu.vmmAllocVm Coloring.initial 0#64 6 emptyTables pools twoPageSizes oneCpuVm default

theorem exists_oneCpuAlloc (pools : List PagePool) (va : Addr)
    (h : (oneCpuAlloc pools).map (Option.map fun r => (r.ok, r.vmAlloc.base)) =
      some (some (true, va))) :
    ∃ r, oneCpuAlloc pools = some (some r) ∧ r.ok = true ∧ r.vmAlloc.base = va := by
  obtain ⟨res, hres, hr⟩ := Option.map_eq_some_iff.mp h
  obtain ⟨r, rfl, heq⟩ := Option.map_eq_some_iff.mp hr
  rw [Prod.mk.injEq] at heq
  exact ⟨r, hres, heq.1, heq.2⟩

theorem vmmAllocVm_atomic_iff_sixteen_pages :
    ∃ r, oneCpuAlloc [sixteenPages] = some r ∧
      vmSecMmu.AllocAtomic Coloring.initial 0#64 6 emptyTables [sixteenPages]
        ⟨0x400000, 0x40ffff⟩ (numPages (twoPageSizes.totalSize oneCpuVm.cpuNum)) default r := by
  obtain ⟨r, hr, -, -⟩ := exists_oneCpuAlloc [sixteenPages] 0x400000#64 (by decide +kernel)
  have hown : ∀ a, 0x400000 ≤ a → a ≤ 0x40ffff → vmSecMmu.memFindSec a = some secHypVm := by
    intro a hbeg hend
    have hbelow : ∀ last < 0x400000, decide (a ≤ last) = false := fun last hlast =>
      decide_eq_false (by omega)
    rw [Mmu.memFindSec, vmSecMmu, Riscv.hypMmu]
    simp [List.findIdx?_cons, hbelow, hbeg, hend]
    rfl
  have hphys : Mmu.PhysObtained Coloring.initial 0#64 [sixteenPages]
      (numPages (twoPageSizes.totalSize oneCpuVm.cpuNum)) :=
    ⟨sixteenPages, List.mem_singleton.mpr rfl, by decide +kernel⟩
  have hvirt : (vmSecMmu.allocSearch false (numPages (twoPageSizes.totalSize oneCpuVm.cpuNum)).toNat
      ⟨0x400000, 0x40ffff⟩ 6 (Mmu.allocStart emptyTables 0x400000)).map AllocState.vpage =
        some (some 0x400000) := by decide +kernel
  obtain ⟨s, hs, hv⟩ := Option.map_eq_some_iff.mp hvirt
  have hsearch : vmSecMmu.Searches ⟨0x400000, 0x40ffff⟩ secHypVm none :=
    ⟨fun _ ha => absurd ha (Option.some_ne_none _).symm, by decide, by decide⟩
  refine ⟨_, hr, (Mmu.vmmAllocVm_atomic_iff (Mmu.wellFormed_emptyTables _) rfl (by decide)
    (by decide) hown hr).mpr ⟨hphys, 0x400000, ⟨hsearch, ⟨s, hs, hv⟩, by decide +kernel⟩,
      .inr ⟨by decide, by decide⟩⟩⟩

/-- Without a free page the VM is put at the last address. -/
theorem not_allocAtomic_no_pages :
    vmSecMmu.WellFormed emptyTables ∧ vmSecMmu.sections[secHypVm]? = some ⟨0x400000, 0x40ffff⟩ ∧
      ¬ Mmu.PhysObtained Coloring.initial 0#64 [noPages]
        (numPages (twoPageSizes.totalSize oneCpuVm.cpuNum)) ∧
      ∃ r, oneCpuAlloc [noPages] = some (some r) ∧ r.ok = true ∧
        r.vmAlloc.base = BitVec.allOnes 64 ∧
        ¬ vmSecMmu.AllocAtomic Coloring.initial 0#64 6 emptyTables [noPages]
          ⟨0x400000, 0x40ffff⟩ (numPages (twoPageSizes.totalSize oneCpuVm.cpuNum)) default
          (some r) := by
  have hphys : ¬ Mmu.PhysObtained Coloring.initial 0#64 [noPages]
      (numPages (twoPageSizes.totalSize oneCpuVm.cpuNum)) := by
    rintro ⟨pool, hpool, hfinds⟩
    rw [List.mem_singleton.mp hpool] at hfinds
    exact absurd hfinds (by decide +kernel)
  obtain ⟨r, hr, hok, hbase⟩ := exists_oneCpuAlloc [noPages] (BitVec.allOnes 64)
    (by decide +kernel)
  refine ⟨Mmu.wellFormed_emptyTables _, rfl, hphys, r, hr, hok, hbase, fun h => ?_⟩
  obtain ⟨r', heq, -, hfalse, -⟩ := h.fails fun ⟨hobtained, _⟩ => hphys hobtained
  cases heq
  rw [hok] at hfalse
  cases hfalse

end BaoHypervisor
