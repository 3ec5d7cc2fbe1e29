import BaoHypervisor.Core.Mem.PageTable.MapCpy
import BaoHypervisor.Core.Mem.PageTable.Space

/-!
# Windows in page tables

A window of `Core.Mem.AddrSpace` is a list of pages. Here it is related to the page tables: what
`mem_map` and `mem_map_cpy` leave in the tables of the hypervisor translates to the addresses of the
window, as far as there is room for them in its section and in entries.
-/

namespace BaoHypervisor

namespace Mmu

variable {m ms : Mmu} {t t' ts : PtEntries} {k left fuel n v : ℕ} {vas pa : Addr}
  {pages : List Addr}

theorem ShowsFrom.translate_window (h : m.ShowsFrom t v pa n)
    (hroom : pa.toNat + n * pageSize ≤ 2 ^ m.fmt.addrWidth)
    (hpages : BaoHypervisor.memMap pa n = some pages) {x : ℕ} (hx : x < n * pageSize) :
    m.memTranslate t (v + x) = some (windowAddr pages x) := by
  rw [BaoHypervisor.memMap] at hpages
  split_ifs at hpages
  rw [h.translate_of_le hroom hx, ← Option.some.inj hpages, windowAddr_range hx]

/-- The pages of a window are those of the calls of `mem_map`. -/
theorem getD_memMapCpyLoop (hws : ms.WellFormed ts)
    (h : BaoHypervisor.memMapCpyLoop (ms.addrSpace ts) fuel (pageAddr vas k) left = some pages) :
    ∀ e ∈ ms.cpyChunks ts vas.toNat fuel k left, ∃ pa,
      ms.memTranslate ts (vas.toNat + e.1 * pageSize) = some pa ∧
        ∀ i < e.2, pages.getD (e.1 - k + i) 0#64 = pageAddr pa i := by
  induction fuel generalizing k left pages with
  | zero => exact fun e he => by cases he
  | succ fuel ih =>
      rw [BaoHypervisor.memMapCpyLoop] at h
      rw [cpyChunks]
      by_cases hleft : left = 0
      · rw [if_pos hleft]
        exact fun e he => by cases he
      rw [if_neg hleft] at h ⊢
      obtain ⟨leaf, hleaf, h⟩ := Option.bind_eq_some_iff.mp h
      obtain ⟨first, hfirst, h⟩ := Option.bind_eq_some_iff.mp h
      obtain ⟨rest, hrest, rfl⟩ := Option.map_eq_some_iff.mp h
      obtain ⟨e, he, hsize⟩ := addrSpace_eq_some hws.closed hleaf
      have haddr : (pageAddr vas k).toNat = (vas.toNat + k * pageSize) % 2 ^ 64 := by
        rw [pageAddr, BitVec.toNat_add, BitVec.toNat_ofNat, Nat.add_mod_mod]
      have htrans : ms.memTranslate ts (vas.toNat + k * pageSize) =
          some (AddrSpace.physAddr leaf (pageAddr vas k)) := by
        have hmod := memTranslate_add_mod_two_pow hws.closed (vas.toNat + k * pageSize) 0
        rw [Nat.add_zero, Nat.add_zero, ← haddr] at hmod
        rw [← hmod, ← translate_eq_memTranslate hws.closed fun e he => (leaf_spec hws he).2.2.2.2,
          AddrSpace.translate, hleaf, Option.map_some]
      rw [haddr, leafAt_congr (look_mod_two_pow hws.closed _)] at he
      rw [cpyLvl_cpyVa hws he]
      dsimp only
      obtain ⟨npages, hnpages⟩ : ∃ npages, npages =
          (min (left * pageSize) leaf.lvlSize.toNat + (pageSize - 1)) / pageSize := ⟨_, rfl⟩
      have hcpy : ms.cpyPages e.1 left = npages := by
        rw [hnpages, cpyPages, hsize, Nat.min_comm, Nat.add_sub_assoc (by decide)]
      obtain ⟨hstep, hle⟩ := leaf.stepPages_spec hnpages
      rw [← hnpages, BaoHypervisor.memMap] at hfirst
      split_ifs at hfirst
      obtain rfl := Option.some.inj hfirst
      rw [← hnpages, hstep] at hrest
      have hnext : pageAddr vas k + BitVec.ofNat 64 (npages * pageSize) =
          pageAddr vas (k + npages) := pageAddr_pageAddr vas k npages
      rw [hnext] at hrest
      have hlen : ((List.range npages).map
          (pageAddr (AddrSpace.physAddr leaf (pageAddr vas k)))).length = npages := by
        rw [List.length_map, List.length_range]
      rw [hcpy]
      intro e' he'
      rcases List.mem_cons.mp he' with rfl | he'
      · refine ⟨_, htrans, fun i hi => ?_⟩
        dsimp only at hi
        rw [Nat.sub_self, Nat.zero_add, List.getD_append _ _ _ _ (by rw [hlen]; exact hi),
          List.getD_eq_getElem?_getD, List.getElem?_map, List.getElem?_range hi, Option.map_some,
          Option.getD_some]
      · obtain ⟨pa, hpa, hget⟩ := ih hrest e' he'
        obtain ⟨hge, -⟩ := mem_cpyChunks he'
        refine ⟨pa, hpa, fun i hi => ?_⟩
        rw [← hget i hi, List.getD_append_right _ _ _ _ (by rw [hlen]; omega), hlen]
        congr 1
        omega

/-- The window that `mem_map_cpy` makes in the tables of the hypervisor is the list of pages, if the
window is in its section and entries have room for the pages of each call of `mem_map`. -/
theorem exists_memMapCpy_window {rounds : ℕ} {at' : Option ℕ} {sec : VaSection} {t₁ : PtEntries}
    (hws : ms.WellFormed ts) (hwf : m.WellFormed t) (hn : 0 < n)
    (hspan : n * pageSize ≤ m.dscr.shape.span) (hsec : m.sections[secHypGlobal]? = some sec)
    (hlast : sec.last ≤ maxVa) (hvas : pageSize ∣ vas.toNat)
    (hmapped : ∀ i < n, (ms.leafAt ts (vas.toNat + i * pageSize)).isSome = true)
    (halloc : m.memAllocVpage n rounds t secHypGlobal at' = some (t₁, some v))
    (hin : ∀ e ∈ ms.cpyChunks ts vas.toNat n 0 n, m.InSection (cpyVa v e.1) e.2)
    (hroom : ∀ e ∈ ms.cpyChunks ts vas.toNat n 0 n, ∀ pa,
      ms.memTranslate ts (vas.toNat + e.1 * pageSize) = some pa →
        pa.toNat + e.2 * pageSize ≤ 2 ^ m.fmt.addrWidth)
    (hpages : BaoHypervisor.memMapCpy (ms.addrSpace ts) vas n = some pages) :
    ∃ t', m.memMapCpy ms ts rounds t vas.toNat at' n = some (t', some v) ∧
      ∀ x < n * pageSize, m.memTranslate t' (v + x) = some (windowAddr pages x) := by
  obtain ⟨-, -, -, -, -, hreserves⟩ :=
    (memAllocVpage_eq_some_iff hwf.closed hwf.table hspan hn hsec hlast).mp halloc
  have hv : v + 0 * pageSize = v := by rw [Nat.zero_mul, Nat.add_zero]
  obtain ⟨t', hloop, -, hshows⟩ := @memMapCpyLoop_spec m ms t₁ ts vas.toNat v 0 n n hws
    hreserves.closed hvas (pageSize_dvd_memAllocVpage hwf.closed hwf.table hspan hn hsec hlast
    halloc) hspan le_rfl (fun i _ hi => hmapped i (by omega)) fun x hx => by
      rw [hv, hreserves.leafAt]
      exact ⟨(hreserves.free x hx).leafAt, hreserves.term x hx⟩
  have hcall : m.memMapCpy ms ts rounds t vas.toNat at' n = some (t', some v) := by
    rw [memMapCpy, halloc, Option.bind_some]
    dsimp only
    rw [Option.getD_some, hloop, Option.map_some]
  refine ⟨t', hcall, fun x hx => ?_⟩
  have hpage : x / pageSize < n := Nat.div_lt_of_lt_mul (Nat.mul_comm _ _ ▸ hx)
  obtain ⟨e, he, hge, hlt⟩ := @exists_mem_cpyChunks ms ts vas.toNat 0 n n hws
    (fun j _ hj => hmapped j (by omega)) le_rfl (x / pageSize) (Nat.zero_le _) (by omega)
  have hzero : pageAddr vas 0 = vas := pageAddr_zero vas
  rw [BaoHypervisor.memMapCpy, ← hzero] at hpages
  obtain ⟨pa, hpa, hget⟩ := getD_memMapCpyLoop hws hpages e he
  obtain ⟨i, hi⟩ := Nat.exists_eq_add_of_le hge
  have hsplit := Nat.div_add_mod' x pageSize
  rw [hi, Nat.add_mul] at hsplit
  have hmod := Nat.mod_lt x (show 0 < pageSize by decide)
  have hmul : (i + 1) * pageSize ≤ e.2 * pageSize := Nat.mul_le_mul_right _ (by omega)
  rw [Nat.add_mul, Nat.one_mul] at hmul
  have hx' : v + x = v + e.1 * pageSize + (i * pageSize + x % pageSize) := by
    rw [Nat.add_assoc v, ← Nat.add_assoc (e.1 * pageSize), hsplit]
  have hlow := hroom e he pa hpa
  have hgeti := hget i (by omega)
  rw [Nat.sub_zero] at hgeti
  rw [hx', hshows e he _ (by omega), shows, if_pos (hin e he), hpa, Option.map_some, windowAddr, hi,
    hgeti, Nat.mod_eq_of_lt (by omega), pageAddr, BitVec.add_assoc, ← BitVec.ofNat_add,
    BitVec.ofNat_add, BitVec.ofNat_toNat, BitVec.setWidth_eq]

end Mmu

end BaoHypervisor
