import BaoHypervisor.Core.Mem.PageTable.Space
import BaoHypervisor.Core.Recovery.Image
import Mathlib.Data.List.GetD

/-!
# Installing an image

Whether the guest reads the image after `vm_install_image`. Where the image is taken to be
installed, nothing is copied, and what the guest reads is the image iff its memory is the load
range. Else the window that `mem_map_cpy` maps has to show the pages of the image. It does so iff
the pages of each of its steps follow each other, because a step is as long as the level of the
entry that it starts in.
-/

namespace BaoHypervisor

namespace AddrSpace

/-- The pages of each step of `mem_map_cpy` follow each other. -/
def CpyFollows (ass : AddrSpace) : ℕ → Addr → ℕ → Prop
  | 0, _, _ => True
  | fuel + 1, vas, left =>
      left = 0 ∨ ∀ leaf, ass vas = some leaf →
        let size := min (left * pageSize) leaf.lvlSize.toNat
        let npages := (size + (pageSize - 1)) / pageSize
        (∀ i < npages, ass.translate (pageAddr vas i) = some (pageAddr (physAddr leaf vas) i)) ∧
          CpyFollows ass fuel (vas + BitVec.ofNat 64 size) (left - npages)

/-- The addresses of a page translate with their offset. -/
def PageWise (as : AddrSpace) : Prop :=
  ∀ va : Addr, pageSize ∣ va.toNat → ∀ o < pageSize,
    as.translate (va + BitVec.ofNat 64 o) = (as.translate va).map (· + BitVec.ofNat 64 o)

end AddrSpace

/-- A window shows the pages of its source iff the pages of each step follow each other. -/
theorem memMapCpyLoop_shows_iff {ass : AddrSpace} {fuel n : ℕ} {vas : Addr} {pages : List Addr}
    (h : memMapCpyLoop ass fuel vas n = some pages) :
    pages.length = n ∧ (ass.CpyFollows fuel vas n ↔
      ∀ i < n, ass.translate (pageAddr vas i) = some (pages.getD i 0#64)) := by
  induction fuel generalizing vas n pages with
  | zero =>
      rw [memMapCpyLoop] at h
      split_ifs at h with hn
      cases h
      rw [hn]
      exact ⟨rfl, iff_of_true trivial fun i hi => absurd hi (Nat.not_lt_zero i)⟩
  | succ fuel ih =>
      rw [memMapCpyLoop] at h
      split_ifs at h with hn
      · cases h
        rw [hn]
        exact ⟨rfl, iff_of_true (.inl rfl) fun i hi => absurd hi (Nat.not_lt_zero i)⟩
      · obtain ⟨leaf, hleaf, h⟩ := Option.bind_eq_some_iff.mp h
        obtain ⟨first, hfirst, h⟩ := Option.bind_eq_some_iff.mp h
        obtain ⟨rest, hrest, rfl⟩ := Option.map_eq_some_iff.mp h
        obtain ⟨npages, hnpages⟩ : ∃ npages, npages =
            (min (n * pageSize) leaf.lvlSize.toNat + (pageSize - 1)) / pageSize := ⟨_, rfl⟩
        have hsize := leaf.stepPages_spec hnpages
        rw [← hnpages] at hfirst hrest
        have hfirst := VmConfig.eq_of_memMap hfirst
        have hlen : first.length = npages := by rw [hfirst, List.length_map, List.length_range]
        rw [hsize.1] at hrest
        obtain ⟨hrestLen, hrestShows⟩ := ih hrest
        refine ⟨by rw [List.length_append, hlen, hrestLen]; omega, ?_⟩
        have hget : ∀ i < npages,
            (first ++ rest).getD i 0#64 = pageAddr (AddrSpace.physAddr leaf vas) i := by
          intro i hi
          rw [List.getD_append _ _ _ _ (by rw [hlen]; exact hi), hfirst, List.getD_eq_getElem?_getD,
            List.getElem?_map, List.getElem?_range hi, Option.map_some, Option.getD_some]
        have hget' : ∀ i, (first ++ rest).getD (npages + i) 0#64 = rest.getD i 0#64 := by
          intro i
          rw [List.getD_append_right _ _ _ _ (by rw [hlen]; exact Nat.le_add_right _ _), hlen,
            Nat.add_sub_cancel_left]
        rw [AddrSpace.CpyFollows, or_iff_right hn]
        constructor
        · intro hfollow i hi
          obtain ⟨hpages, hnext⟩ := hfollow leaf hleaf
          rw [← hnpages] at hpages hnext
          rw [hsize.1] at hnext
          by_cases hlt : i < npages
          · rw [hget i hlt]
            exact hpages i hlt
          · obtain ⟨j, rfl⟩ := Nat.exists_eq_add_of_le (Nat.not_lt.mp hlt)
            rw [hget', ← pageAddr_pageAddr]
            exact hrestShows.mp hnext j (by omega)
        · intro hshows leaf' hleaf'
          obtain rfl := Option.some.inj (hleaf.symm.trans hleaf')
          dsimp only
          rw [← hnpages, hsize.1]
          refine ⟨fun i hi => ?_, hrestShows.mpr fun j hj => ?_⟩
          · rw [← hget i hi]
            exact hshows i (by omega)
          · rw [← hget' j]
            change ass.translate (pageAddr (pageAddr vas npages) j) = _
            rw [pageAddr_pageAddr]
            exact hshows _ (by omega)

namespace VmConfig

variable (config : VmConfig) (as : AddrSpace) (reg : VmMemRegion)

/-- The guest reads the loaded image after `vm_install_image`, whatever memory there was. -/
def Installs : Prop :=
  ∀ mem mem' : PhysMem, config.vmInstallImage as reg mem = some mem' →
    ∀ k < config.image.size.toNat, ∃ a, as.translate (config.imageAddr k) = some a ∧
      mem' a = mem (config.image.loadAddr + BitVec.ofNat 64 k)

/-- The memory of the image in the guest is the load range, or apart from it. -/
def LoadApart : Prop :=
  (∀ j < config.image.size.toNat, ∀ k < config.image.size.toNat,
    as.translate (config.imageAddr j) ≠ some (config.image.loadAddr + BitVec.ofNat 64 k)) ∨
      config.BackedFrom as config.image.loadAddr

/-- No two bytes of the image are the same memory in the guest. -/
def DistinctBytes : Prop :=
  ∀ j < config.image.size.toNat, ∀ k < config.image.size.toNat,
    as.translate (config.imageAddr j) = as.translate (config.imageAddr k) → j = k

variable {config as reg}

/-- A window shows the bytes of the image iff it shows its pages. -/
theorem windowAddr_eq_iff (hwise : as.PageWise) (hbase : pageSize ∣ config.image.baseAddr.toNat)
    (hfits : config.image.size.toNat + (pageSize - 1) < 2 ^ 64) (pages : List Addr) :
    (∀ i < config.imgNumPages, as.translate (pageAddr config.image.baseAddr i) =
        some (pages.getD i 0#64)) ↔
      ∀ k < config.image.size.toNat,
        as.translate (config.imageAddr k) = some (windowAddr pages k) := by
  have hpages := imgNumPages_eq hfits
  have haddr : ∀ k, config.imageAddr k = pageAddr config.image.baseAddr (k / pageSize) +
      BitVec.ofNat 64 (k % pageSize) := by
    intro k
    rw [imageAddr, pageAddr, BitVec.add_assoc, ← BitVec.ofNat_add, Nat.mul_comm, Nat.div_add_mod]
  have hsplit : ∀ k, as.translate (config.imageAddr k) =
      (as.translate (pageAddr config.image.baseAddr (k / pageSize))).map
        (· + BitVec.ofNat 64 (k % pageSize)) := by
    intro k
    rw [haddr, hwise _ (Mmu.pageSize_dvd_toNat_pageAddr hbase _) _ (Nat.mod_lt k (by decide))]
  constructor
  · intro h k hk
    have hi : k / pageSize < config.imgNumPages := by
      rw [hpages]
      unfold pageSize at *
      omega
    rw [hsplit, h _ hi, Option.map_some, windowAddr]
  · intro h i hi
    have hk : i * pageSize < config.image.size.toNat := by
      rw [hpages] at hi
      unfold pageSize at *
      omega
    have hbyte := h _ hk
    rw [imageAddr, windowAddr, Nat.mul_div_cancel i (by decide), Nat.mul_mod_left,
      BitVec.add_zero] at hbyte
    exact hbyte

/-- A copy reads back iff every byte of the guest comes from its byte of the load range. -/
theorem installs_iff_source {srcPages dstPages : List Addr} (hinstalled : ¬ config.Installed reg)
    (hoverlap : ¬ config.LoadOverlaps reg)
    (hsrc : memMap config.image.loadAddr config.imgNumPages = some srcPages)
    (hdst : memMapCpy as config.image.baseAddr config.imgNumPages = some dstPages)
    {back : ℕ → Addr} (hback : ∀ k < config.image.size.toNat,
      as.translate (config.imageAddr k) = some (back k)) :
    config.Installs as reg ↔ ∀ k < config.image.size.toNat,
      Copy.source (windowAddr dstPages) (windowAddr srcPages) config.image.size.toNat (back k) =
        config.image.loadAddr + BitVec.ofNat 64 k := by
  have hrun := vmInstallImage_of_windows hinstalled hoverlap hsrc hdst
  constructor
  · intro h k hk
    -- a memory in which only this byte is one
    obtain ⟨a, ha, hread⟩ := h (fun b =>
      if b = config.image.loadAddr + BitVec.ofNat 64 k then 1#8 else 0#8) _ (hrun _) k hk
    obtain rfl := Option.some.inj (ha.symm.trans (hback k hk))
    rw [if_pos rfl] at hread
    by_contra hne
    rw [if_neg hne] at hread
    exact absurd hread (by decide)
  · intro h mem mem' hmem k hk
    rw [hrun] at hmem
    refine ⟨back k, hback k hk, ?_⟩
    rw [← Option.some.inj hmem]
    exact congrArg mem (h k hk)

/-- A copied image reads back iff its memory in the guest has no byte twice and the pages of each
step of `mem_map_cpy` follow each other. -/
theorem installs_iff_of_copied (hwise : as.PageWise)
    (hbase : pageSize ∣ config.image.baseAddr.toNat)
    (hfits : config.image.size.toNat + (pageSize - 1) < 2 ^ 64)
    (hmapped : ∀ k < config.image.size.toNat, (as.translate (config.imageAddr k)).isSome = true)
    (hinstalled : ¬ config.Installed reg) (hapart : config.LoadApart as) {mem mem' : PhysMem}
    (hret : config.vmInstallImage as reg mem = some mem') :
    config.Installs as reg ↔ config.DistinctBytes as ∧
      as.CpyFollows config.imgNumPages config.image.baseAddr config.imgNumPages := by
  rcases vmInstallImage_cases config as reg hret with
    ⟨hskip, -⟩ | ⟨-, hoverlap, srcPages, dstPages, hsrc, hdst, -⟩
  · exact absurd hskip hinstalled
  obtain ⟨back, hback⟩ : ∃ back : ℕ → Addr, ∀ k < config.image.size.toNat,
      as.translate (config.imageAddr k) = some (back k) :=
    ⟨fun k => (as.translate (config.imageAddr k)).getD 0#64, fun k hk => by
      obtain ⟨a, ha⟩ := Option.isSome_iff_exists.mp (hmapped k hk)
      dsimp only
      rw [ha, Option.getD_some]⟩
  have hload : ∀ k < config.image.size.toNat,
      windowAddr srcPages k = config.image.loadAddr + BitVec.ofNat 64 k := fun k hk =>
    windowAddr_image hfits (eq_of_memMap hsrc) hk
  have hshows : as.CpyFollows config.imgNumPages config.image.baseAddr config.imgNumPages ↔
      ∀ k < config.image.size.toNat, windowAddr dstPages k = back k := by
    rw [(memMapCpyLoop_shows_iff hdst).2, windowAddr_eq_iff hwise hbase hfits]
    refine forall_congr' fun k => forall_congr' fun hk => ?_
    rw [hback k hk, Option.some.injEq, eq_comm]
  have hdistinct : config.DistinctBytes as ↔ ∀ j < config.image.size.toNat,
      ∀ k < config.image.size.toNat, back j = back k → j = k := by
    refine forall_congr' fun j => forall_congr' fun hj => forall_congr' fun k =>
      forall_congr' fun hk => ?_
    rw [hback j hj, hback k hk, Option.some.injEq]
  rw [installs_iff_source hinstalled hoverlap hsrc hdst hback, hshows, hdistinct]
  rcases hapart with hapart | hsame
  · have hiff := @Copy.source_eq_iff _ _ (windowAddr dstPages) (windowAddr srcPages)
      config.image.size.toNat back
      (fun j hj k hk heq => byteAddr_injOn hj hk (by rw [← hload j hj, ← hload k hk, heq]))
      fun j hj k hk heq => hapart k hk j hj (by rw [hback k hk, ← hload j hj, heq])
    rw [← hiff]
    refine forall_congr' fun k => forall_congr' fun hk => ?_
    rw [hload k hk]
  · have heq : ∀ k < config.image.size.toNat,
        back k = config.image.loadAddr + BitVec.ofNat 64 k := fun k hk =>
      Option.some.inj ((hback k hk).symm.trans (hsame k hk))
    have hwindow : ∀ k < config.image.size.toNat,
        windowAddr dstPages k = config.image.loadAddr + BitVec.ofNat 64 k := fun k hk =>
      windowAddr_image hfits (memMapCpy_of_contiguous (hsame.contiguous hfits) hdst) hk
    refine iff_of_true (fun k hk => ?_) ⟨fun j hj k hk h => ?_, fun k hk => ?_⟩
    · rw [Copy.source_of_eq fun j hj => (hwindow j hj).trans (hload j hj).symm, heq k hk]
    · exact byteAddr_injOn hj hk (by rw [← heq j hj, ← heq k hk, h])
    · rw [hwindow k hk, heq k hk]

/-- An image that is not copied reads back iff its memory is the load range. -/
theorem backedFrom_iff_of_kept :
    (∀ mem : PhysMem, ∀ k < config.image.size.toNat, ∃ a,
      as.translate (config.imageAddr k) = some a ∧
        mem a = mem (config.image.loadAddr + BitVec.ofNat 64 k)) ↔
      config.BackedFrom as config.image.loadAddr := by
  constructor
  · intro h k hk
    obtain ⟨a, ha, hread⟩ := h (fun b =>
      if b = config.image.loadAddr + BitVec.ofNat 64 k then 1#8 else 0#8) k hk
    rw [if_pos rfl] at hread
    by_contra hne
    rw [ha, Option.some.injEq] at hne
    rw [if_neg hne] at hread
    exact absurd hread (by decide)
  · intro h mem k hk
    exact ⟨_, h k hk, rfl⟩

theorem installs_iff_of_installed (h : config.Installed reg) :
    config.Installs as reg ↔ config.BackedFrom as config.image.loadAddr := by
  rw [← backedFrom_iff_of_kept]
  refine forall_congr' fun mem => ⟨fun hreads => ?_, fun hreads mem' hmem => ?_⟩
  · exact hreads mem (by rw [vmInstallImage, if_pos h])
  · rw [vmInstallImage, if_pos h] at hmem
    rw [← Option.some.inj hmem]
    exact hreads

/-! ## Images in consecutive memory -/

section Backed

variable {pa : Addr} (hback : config.BackedFrom as pa)

include hback

theorem BackedFrom.distinctBytes : config.DistinctBytes as := by
  intro j hj k hk h
  rw [hback j hj, hback k hk, Option.some.injEq] at h
  exact byteAddr_injOn hj hk h

theorem BackedFrom.cpyFollows (hfits : config.image.size.toNat + (pageSize - 1) < 2 ^ 64)
    {pages : List Addr}
    (h : memMapCpy as config.image.baseAddr config.imgNumPages = some pages) :
    as.CpyFollows config.imgNumPages config.image.baseAddr config.imgNumPages := by
  have hcont := hback.contiguous hfits
  refine (memMapCpyLoop_shows_iff h).2.mpr fun i hi => ?_
  rw [memMapCpy_of_contiguous hcont h, List.getD_eq_getElem?_getD, List.getElem?_map,
    List.getElem?_range hi, Option.map_some, Option.getD_some]
  exact hcont i hi

theorem BackedFrom.iff_eq (hsize : 0 < config.image.size.toNat) (pa' : Addr) :
    config.BackedFrom as pa' ↔ pa = pa' := by
  refine ⟨fun h => ?_, fun h => h ▸ hback⟩
  have heq := Option.some.inj ((hback 0 hsize).symm.trans (h 0 hsize))
  rwa [BitVec.add_zero, BitVec.add_zero] at heq

end Backed

end VmConfig

end BaoHypervisor
