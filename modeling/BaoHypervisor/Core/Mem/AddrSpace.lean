import BaoHypervisor.Lib.Util

/-!
# Address spaces

An address space is what a walk of its page table finds: for every virtual
address the entry that maps it, a page or a superpage, if there is one. The
hypervisor reaches the memory of a guest through windows, runs of pages of its
own address space. A window is the list of the physical pages it shows; there is
always room for it and for the page tables it needs.
-/

namespace BaoHypervisor

/-- A valid page-table entry that is no table, with the size of its level, which
is a multiple of the page size. -/
structure PteLeaf where
  lvlSize : SizeT
  addr : Addr
  dvd_lvlSize : pageSize ∣ lvlSize.toNat

/-- `struct addr_space`, by the leaf entry that a walk finds for an address. -/
abbrev AddrSpace := Addr → Option PteLeaf

namespace AddrSpace

def physAddr (leaf : PteLeaf) (va : Addr) : Addr :=
  leaf.addr + (va - alignFloor va leaf.lvlSize)

def translate (as : AddrSpace) (va : Addr) : Option Addr :=
  (as va).map fun leaf => physAddr leaf va

def Maps (as : AddrSpace) (a : Addr) : Prop := ∃ va, as.translate va = some a

end AddrSpace

def pageAddr (base : Addr) (i : ℕ) : Addr := base + BitVec.ofNat 64 (i * pageSize)

/-- What `mem_map` makes a window of `n` pages show, for a run of pages without
colours: these pages. An address off the page boundaries fits no level of the
page table, and the walk of the source goes on behind the last one. -/
def memMap (pa : Addr) (n : ℕ) : Option (List Addr) :=
  if pa.toNat % pageSize = 0 then some ((List.range n).map (pageAddr pa)) else none

/-- The loop of `mem_map_cpy`: the pages of the window for the `left` pages from
`vas` on. An entry is taken from `vas` for the length of its whole level or for
all that is left. -/
def memMapCpyLoop (ass : AddrSpace) : ℕ → Addr → ℕ → Option (List Addr)
  | 0, _, left => if left = 0 then some [] else none
  | fuel + 1, vas, left =>
      if left = 0 then some []
      else
        (ass vas).bind fun leaf =>
          let size := min (left * pageSize) leaf.lvlSize.toNat
          let npages := (size + (pageSize - 1)) / pageSize
          (memMap (AddrSpace.physAddr leaf vas) npages).bind fun pages =>
            (memMapCpyLoop ass fuel (vas + BitVec.ofNat 64 size) (left - npages)).map
              (pages ++ ·)

/-- `mem_map_cpy`: the window that shows the `n` pages from `vas` on of another
address space. -/
def memMapCpy (ass : AddrSpace) (vas : Addr) (n : ℕ) : Option (List Addr) :=
  memMapCpyLoop ass n vas n

def windowAddr (pages : List Addr) (k : ℕ) : Addr :=
  pages.getD (k / pageSize) 0#64 + BitVec.ofNat 64 (k % pageSize)

def PagesAligned (pages : List Addr) : Prop := ∀ p ∈ pages, p.toNat % pageSize = 0

theorem pagesAligned_memMap {pa : Addr} {n : ℕ} {pages : List Addr}
    (h : memMap pa n = some pages) : PagesAligned pages := by
  rw [memMap] at h
  split_ifs at h with haligned
  injection h with hpages
  intro p hp
  rw [← hpages] at hp
  obtain ⟨i, -, rfl⟩ := List.mem_map.mp hp
  rw [pageAddr, BitVec.toNat_add, BitVec.toNat_ofNat]
  unfold pageSize at *
  omega

theorem pagesAligned_memMapCpyLoop {ass : AddrSpace} {fuel : ℕ} {vas : Addr} {left : ℕ}
    {pages : List Addr} (h : memMapCpyLoop ass fuel vas left = some pages) :
    PagesAligned pages := by
  induction fuel generalizing vas left pages with
  | zero =>
      rw [memMapCpyLoop] at h
      split_ifs at h
      injection h with hpages
      rw [← hpages]
      exact nofun
  | succ fuel ih =>
      rw [memMapCpyLoop] at h
      split_ifs at h
      · injection h with hpages
        rw [← hpages]
        exact nofun
      · obtain ⟨leaf, -, h⟩ := Option.bind_eq_some_iff.mp h
        obtain ⟨first, hfirst, h⟩ := Option.bind_eq_some_iff.mp h
        obtain ⟨rest, hrest, rfl⟩ := Option.map_eq_some_iff.mp h
        intro p hp
        rcases List.mem_append.mp hp with hp | hp
        · exact pagesAligned_memMap hfirst p hp
        · exact ih hrest p hp

theorem toNat_windowAddr_mod {pages : List Addr} (h : PagesAligned pages) (k : ℕ) :
    (windowAddr pages k).toNat % 8 = k % 8 := by
  have hpage : (pages.getD (k / pageSize) 0#64).toNat % pageSize = 0 := by
    rw [List.getD_eq_getElem?_getD]
    cases hget : pages[k / pageSize]? with
    | none => rfl
    | some p => exact h p (List.mem_of_getElem? hget)
  rw [windowAddr, BitVec.toNat_add, BitVec.toNat_ofNat]
  unfold pageSize at *
  omega

theorem PteLeaf.stepPages_spec (leaf : PteLeaf) {n npages : ℕ}
    (h : npages = (min (n * pageSize) leaf.lvlSize.toNat + (pageSize - 1)) / pageSize) :
    min (n * pageSize) leaf.lvlSize.toNat = npages * pageSize ∧ npages ≤ n := by
  obtain ⟨q, hq⟩ := leaf.dvd_lvlSize
  unfold pageSize at *
  omega

/-! ## Memory backed by consecutive pages -/

/-- The `n` pages from `va` on are backed by consecutive pages from `pa` on. -/
def AddrSpace.Contiguous (as : AddrSpace) (va pa : Addr) (n : ℕ) : Prop :=
  ∀ i < n, as.translate (pageAddr va i) = some (pageAddr pa i)

theorem pageAddr_zero (base : Addr) : pageAddr base 0 = base := by
  rw [pageAddr, Nat.zero_mul, BitVec.add_zero]

theorem pageAddr_pageAddr (base : Addr) (i j : ℕ) :
    pageAddr (pageAddr base i) j = pageAddr base (i + j) := by
  rw [pageAddr, pageAddr, pageAddr, BitVec.add_assoc, ← BitVec.ofNat_add, Nat.add_mul]

/-- The loop looks at the entries of the pages that it copies only. -/
theorem memMapCpyLoop_congr {as as' : AddrSpace} {fuel n : ℕ} {vas : Addr}
    (h : ∀ i < n, as (pageAddr vas i) = as' (pageAddr vas i)) :
    memMapCpyLoop as fuel vas n = memMapCpyLoop as' fuel vas n := by
  induction fuel generalizing vas n with
  | zero => rfl
  | succ fuel ih =>
      rw [memMapCpyLoop, memMapCpyLoop]
      split_ifs with hn
      · rfl
      have hleaf := h 0 (Nat.pos_of_ne_zero hn)
      rw [pageAddr_zero] at hleaf
      rw [hleaf]
      refine congrArg _ (funext fun leaf => ?_)
      obtain ⟨npages, hnpages⟩ : ∃ npages, npages =
          (min (n * pageSize) leaf.lvlSize.toNat + (pageSize - 1)) / pageSize := ⟨_, rfl⟩
      obtain ⟨hsize, hle⟩ := leaf.stepPages_spec hnpages
      dsimp only
      rw [← hnpages, hsize]
      refine congrArg _ (funext fun pages => congrArg _ (ih fun i hi => ?_))
      change as (pageAddr (pageAddr vas npages) i) = as' (pageAddr (pageAddr vas npages) i)
      rw [pageAddr_pageAddr]
      exact h _ (by omega)

/-- The loop shows consecutive pages, whatever levels they are mapped at. -/
theorem memMapCpyLoop_of_contiguous {ass : AddrSpace} {fuel n : ℕ} {vas pa : Addr}
    {pages : List Addr} (hcont : ass.Contiguous vas pa n)
    (h : memMapCpyLoop ass fuel vas n = some pages) :
    pages = (List.range n).map (pageAddr pa) := by
  induction fuel generalizing vas pa n pages with
  | zero =>
      rw [memMapCpyLoop] at h
      split_ifs at h with hn
      injection h with hpages
      rw [← hpages, hn]
      rfl
  | succ fuel ih =>
      rw [memMapCpyLoop] at h
      split_ifs at h with hn
      · injection h with hpages
        rw [← hpages, hn]
        rfl
      · obtain ⟨leaf, hleaf, h⟩ := Option.bind_eq_some_iff.mp h
        obtain ⟨first, hfirst, h⟩ := Option.bind_eq_some_iff.mp h
        obtain ⟨rest, hrest, rfl⟩ := Option.map_eq_some_iff.mp h
        have hpa : AddrSpace.physAddr leaf vas = pa := by
          have hzero := hcont 0 (by omega)
          rw [pageAddr_zero, pageAddr_zero, AddrSpace.translate, hleaf] at hzero
          exact Option.some.inj hzero
        obtain ⟨npages, hnpages⟩ : ∃ npages, npages =
            (min (n * pageSize) leaf.lvlSize.toNat + (pageSize - 1)) / pageSize := ⟨_, rfl⟩
        have hsize := leaf.stepPages_spec hnpages
        rw [← hnpages, hpa, memMap] at hfirst
        split_ifs at hfirst with haligned
        injection hfirst with hfirst
        rw [← hnpages, hsize.1] at hrest
        have hcont' : ass.Contiguous (pageAddr vas npages) (pageAddr pa npages) (n - npages) := by
          intro i hi
          rw [pageAddr_pageAddr, pageAddr_pageAddr]
          exact hcont _ (by omega)
        rw [ih hcont' hrest, ← hfirst]
        have hsplit : n = npages + (n - npages) := by omega
        conv_rhs => rw [hsplit, List.range_add, List.map_append, List.map_map]
        refine congrArg _ (List.map_congr_left fun i _ => ?_)
        exact pageAddr_pageAddr pa npages i

theorem memMapCpy_of_contiguous {ass : AddrSpace} {n : ℕ} {vas pa : Addr}
    {pages : List Addr} (hcont : ass.Contiguous vas pa n)
    (h : memMapCpy ass vas n = some pages) : pages = (List.range n).map (pageAddr pa) :=
  memMapCpyLoop_of_contiguous hcont h

theorem windowAddr_range {pa : Addr} {n k : ℕ} (hk : k < n * pageSize) :
    windowAddr ((List.range n).map (pageAddr pa)) k = pa + BitVec.ofNat 64 k := by
  have hdiv : k / pageSize < n := Nat.div_lt_of_lt_mul (by rwa [Nat.mul_comm])
  rw [windowAddr, List.getD_eq_getElem?_getD, List.getElem?_map, List.getElem?_range hdiv,
    Option.map_some, Option.getD_some, pageAddr, BitVec.add_assoc, ← BitVec.ofNat_add,
    Nat.mul_comm, Nat.div_add_mod]

end BaoHypervisor
