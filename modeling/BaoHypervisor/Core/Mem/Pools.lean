import BaoHypervisor.Core.Mem.AllocClr

/-!
# The pools of the system

`mem_alloc_ppages` asks the pools of `page_pool_list` one after the other. Pages are allocated
with colours only if they need not be aligned. A request gets its pages exactly if the search of
one of the pools finds some.
-/

namespace BaoHypervisor

section AllocPpages

variable (c : Coloring) (colors : ColorMap) (numPages : SizeT) (aligned : Bool)

namespace PagePool

/-- The call of `pp_alloc_clr` or `pp_alloc` for one pool. -/
def allocPpages (pool : PagePool) (pages : PPages) : Alloc :=
  if !c.allClrs colors && !aligned then pool.ppAllocClr c numPages colors pages
  else pool.ppAlloc numPages aligned pages

def finds (pool : PagePool) : Bool :=
  if !c.allClrs colors && !aligned then (pool.ppAllocClrSearch c numPages.toNat colors).isSome
  else (pool.ppAllocSearch numPages.toNat aligned).isSome

end PagePool

/-- The loop of `mem_alloc_ppages`. -/
def allocPpagesLoop : List PagePool → PPages → PPages × List PagePool
  | [], pages => (pages, [])
  | pool :: pools, pages =>
      let alloc := pool.allocPpages c colors numPages aligned pages
      if alloc.ok then (alloc.ppages, alloc.pool :: pools)
      else
        let (pages', pools') := allocPpagesLoop pools alloc.ppages
        (pages', alloc.pool :: pools')

/-- `mem_alloc_ppages`, with the pools after it. -/
def memAllocPpages (pools : List PagePool) : PPages × List PagePool :=
  allocPpagesLoop c colors numPages aligned pools ⟨0#64, 0#64, 0#64⟩

end AllocPpages

variable {c : Coloring} {colors : ColorMap} {numPages : SizeT} {aligned : Bool}

/-- A call for a pool gets all pages that its search finds, or none. -/
theorem PagePool.allocPpages_ok (c : Coloring) (colors : ColorMap) (aligned : Bool)
    (hn : numPages ≠ 0#64) (pool : PagePool) (pages : PPages) :
    (pool.allocPpages c colors numPages aligned pages).ok =
        pool.finds c colors numPages aligned ∧
      (pool.allocPpages c colors numPages aligned pages).ppages.numPages =
        if pool.finds c colors numPages aligned then numPages else 0#64 := by
  rw [allocPpages, finds]
  by_cases hclr : (!c.allClrs colors && !aligned) = true
  · rw [if_pos hclr, if_pos hclr, ppAllocClr]
    dsimp only
    cases pool.ppAllocClrSearch c numPages.toNat colors with
    | none => exact ⟨rfl, rfl⟩
    | some head => exact ⟨rfl, rfl⟩
  · rw [if_neg hclr, if_neg hclr, ppAlloc]
    dsimp only
    rw [if_neg hn]
    cases pool.ppAllocSearch numPages.toNat aligned with
    | none => exact ⟨rfl, rfl⟩
    | some bit => exact ⟨rfl, rfl⟩

theorem numPages_allocPpagesLoop (hn : numPages ≠ 0#64) (pools : List PagePool)
    {pages : PPages} (hpages : pages.numPages = 0#64) :
    (allocPpagesLoop c colors numPages aligned pools pages).1.numPages = numPages ↔
      ∃ pool ∈ pools, pool.finds c colors numPages aligned = true := by
  induction pools generalizing pages with
  | nil =>
      rw [allocPpagesLoop, hpages]
      exact iff_of_false hn.symm fun ⟨_, hpool, _⟩ => absurd hpool List.not_mem_nil
  | cons pool pools ih =>
      obtain ⟨hok, hnum⟩ := pool.allocPpages_ok c colors aligned hn pages
      rw [allocPpagesLoop]
      dsimp only
      rw [List.exists_mem_cons_iff, hok]
      cases hfinds : pool.finds c colors numPages aligned with
      | true =>
          rw [hfinds, if_pos rfl] at hnum
          rw [if_pos rfl, hnum]
          exact iff_of_true rfl (.inl rfl)
      | false =>
          rw [hfinds, if_neg Bool.false_ne_true] at hnum
          rw [if_neg Bool.false_ne_true, ih hnum, or_iff_right Bool.false_ne_true]

theorem numPages_memAllocPpages (hn : numPages ≠ 0#64) (pools : List PagePool) :
    (memAllocPpages c colors numPages aligned pools).1.numPages = numPages ↔
      ∃ pool ∈ pools, pool.finds c colors numPages aligned = true :=
  numPages_allocPpagesLoop hn pools rfl

/-- What is asked of the pools leaves their places alone. -/
theorem map_extent_allocPpagesLoop (c : Coloring) (colors : ColorMap) (numPages : SizeT)
    (aligned : Bool) (pools : List PagePool) (pages : PPages) :
    (allocPpagesLoop c colors numPages aligned pools pages).2.map (fun pool =>
      (pool.base, pool.size)) = pools.map fun pool => (pool.base, pool.size) := by
  have hcall : ∀ (pool : PagePool) (pages : PPages),
      (pool.allocPpages c colors numPages aligned pages).pool.base = pool.base ∧
        (pool.allocPpages c colors numPages aligned pages).pool.size = pool.size := by
    intro pool pages
    rw [PagePool.allocPpages]
    split_ifs
    · rw [PagePool.ppAllocClr]
      cases pool.ppAllocClrSearch c numPages.toNat colors with
      | none => exact ⟨rfl, rfl⟩
      | some head => exact ⟨rfl, rfl⟩
    · rw [PagePool.ppAlloc]
      dsimp only
      split_ifs
      · exact ⟨rfl, rfl⟩
      · cases pool.ppAllocSearch numPages.toNat aligned with
        | none => exact ⟨rfl, rfl⟩
        | some bit => exact ⟨rfl, rfl⟩
  induction pools generalizing pages with
  | nil => rfl
  | cons pool pools ih =>
      obtain ⟨hbase, hsize⟩ := hcall pool pages
      rw [allocPpagesLoop]
      dsimp only
      split_ifs
      · rw [List.map_cons, List.map_cons, hbase, hsize]
      · rw [List.map_cons, List.map_cons, hbase, hsize, ih]

/-- A coloured request that gets its pages gets them from a page on, with its colours. -/
theorem allocPpagesLoop_clr (hclr : c.allClrs colors = false) (hn : numPages ≠ 0#64)
    (pools : List PagePool) {pages : PPages} (hpages : pages.numPages = 0#64)
    (h : (allocPpagesLoop c colors numPages false pools pages).1.numPages = numPages) :
    (allocPpagesLoop c colors numPages false pools pages).1.colors = colors ∧
      pageSize ∣ (allocPpagesLoop c colors numPages false pools pages).1.base.toNat := by
  induction pools generalizing pages with
  | nil =>
      rw [allocPpagesLoop, hpages] at h
      exact absurd h.symm hn
  | cons pool pools ih =>
      have hcall : pool.allocPpages c colors numPages false pages =
          pool.ppAllocClr c numPages colors pages := by
        rw [PagePool.allocPpages, hclr]
        rfl
      rw [allocPpagesLoop, hcall] at h ⊢
      rw [PagePool.ppAllocClr] at h ⊢
      cases hsearch : pool.ppAllocClrSearch c numPages.toNat colors with
      | none =>
          rw [hsearch] at h
          exact ih rfl h
      | some head =>
          refine ⟨rfl, ?_⟩
          have hword : pageSize ∣ 2 ^ 64 := by decide
          change pageSize ∣ (pool.pageAddr head).toNat
          rw [PagePool.pageAddr, BitVec.toNat_add, BitVec.toNat_ofNat, Nat.dvd_mod_iff hword]
          exact Nat.dvd_add (Nat.dvd_of_mod_eq_zero pool.base_aligned)
            ((Nat.dvd_mod_iff hword).mpr (Nat.dvd_mul_left _ _))

def sixteenPages : PagePool where
  base := 0x90000000#64
  size := 16#64
  free := 16#64
  last := 0
  bitmap := fun _ => 0#32
  base_aligned := rfl
  extent := Nat.le_of_ble_eq_true rfl

end BaoHypervisor
