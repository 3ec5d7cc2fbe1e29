import BaoHypervisor.Core.Mem.Color
import BaoHypervisor.Lib.BitmapRun

/-!
# Page pools

A page pool hands out the pages of one memory region and keeps one bit a page
in a bitmap. `PagePool` carries what a region of physical memory gives it: a
page aligned base and an end inside the address space. The bitmap is the
memory the pointer of the source points to, so it goes on past the last page
of the pool.

Page indices and page counts are natural numbers, since a pool has fewer than
`2 ^ 52` pages; addresses, byte sizes and the free counter wrap as in the
source.
-/

namespace BaoHypervisor

open Bitmap BitRun

structure PPages where
  base : Addr
  numPages : SizeT
  colors : ColorMap
deriving DecidableEq, Repr, Inhabited

def memPpagesGet (base : Addr) (numPages : SizeT) : PPages :=
  { base := base, numPages := numPages, colors := 0#64 }

structure PagePool where
  base : Addr
  size : SizeT
  free : SizeT
  last : ℕ
  bitmap : Bitmap
  base_aligned : base.toNat % pageSize = 0
  extent : base.toNat + size.toNat * pageSize < 2 ^ 64

/-- The byte size of `n` pages, `n * PAGE_SIZE`. -/
def pageBytes (n : SizeT) : SizeT := n * BitVec.ofNat 64 pageSize

theorem toNat_pageBytes {n : SizeT} (h : n.toNat < 2 ^ 52) :
    (pageBytes n).toNat = n.toNat * pageSize := by
  have hmul : (pageBytes n).toNat = n.toNat * 4096 % 2 ^ 64 := BitVec.toNat_mul _ _
  unfold pageSize
  omega

namespace PagePool

def bits (pool : PagePool) : ℕ → Bool := bitmapGet pool.bitmap

/-- The page number of the base, `pool->base / PAGE_SIZE`. -/
def firstPage (pool : PagePool) : ℕ := pool.base.toNat / pageSize

/-- The address of the page `index`. -/
def pageAddr (pool : PagePool) (index : ℕ) : Addr :=
  pool.base + BitVec.ofNat 64 (index * pageSize)

/-- The index a `ppages->base` of an allocation stands for. -/
def pageIndex (pool : PagePool) (addr : Addr) : ℕ :=
  (addr - pool.base).toNat / pageSize

theorem size_lt (pool : PagePool) : pool.size.toNat < 2 ^ 52 := by
  have hext := pool.extent
  unfold pageSize at hext
  omega

theorem size_le_sizeMax (pool : PagePool) : pool.size.toNat ≤ sizeMax :=
  Nat.le_sub_one_of_lt pool.size.isLt

theorem pageIndex_pageAddr (pool : PagePool) {index : ℕ}
    (h : index < pool.size.toNat) :
    pool.pageIndex (pool.pageAddr index) = index := by
  have hsize := pool.size_lt
  have hcancel : pool.pageAddr index - pool.base = BitVec.ofNat 64 (index * pageSize) := by
    rw [pageAddr, BitVec.add_comm]
    exact BitVec.add_sub_cancel _ _
  rw [pageIndex, hcancel, BitVec.toNat_ofNat]
  unfold pageSize
  omega

/-! ## Fresh pools -/

/-- The bits of one page of bitmap memory, `8 * PAGE_SIZE`. -/
abbrev pageBits : ℕ := 8 * pageSize

/-- The pages of memory behind the bitmap of a pool of `size` pages. -/
def bitmapPages (size : ℕ) : ℕ :=
  size / pageBits + if size % pageBits ≠ 0 then 1 else 0

/-- A pool as its initialisation leaves it: the pages of memory that back the
bitmap are zero and nothing has been handed out. What lies behind the backing
pages is not known. -/
structure Fresh (pool : PagePool) : Prop where
  backing_clear : ∀ i < bitmapPages pool.size.toNat * pageBits, pool.bits i = false
  free_eq : pool.free = pool.size
  last_eq : pool.last = 0

theorem le_bitmapPages_mul (size : ℕ) : size ≤ bitmapPages size * pageBits := by
  unfold bitmapPages pageBits pageSize
  split_ifs <;> omega

theorem Fresh.bits_eq_false {pool : PagePool} (h : pool.Fresh) {i : ℕ}
    (hi : i < pool.size.toNat) : pool.bits i = false :=
  h.backing_clear i (lt_of_lt_of_le hi (le_bitmapPages_mul _))

end PagePool

/-- The base and size of a `struct mem_region` of the platform. Regions end
below the last two pages of the address space, where rounding them to pages
would wrap. -/
structure MemRegion where
  base : Addr
  size : SizeT
  extent : base.toNat + size.toNat + 2 * pageSize ≤ 2 ^ 64

namespace MemRegion

theorem toNat_align_base (r : MemRegion) :
    (align r.base (BitVec.ofNat 64 pageSize)).toNat =
      (r.base.toNat + (pageSize - 1)) / pageSize * pageSize := by
  have hext := r.extent
  unfold pageSize at *
  have hsum : (r.base + BitVec.ofNat 64 0x1000 - 1#64).toNat = r.base.toNat + 4095 := by
    simp only [BitVec.toNat_sub, BitVec.toNat_add, BitVec.toNat_ofNat]
    omega
  have hmul : (align r.base (BitVec.ofNat 64 0x1000)).toNat =
      (r.base + BitVec.ofNat 64 0x1000 - 1#64).toNat / 4096 * 4096 % 2 ^ 64 := by
    rw [align, BitVec.toNat_mul, BitVec.toNat_udiv]
    rfl
  rw [hmul, hsum]
  omega

theorem toNat_numPages_size (r : MemRegion) :
    (numPages r.size).toNat = (r.size.toNat + (pageSize - 1)) / pageSize := by
  have hext := r.extent
  exact toNat_numPages (by unfold pageSize at *; omega)

end MemRegion

/-- `pp_init`, in the case that its bitmap can be allocated and mapped: `mem`
is the memory behind the pointer it gets. The early return leaves a pool
without a bitmap. -/
def ppInit (r : MemRegion) (mem : Bitmap) : Option PagePool :=
  let size := numPages r.size
  let bitmapSize := PagePool.bitmapPages size.toNat
  if r.size.toNat ≤ bitmapSize then none
  else some
    { base := align r.base (BitVec.ofNat 64 pageSize)
      size := size
      free := size
      last := 0
      bitmap := fun w => if w < bitmapSize * (pageSize / 4) then 0#32 else mem w
      base_aligned := by
        rw [r.toNat_align_base]
        exact Nat.mul_mod_left _ _
      extent := by
        have hext := r.extent
        rw [show size.toNat = _ from r.toNat_numPages_size, r.toNat_align_base]
        unfold pageSize at *
        omega }

theorem ppInit_fresh {r : MemRegion} {mem : Bitmap} {pool : PagePool}
    (h : ppInit r mem = some pool) : pool.Fresh := by
  rw [ppInit] at h
  split_ifs at h with hsize
  obtain rfl := Option.some.inj h
  refine ⟨fun i hi => ?_, rfl, rfl⟩
  change i < PagePool.bitmapPages (numPages r.size).toNat * PagePool.pageBits at hi
  have hword : i / granuleLen < PagePool.bitmapPages (numPages r.size).toNat *
      (pageSize / 4) := by
    unfold PagePool.pageBits pageSize at hi
    unfold granuleLen pageSize
    omega
  rw [PagePool.bits, bitmapGet_eq_getLsbD]
  dsimp only
  rw [if_pos hword]
  exact BitVec.getLsbD_zero

namespace PagePool

/-! ## Contiguous allocation -/

/-- The inner loop of one search of `pp_alloc`. Every round that goes on
moves `curr` past the bit it found, so `fuel` of the size of the pool is never
used up. -/
def ppAllocPass (pool : PagePool) (numPages start : ℕ) (aligned : Bool) :
    ℕ → ℕ → Option ℕ
  | 0, _ => none
  | fuel + 1, curr =>
      if pool.free = 0#64 then none
      else
        match bitmapFindConsec pool.bitmap pool.size.toNat curr numPages false with
        | none => none
        | some bit =>
            if aligned = true ∧ (bit + start) % numPages ≠ 0 then
              ppAllocPass pool numPages start aligned fuel
                (bit + (bit + start) % numPages)
            else some bit

/-- `start`, the offset of the base of the pool to an aligned page. -/
def allocStart (pool : PagePool) (numPages : ℕ) (aligned : Bool) : ℕ :=
  if aligned then pool.firstPage % numPages else 0

/-- Where the first search of `pp_alloc` starts. -/
def allocCurr (pool : PagePool) (numPages : ℕ) (aligned : Bool) : ℕ :=
  pool.last + (pool.last + pool.allocStart numPages aligned) % numPages

/-- Where the second search of `pp_alloc` starts. -/
def allocRestart (pool : PagePool) (numPages : ℕ) (aligned : Bool) : ℕ :=
  if aligned then (numPages - pool.firstPage % numPages) % numPages else 0

/-- The two searches of `pp_alloc`. -/
def ppAllocSearch (pool : PagePool) (numPages : ℕ) (aligned : Bool) : Option ℕ :=
  let start := pool.allocStart numPages aligned
  match pool.ppAllocPass numPages start aligned pool.size.toNat
      (pool.allocCurr numPages aligned) with
  | some bit => some bit
  | none =>
      pool.ppAllocPass numPages start aligned pool.size.toNat
        (pool.allocRestart numPages aligned)

/-- What an allocation returns, with its output argument and the pool after. -/
structure Alloc where
  ok : Bool
  ppages : PPages
  pool : PagePool

def ppAlloc (pool : PagePool) (numPages : SizeT) (aligned : Bool) (ppages : PPages) :
    Alloc :=
  let ppages := { ppages with colors := 0#64, numPages := 0#64 }
  if numPages = 0#64 then { ok := true, ppages := ppages, pool := pool }
  else
    match pool.ppAllocSearch numPages.toNat aligned with
    | none => { ok := false, ppages := ppages, pool := pool }
    | some bit =>
        { ok := true
          ppages := { ppages with base := pool.pageAddr bit, numPages := numPages }
          pool :=
            { pool with
              bitmap := bitmapSetConsecutive pool.bitmap bit numPages.toNat
              free := pool.free - numPages
              last := bit + numPages.toNat } }

/-! ## Reservation -/

/-- `range_in_range` of a run of pages and the pool. -/
def hasPpages (pool : PagePool) (ppages : PPages) : Bool :=
  rangeInRange ppages.base (pageBytes ppages.numPages) pool.base (pageBytes pool.size)

/-- The variable `pageoff`, an offset in pages rounded up. -/
def pageoff (pool : PagePool) (ppages : PPages) : ℕ :=
  (numPages (ppages.base - pool.base)).toNat

def memArePpagesReservedInPool (pool : PagePool) (ppages : PPages) : Bool :=
  if pool.hasPpages ppages then
    let isAlloced := bitmapGet pool.bitmap (pool.pageoff ppages)
    let avlblContigPp := bitmapCountConsecutive pool.bitmap pool.size.toNat
      (pool.pageoff ppages) ppages.numPages.toNat
    isAlloced || decide (avlblContigPp < ppages.numPages.toNat)
  else false

def memReservePpoolPpages (pool : PagePool) (ppages : PPages) : Bool × PagePool :=
  if pool.hasPpages ppages then
    let wasFree := !pool.memArePpagesReservedInPool ppages
    (wasFree,
      { pool with
        bitmap := bitmapSetConsecutive pool.bitmap (pool.pageoff ppages)
          ppages.numPages.toNat
        free := pool.free - ppages.numPages })
  else (true, pool)

/-- The positions `mem_reserve_ppool_ppages` marks. A run of no pages marks
the rest of its bitmap word. -/
def reservedRun (pool : PagePool) (ppages : PPages) : Finset ℕ :=
  Finset.Ico (pool.pageoff ppages)
    (pool.pageoff ppages + consecSpan (pool.pageoff ppages) ppages.numPages.toNat)

theorem bits_setConsecutive_marks {pool : PagePool} (pool' : PagePool) {start n : ℕ}
    (hbits : pool'.bitmap = bitmapSetConsecutive pool.bitmap start n) :
    Marks pool.bits pool'.bits (Finset.Ico start (start + consecSpan start n)) := by
  intro p
  rw [PagePool.bits, hbits, bitmapGet_bitmapSetConsecutive, PagePool.bits]
  simp only [Finset.mem_Ico]

/-! ## Coloured allocation and freeing -/

section Coloring

variable (c : Coloring)

/-- Skipping marked pages, the first inner loop of `pp_alloc_clr`. -/
def skipMarked (pool : PagePool) (colors : ColorMap) : ℕ → ℕ → ℕ
  | 0, index => index
  | fuel + 1, index =>
      if index < pool.size.toNat ∧ bitmapGet pool.bitmap index = true then
        skipMarked pool colors fuel (c.ppNextClr pool.base (index + 1) colors)
      else index

/-- Counting free pages, the second inner loop of `pp_alloc_clr`: from
`(allocated, index)` to the values it leaves. -/
def countFree (pool : PagePool) (colors : ColorMap) (n : ℕ) :
    ℕ → ℕ → ℕ → ℕ × ℕ
  | 0, allocated, index => (allocated, index)
  | fuel + 1, allocated, index =>
      if index < pool.size.toNat ∧ bitmapGet pool.bitmap index = false ∧
          allocated < n then
        countFree pool colors n fuel (allocated + 1)
          (c.ppNextClr pool.base (index + 1) colors)
      else (allocated, index)

/-- The values of the local variables of `pp_alloc_clr` that its outer loops
carry on. -/
structure ClrSearch where
  allocated : ℕ
  index : ℕ
  firstIndex : ℕ
deriving DecidableEq, Repr

/-- The `while` loop of one search of `pp_alloc_clr`. Each round moves `index`
up, so `fuel` of the size of the pool is never used up. -/
def ppAllocClrPass (pool : PagePool) (colors : ColorMap) (n : ℕ) :
    ℕ → ClrSearch → ClrSearch
  | 0, s => s
  | fuel + 1, s =>
      if s.allocated < n ∧ s.index < pool.size.toNat then
        let firstIndex := pool.skipMarked c colors pool.size.toNat s.index
        let counted := pool.countFree c colors n pool.size.toNat 0 firstIndex
        ppAllocClrPass pool colors n fuel
          { allocated := counted.1
            index := counted.2 + 1
            firstIndex := firstIndex }
      else s

/-- The two searches of `pp_alloc_clr`: the head of the run found. -/
def ppAllocClrSearch (pool : PagePool) (n : ℕ) (colors : ColorMap) : Option ℕ :=
  let first := pool.ppAllocClrPass c colors n (pool.size.toNat + 1)
    { allocated := 0
      index := c.ppNextClr pool.base pool.last colors
      firstIndex := 0 }
  if first.allocated = n then some first.firstIndex
  else
    let second := pool.ppAllocClrPass c colors n (pool.size.toNat + 1)
      { first with index := 0 }
    if second.allocated = n then some second.firstIndex else none

/-- `bitmap_set` on each of some pages. -/
def markPages (map : Bitmap) (pages : List ℕ) : Bitmap :=
  pages.foldl bitmapSet map

/-- `bitmap_clear` on each of some pages. -/
def clearPages (map : Bitmap) (pages : List ℕ) : Bitmap :=
  pages.foldl bitmapClear map

/-- Where a walk over `n` coloured pages from `index` on ends. -/
def clrPagesEnd (base : Addr) (colors : ColorMap) (n index : ℕ) : ℕ :=
  match (c.clrPages base colors n index).getLast? with
  | none => index
  | some page => page + 1

def ppAllocClr (pool : PagePool) (n : SizeT) (colors : ColorMap) (ppages : PPages) :
    Alloc :=
  let ppages := { ppages with colors := colors, numPages := 0#64 }
  match pool.ppAllocClrSearch c n.toNat colors with
  | none => { ok := false, ppages := ppages, pool := pool }
  | some firstIndex =>
      { ok := true
        ppages := { ppages with base := pool.pageAddr firstIndex, numPages := n }
        pool :=
          { pool with
            bitmap := markPages pool.bitmap
              (c.clrPages pool.base colors n.toNat firstIndex)
            free := pool.free - n
            last := clrPagesEnd c pool.base colors n.toNat firstIndex } }

/-- The body of the loop of `mem_free_ppages` over the pools. -/
def memFreePpages (pool : PagePool) (ppages : PPages) : PagePool :=
  if inRange ppages.base pool.base (pageBytes pool.size) then
    let index := pool.pageIndex ppages.base
    if c.allClrs ppages.colors then
      { pool with
        bitmap := bitmapClearConsecutive pool.bitmap index ppages.numPages.toNat }
    else
      { pool with
        bitmap := clearPages pool.bitmap
          (c.clrPages pool.base ppages.colors ppages.numPages.toNat index) }
  else pool

/-- The pages `mem_free_ppages` clears. -/
def freedPages (pool : PagePool) (ppages : PPages) : Finset ℕ :=
  if c.allClrs ppages.colors then
    Finset.Ico (pool.pageIndex ppages.base)
      (pool.pageIndex ppages.base + ppages.numPages.toNat)
  else
    (c.clrPages pool.base ppages.colors ppages.numPages.toNat
      (pool.pageIndex ppages.base)).toFinset

theorem bitmapGet_markPages (map : Bitmap) (pages : List ℕ) (j : ℕ) :
    bitmapGet (markPages map pages) j = (bitmapGet map j || decide (j ∈ pages)) := by
  induction pages generalizing map with
  | nil => simp [markPages]
  | cons p pages ih =>
      rw [markPages, List.foldl_cons]
      change bitmapGet (markPages (bitmapSet map p) pages) j = _
      rw [ih, bitmapGet_bitmapSet, Bool.or_assoc, ← Bool.decide_or]
      simp only [List.mem_cons]

theorem bitmapGet_clearPages (map : Bitmap) (pages : List ℕ) (j : ℕ) :
    bitmapGet (clearPages map pages) j = (bitmapGet map j && !decide (j ∈ pages)) := by
  induction pages generalizing map with
  | nil => simp [clearPages]
  | cons p pages ih =>
      rw [clearPages, List.foldl_cons]
      change bitmapGet (clearPages (bitmapClear map p) pages) j = _
      rw [ih, bitmapGet_bitmapClear, Bool.and_assoc, ← Bool.not_or, ← Bool.decide_or]
      simp only [List.mem_cons]

theorem bits_memFreePpages (pool : PagePool) {ppages : PPages}
    (hin : inRange ppages.base pool.base (pageBytes pool.size) = true) (p : ℕ) :
    (pool.memFreePpages c ppages).bits p =
      (pool.bits p && !decide (p ∈ pool.freedPages c ppages)) := by
  rw [memFreePpages, if_pos hin, freedPages]
  dsimp only
  cases c.allClrs ppages.colors with
  | true =>
      simp only [if_true]
      rw [PagePool.bits, bitmapGet_bitmapClearConsecutive, PagePool.bits]
      simp only [Finset.mem_Ico]
  | false =>
      simp only [Bool.false_eq_true, if_false]
      rw [PagePool.bits, bitmapGet_clearPages, PagePool.bits]
      simp only [List.mem_toFinset]

theorem size_memFreePpages (pool : PagePool) (ppages : PPages) :
    (pool.memFreePpages c ppages).size = pool.size := by
  rw [memFreePpages]
  dsimp only
  split_ifs <;> rfl

theorem free_memFreePpages (pool : PagePool) (ppages : PPages) :
    (pool.memFreePpages c ppages).free = pool.free := by
  rw [memFreePpages]
  dsimp only
  split_ifs <;> rfl

/-! ## Histories -/

/-- A call on a pool. A coloured allocation is only made with a map that
selects some colour, else `pp_next_clr` does not return. -/
inductive Op where
  | alloc (numPages : SizeT) (aligned : Bool)
  | allocClr (n : SizeT) (colors : ColorMap) (hasColor : c.HasColor colors)
  | reserve (ppages : PPages)
  | free (ppages : PPages)

/-- The pool after a call. The output argument of an allocation does not
matter to the pool. -/
def step (pool : PagePool) : Op c → PagePool
  | .alloc numPages aligned =>
      (pool.ppAlloc numPages aligned (memPpagesGet 0#64 0#64)).pool
  | .allocClr n colors _ => (pool.ppAllocClr c n colors (memPpagesGet 0#64 0#64)).pool
  | .reserve ppages => (pool.memReservePpoolPpages ppages).2
  | .free ppages => pool.memFreePpages c ppages

end Coloring

end PagePool

end BaoHypervisor
