import BaoHypervisor.Core.Mem.Accounting

/-!
# Runs given out and taken back

A contiguous allocation takes clear pages and no others, and `mem_free_ppages` on what it
returned restores the bitmap. The loop over the pools takes the address right behind a pool
for one of the pool, so a free may clear bits behind the last page of a pool that ends where
the pages begin; the pages of other pools stay. Not every allocation that could succeed
does: an aligned search leaves a run for the sum of its start and the remainder of that
start, and may step over an aligned run.
-/

namespace BaoHypervisor

open Bitmap BitRun

theorem Bitmap.ext_bits {map map' : Bitmap} (h : ∀ j, bitmapGet map j = bitmapGet map' j) :
    map = map' := by
  funext w
  refine BitVec.eq_of_getLsbD_eq fun i hi => ?_
  have hbit := h (w * granuleLen + i)
  have hdiv : (w * granuleLen + i) / granuleLen = w := by
    unfold granuleLen
    omega
  have hmod : (w * granuleLen + i) % granuleLen = i := by
    unfold granuleLen
    omega
  rwa [bitmapGet_eq_getLsbD, bitmapGet_eq_getLsbD, hdiv, hmod] at hbit

namespace PagePool

def Covers (pool : PagePool) (a : ℕ) : Prop :=
  pool.base.toNat ≤ a ∧ a < pool.base.toNat + pool.size.toNat * pageSize

def Apart (pool pool' : PagePool) : Prop := ∀ a, ¬ (pool.Covers a ∧ pool'.Covers a)

/-- `mem_free_ppages`, over the list of the pools. -/
def freeInPools (c : Coloring) (pools : List PagePool) (ppages : PPages) : List PagePool :=
  pools.map fun pool => pool.memFreePpages c ppages

variable {pool : PagePool} {c : Coloring}

/-! ## Giving back -/

theorem toNat_pageAddr {index : ℕ} (h : index < pool.size.toNat) :
    (pool.pageAddr index).toNat = pool.base.toNat + index * pageSize := by
  have hext := pool.extent
  rw [PagePool.pageAddr, BitVec.toNat_add, BitVec.toNat_ofNat]
  unfold pageSize at *
  omega

theorem covers_pageAddr {index : ℕ} (h : index < pool.size.toNat) :
    pool.Covers (pool.pageAddr index).toNat := by
  rw [toNat_pageAddr h]
  refine ⟨Nat.le_add_right _ _, Nat.add_lt_add_left ?_ _⟩
  exact Nat.mul_lt_mul_of_pos_right h (by decide)

theorem inRange_iff (addr : Addr) :
    inRange addr pool.base (pageBytes pool.size) = true ↔
      pool.base.toNat ≤ addr.toNat ∧
        addr.toNat ≤ pool.base.toNat + pool.size.toNat * pageSize := by
  have hext := pool.extent
  have hlt := addr.isLt
  rw [inRange, rangeInRange_iff, toNat_pageBytes pool.size_lt]
  have hzero : (0#64 : SizeT).toNat = 0 := rfl
  rw [hzero]
  omega

/-- A run that is taken back is cleared. -/
theorem bits_memFreePpages_run (pool : PagePool) {index n : ℕ} (h : index < pool.size.toNat)
    {ppages : PPages}
    (hbase : ppages.base = pool.pageAddr index) (hn : ppages.numPages.toNat = n)
    (hcolors : ppages.colors = 0#64) (p : ℕ) :
    (pool.memFreePpages c ppages).bits p =
      (pool.bits p && !decide (index ≤ p ∧ p < index + n)) := by
  have hcovers := covers_pageAddr h
  have hin : inRange ppages.base pool.base (pageBytes pool.size) = true := by
    rw [hbase]
    exact (inRange_iff _).mpr ⟨hcovers.1, hcovers.2.le⟩
  have hall : c.allClrs ppages.colors = true := by
    rw [hcolors, Coloring.allClrs]
    simp
  rw [bits_memFreePpages c pool hin, freedPages, if_pos hall, hbase, pageIndex_pageAddr pool h,
    hn]
  simp only [Finset.mem_Ico]

/-- Pages of one pool are not cleared in another. -/
theorem bits_memFreePpages_apart {ppages : PPages} (hnot : ¬ pool.Covers ppages.base.toNat)
    (hcolors : ppages.colors = 0#64) {p : ℕ} (hp : p < pool.size.toNat) :
    (pool.memFreePpages c ppages).bits p = pool.bits p := by
  by_cases hin : inRange ppages.base pool.base (pageBytes pool.size) = true
  · have hall : c.allClrs ppages.colors = true := by
      rw [hcolors, Coloring.allClrs]
      simp
    -- the only address left is the one right behind the pool
    have hend : pool.pageIndex ppages.base = pool.size.toNat := by
      obtain ⟨hle, hge⟩ := (inRange_iff _).mp hin
      have hlast : pool.base.toNat + pool.size.toNat * pageSize ≤ ppages.base.toNat := by
        by_contra hlt
        exact hnot ⟨hle, not_le.mp hlt⟩
      have hext := pool.extent
      rw [pageIndex, BitVec.toNat_sub]
      unfold pageSize at *
      omega
    rw [bits_memFreePpages c pool hin, freedPages, if_pos hall, hend]
    have hout : ¬ (pool.size.toNat ≤ p ∧ p < pool.size.toNat + ppages.numPages.toNat) := by
      omega
    simp only [Finset.mem_Ico, decide_eq_false hout, Bool.not_false, Bool.and_true]
  · rw [memFreePpages, if_neg hin]

/-! ## What an allocation takes -/

theorem ppAllocPass_aligned {n start c b : ℕ} (hn : 0 < n)
    (h : pool.ppAllocPass n start true pool.size.toNat c = some b) : (b + start) % n = 0 := by
  by_cases hfree : pool.free = 0#64
  · rw [ppAllocPass_of_free_eq_zero hfree] at h
    cases h
  · exact ((ppAllocPass_aligned_eq_some_iff hfree hn _ (by omega)).mp h).2

theorem ppAllocSearch_aligned {n b : ℕ} (hn : 0 < n)
    (h : pool.ppAllocSearch n true = some b) : (pool.firstPage + b) % n = 0 := by
  have hmod : (b + pool.allocStart n true) % n = 0 := by
    rw [ppAllocSearch] at h
    cases hfirst : pool.ppAllocPass n (pool.allocStart n true) true pool.size.toNat
        (pool.allocCurr n true) with
    | some bit =>
        rw [hfirst] at h
        rw [← Option.some.inj h]
        exact ppAllocPass_aligned hn hfirst
    | none =>
        rw [hfirst] at h
        exact ppAllocPass_aligned hn h
  rwa [allocStart, if_pos rfl, Nat.add_mod_mod, Nat.add_comm] at hmod

theorem bits_ppAlloc {numPages : SizeT} {aligned : Bool} {bit : ℕ} (hn : numPages ≠ 0#64)
    (h : pool.ppAllocSearch numPages.toNat aligned = some bit) (ppages : PPages) (p : ℕ) :
    (pool.ppAlloc numPages aligned ppages).pool.bits p =
      (pool.bits p || decide (bit ≤ p ∧ p < bit + numPages.toNat)) := by
  have hpos : 0 < numPages.toNat := Nat.pos_of_ne_zero (BitVec.toNat_ne.mp hn)
  rw [ppAlloc_of_search_some hn h, PagePool.bits, bitmapGet_bitmapSetConsecutive,
    consecSpan_of_pos bit hpos, PagePool.bits]

/-- To free what was just allocated leaves the bitmap as it was before. -/
theorem bitmap_memFreePpages_ppAlloc {numPages : SizeT} {aligned : Bool} {bit : ℕ}
    (hn : numPages ≠ 0#64) (h : pool.ppAllocSearch numPages.toNat aligned = some bit)
    (ppages : PPages) :
    ((pool.ppAlloc numPages aligned ppages).pool.memFreePpages c
      (pool.ppAlloc numPages aligned ppages).ppages).bitmap = pool.bitmap := by
  have hpos : 0 < numPages.toNat := Nat.pos_of_ne_zero (BitVec.toNat_ne.mp hn)
  obtain ⟨hlt, hrun⟩ := ppAllocSearch_run hpos h
  have hbits := bits_ppAlloc hn h ppages
  have hfree : ∀ p, ((pool.ppAlloc numPages aligned ppages).pool.memFreePpages c
      (pool.ppAlloc numPages aligned ppages).ppages).bits p =
        ((pool.ppAlloc numPages aligned ppages).pool.bits p &&
          !decide (bit ≤ p ∧ p < bit + numPages.toNat)) := by
    rw [ppAlloc_of_search_some hn h]
    exact bits_memFreePpages_run { pool with
      bitmap := bitmapSetConsecutive pool.bitmap bit numPages.toNat
      free := pool.free - numPages
      last := bit + numPages.toNat } hlt rfl rfl rfl
  refine Bitmap.ext_bits fun p => (hfree p).trans ?_
  rw [hbits]
  by_cases hp : bit ≤ p ∧ p < bit + numPages.toNat
  · rw [decide_eq_true hp, Bool.not_true, Bool.and_false]
    exact (hrun.apply hp.1 hp.2).symm
  · rw [decide_eq_false hp, Bool.or_false, Bool.not_false, Bool.and_true]
    rfl

/-- What an allocation of `n` pages from `bit` on is: the pages were clear and are marked, the
others stay, the run is aligned if that was asked for, and a free of what was returned, over a
list of pools without common addresses, restores the bitmap and keeps the pages of the other
pools. -/
structure Taken (c : Coloring) (pool : PagePool) (n : SizeT) (aligned : Bool) (r : Alloc)
    (bit : ℕ) : Prop where
  lt_size : bit < pool.size.toNat
  ppages : r.ppages = { base := pool.pageAddr bit, numPages := n, colors := 0#64 }
  run : ∀ p, bit ≤ p → p < bit + n.toNat → pool.bits p = false ∧ r.pool.bits p = true
  frame : ∀ p, ¬ (bit ≤ p ∧ p < bit + n.toNat) → r.pool.bits p = pool.bits p
  aligned : aligned = true → (pool.firstPage + bit) % n.toNat = 0
  back : ∀ (pools : List PagePool) (i : ℕ), pools[i]? = some pool → pools.Pairwise Apart →
    ∃ pool', (freeInPools c (pools.set i r.pool) r.ppages)[i]? = some pool' ∧
      pool'.bitmap = pool.bitmap
  others : ∀ (pools : List PagePool) (i : ℕ), pools[i]? = some pool → pools.Pairwise Apart →
    ∀ j ≠ i, ∀ other, pools[j]? = some other →
      ∃ other', (freeInPools c (pools.set i r.pool) r.ppages)[j]? = some other' ∧
        ∀ p < other.size.toNat, other'.bits p = other.bits p

theorem not_covers_of_pairwise {pools : List PagePool} (h : pools.Pairwise Apart) {i j : ℕ}
    {other : PagePool} (hi : pools[i]? = some pool) (hj : pools[j]? = some other) (hne : j ≠ i)
    {a : ℕ} (ha : pool.Covers a) : ¬ other.Covers a := by
  intro hother
  obtain ⟨hli, rfl⟩ := List.getElem?_eq_some_iff.mp hi
  obtain ⟨hlj, rfl⟩ := List.getElem?_eq_some_iff.mp hj
  rcases Nat.lt_or_gt_of_ne hne with hlt | hlt
  · exact List.pairwise_iff_getElem.mp h j i hlj hli hlt a ⟨hother, ha⟩
  · exact List.pairwise_iff_getElem.mp h i j hli hlj hlt a ⟨ha, hother⟩

theorem taken_of_search_some (c : Coloring) {numPages : SizeT} {aligned : Bool} {bit : ℕ}
    (hn : numPages ≠ 0#64) (h : pool.ppAllocSearch numPages.toNat aligned = some bit)
    (ppages : PPages) :
    Taken c pool numPages aligned (pool.ppAlloc numPages aligned ppages) bit := by
  have hpos : 0 < numPages.toNat := Nat.pos_of_ne_zero (BitVec.toNat_ne.mp hn)
  obtain ⟨hlt, hrun⟩ := ppAllocSearch_run hpos h
  have hbits := bits_ppAlloc hn h ppages
  have hpages := congrArg Alloc.ppages (ppAlloc_of_search_some hn h ppages)
  have hback := bitmap_memFreePpages_ppAlloc (c := c) hn h ppages
  generalize pool.ppAlloc numPages aligned ppages = r at hbits hpages hback ⊢
  refine
    { lt_size := hlt
      ppages := hpages
      run := fun p hle hp => ⟨hrun.apply hle hp, ?_⟩
      frame := fun p hp => ?_
      aligned := fun haligned => ?_
      back := fun pools i hi _ => ⟨r.pool.memFreePpages c r.ppages, ?_, hback⟩
      others := fun pools i hi hapart j hj other hother =>
        ⟨other.memFreePpages c r.ppages, ?_, fun p hp => ?_⟩ }
  · rw [hbits, decide_eq_true ⟨hle, hp⟩, Bool.or_true]
  · rw [hbits, decide_eq_false hp, Bool.or_false]
  · subst haligned
    exact ppAllocSearch_aligned hpos h
  · obtain ⟨hlen, -⟩ := List.getElem?_eq_some_iff.mp hi
    rw [freeInPools, List.getElem?_map, List.getElem?_set_self hlen, Option.map_some]
  · rw [freeInPools, List.getElem?_map, List.getElem?_set_ne (Ne.symm hj), hother,
      Option.map_some]
  · rw [hpages]
    have hnot := not_covers_of_pairwise hapart hi hother hj (covers_pageAddr hlt)
    exact bits_memFreePpages_apart hnot rfl hp

/-- A contiguous allocation takes a run of clear pages, which a free gives back, or fails and
changes nothing. -/
theorem ppAlloc_taken (c : Coloring) (pool : PagePool) (numPages : SizeT) (aligned : Bool)
    (ppages : PPages) (hn : numPages ≠ 0#64) :
    if (pool.ppAlloc numPages aligned ppages).ok = true then
      ∃ bit, Taken c pool numPages aligned (pool.ppAlloc numPages aligned ppages) bit
    else
      (pool.ppAlloc numPages aligned ppages).pool.bitmap = pool.bitmap ∧
        (pool.ppAlloc numPages aligned ppages).pool.free = pool.free ∧
          (pool.ppAlloc numPages aligned ppages).pool.last = pool.last := by
  cases hsearch : pool.ppAllocSearch numPages.toNat aligned with
  | none =>
      rw [ppAlloc_of_search_none hn hsearch]
      rw [if_neg Bool.false_ne_true]
      exact ⟨rfl, rfl, rfl⟩
  | some bit =>
      have hok := congrArg Alloc.ok (ppAlloc_of_search_some hn hsearch ppages)
      rw [if_pos hok]
      exact ⟨bit, taken_of_search_some c hn hsearch ppages⟩

theorem ppAlloc_taken_three_pages :
    ∃ pool, ppInit ⟨0x80000000#64, 0x3000#64, by decide⟩ (fun _ => 0#32) = some pool ∧
      if (pool.ppAlloc 2#64 true (memPpagesGet 0#64 0#64)).ok = true then
        ∃ bit, Taken Coloring.initial pool 2#64 true
          (pool.ppAlloc 2#64 true (memPpagesGet 0#64 0#64)) bit
      else
        (pool.ppAlloc 2#64 true (memPpagesGet 0#64 0#64)).pool.bitmap = pool.bitmap ∧
          (pool.ppAlloc 2#64 true (memPpagesGet 0#64 0#64)).pool.free = pool.free ∧
            (pool.ppAlloc 2#64 true (memPpagesGet 0#64 0#64)).pool.last = pool.last := by
  exact ⟨_, rfl, ppAlloc_taken Coloring.initial _ 2#64 true (memPpagesGet 0#64 0#64)
    (by decide)⟩

/-! ## Runs that are found -/

/-- One of the two aligned searches comes to an aligned run. -/
def AlignedFound (pool : PagePool) (n : ℕ) : Prop :=
  ∃ b, (pool.Visits n (pool.allocStart n true) (pool.allocCurr n true) b ∨
      pool.Visits n (pool.allocStart n true) (pool.allocRestart n true) b) ∧
    (b + pool.allocStart n true) % n = 0

/-- The pool has a clear run of `n` pages, aligned in the memory if that is asked for. -/
def HasRun (pool : PagePool) (n : ℕ) (aligned : Bool) : Prop :=
  ∃ b, pool.Fits n b ∧ (aligned = true → (pool.firstPage + b) % n = 0)

theorem Accurate.free_ne_zero (h : pool.Accurate) {p : ℕ} (hp : pool.FreePage p) :
    pool.free ≠ 0#64 := by
  intro hzero
  rw [Accurate, hzero] at h
  have hmem : p ∈ clearBelow pool.bits pool.size.toNat := mem_clearBelow.mpr hp
  exact (Finset.card_pos.mpr ⟨p, hmem⟩).ne h

theorem Fits.freePage {n b : ℕ} (h : pool.Fits n b) (hn : 0 < n) : pool.FreePage b :=
  ⟨by have := h.1; omega, h.2.apply le_rfl (by omega)⟩

theorem not_passEmpty_restart {n b : ℕ} (h : pool.Fits n b) (hn : 0 < n) (start : ℕ) :
    ¬ pool.PassEmpty n start (pool.allocRestart n false) false := by
  intro hempty
  have hrestart : pool.allocRestart n false = 0 := if_neg Bool.false_ne_true
  rw [hrestart] at hempty
  exact hempty b (Nat.zero_le b) (h.freePage hn).1 h.2

theorem ppAllocSearch_ne_none_iff {n : ℕ} (hfree : pool.free ≠ 0#64) (hn : 0 < n)
    (aligned : Bool) :
    pool.ppAllocSearch n aligned ≠ none ↔
      ¬ (pool.PassEmpty n (pool.allocStart n aligned) (pool.allocCurr n aligned) aligned ∧
        pool.PassEmpty n (pool.allocStart n aligned) (pool.allocRestart n aligned) aligned) := by
  rw [← ppAllocPass_eq_none_iff hfree hn, ← ppAllocPass_eq_none_iff hfree hn, ppAllocSearch,
    not_iff_not]
  cases pool.ppAllocPass n (pool.allocStart n aligned) aligned pool.size.toNat
      (pool.allocCurr n aligned) with
  | some bit => simp
  | none => simp

/-- Where a pool has a run that would do, an allocation succeeds unless its aligned searches
step over all aligned runs. -/
theorem ppAlloc_ok_iff (hacc : pool.Accurate) {numPages : SizeT} {aligned : Bool}
    (hn : numPages ≠ 0#64) (hrun : pool.HasRun numPages.toNat aligned) (ppages : PPages) :
    (pool.ppAlloc numPages aligned ppages).ok = true ↔
      (aligned = true → pool.AlignedFound numPages.toNat) := by
  have hpos : 0 < numPages.toNat := Nat.pos_of_ne_zero (BitVec.toNat_ne.mp hn)
  obtain ⟨b, hfits, -⟩ := hrun
  have hfree : pool.free ≠ 0#64 := hacc.free_ne_zero (hfits.freePage hpos)
  have hok : (pool.ppAlloc numPages aligned ppages).ok = true ↔
      pool.ppAllocSearch numPages.toNat aligned ≠ none := by
    cases hsearch : pool.ppAllocSearch numPages.toNat aligned with
    | none => simp [ppAlloc_of_search_none hn hsearch]
    | some bit => simp [ppAlloc_of_search_some hn hsearch]
  rw [hok, ppAllocSearch_ne_none_iff hfree hpos]
  cases aligned with
  | false =>
      refine iff_of_true (fun hempty => ?_) fun h => absurd h Bool.false_ne_true
      exact not_passEmpty_restart hfits hpos _ hempty.2
  | true =>
      rw [PassEmpty, PassEmpty, AlignedFound]
      constructor
      · intro h _
        by_contra hnone
        exact h ⟨fun b hb hzero => hnone ⟨b, .inl hb, hzero⟩,
          fun b hb hzero => hnone ⟨b, .inr hb, hzero⟩⟩
      · rintro h ⟨hfirst, hsecond⟩
        obtain ⟨b, hb | hb, hzero⟩ := h rfl
        · exact hfirst b hb hzero
        · exact hsecond b hb hzero

/-- A fresh pool of eight pages, of which four aligned ones are asked for. -/
theorem ppAlloc_ok_iff_eight_pages :
    ∃ pool, ppInit ⟨0x80000000#64, 0x8000#64, by decide⟩ (fun _ => 0#32) = some pool ∧
      ((pool.ppAlloc 4#64 true (memPpagesGet 0#64 0#64)).ok = true ↔
        (true = true → pool.AlignedFound (4#64 : SizeT).toNat)) := by
  have hinit : ppInit ⟨0x80000000#64, 0x8000#64, by decide⟩ (fun _ => 0#32) = some _ := rfl
  refine ⟨_, hinit, ppAlloc_ok_iff (ppInit_fresh hinit).accurate (by decide) ?_ _⟩
  exact ⟨0, ⟨by decide, by decide⟩, fun _ => by decide⟩

/-- Three of eight pages are given out. The four pages behind the next one are free and aligned,
and the search for four aligned pages steps over them twice. -/
theorem ppAlloc_misses_aligned_run :
    ∃ pool pool', ppInit ⟨0x80000000#64, 0x8000#64, by decide⟩ (fun _ => 0#32) = some pool ∧
      (pool.ppAlloc 3#64 false (memPpagesGet 0#64 0#64)).pool = pool' ∧
      pool'.Accurate ∧ pool'.HasRun 4 true ∧
      (pool'.ppAlloc 4#64 true (memPpagesGet 0#64 0#64)).ok = false := by
  refine ⟨_, _, rfl, rfl, ?_, ⟨4, ⟨by decide, by decide⟩, fun _ => by decide⟩, by decide⟩
  rw [Accurate]
  decide

/-- An aligned search from anywhere before an aligned run of at most two pages comes to an
aligned run: the remainder it steps by leads to the next aligned page. -/
theorem exists_visits_aligned {n start b : ℕ} (hn : 0 < n) (htwo : n ≤ 2) (hb : pool.Fits n b)
    (hzero : (b + start) % n = 0) (k : ℕ) {c : ℕ} (hc : c ≤ b) (hk : b ≤ c + k) :
    ∃ b', pool.Visits n start c b' ∧ (b' + start) % n = 0 := by
  induction k generalizing c with
  | zero =>
      obtain rfl : c = b := by omega
      obtain ⟨b', hle, hfirst⟩ := exists_firstRun le_rfl (hb.freePage hn).1 hb.2
      obtain rfl : b' = c := le_antisymm hle hfirst.start_le
      exact ⟨b', .first hfirst, hzero⟩
  | succ k ih =>
      obtain ⟨b', hle, hfirst⟩ := exists_firstRun hc (hb.freePage hn).1 hb.2
      have hstart := hfirst.start_le
      by_cases hzero' : (b' + start) % n = 0
      · exact ⟨b', .first hfirst, hzero'⟩
      · have hmod : (b' + start) % n = 1 := by
          have := Nat.mod_lt (b' + start) hn
          omega
        have hne : b' ≠ b := fun heq => hzero' (heq ▸ hzero)
        obtain ⟨b'', hvisits, hb''⟩ := ih (c := b' + (b' + start) % n) (by omega) (by omega)
        exact ⟨b'', .next hfirst hzero' hvisits, hb''⟩

/-- A request for at most two pages is never refused where a run would do. -/
theorem ppAlloc_ok_of_le_two (hacc : pool.Accurate) {numPages : SizeT} {aligned : Bool}
    (hn : numPages ≠ 0#64) (htwo : numPages.toNat ≤ 2)
    (hrun : pool.HasRun numPages.toNat aligned) (ppages : PPages) :
    (pool.ppAlloc numPages aligned ppages).ok = true := by
  have hpos : 0 < numPages.toNat := Nat.pos_of_ne_zero (BitVec.toNat_ne.mp hn)
  refine (ppAlloc_ok_iff hacc hn hrun ppages).mpr fun haligned => ?_
  obtain ⟨b, hfits, hmod⟩ := hrun
  have hzero : (b + pool.allocStart numPages.toNat true) % numPages.toNat = 0 := by
    rw [allocStart, if_pos rfl, Nat.add_mod_mod, Nat.add_comm]
    exact hmod haligned
  -- the second search starts at the first aligned page
  have hrestart : pool.allocRestart numPages.toNat true ≤ b := by
    have hmod' := hmod haligned
    rw [allocRestart, if_pos rfl]
    obtain hone | htwo' : numPages.toNat = 1 ∨ numPages.toNat = 2 := by omega
    · rw [hone, Nat.mod_one]
      exact Nat.zero_le b
    · rw [htwo'] at hmod' ⊢
      omega
  obtain ⟨b', hvisits, hb'⟩ := exists_visits_aligned hpos htwo hfits hzero b hrestart
    (Nat.le_add_left _ _)
  exact ⟨b', .inr hvisits, hb'⟩

end PagePool

end BaoHypervisor
