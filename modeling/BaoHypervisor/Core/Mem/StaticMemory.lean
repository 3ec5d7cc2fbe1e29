import BaoHypervisor.Core.Mem.Reservation

/-!
# Statically placed memory is kept

Two results on `mem_reserve_physical_memory`. If the ranges of the
configuration start on page boundaries inside the pool, a reservation that
succeeds proves them disjoint and free before. Without that assumption it
covers the ranges except those that are passed over or shifted by a page,
which are covered when other ranges happen to cover them. A page once marked is
not handed out again.
-/

namespace BaoHypervisor

namespace PagePool

open Bitmap BitRun

variable {pool : PagePool} {config : Config}

/-! ## Partitioning -/

/-- A reservation that succeeds proves the reserved ranges disjoint and free
before. -/
theorem memReservePhysicalMemory_partition
    (hpages : ∀ r ∈ config.fixedRanges, pool.OnPages r ∧ 1 ≤ r.size.toNat)
    (hret : (pool.memReservePhysicalMemory config).1 = true) :
    (config.reservedRanges.Pairwise fun r r' =>
        ∀ p, ¬ (pool.Touches r p ∧ pool.Touches r' p)) ∧
      ∀ r ∈ config.reservedRanges, ∀ p, pool.Touches r p → pool.bits p = false := by
  rw [memReservePhysicalMemory_eq] at hret
  obtain ⟨hclear, hdisj⟩ := reserveRanges_disjoint hret fun r hr =>
    (hpages r (Config.mem_fixedRanges_of_mem_reservedRanges hr)).1
  exact ⟨hdisj, hclear⟩

/-- Two guests on a pool of four pages: the image of the first lies in its
region, and the second has an image of its own and a shared memory. -/
def twoGuests : Config where
  shmemlist := [{ size := 0x1000#64, colors := 0#64, placePhys := true, phys := 0x80002000#64 }]
  vmlist :=
    [{ (default : VmConfig) with
        image := ⟨0x0#64, 0x80000000#64, 0x800#64, false⟩
        regions := [⟨0x0#64, 0x1000#64, 0#64, true, 0x80000000#64⟩] },
      { (default : VmConfig) with
        image := ⟨0x0#64, 0x80001000#64, 0x1000#64, false⟩
        regions := [⟨0x0#64, 0x1000#64, 0#64, false, 0#64⟩] }]

theorem memReservePhysicalMemory_partition_twoGuests :
    ∃ pool, ppInit ⟨0x80000000#64, 0x4000#64, by decide⟩ (fun _ => 0#32) = some pool ∧
      (twoGuests.reservedRanges.Pairwise fun r r' =>
          ∀ p, ¬ (pool.Touches r p ∧ pool.Touches r' p)) ∧
        ∀ r ∈ twoGuests.reservedRanges, ∀ p, pool.Touches r p → pool.bits p = false := by
  exact ⟨_, rfl, memReservePhysicalMemory_partition (by decide) (by decide)⟩

/-! ## Coverage -/

/-- What a call hands out. -/
def Returns (c : Coloring) (pool : PagePool) (p : ℕ) : Op c → Prop
  | .alloc numPages aligned =>
      let alloc := pool.ppAlloc numPages aligned (memPpagesGet 0#64 0#64)
      alloc.ok = true ∧ p ∈ Finset.Ico (pool.pageIndex alloc.ppages.base)
        (pool.pageIndex alloc.ppages.base + alloc.ppages.numPages.toNat)
  | .allocClr n colors _ =>
      let alloc := pool.ppAllocClr c n colors (memPpagesGet 0#64 0#64)
      alloc.ok = true ∧ p ∈ c.clrPages pool.base colors alloc.ppages.numPages.toNat
        (pool.pageIndex alloc.ppages.base)
  | _ => False

/-- The call does not give back the page `p`, and if it is a coloured
allocation it marks free pages only. -/
def Keeps (c : Coloring) (pool : PagePool) (p : ℕ) : Op c → Prop
  | .allocClr n colors _ => pool.AllocClrExact c colors n.toNat
  | .free ppages => inRange ppages.base pool.base (pageBytes pool.size) = true →
      p ∉ pool.freedPages c ppages
  | _ => True

theorem not_returns_alloc {c : Coloring} {p : ℕ} (hp : pool.bits p = true)
    (numPages : SizeT) (aligned : Bool) :
    (pool.step c (.alloc numPages aligned)).bits p = true ∧
      ¬ pool.Returns c p (.alloc numPages aligned) := by
  rw [step, Returns]
  by_cases hzero : numPages = 0#64
  · simp [ppAlloc, hzero, hp]
  have hpos : 0 < numPages.toNat := Nat.pos_of_ne_zero (BitVec.toNat_ne.mp hzero)
  cases hsearch : pool.ppAllocSearch numPages.toNat aligned with
  | none =>
      rw [ppAlloc_of_search_none hzero hsearch]
      exact ⟨hp, fun h => absurd h.1 Bool.false_ne_true⟩
  | some bit =>
      obtain ⟨hlt, hrun⟩ := ppAllocSearch_run hpos hsearch
      rw [ppAlloc_of_search_some hzero hsearch]
      dsimp only
      rw [pageIndex_pageAddr pool hlt]
      constructor
      · rw [bits_setConsecutive_marks _ rfl p, hp, Bool.true_or]
      · rintro ⟨-, hmem⟩
        obtain ⟨h1, h2⟩ := Finset.mem_Ico.mp hmem
        rw [hrun.apply h1 h2] at hp
        cases hp

theorem ppAllocClrSearch_lt {c : Coloring} {colors : ColorMap} {n head : ℕ}
    (h : c.HasColor colors) (hn : 0 < n)
    (hsearch : pool.ppAllocClrSearch c n colors = some head) :
    head < pool.size.toNat :=
  (ppAllocClrSearch_freeWalk h hn hsearch 0 hn).1

theorem not_returns_allocClr {c : Coloring} {p : ℕ} (hp : pool.bits p = true)
    {n : SizeT} {colors : ColorMap} (hcolor : c.HasColor colors)
    (hexact : pool.AllocClrExact c colors n.toNat) :
    (pool.step c (.allocClr n colors hcolor)).bits p = true ∧
      ¬ pool.Returns c p (.allocClr n colors hcolor) := by
  rw [step, Returns, ppAllocClr]
  dsimp only
  cases hsearch : pool.ppAllocClrSearch c n.toNat colors with
  | none => exact ⟨hp, fun h => absurd h.1 Bool.false_ne_true⟩
  | some head =>
      have hfree := (ppAllocClrSearch_exact_iff hcolor).mpr hexact head hsearch
      dsimp only
      constructor
      · rw [PagePool.bits, bitmapGet_markPages]
        rw [PagePool.bits] at hp
        rw [hp, Bool.true_or]
      · rintro ⟨-, hmem⟩
        rcases Nat.eq_zero_or_pos n.toNat with hzero | hpos
        · rw [hzero] at hmem
          cases hmem
        · rw [pageIndex_pageAddr pool (ppAllocClrSearch_lt hcolor hpos hsearch)] at hmem
          rw [(hfree p hmem).2] at hp
          cases hp

/-- A marked page stays marked and is not handed out by a call that keeps
it. -/
theorem not_returns_of_keeps {c : Coloring} {p : ℕ} {op : Op c}
    (hp : pool.bits p = true) (hkeeps : pool.Keeps c p op) :
    (pool.step c op).bits p = true ∧ ¬ pool.Returns c p op := by
  cases op with
  | alloc numPages aligned => exact not_returns_alloc hp numPages aligned
  | allocClr n colors hcolor => exact not_returns_allocClr hp hcolor hkeeps
  | reserve ppages =>
      refine ⟨?_, fun h => h⟩
      rw [step, memReservePpoolPpages]
      split_ifs
      · rw [bits_setConsecutive_marks _ rfl p, hp, Bool.true_or]
      · exact hp
  | free ppages =>
      refine ⟨?_, fun h => h⟩
      rw [step]
      by_cases hin : inRange ppages.base pool.base (pageBytes pool.size) = true
      · rw [bits_memFreePpages c pool hin, hp, decide_eq_false (hkeeps hin)]
        rfl
      · rw [memFreePpages, if_neg hin]
        exact hp

theorem Touches.of_rangeInRange {r g : PhysRange} {p : ℕ} (h : pool.Touches r p)
    (hin : rangeInRange r.base r.size g.base g.size = true) : pool.Touches g p := by
  obtain ⟨hp, a, h1, h2, h3, h4⟩ := h
  obtain ⟨hbase, hlim⟩ := (rangeInRange_iff _ _ _ _).mp hin
  have hext := pool.extent
  refine ⟨hp, a, by omega, ?_, h3, h4⟩
  unfold pageSize at *
  omega

/-- After a reservation that succeeds all fixed ranges are marked in the pool
exactly when those are that the code passes over or shifts: the pages of the
pool that such a range meets were marked before or belong to the run of some
range. Pages marked are not handed out by later calls that keep them. -/
theorem memReservePhysicalMemory_covers_iff (c : Coloring)
    (hret : (pool.memReservePhysicalMemory config).1 = true) :
    ((∀ r ∈ config.fixedRanges, ∀ p, pool.Touches r p →
          (pool.memReservePhysicalMemory config).2.bits p = true) ↔
        ∀ r ∈ config.reservedRanges, ¬ pool.OnPages r → ∀ p, pool.Touches r p →
          pool.bits p = true ∨ ∃ q ∈ config.reservedRanges, pool.Reserves q p) ∧
      ∀ p, (pool.memReservePhysicalMemory config).2.bits p = true →
        ∀ ops, Run.Along (step c) (fun pool op => pool.Keeps c p op)
            (pool.memReservePhysicalMemory config).2 ops →
          Run.Along (step c) (fun pool op => ¬ pool.Returns c p op)
            (pool.memReservePhysicalMemory config).2 ops := by
  constructor
  · rw [memReservePhysicalMemory_eq] at hret ⊢
    simp only [bits_reserveRanges hret]
    constructor
    · intro hall r hr _ p hp
      exact hall r (Config.mem_fixedRanges_of_mem_reservedRanges hr) p hp
    · intro hshifted
      have hreserved : ∀ r ∈ config.reservedRanges, ∀ p, pool.Touches r p →
          pool.bits p = true ∨ ∃ q ∈ config.reservedRanges, pool.Reserves q p := by
        intro r hr p hp
        by_cases hpages : pool.OnPages r
        · exact .inr ⟨r, hr, hpages.reserves_of_touches hp⟩
        · exact hshifted r hr hpages p hp
      intro r hr p hp
      -- an image left to its region is covered by the region
      rcases Config.mem_reservedRanges_or_in_region hr with hr | ⟨g, hg, hin⟩
      · exact hreserved r hr p hp
      · exact hreserved g hg p (hp.of_rangeInRange hin)
  · intro p hp ops hkeeps
    exact hkeeps.imp_of_invariant (I := fun pool => pool.bits p = true) hp
      fun _ _ hmarked hstep => not_returns_of_keeps hmarked hstep

theorem memReservePhysicalMemory_covers_twoGuests :
    ∃ pool, ppInit ⟨0x80000000#64, 0x4000#64, by decide⟩ (fun _ => 0#32) = some pool ∧
      ((∀ r ∈ twoGuests.fixedRanges, ∀ p, pool.Touches r p →
            (pool.memReservePhysicalMemory twoGuests).2.bits p = true) ↔
          ∀ r ∈ twoGuests.reservedRanges, ¬ pool.OnPages r → ∀ p, pool.Touches r p →
            pool.bits p = true ∨ ∃ q ∈ twoGuests.reservedRanges, pool.Reserves q p) := by
  refine ⟨_, rfl, ?_⟩
  exact (memReservePhysicalMemory_covers_iff Coloring.initial (by decide)).1

/-- A guest with a region that starts half a page into the pool and one whose
second page is behind it. -/
def shiftedGuest : Config where
  shmemlist := []
  vmlist :=
    [{ (default : VmConfig) with
        image := ⟨0x0#64, 0x80002000#64, 0x1000#64, false⟩
        regions :=
          [⟨0x0#64, 0x800#64, 0#64, true, 0x80000800#64⟩,
            ⟨0x1000#64, 0x2000#64, 0#64, true, 0x80004000#64⟩] }]

/-- Neither the first page nor the last one of the pool is marked, and the first
is handed out at once. -/
theorem memReservePhysicalMemory_not_covers_shiftedGuest :
    ∃ pool, ppInit ⟨0x80000000#64, 0x5000#64, by decide⟩ (fun _ => 0#32) = some pool ∧
      (pool.memReservePhysicalMemory shiftedGuest).1 = true ∧
      (∃ r ∈ shiftedGuest.fixedRanges, pool.Touches r 0 ∧
        (pool.memReservePhysicalMemory shiftedGuest).2.bits 0 = false) ∧
      (∃ r ∈ shiftedGuest.fixedRanges, pool.Touches r 4 ∧
        (pool.memReservePhysicalMemory shiftedGuest).2.bits 4 = false) ∧
      (pool.memReservePhysicalMemory shiftedGuest).2.Returns Coloring.initial 0
        (.alloc 1#64 false) := by
  refine ⟨_, rfl, by decide, ⟨⟨0x80000800#64, 0x800#64⟩, by decide, ?_, by decide⟩,
    ⟨⟨0x80004000#64, 0x2000#64⟩, by decide, ?_, by decide⟩, ⟨by decide, by decide⟩⟩
  · exact ⟨by decide, 0x80000800, by decide, by decide, by decide, by decide⟩
  · exact ⟨by decide, 0x80004000, by decide, by decide, by decide, by decide⟩

end PagePool

end BaoHypervisor
