import BaoHypervisor.Core.Mem.AllocClr

/-!
# The counter of free pages

`Accurate` says that `pool->free` counts the clear bits of the pool. Each call
on a pool marks or clears some positions of the bitmap, and the counter goes
down by the number of pages asked for, or stays. So a call keeps the counter
accurate exactly when the positions it marks are free pages of the pool, and a
call of `mem_free_ppages`, which leaves the counter alone, when it clears
nothing. `StepExact` spells that out for the four calls.
-/

namespace BaoHypervisor

namespace PagePool

open Bitmap BitRun

/-- `pool->free` is the number of clear bits among the first `pool->size`. -/
def Accurate (pool : PagePool) : Prop :=
  pool.free.toNat = clearCount pool.bits pool.size.toNat

theorem Fresh.accurate {pool : PagePool} (h : pool.Fresh) : pool.Accurate := by
  rw [Accurate, h.free_eq, clearCount_of_clear fun p hp => h.bits_eq_false hp]

/-! ## Marking and clearing -/

section Marking

variable {pool pool' : PagePool}

theorem accurate_mark_iff (h : pool.Accurate) (hsize : pool'.size = pool.size)
    {S : Finset ℕ} (hmarks : Marks pool.bits pool'.bits S) {k : SizeT}
    (hcard : S.card = k.toNat) (hfree : pool'.free = pool.free - k) :
    pool'.Accurate ↔ ∀ p ∈ S, pool.FreePage p := by
  have hcount := clearCount_marks hmarks pool.size.toNat
  have hle := clearCount_le pool.bits pool.size.toNat
  have hlt := pool.size_lt
  have hk := k.isLt
  have hsub : (pool.free - k).toNat = (2 ^ 64 - k.toNat + pool.free.toNat) % 2 ^ 64 :=
    BitVec.toNat_sub _ _
  rw [Accurate] at h
  rw [Accurate, hfree, hsize]
  unfold FreePage
  rw [← clearCount_marks_eq_iff hmarks, hcard]
  omega

theorem accurate_mark_free_iff (h : pool.Accurate) (hsize : pool'.size = pool.size)
    {S : Finset ℕ} (hmarks : Marks pool.bits pool'.bits S)
    (hfree : pool'.free = pool.free) :
    pool'.Accurate ↔ ∀ p ∈ S, p < pool.size.toNat → pool.bits p = true := by
  rw [Accurate] at h
  rw [Accurate, hfree, hsize, h, eq_comm]
  exact clearCount_marks_eq_self_iff hmarks _

/-- A call that clears and leaves the counter alone. -/
theorem accurate_clear_iff (h : pool.Accurate) (hsize : pool'.size = pool.size)
    {S : Finset ℕ} (hclears : ∀ p, pool'.bits p = (pool.bits p && !decide (p ∈ S)))
    (hfree : pool'.free = pool.free) :
    pool'.Accurate ↔ ∀ p ∈ S, p < pool.size.toNat → pool.bits p = false := by
  rw [Accurate] at h
  rw [Accurate, hfree, hsize, h,
    clearCount_marks_eq_self_iff (marks_of_clears hclears)]
  simp only [Finset.mem_filter, and_imp]
  constructor
  · intro hall p hp hlt
    by_contra hne
    rw [Bool.not_eq_false] at hne
    have hset := hall p hp hne hlt
    rw [hclears p, hne, decide_eq_true hp] at hset
    cases hset
  · intro hall p hp hset hlt
    rw [hall p hp hlt] at hset
    cases hset

end Marking

/-! ## The condition of each call -/

section Exact

variable (c : Coloring) (pool : PagePool)

/-- A reservation of a range inside the pool takes free pages of the pool
only. One of no pages finds its bitmap word marked already. -/
def ReserveExact (ppages : PPages) : Prop :=
  pool.hasPpages ppages = true →
    if ppages.numPages = 0#64 then
      ∀ p ∈ pool.reservedRun ppages, p < pool.size.toNat → pool.bits p = true
    else ∀ p ∈ pool.reservedRun ppages, pool.FreePage p

/-- A call of `mem_free_ppages` gives back no page of the pool. -/
def FreeExact (ppages : PPages) : Prop :=
  inRange ppages.base pool.base (pageBytes pool.size) = true →
    ∀ p ∈ pool.freedPages c ppages, p < pool.size.toNat → pool.bits p = false

/-- The condition for a call to keep the counter accurate. -/
def StepExact : Op c → Prop
  | .alloc numPages aligned => numPages ≠ 0#64 → pool.AllocFits numPages.toNat aligned
  | .allocClr n colors _ => pool.AllocClrExact c colors n.toNat
  | .reserve ppages => pool.ReserveExact ppages
  | .free ppages => pool.FreeExact c ppages

end Exact

variable {c : Coloring} {pool : PagePool}

theorem step_alloc_accurate_iff (h : pool.Accurate) (numPages : SizeT) (aligned : Bool) :
    (pool.step c (.alloc numPages aligned)).Accurate ↔
      pool.StepExact c (.alloc numPages aligned) := by
  rw [step, StepExact]
  by_cases hzero : numPages = 0#64
  · simp [ppAlloc, hzero, h]
  have hpos : 0 < numPages.toNat := Nat.pos_of_ne_zero (BitVec.toNat_ne.mp hzero)
  rw [← ppAllocSearch_le_iff hpos]
  cases hsearch : pool.ppAllocSearch numPages.toNat aligned with
  | none => simp [ppAlloc_of_search_none hzero hsearch, h]
  | some bit =>
      have hrun := (ppAllocSearch_run hpos hsearch).2
      rw [ppAlloc_of_search_some hzero hsearch]
      have hspan : (Finset.Ico bit (bit + consecSpan bit numPages.toNat)).card =
          numPages.toNat := by
        rw [consecSpan_of_pos bit hpos, Nat.card_Ico, Nat.add_sub_cancel_left]
      refine Iff.trans (accurate_mark_iff h ?_ ?_ hspan ?_) ?_
      · rfl
      · exact bits_setConsecutive_marks _ rfl
      · rfl
      rw [consecSpan_of_pos bit hpos]
      simp only [Finset.mem_Ico, Option.some.injEq, forall_eq', hzero, ne_eq,
        not_false_eq_true, true_imp_iff]
      constructor
      · intro hall
        have hlast := (hall (bit + numPages.toNat - 1) (by omega)).1
        omega
      · rintro hle p ⟨h1, h2⟩
        exact ⟨by omega, hrun.apply h1 h2⟩

theorem step_allocClr_accurate_iff (h : pool.Accurate) (n : SizeT) (colors : ColorMap)
    (hcolor : c.HasColor colors) :
    (pool.step c (.allocClr n colors hcolor)).Accurate ↔
      pool.StepExact c (.allocClr n colors hcolor) := by
  rw [step, StepExact, ← ppAllocClrSearch_exact_iff hcolor, ppAllocClr]
  dsimp only
  cases hsearch : pool.ppAllocClrSearch c n.toNat colors with
  | none => simp [h]
  | some head =>
      have hcard : (c.clrPages pool.base colors n.toNat head).toFinset.card = n.toNat := by
        rw [List.toFinset_card_of_nodup (Coloring.nodup_clrPages hcolor _ _),
          Coloring.length_clrPages]
      refine Iff.trans (accurate_mark_iff h ?_ (fun p => ?_) hcard ?_) ?_
      · rfl
      · rw [PagePool.bits, bitmapGet_markPages, PagePool.bits]
        simp only [List.mem_toFinset]
      · rfl
      simp only [List.mem_toFinset, Option.some.injEq, forall_eq']

theorem step_reserve_accurate_iff (h : pool.Accurate) (ppages : PPages) :
    (pool.step c (.reserve ppages)).Accurate ↔ pool.StepExact c (.reserve ppages) := by
  rw [step, StepExact, ReserveExact, memReservePpoolPpages]
  by_cases hin : pool.hasPpages ppages = true
  · rw [if_pos hin]
    dsimp only
    by_cases hzero : ppages.numPages = 0#64
    · refine Iff.trans (accurate_mark_free_iff (S := pool.reservedRun ppages) h ?_ ?_ ?_) ?_
      · rfl
      · exact bits_setConsecutive_marks _ rfl
      · rw [hzero]
        exact BitVec.sub_zero _
      simp only [hin, hzero, if_pos, true_imp_iff, reservedRun]
    · have hpos : 0 < ppages.numPages.toNat :=
        Nat.pos_of_ne_zero (BitVec.toNat_ne.mp hzero)
      have hspan : (pool.reservedRun ppages).card = ppages.numPages.toNat := by
        rw [reservedRun, consecSpan_of_pos _ hpos, Nat.card_Ico, Nat.add_sub_cancel_left]
      refine Iff.trans (accurate_mark_iff h ?_ ?_ hspan ?_) ?_
      · rfl
      · exact bits_setConsecutive_marks _ rfl
      · rfl
      simp only [hin, if_neg hzero, true_imp_iff, reservedRun]
  · rw [if_neg hin]
    simp [hin, h]

theorem step_free_accurate_iff (h : pool.Accurate) (ppages : PPages) :
    (pool.step c (.free ppages)).Accurate ↔ pool.StepExact c (.free ppages) := by
  rw [StepExact, FreeExact]
  by_cases hin : inRange ppages.base pool.base (pageBytes pool.size) = true
  · simp only [hin, true_imp_iff]
    refine accurate_clear_iff h ?_ (bits_memFreePpages c pool hin) ?_
    · exact size_memFreePpages c pool ppages
    · exact free_memFreePpages c pool ppages
  · rw [step, memFreePpages, if_neg hin]
    simp [hin, h]

theorem step_accurate_iff (h : pool.Accurate) (op : Op c) :
    (pool.step c op).Accurate ↔ pool.StepExact c op := by
  cases op with
  | alloc numPages aligned => exact step_alloc_accurate_iff h numPages aligned
  | allocClr n colors hcolor => exact step_allocClr_accurate_iff h n colors hcolor
  | reserve ppages => exact step_reserve_accurate_iff h ppages
  | free ppages => exact step_free_accurate_iff h ppages

/-- Over a history of a fresh pool the counter is accurate after every call
exactly when every call meets its condition. -/
theorem along_accurate_iff (hfresh : pool.Fresh) (ops : List (Op c)) :
    Run.Along (step c) (fun pool op => (pool.step c op).Accurate) pool ops ↔
      Run.Along (step c) (StepExact c) pool ops :=
  Run.along_invariant_iff hfresh.accurate (fun _ op h => step_accurate_iff h op) ops

theorem along_accurate_iff_three_pages :
    ∃ pool, ppInit ⟨0x80000000#64, 0x3000#64, by decide⟩ (fun _ => 0#32) = some pool ∧
      (Run.Along (step Coloring.initial)
          (fun pool op => (pool.step Coloring.initial op).Accurate) pool
          [.alloc 3#64 false] ↔
        Run.Along (step Coloring.initial) (StepExact Coloring.initial) pool
          [.alloc 3#64 false]) := by
  have hinit : ppInit ⟨0x80000000#64, 0x3000#64, by decide⟩ (fun _ => 0#32) = some _ := rfl
  exact ⟨_, hinit, along_accurate_iff (ppInit_fresh hinit) [.alloc 3#64 false]⟩

/-- Three pages given out and given back: the counter stays zero, and a request
for one page is refused. -/
theorem free_not_accurate_three_pages :
    ∃ pool, ppInit ⟨0x80000000#64, 0x3000#64, by decide⟩ (fun _ => 0#32) = some pool ∧
      ¬ Run.Along (step Coloring.initial)
          (fun pool op => (pool.step Coloring.initial op).Accurate) pool
          [.alloc 3#64 false, .free (memPpagesGet 0x80000000#64 3#64)] ∧
      ((Run.exec (step Coloring.initial) pool
          [.alloc 3#64 false, .free (memPpagesGet 0x80000000#64 3#64)]).ppAlloc
        1#64 false (memPpagesGet 0#64 0#64)).ok = false := by
  refine ⟨_, rfl, ?_, by decide⟩
  rintro ⟨-, hacc, -⟩
  rw [Accurate] at hacc
  revert hacc
  decide

end PagePool

end BaoHypervisor
