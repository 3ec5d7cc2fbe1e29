import BaoHypervisor.Core.Mem.PagePool
import BaoHypervisor.Theory.Run

/-!
# Contiguous allocation stays in the pool

`pp_alloc` takes the first run of clear bits that its search comes to. The
search bounds where a run starts and not where it ends, so a run may overhang
the pool: it starts on a page of the pool and goes on into the clear bits
behind the last page. This file says which runs the two searches come to, and
from that exactly when an allocation stays inside the pool.
-/

namespace BaoHypervisor

namespace PagePool

open Bitmap BitRun

section Search

variable (pool : PagePool) (n start : ℕ)

/-- A clear run of `n` pages that starts in the pool and ends behind it. -/
def Overhangs (b : ℕ) : Prop :=
  b < pool.size.toNat ∧ pool.size.toNat < b + n ∧ IsRun pool.bits false b n

/-- A clear run of `n` pages inside the pool. -/
def Fits (b : ℕ) : Prop :=
  b + n ≤ pool.size.toNat ∧ IsRun pool.bits false b n

/-- The aligned search from `c` comes to the clear run at `b`: each run it
leaves is not aligned, and it goes on from the sum of the run's start and the
remainder of that start. -/
inductive Visits : ℕ → ℕ → Prop
  | first {c b : ℕ} : FirstRun pool.bits false pool.size.toNat n c b → Visits c b
  | next {c b b' : ℕ} : FirstRun pool.bits false pool.size.toNat n c b →
      (b + start) % n ≠ 0 → Visits (b + (b + start) % n) b' → Visits c b'

/-- A search from `c` does not settle on an overhanging run. Without alignment
that is the case unless the only clear runs it can find overhang; with it,
the aligned runs the search visits have to fit. -/
def PassFits (c : ℕ) : Bool → Prop
  | false => (∃ b, c ≤ b ∧ pool.Overhangs n b) → ∃ b, c ≤ b ∧ pool.Fits n b
  | true => ∀ b, pool.Visits n start c b → (b + start) % n = 0 → ¬ pool.Overhangs n b

/-- A search from `c` finds nothing. -/
def PassEmpty (c : ℕ) : Bool → Prop
  | false => ∀ b, c ≤ b → b < pool.size.toNat → ¬ IsRun pool.bits false b n
  | true => ∀ b, pool.Visits n start c b → (b + start) % n ≠ 0

end Search

/-- The condition for an allocation to stay inside the pool: the first search
does not settle on an overhanging run, and neither does the second if there is
one. A pool whose counter is zero is not searched. -/
def AllocFits (pool : PagePool) (n : ℕ) (aligned : Bool) : Prop :=
  pool.free ≠ 0#64 →
    pool.PassFits n (pool.allocStart n aligned) (pool.allocCurr n aligned) aligned ∧
      (pool.PassEmpty n (pool.allocStart n aligned) (pool.allocCurr n aligned) aligned →
        pool.PassFits n (pool.allocStart n aligned) (pool.allocRestart n aligned) aligned)

variable {pool : PagePool} {n start : ℕ}

/-! ## What a search finds -/

theorem Visits.run {c b : ℕ} (h : pool.Visits n start c b) :
    c ≤ b ∧ b < pool.size.toNat ∧ IsRun pool.bits false b n := by
  induction h with
  | first hfirst => exact ⟨hfirst.start_le, hfirst.lt_size, hfirst.run⟩
  | next hfirst _ _ ih =>
      have := hfirst.start_le
      exact ⟨by omega, ih.2⟩

theorem not_overhangs_iff {b : ℕ} (hlt : b < pool.size.toNat)
    (hrun : IsRun pool.bits false b n) :
    ¬ pool.Overhangs n b ↔ b + n ≤ pool.size.toNat := by
  rw [Overhangs]
  constructor
  · intro h
    by_contra hgt
    exact h ⟨hlt, by omega, hrun⟩
  · rintro h ⟨-, hgt, -⟩
    omega

theorem ppAllocPass_of_free_eq_zero (hfree : pool.free = 0#64) (aligned : Bool)
    (fuel c : ℕ) : pool.ppAllocPass n start aligned fuel c = none := by
  cases fuel with
  | zero => rfl
  | succ fuel => rw [ppAllocPass, if_pos hfree]

/-- Without alignment the search takes the first clear run. -/
theorem ppAllocPass_unaligned_eq_some_iff (hfree : pool.free ≠ 0#64) (hn : 0 < n)
    {c b : ℕ} :
    pool.ppAllocPass n start false pool.size.toNat c = some b ↔
      FirstRun pool.bits false pool.size.toNat n c b := by
  cases hsize : pool.size.toNat with
  | zero =>
      constructor
      · intro h
        cases h
      · intro h
        exact absurd h.lt_size (Nat.not_lt_zero _)
  | succ m =>
      rw [ppAllocPass, if_neg hfree, hsize]
      have hle : m + 1 ≤ sizeMax := hsize ▸ pool.size_le_sizeMax
      rw [PagePool.bits, ← bitmapFindConsec_eq_some_iff hn hle]
      cases bitmapFindConsec pool.bitmap (m + 1) c n false with
      | none => simp
      | some bit => simp

/-- With alignment the search takes the aligned run it visits. -/
theorem ppAllocPass_aligned_eq_some_iff (hfree : pool.free ≠ 0#64) (hn : 0 < n)
    (fuel : ℕ) {c b : ℕ} (hfuel : pool.size.toNat ≤ c + fuel) :
    pool.ppAllocPass n start true fuel c = some b ↔
      pool.Visits n start c b ∧ (b + start) % n = 0 := by
  induction fuel generalizing c with
  | zero =>
      constructor
      · intro h
        cases h
      · rintro ⟨hvisits, -⟩
        have := hvisits.run
        omega
  | succ fuel ih =>
      rw [ppAllocPass, if_neg hfree]
      cases hfind : bitmapFindConsec pool.bitmap pool.size.toNat c n false with
      | none =>
          have hnone := (bitmapFindConsec_eq_none_iff hn pool.size_le_sizeMax).mp hfind
          constructor
          · intro h
            cases h
          · rintro ⟨hvisits, -⟩
            obtain ⟨hle, hlt, hrun⟩ := hvisits.run
            exact absurd hrun (hnone b hle hlt)
      | some bit =>
          have hfirst : FirstRun pool.bits false pool.size.toNat n c bit :=
            (bitmapFindConsec_eq_some_iff hn pool.size_le_sizeMax).mp hfind
          have hle := hfirst.start_le
          dsimp only
          by_cases hal : (bit + start) % n = 0
          · rw [if_neg (by simp [hal])]
            constructor
            · rintro heq
              obtain rfl := Option.some.inj heq
              exact ⟨.first hfirst, hal⟩
            · rintro ⟨hvisits, -⟩
              -- the search stops at the first run, which is aligned
              cases hvisits with
              | first hfirst' => rw [hfirst.unique hfirst']
              | next hfirst' hne _ =>
                  rw [← hfirst.unique hfirst'] at hne
                  exact absurd hal hne
          · rw [if_pos ⟨rfl, hal⟩, ih (by omega)]
            constructor
            · rintro ⟨hvisits, hb⟩
              exact ⟨.next hfirst hal hvisits, hb⟩
            · rintro ⟨hvisits, hb⟩
              refine ⟨?_, hb⟩
              cases hvisits with
              | first hfirst' =>
                  rw [← hfirst.unique hfirst'] at hb
                  exact absurd hb hal
              | next hfirst' _ hrest =>
                  rw [← hfirst.unique hfirst'] at hrest
                  exact hrest

theorem ppAllocPass_run (hn : 0 < n) {aligned : Bool} {c b : ℕ}
    (h : pool.ppAllocPass n start aligned pool.size.toNat c = some b) :
    b < pool.size.toNat ∧ IsRun pool.bits false b n := by
  by_cases hfree : pool.free = 0#64
  · rw [ppAllocPass_of_free_eq_zero hfree] at h
    cases h
  · cases aligned with
    | false =>
        have hfirst := (ppAllocPass_unaligned_eq_some_iff hfree hn).mp h
        exact ⟨hfirst.lt_size, hfirst.run⟩
    | true =>
        exact ((ppAllocPass_aligned_eq_some_iff hfree hn _ (by omega)).mp h).1.run.2

theorem ppAllocPass_eq_none_iff (hfree : pool.free ≠ 0#64) (hn : 0 < n)
    (aligned : Bool) (c : ℕ) :
    pool.ppAllocPass n start aligned pool.size.toNat c = none ↔
      pool.PassEmpty n start c aligned := by
  rw [Option.eq_none_iff_forall_ne_some]
  cases aligned with
  | false =>
      simp only [ne_eq, ppAllocPass_unaligned_eq_some_iff hfree hn, PassEmpty]
      constructor
      · intro h b hle hlt hrun
        obtain ⟨b', -, hfirst⟩ := exists_firstRun hle hlt hrun
        exact h b' hfirst
      · intro h b hfirst
        exact h b hfirst.start_le hfirst.lt_size hfirst.run
  | true =>
      have hiff : ∀ b, pool.ppAllocPass n start true pool.size.toNat c = some b ↔
          pool.Visits n start c b ∧ (b + start) % n = 0 := fun b =>
        ppAllocPass_aligned_eq_some_iff hfree hn _ (by omega)
      simp only [ne_eq, hiff, PassEmpty, not_and]

/-- A search stays in the pool exactly when it does not settle on an
overhanging run. -/
theorem ppAllocPass_le_iff (hfree : pool.free ≠ 0#64) (hn : 0 < n)
    (aligned : Bool) (c : ℕ) :
    (∀ b, pool.ppAllocPass n start aligned pool.size.toNat c = some b →
        b + n ≤ pool.size.toNat) ↔
      pool.PassFits n start c aligned := by
  cases aligned with
  | false =>
      simp only [ppAllocPass_unaligned_eq_some_iff hfree hn, PassFits]
      constructor
      · rintro h ⟨b, hle, hlt, hgt, hrun⟩
        obtain ⟨b', -, hfirst⟩ := exists_firstRun hle hlt hrun
        exact ⟨b', hfirst.start_le, h b' hfirst, hfirst.run⟩
      · intro h b hfirst
        by_contra hgt
        obtain ⟨b', hle, hfit, hrun⟩ :=
          h ⟨b, hfirst.start_le, hfirst.lt_size, by omega, hfirst.run⟩
        -- a fitting run starts before every overhanging one
        exact hfirst.first b' hle (by omega) hrun
  | true =>
      have hiff : ∀ b, pool.ppAllocPass n start true pool.size.toNat c = some b ↔
          pool.Visits n start c b ∧ (b + start) % n = 0 := fun b =>
        ppAllocPass_aligned_eq_some_iff hfree hn _ (by omega)
      simp only [hiff, PassFits, and_imp]
      constructor
      · intro h b hvisits hal
        exact (not_overhangs_iff hvisits.run.2.1 hvisits.run.2.2).mpr (h b hvisits hal)
      · intro h b hvisits hal
        exact (not_overhangs_iff hvisits.run.2.1 hvisits.run.2.2).mp (h b hvisits hal)

theorem ppAllocSearch_run (hn : 0 < n) {aligned : Bool} {b : ℕ}
    (h : pool.ppAllocSearch n aligned = some b) :
    b < pool.size.toNat ∧ IsRun pool.bits false b n := by
  rw [ppAllocSearch] at h
  cases hfirst : pool.ppAllocPass n (pool.allocStart n aligned) aligned
      pool.size.toNat (pool.allocCurr n aligned) with
  | some bit =>
      rw [hfirst] at h
      rw [← Option.some.inj h]
      exact ppAllocPass_run hn hfirst
  | none =>
      rw [hfirst] at h
      exact ppAllocPass_run hn h

/-- The two searches of an allocation stay in the pool exactly when the pool
meets `AllocFits`. -/
theorem ppAllocSearch_le_iff (hn : 0 < n) (aligned : Bool) :
    (∀ b, pool.ppAllocSearch n aligned = some b → b + n ≤ pool.size.toNat) ↔
      pool.AllocFits n aligned := by
  rw [AllocFits]
  by_cases hfree : pool.free = 0#64
  · simp [ppAllocSearch, ppAllocPass_of_free_eq_zero hfree, hfree]
  · simp only [ne_eq, hfree, not_false_eq_true, true_imp_iff]
    rw [← ppAllocPass_le_iff hfree hn, ← ppAllocPass_le_iff hfree hn,
      ← ppAllocPass_eq_none_iff hfree hn, ppAllocSearch]
    cases pool.ppAllocPass n (pool.allocStart n aligned) aligned
        pool.size.toNat (pool.allocCurr n aligned) with
    | some bit => simp
    | none => simp

/-! ## Allocations over a history -/

def AllocInBounds (c : Coloring) (pool : PagePool) : Op c → Prop
  | .alloc numPages aligned =>
      ∀ ppages, numPages ≠ 0#64 →
        (pool.ppAlloc numPages aligned ppages).ok = true →
          pool.pageIndex (pool.ppAlloc numPages aligned ppages).ppages.base +
            numPages.toNat ≤ pool.size.toNat
  | _ => True

/-- The condition of `AllocFits` for the allocations of a history. -/
def AllocStepFits (c : Coloring) (pool : PagePool) : Op c → Prop
  | .alloc numPages aligned => numPages ≠ 0#64 → pool.AllocFits numPages.toNat aligned
  | _ => True

theorem ppAlloc_of_search_some {numPages : SizeT} {aligned : Bool} {bit : ℕ}
    (hn : numPages ≠ 0#64) (h : pool.ppAllocSearch numPages.toNat aligned = some bit)
    (ppages : PPages) :
    pool.ppAlloc numPages aligned ppages =
      { ok := true
        ppages := { base := pool.pageAddr bit, numPages := numPages, colors := 0#64 }
        pool :=
          { pool with
            bitmap := bitmapSetConsecutive pool.bitmap bit numPages.toNat
            free := pool.free - numPages
            last := bit + numPages.toNat } } := by
  rw [ppAlloc]
  dsimp only
  rw [if_neg hn, h]

theorem ppAlloc_of_search_none {numPages : SizeT} {aligned : Bool}
    (hn : numPages ≠ 0#64) (h : pool.ppAllocSearch numPages.toNat aligned = none)
    (ppages : PPages) :
    pool.ppAlloc numPages aligned ppages =
      { ok := false
        ppages := { ppages with colors := 0#64, numPages := 0#64 }
        pool := pool } := by
  rw [ppAlloc]
  dsimp only
  rw [if_neg hn, h]

theorem allocInBounds_iff (c : Coloring) (op : Op c) :
    pool.AllocInBounds c op ↔ pool.AllocStepFits c op := by
  cases op with
  | alloc numPages aligned =>
      rw [AllocInBounds, AllocStepFits]
      by_cases hzero : numPages = 0#64
      · simp [hzero]
      have hpos : 0 < numPages.toNat := by
        have hne := BitVec.toNat_ne.mp hzero
        exact Nat.pos_of_ne_zero hne
      rw [← ppAllocSearch_le_iff hpos]
      cases hsearch : pool.ppAllocSearch numPages.toNat aligned with
      | none => simp [ppAlloc_of_search_none hzero hsearch]
      | some bit =>
          have hlt := (ppAllocSearch_run hpos hsearch).1
          simp [ppAlloc_of_search_some hzero hsearch, hzero, pageIndex_pageAddr pool hlt]
  | allocClr n colors hasColor => exact Iff.rfl
  | reserve ppages => exact Iff.rfl
  | free ppages => exact Iff.rfl

/-- Over any history of a pool, the successful allocations lie in the pool
exactly when none of their searches settles on an overhanging run. -/
theorem along_allocInBounds_iff (c : Coloring) (pool : PagePool) (ops : List (Op c)) :
    Run.Along (step c) (AllocInBounds c) pool ops ↔
      Run.Along (step c) (AllocStepFits c) pool ops :=
  Run.along_iff (I := fun _ => True) trivial (fun _ _ _ => trivial)
    (fun _ op _ => allocInBounds_iff c op) ops

/-- A fresh pool of three pages grants a request for five. -/
theorem ppInit_three_pages_not_along :
    ∃ pool, ppInit ⟨0x80000000#64, 0x3000#64, by decide⟩ (fun _ => 0#32) = some pool ∧
      (pool.ppAlloc 5#64 false (memPpagesGet 0#64 0#64)).ok = true ∧
      ¬ Run.Along (step Coloring.initial) (AllocInBounds Coloring.initial) pool
        [.alloc 5#64 false] := by
  refine ⟨_, rfl, by decide, ?_⟩
  rintro ⟨hbound, -⟩
  have hle := hbound (memPpagesGet 0#64 0#64) (by decide) (by decide)
  revert hle
  decide

end PagePool

end BaoHypervisor
