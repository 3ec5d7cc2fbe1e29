import BaoHypervisor.Core.Mem.ClrRuns
import BaoHypervisor.Core.Mem.Pools

/-!
# The pages that a free clears

`mem_free_ppages` asks each pool whether the first address of the pages is in its range. The
index of a page in the pool and its number in the memory are a constant apart, so a coloured walk
over the pool comes to the pages of the `ppages`. But the range of a pool takes the address right
behind it, and the pages of a coloured walk may all be in the pool behind that of its first
address (`freesOwn_iff`).
-/

namespace BaoHypervisor

open Bitmap

/-- The numbers of the pages in the memory, in the order of a walk over them. -/
def PPages.frames (c : Coloring) (ppages : PPages) : List ℕ :=
  (if c.allClrs ppages.colors then List.range ppages.numPages.toNat
  else c.clrPages ppages.base ppages.colors ppages.numPages.toNat 0).map
    (ppages.base.toNat / pageSize + ·)

namespace PagePool

def Owns (pool : PagePool) (frame : ℕ) : Prop :=
  pool.firstPage ≤ frame ∧ frame < pool.firstPage + pool.size.toNat

/-- The bits of the pool for which `mem_free_ppages` calls `bitmap_clear`. -/
def clearCalls (c : Coloring) (pool : PagePool) (ppages : PPages) : List ℕ :=
  if inRange ppages.base pool.base (pageBytes pool.size) then
    if c.allClrs ppages.colors then
      List.range' (pool.pageIndex ppages.base) ppages.numPages.toNat
    else c.clrPages pool.base ppages.colors ppages.numPages.toNat (pool.pageIndex ppages.base)
  else []

/-- A free of pages of the pool at a place in the list clears the bits of these pages, and of no
other pool. -/
structure FreesOwn (c : Coloring) (pools : List PagePool) (i : ℕ) (pool : PagePool)
    (ppages : PPages) : Prop where
  calls : ∀ p, p ∈ pool.clearCalls c ppages ↔ pool.firstPage + p ∈ ppages.frames c
  bits : ∃ pool', (freeInPools c pools ppages)[i]? = some pool' ∧
    ∀ p, pool'.bits p = (pool.bits p && !decide (pool.firstPage + p ∈ ppages.frames c))
  others : ∀ j ≠ i, ∀ other, pools[j]? = some other → other.clearCalls c ppages = []

variable {c : Coloring} {pool : PagePool} {pools : List PagePool} {ppages : PPages} {i : ℕ}

theorem clearPages_range' (map : Bitmap) (start n : ℕ) :
    clearPages map (List.range' start n) = bitmapClearConsecutive map start n := by
  induction n with
  | zero => rfl
  | succ n ih =>
      rw [List.range'_concat, Nat.one_mul, clearPages, List.foldl_append, bitmapClearConsecutive,
        ← ih]
      rfl

theorem memFreePpages_eq_clearPages (c : Coloring) (pool : PagePool) (ppages : PPages) :
    pool.memFreePpages c ppages =
      { pool with bitmap := clearPages pool.bitmap (pool.clearCalls c ppages) } := by
  rw [memFreePpages, clearCalls]
  dsimp only
  split_ifs
  · rw [clearPages_range']
  · rfl
  · rfl

theorem bits_memFreePpages_calls (c : Coloring) (pool : PagePool) (ppages : PPages) (p : ℕ) :
    (pool.memFreePpages c ppages).bits p =
      (pool.bits p && !decide (p ∈ pool.clearCalls c ppages)) := by
  rw [memFreePpages_eq_clearPages]
  exact bitmapGet_clearPages _ _ _

theorem firstPage_add_pageIndex (hbase : pool.base.toNat ≤ ppages.base.toNat) :
    pool.firstPage + pool.pageIndex ppages.base = ppages.base.toNat / pageSize := by
  have haligned := pool.base_aligned
  have hlt := ppages.base.isLt
  rw [firstPage, pageIndex, BitVec.toNat_sub]
  unfold pageSize at *
  omega

/-- The bits are those of the pages. -/
theorem map_clearCalls (h : inRange ppages.base pool.base (pageBytes pool.size) = true) :
    (pool.clearCalls c ppages).map (pool.firstPage + ·) = ppages.frames c := by
  have hindex := firstPage_add_pageIndex ((inRange_iff _).mp h).1
  have hstart : ∀ k, pool.firstPage + (pool.pageIndex ppages.base + k) =
      ppages.base.toNat / pageSize + k := by
    intro k
    rw [← Nat.add_assoc, hindex]
  rw [clearCalls, if_pos h, PPages.frames]
  split_ifs
  · rw [List.range'_eq_map_range, List.map_map]
    exact List.map_congr_left fun k _ => hstart k
  · have hshift := Coloring.clrPages_shift (c := c) ppages.colors hindex.symm
      ppages.numPages.toNat 0
    rw [Nat.add_zero] at hshift
    rw [← hshift, List.map_map]
    exact List.map_congr_left fun k _ => hstart k

theorem mem_clearCalls_iff (h : inRange ppages.base pool.base (pageBytes pool.size) = true)
    (p : ℕ) : p ∈ pool.clearCalls c ppages ↔ pool.firstPage + p ∈ ppages.frames c := by
  rw [← map_clearCalls h, List.mem_map]
  constructor
  · intro hp
    exact ⟨p, hp, rfl⟩
  · rintro ⟨q, hq, heq⟩
    rwa [← Nat.add_left_cancel heq]

theorem length_frames (c : Coloring) (ppages : PPages) :
    (ppages.frames c).length = ppages.numPages.toNat := by
  rw [PPages.frames, List.length_map]
  split_ifs
  · exact List.length_range
  · exact Coloring.length_clrPages _ _

theorem length_clearCalls (h : inRange ppages.base pool.base (pageBytes pool.size) = true) :
    (pool.clearCalls c ppages).length = ppages.numPages.toNat := by
  rw [← length_frames c, ← map_clearCalls h, List.length_map]

theorem clearCalls_of_zero (hzero : ppages.numPages = 0#64) : pool.clearCalls c ppages = [] := by
  by_cases h : inRange ppages.base pool.base (pageBytes pool.size) = true
  · exact List.eq_nil_of_length_eq_zero (by rw [length_clearCalls h, hzero]; rfl)
  · rw [clearCalls, if_neg h]

theorem le_of_mem_frames {frame : ℕ} (h : frame ∈ ppages.frames c) :
    ppages.base.toNat / pageSize ≤ frame := by
  obtain ⟨k, -, rfl⟩ := List.mem_map.mp h
  exact Nat.le_add_right _ _

instance (pool : PagePool) (frame : ℕ) : Decidable (pool.Owns frame) :=
  inferInstanceAs (Decidable (_ ∧ _))

theorem exists_mem_frames (c : Coloring) (hn : ppages.numPages ≠ 0#64) :
    ∃ frame, frame ∈ ppages.frames c := by
  refine List.exists_mem_of_length_pos ?_
  rw [length_frames]
  exact Nat.pos_of_ne_zero (BitVec.toNat_ne.mp hn)

theorem covers_base (hn : ppages.numPages ≠ 0#64) (hown : ∀ f ∈ ppages.frames c, pool.Owns f)
    (hbase : pool.base.toNat ≤ ppages.base.toNat) : pool.Covers ppages.base.toNat := by
  obtain ⟨frame, hframe⟩ := exists_mem_frames c hn
  have hle := le_of_mem_frames hframe
  have hlt := (hown frame hframe).2
  have haligned := pool.base_aligned
  refine ⟨hbase, ?_⟩
  unfold firstPage at hlt
  unfold pageSize at *
  omega

theorem freesOwn_of_calls (hi : pools[i]? = some pool)
    (hcalls : ∀ p, p ∈ pool.clearCalls c ppages ↔ pool.firstPage + p ∈ ppages.frames c)
    (hothers : ∀ j ≠ i, ∀ other, pools[j]? = some other → other.clearCalls c ppages = []) :
    FreesOwn c pools i pool ppages := by
  refine ⟨hcalls, ⟨pool.memFreePpages c ppages, ?_, fun p => ?_⟩, hothers⟩
  · rw [freeInPools, List.getElem?_map, hi, Option.map_some]
  · rw [bits_memFreePpages_calls]
    simp only [hcalls]

/-- A free of pages of one pool clears their bits and touches no other pool, exactly if there are
no pages, or the first address is not before the pool and right behind no other. -/
theorem freesOwn_iff (hapart : pools.Pairwise Apart) (hi : pools[i]? = some pool)
    (hown : ∀ f ∈ ppages.frames c, pool.Owns f) :
    FreesOwn c pools i pool ppages ↔
      ppages.numPages = 0#64 ∨ pool.base.toNat ≤ ppages.base.toNat ∧
        ∀ j ≠ i, ∀ other, pools[j]? = some other →
          other.base.toNat + other.size.toNat * pageSize ≠ ppages.base.toNat := by
  by_cases hn : ppages.numPages = 0#64
  · refine iff_of_true (freesOwn_of_calls hi (fun p => ?_) fun _ _ _ _ => clearCalls_of_zero hn)
      (.inl hn)
    have hframes : ppages.frames c = [] :=
      List.eq_nil_of_length_eq_zero (by rw [length_frames, hn]; rfl)
    rw [clearCalls_of_zero hn, hframes]
    exact iff_of_false List.not_mem_nil List.not_mem_nil
  rw [or_iff_right hn]
  constructor
  · intro h
    refine ⟨?_, fun j hj other hother hend => ?_⟩
    · obtain ⟨frame, hframe⟩ := exists_mem_frames c hn
      obtain ⟨p, rfl⟩ := Nat.exists_eq_add_of_le (hown frame hframe).1
      by_contra hbase
      have hcall := (h.calls p).mpr hframe
      rw [clearCalls, if_neg fun hin => hbase ((inRange_iff _).mp hin).1] at hcall
      cases hcall
    · have hin : inRange ppages.base other.base (pageBytes other.size) = true :=
        (inRange_iff _).mpr ⟨by omega, hend.ge⟩
      have hlength := length_clearCalls (c := c) hin
      rw [h.others j hj other hother] at hlength
      exact absurd hlength.symm (BitVec.toNat_ne.mp hn)
  · rintro ⟨hbase, hends⟩
    have hcovers := covers_base hn hown hbase
    refine freesOwn_of_calls hi
      (mem_clearCalls_iff ((inRange_iff _).mpr ⟨hcovers.1, hcovers.2.le⟩))
      fun j hj other hother => ?_
    rw [clearCalls, if_neg]
    intro hin
    obtain ⟨hle, hge⟩ := (inRange_iff _).mp hin
    exact not_covers_of_pairwise hapart hi hother hj hcovers
      ⟨hle, lt_of_le_of_ne hge (hends j hj other hother).symm⟩

theorem freesOwn_iff_two_pages :
    FreesOwn Coloring.initial [sixteenPages] 0 sixteenPages (memPpagesGet 0x90003000#64 2#64) := by
  refine (freesOwn_iff (List.pairwise_singleton _ _) rfl (by decide)).mpr
    (.inr ⟨by decide, fun j hj other hother => ?_⟩)
  have hlength := (List.getElem?_eq_some_iff.mp hother).1
  exact absurd (Nat.lt_one_iff.mp hlength) hj

def nextSixteenPages : PagePool :=
  { sixteenPages with
    base := 0x90010000#64
    base_aligned := rfl
    extent := Nat.le_of_ble_eq_true rfl }

theorem apart_nextSixteenPages : Apart sixteenPages nextSixteenPages := by
  rintro a ⟨⟨-, hlt⟩, ⟨hle, -⟩⟩
  exact absurd (hlt.trans_le hle) (lt_irrefl _)

/-- The first page of a pool, as the page behind the last one of the pool before it. -/
theorem not_freesOwn_first_page :
    [sixteenPages, nextSixteenPages].Pairwise Apart ∧
      (∀ f ∈ (memPpagesGet 0x90010000#64 1#64).frames Coloring.initial,
        nextSixteenPages.Owns f) ∧
      ¬ FreesOwn Coloring.initial [sixteenPages, nextSixteenPages] 1 nextSixteenPages
        (memPpagesGet 0x90010000#64 1#64) :=
  ⟨List.pairwise_pair.mpr apart_nextSixteenPages, by decide, fun h =>
    absurd (h.others 0 (by decide) sixteenPages rfl) (by decide)⟩

end PagePool

end BaoHypervisor
