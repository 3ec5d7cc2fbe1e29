import BaoHypervisor.Core.Mem.RunAlloc

/-!
# The pages of a coloured allocation

Three walks enumerate the pages of a coloured allocation: the one that counts free pages, the
one that marks them, and that of a caller who maps the pages from `ppages->base` on. The last
two agree, since the colour of a page depends on its address only. The first one agrees with
them where the head it settles on has a colour of the map, and else by chance.
-/

namespace BaoHypervisor

open Bitmap BitRun

namespace Coloring

variable {c : Coloring} {base base' : Addr} {colors : ColorMap}

theorem colorOf_eq (c : Coloring) (base : Addr) (index : ℕ) :
    c.colorOf base index = (index + base.toNat / pageSize) / c.colorSize % c.colorNum := by
  have hperiod : ∀ m, m / c.colorSize % c.colorNum =
      m % (c.colorNum * c.colorSize) / c.colorSize := by
    intro m
    rw [Nat.mul_comm, Nat.mod_mul_right_div_self]
  rw [colorOf, hperiod, hperiod, Nat.add_mod_mod]

theorem inColors_shift {k : ℕ} (h : base'.toNat / pageSize = base.toNat / pageSize + k)
    (index : ℕ) : c.inColors base' colors index = c.inColors base colors (k + index) := by
  have hcolor : c.colorOf base' index = c.colorOf base (k + index) := by
    rw [colorOf_eq, colorOf_eq, h, Nat.add_comm _ k, ← Nat.add_assoc, Nat.add_comm index k]
  rw [inColors, inColors, hcolor]

theorem ppNextClrLoop_shift {k : ℕ} (h : base'.toNat / pageSize = base.toNat / pageSize + k)
    (fuel index : ℕ) :
    k + ppNextClrLoop c base' colors fuel index =
      ppNextClrLoop c base colors fuel (k + index) := by
  induction fuel generalizing index with
  | zero => rfl
  | succ fuel ih =>
      rw [ppNextClrLoop, ppNextClrLoop, inColors_shift h]
      split_ifs
      · rfl
      · exact ih (index + 1)

theorem clrPages_shift {k : ℕ} (colors : ColorMap)
    (h : base'.toNat / pageSize = base.toNat / pageSize + k)
    (n index : ℕ) :
    (c.clrPages base' colors n index).map (k + ·) = c.clrPages base colors n (k + index) := by
  induction n generalizing index with
  | zero => rfl
  | succ n ih =>
      have hnext : k + c.ppNextClr base' index colors = c.ppNextClr base (k + index) colors :=
        ppNextClrLoop_shift h _ index
      rw [clrPages, clrPages, List.map_cons, ih, ← hnext, Nat.add_assoc]

theorem inColors_of_mem_clrPages (h : c.HasColor colors) {n index p : ℕ}
    (hp : p ∈ c.clrPages base colors n index) : c.inColors base colors p = true := by
  induction n generalizing index with
  | zero => cases hp
  | succ n ih =>
      rw [clrPages, List.mem_cons] at hp
      rcases hp with rfl | hp
      · exact inColors_ppNextClr h base index
      · exact ih hp

end Coloring

namespace PagePool

variable {c : Coloring} {pool : PagePool} {colors : ColorMap}

/-- The pages that `mem_map` maps for coloured `ppages`, as addresses. -/
def clrMapped (c : Coloring) (ppages : PPages) : List Addr :=
  (c.clrPages ppages.base ppages.colors ppages.numPages.toNat 0).map fun index =>
    ppages.base + BitVec.ofNat 64 (index * pageSize)

/-- The pages that a coloured allocation of `n` pages takes: pages of the pool that were free,
of the colours of the map. They are marked, and no others, and they are those a caller maps. -/
structure ClrTaken (c : Coloring) (pool : PagePool) (n : SizeT) (colors : ColorMap) (r : Alloc)
    (pages : List ℕ) : Prop where
  length : pages.length = n.toNat
  nodup : pages.Nodup
  free : ∀ p ∈ pages, pool.FreePage p
  color : ∀ p ∈ pages, c.inColors pool.base colors p = true
  marks : Marks pool.bits r.pool.bits pages.toFinset
  mapped : clrMapped c r.ppages = pages.map pool.pageAddr

theorem firstPage_pageAddr {index : ℕ} (h : index < pool.size.toNat) :
    (pool.pageAddr index).toNat / pageSize = pool.base.toNat / pageSize + index := by
  rw [toNat_pageAddr h]
  exact Nat.add_mul_div_right _ _ (by decide)

theorem clrMapped_pageAddr {head : ℕ} (h : head < pool.size.toNat) (n : SizeT)
    (colors : ColorMap) :
    clrMapped c { base := pool.pageAddr head, numPages := n, colors := colors } =
      (c.clrPages pool.base colors n.toNat head).map pool.pageAddr := by
  have hshift := Coloring.clrPages_shift (c := c) colors (firstPage_pageAddr h)
    n.toNat 0
  rw [Nat.add_zero] at hshift
  rw [clrMapped, ← hshift, List.map_map]
  refine List.map_congr_left fun index _ => ?_
  rw [Function.comp_apply, PagePool.pageAddr, PagePool.pageAddr, Nat.add_mul,
    BitVec.ofNat_add, BitVec.add_assoc]

theorem marks_ppAllocClr {n : SizeT} {head : ℕ}
    (h : pool.ppAllocClrSearch c n.toNat colors = some head) (ppages : PPages) :
    Marks pool.bits (pool.ppAllocClr c n colors ppages).pool.bits
      (c.clrPages pool.base colors n.toNat head).toFinset := by
  intro p
  rw [ppAllocClr, h, PagePool.bits, bitmapGet_markPages, PagePool.bits]
  simp only [List.mem_toFinset]

theorem ppages_ppAllocClr {n : SizeT} {head : ℕ}
    (h : pool.ppAllocClrSearch c n.toNat colors = some head) (ppages : PPages) :
    (pool.ppAllocClr c n colors ppages).ok = true ∧
      (pool.ppAllocClr c n colors ppages).ppages =
        { base := pool.pageAddr head, numPages := n, colors := colors } := by
  rw [ppAllocClr, h]
  exact ⟨rfl, rfl⟩

theorem ClrTaken.toFinset_eq {n : SizeT} {head : ℕ} {ppages : PPages} {pages : List ℕ}
    (h : pool.ppAllocClrSearch c n.toNat colors = some head) (hcolor : c.HasColor colors)
    (htaken : ClrTaken c pool n colors (pool.ppAllocClr c n colors ppages) pages) :
    (c.clrPages pool.base colors n.toNat head).toFinset = pages.toFinset := by
  have hsub : pages.toFinset ⊆ (c.clrPages pool.base colors n.toNat head).toFinset := by
    intro p hp
    have hclear := (htaken.free p (List.mem_toFinset.mp hp)).2
    have hset := htaken.marks p
    rw [decide_eq_true hp, Bool.or_true, marks_ppAllocClr h ppages p, hclear,
      Bool.false_or] at hset
    exact of_decide_eq_true hset
  refine (Finset.eq_of_subset_of_card_le hsub ?_).symm
  rw [List.toFinset_card_of_nodup (Coloring.nodup_clrPages hcolor _ _),
    List.toFinset_card_of_nodup htaken.nodup, Coloring.length_clrPages, htaken.length]

/-- A coloured allocation that succeeds takes free pages of the pool exactly when its search does
not settle on a head off the colours with too few free pages behind it. -/
theorem ppAllocClr_taken_iff (hcolor : c.HasColor colors) {n : SizeT} (hn : n ≠ 0#64)
    (ppages : PPages) :
    ((pool.ppAllocClr c n colors ppages).ok = true →
        ∃ pages, ClrTaken c pool n colors (pool.ppAllocClr c n colors ppages) pages) ↔
      pool.AllocClrExact c colors n.toNat := by
  have hpos : 0 < n.toNat := Nat.pos_of_ne_zero (BitVec.toNat_ne.mp hn)
  rw [← ppAllocClrSearch_exact_iff hcolor]
  cases hsearch : pool.ppAllocClrSearch c n.toNat colors with
  | none =>
      have hfail : (pool.ppAllocClr c n colors ppages).ok = false := by
        rw [ppAllocClr, hsearch]
      rw [hfail]
      exact iff_of_true (fun h => absurd h Bool.false_ne_true) fun _ h => by cases h
  | some head =>
      obtain ⟨hok, hpages⟩ := ppages_ppAllocClr hsearch ppages
      have hmarks := marks_ppAllocClr hsearch ppages
      have hlt := (ppAllocClrSearch_freeWalk hcolor hpos hsearch 0 hpos).1
      constructor
      · rintro h head' heq p hp
        obtain rfl := Option.some.inj heq
        obtain ⟨pages, htaken⟩ := h hok
        have hmem := List.mem_toFinset.mpr hp
        rw [htaken.toFinset_eq hsearch hcolor] at hmem
        exact htaken.free p (List.mem_toFinset.mp hmem)
      · intro hfree _
        refine ⟨c.clrPages pool.base colors n.toNat head, ?_⟩
        exact
          { length := Coloring.length_clrPages _ _
            nodup := Coloring.nodup_clrPages hcolor _ _
            free := hfree head rfl
            color := fun p hp => Coloring.inColors_of_mem_clrPages hcolor hp
            marks := hmarks
            mapped := by rw [hpages]; exact clrMapped_pageAddr hlt n colors }

def twoColors : Coloring where
  colorNum := 2
  colorSize := 1
  colorNum_pos := Nat.two_pos
  colorNum_lt := Nat.le_of_ble_eq_true rfl
  colorSize_pos := Nat.one_pos

theorem ppAllocClr_taken_iff_five_pages :
    ∃ pool, ppInit ⟨0x80000000#64, 0x5000#64, by decide⟩ (fun _ => 0#32) = some pool ∧
      (((pool.ppAllocClr twoColors 2#64 1#64 (memPpagesGet 0#64 0#64)).ok = true →
          ∃ pages, ClrTaken twoColors pool 2#64 1#64
            (pool.ppAllocClr twoColors 2#64 1#64 (memPpagesGet 0#64 0#64)) pages) ↔
        pool.AllocClrExact twoColors 1#64 (2#64 : SizeT).toNat) := by
  exact ⟨_, rfl, ppAllocClr_taken_iff ⟨0, by decide, by decide⟩ (by decide) _⟩

theorem not_clrTaken_of_outside {n : SizeT} {r : Alloc} {p : ℕ} (hout : pool.size.toNat ≤ p)
    (hclear : pool.bits p = false) (hset : r.pool.bits p = true) :
    ¬ ∃ pages, ClrTaken c pool n colors r pages := by
  rintro ⟨pages, htaken⟩
  have hmark := htaken.marks p
  rw [hclear, hset, Bool.false_or] at hmark
  have hmem := List.mem_toFinset.mp (of_decide_eq_true hmark.symm)
  exact absurd (htaken.free p hmem).1 (not_lt.mpr hout)

theorem bitmapGet_bitmapSetConsecutive_of_clear {map : Bitmap} {start n p : ℕ}
    (hclear : bitmapGet map p = false) (hp : start + consecSpan start n ≤ p) :
    bitmapGet (bitmapSetConsecutive map start n) p = false := by
  rw [bitmapGet_bitmapSetConsecutive, hclear, Bool.false_or]
  exact decide_eq_false fun h => absurd h.2 (not_lt.mpr hp)

/-- The middle one of five pages is reserved. The search for two pages of the first colour counts
the free page behind it, which has the other one, and marks a page behind the pool. -/
theorem ppAllocClr_marks_behind_pool :
    ∃ pool pool', ppInit ⟨0x80000000#64, 0x5000#64, by decide⟩ (fun _ => 0#32) = some pool ∧
      pool.memReservePpoolPpages (memPpagesGet 0x80002000#64 1#64) = (true, pool') ∧
      (∀ p, pool'.size.toNat ≤ p → pool'.bits p = false) ∧
      (pool'.ppAllocClr twoColors 2#64 1#64 (memPpagesGet 0#64 0#64)).ok = true ∧
      ¬ ∃ pages, ClrTaken twoColors pool' 2#64 1#64
        (pool'.ppAllocClr twoColors 2#64 1#64 (memPpagesGet 0#64 0#64)) pages := by
  refine ⟨_, _, rfl, rfl, fun p hp => ?_, by decide, ?_⟩
  · refine bitmapGet_bitmapSetConsecutive_of_clear ?_ (le_trans ?_ hp)
    · simp [bitmapGet]
    · decide
  · exact not_clrTaken_of_outside (p := 6) (by decide) (by decide) (by decide)

end PagePool

end BaoHypervisor
