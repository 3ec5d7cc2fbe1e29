import BaoHypervisor.Core.Config
import BaoHypervisor.Core.Mem.AllocClr

/-!
# Reservation of statically placed memory

`mem_reserve_physical_memory` marks the ranges of the configuration in a pool:
images, `place_phys` regions, `place_phys` shared memories. A range that is not
inside the pool is passed over, and the offset of a range that starts off a
page boundary is rounded up. For ranges inside the pool that start on a page
boundary the pages marked are those the range meets, and a reservation that
succeeds found them free.
-/

namespace BaoHypervisor

namespace PagePool

open Bitmap BitRun

/-- One loop of `mem_reserve_physical_memory`, left at the first range that is
refused. -/
def reserveRanges (pool : PagePool) : List PhysRange → Bool × PagePool
  | [] => (true, pool)
  | r :: rs =>
      match pool.memReservePpoolPpages r.ppages with
      | (false, pool) => (false, pool)
      | (true, pool) => reserveRanges pool rs

def memReservePhysicalMemory (pool : PagePool) (config : Config) : Bool × PagePool :=
  match pool.reserveRanges config.imageRanges with
  | (false, pool) => (false, pool)
  | (true, pool) =>
      match pool.reserveRanges config.regionRanges with
      | (false, pool) => (false, pool)
      | (true, pool) => pool.reserveRanges config.shmemRanges

/-- The address `a` lies in the page `p` of the pool. -/
def InPage (pool : PagePool) (p a : ℕ) : Prop :=
  pool.base.toNat + p * pageSize ≤ a ∧ a < pool.base.toNat + (p + 1) * pageSize

/-- The range meets the page `p` of the pool. -/
def Touches (pool : PagePool) (r : PhysRange) (p : ℕ) : Prop :=
  p < pool.size.toNat ∧
    ∃ a, r.base.toNat ≤ a ∧ a < r.base.toNat + r.size.toNat ∧ pool.InPage p a

/-- The reservation of the range marks the position `p`. -/
def Reserves (pool : PagePool) (r : PhysRange) (p : ℕ) : Prop :=
  pool.hasPpages r.ppages = true ∧ p ∈ pool.reservedRun r.ppages

/-- The range lies inside the pool and starts on a page boundary. -/
structure OnPages (pool : PagePool) (r : PhysRange) : Prop where
  aligned : r.base.toNat % pageSize = 0
  base_le : pool.base.toNat ≤ r.base.toNat
  end_le : r.base.toNat + r.size.toNat ≤
    pool.base.toNat + pool.size.toNat * pageSize

instance (pool : PagePool) (r : PhysRange) : Decidable (pool.OnPages r) :=
  decidable_of_iff
    (r.base.toNat % pageSize = 0 ∧ pool.base.toNat ≤ r.base.toNat ∧
      r.base.toNat + r.size.toNat ≤ pool.base.toNat + pool.size.toNat * pageSize)
    ⟨fun h => ⟨h.1, h.2.1, h.2.2⟩, fun h => ⟨h.aligned, h.base_le, h.end_le⟩⟩

variable {pool : PagePool} {r : PhysRange}

/-! ## One range -/

theorem hasPpages_iff (ppages : PPages) :
    pool.hasPpages ppages = true ↔
      pool.base.toNat ≤ ppages.base.toNat ∧
        ppages.base.toNat + (pageBytes ppages.numPages).toNat ≤
          pool.base.toNat + pool.size.toNat * pageSize := by
  have hext := pool.extent
  have hal := pool.base_aligned
  rw [hasPpages, rangeInRange_iff, toNat_pageBytes pool.size_lt]
  unfold pageSize at *
  omega

theorem OnPages.pageoff_eq (h : pool.OnPages r) :
    pool.pageoff r.ppages = (r.base.toNat - pool.base.toNat) / pageSize := by
  have hext := pool.extent
  have hal := pool.base_aligned
  have hend := h.end_le
  have hle := h.base_le
  have halr := h.aligned
  have hsub : (r.base - pool.base).toNat = r.base.toNat - pool.base.toNat :=
    BitVec.toNat_sub_of_le (BitVec.le_def.mpr hle)
  unfold pageSize at *
  rw [pageoff, show r.ppages.base = r.base from rfl, toNat_numPages, hsub]
  · unfold pageSize
    omega
  · rw [hsub]
    unfold pageSize
    omega

theorem OnPages.numPages_eq (h : pool.OnPages r) :
    (numPages r.size).toNat = (r.size.toNat + (pageSize - 1)) / pageSize := by
  have hext := pool.extent
  have hal := pool.base_aligned
  have hend := h.end_le
  apply toNat_numPages
  unfold pageSize at *
  omega

theorem OnPages.hasPpages (h : pool.OnPages r) : pool.hasPpages r.ppages = true := by
  have hext := pool.extent
  have hal := pool.base_aligned
  have hend := h.end_le
  have hle := h.base_le
  have halr := h.aligned
  have hn := h.numPages_eq
  rw [hasPpages_iff]
  refine ⟨hle, ?_⟩
  rw [show r.ppages.numPages = numPages r.size from rfl,
    show r.ppages.base = r.base from rfl, toNat_pageBytes]
  · rw [hn]
    unfold pageSize at *
    omega
  · rw [hn]
    unfold pageSize at *
    omega

theorem OnPages.touches_iff (h : pool.OnPages r) {p : ℕ} :
    pool.Touches r p ↔ pool.pageoff r.ppages ≤ p ∧
      p < pool.pageoff r.ppages + (numPages r.size).toNat := by
  have hal := pool.base_aligned
  have hend := h.end_le
  have hle := h.base_le
  have halr := h.aligned
  rw [h.pageoff_eq, h.numPages_eq, Touches]
  unfold InPage
  unfold pageSize at *
  constructor
  · rintro ⟨hp, a, h1, h2, h3, h4⟩
    omega
  · rintro ⟨h1, h2⟩
    refine ⟨by omega, pool.base.toNat + p * 4096, by omega, by omega, by omega, by omega⟩

theorem OnPages.reserves_of_touches (h : pool.OnPages r) {p : ℕ}
    (ht : pool.Touches r p) : pool.Reserves r p := by
  obtain ⟨h1, h2⟩ := h.touches_iff.mp ht
  refine ⟨h.hasPpages, Finset.mem_Ico.mpr ⟨h1, ?_⟩⟩
  rw [show r.ppages.numPages = numPages r.size from rfl, consecSpan_of_pos _ (by omega)]
  exact h2

theorem bits_memReservePpoolPpages (pool : PagePool) (r : PhysRange) (p : ℕ) :
    (pool.memReservePpoolPpages r.ppages).2.bits p = true ↔
      pool.bits p = true ∨ pool.Reserves r p := by
  rw [memReservePpoolPpages, Reserves]
  by_cases hin : pool.hasPpages r.ppages = true
  · rw [if_pos hin]
    dsimp only
    rw [PagePool.bits, bitmapGet_bitmapSetConsecutive, Bool.or_eq_true, decide_eq_true_eq,
      reservedRun, Finset.mem_Ico]
    simp only [hin, true_and, PagePool.bits]
  · rw [if_neg hin]
    simp [hin]

theorem base_memReservePpoolPpages (pool : PagePool) (ppages : PPages) :
    (pool.memReservePpoolPpages ppages).2.base = pool.base := by
  rw [memReservePpoolPpages]
  split_ifs <;> rfl

theorem size_memReservePpoolPpages (pool : PagePool) (ppages : PPages) :
    (pool.memReservePpoolPpages ppages).2.size = pool.size := by
  rw [memReservePpoolPpages]
  split_ifs <;> rfl

/-- A reservation that succeeds found the pages of a range on the pool's pages
free. -/
theorem OnPages.clear_of_reserve (h : pool.OnPages r)
    (hret : (pool.memReservePpoolPpages r.ppages).1 = true) {p : ℕ}
    (ht : pool.Touches r p) : pool.bits p = false := by
  obtain ⟨h1, h2⟩ := h.touches_iff.mp ht
  rw [memReservePpoolPpages, if_pos h.hasPpages] at hret
  dsimp only at hret
  rw [Bool.not_eq_true', memArePpagesReservedInPool, if_pos h.hasPpages] at hret
  dsimp only at hret
  rw [Bool.or_eq_false_iff, decide_eq_false_iff_not, not_lt,
    le_bitmapCountConsecutive_iff le_rfl] at hret
  obtain ⟨hhead, hrun⟩ := hret
  rw [hhead] at hrun
  exact hrun.apply h1 h2

/-! ## Pools that differ in their pages only -/

theorem reserves_congr {pool' : PagePool} (hbase : pool'.base = pool.base)
    (hsize : pool'.size = pool.size) {p : ℕ} :
    pool'.Reserves r p ↔ pool.Reserves r p := by
  unfold Reserves hasPpages reservedRun pageoff
  rw [hbase, hsize]

theorem touches_congr {pool' : PagePool} (hbase : pool'.base = pool.base)
    (hsize : pool'.size = pool.size) {p : ℕ} :
    pool'.Touches r p ↔ pool.Touches r p := by
  unfold Touches InPage
  rw [hbase, hsize]

theorem OnPages.congr {pool' : PagePool} (hbase : pool'.base = pool.base)
    (hsize : pool'.size = pool.size) (h : pool.OnPages r) : pool'.OnPages r where
  aligned := h.aligned
  base_le := by rw [hbase]; exact h.base_le
  end_le := by rw [hbase, hsize]; exact h.end_le

/-! ## All ranges -/

theorem reserveRanges_append (pool : PagePool) (rs rs' : List PhysRange) :
    pool.reserveRanges (rs ++ rs') =
      match pool.reserveRanges rs with
      | (false, pool) => (false, pool)
      | (true, pool) => pool.reserveRanges rs' := by
  induction rs generalizing pool with
  | nil => rfl
  | cons r rs ih =>
      rw [List.cons_append, reserveRanges, reserveRanges]
      rcases pool.memReservePpoolPpages r.ppages with ⟨ok, pool'⟩
      cases ok with
      | false => rfl
      | true => exact ih pool'

theorem memReservePhysicalMemory_eq (pool : PagePool) (config : Config) :
    pool.memReservePhysicalMemory config = pool.reserveRanges config.reservedRanges := by
  rw [memReservePhysicalMemory, Config.reservedRanges, reserveRanges_append]
  rcases pool.reserveRanges config.imageRanges with ⟨ok, pool'⟩
  cases ok with
  | false => rfl
  | true =>
      dsimp only
      rw [reserveRanges_append]

theorem reserveRanges_cons_eq_true {r : PhysRange} {rs : List PhysRange}
    (hret : (pool.reserveRanges (r :: rs)).1 = true) :
    (pool.memReservePpoolPpages r.ppages).1 = true ∧
      pool.reserveRanges (r :: rs) =
        (pool.memReservePpoolPpages r.ppages).2.reserveRanges rs := by
  rw [reserveRanges] at hret ⊢
  cases hone : pool.memReservePpoolPpages r.ppages with
  | mk ok pool' =>
      rw [hone] at hret
      cases ok with
      | false => cases hret
      | true => exact ⟨rfl, rfl⟩

/-- After a reservation that succeeds exactly the positions marked before and
those of the reserved runs are marked. -/
theorem bits_reserveRanges {rs : List PhysRange}
    (hret : (pool.reserveRanges rs).1 = true) (p : ℕ) :
    (pool.reserveRanges rs).2.bits p = true ↔
      pool.bits p = true ∨ ∃ r ∈ rs, pool.Reserves r p := by
  induction rs generalizing pool with
  | nil => simp [reserveRanges]
  | cons r rs ih =>
      obtain ⟨-, heq⟩ := reserveRanges_cons_eq_true hret
      rw [heq] at hret ⊢
      rw [ih hret, bits_memReservePpoolPpages, or_assoc]
      have hcongr : ∀ q, (pool.memReservePpoolPpages r.ppages).2.Reserves q p ↔
          pool.Reserves q p := fun q =>
        reserves_congr (base_memReservePpoolPpages pool _) (size_memReservePpoolPpages pool _)
      simp only [hcongr, List.mem_cons, exists_eq_or_imp]

/-- Ranges on the pages of the pool that are reserved one after the other meet
no page marked before, and no page of each other. -/
theorem reserveRanges_disjoint {rs : List PhysRange}
    (hret : (pool.reserveRanges rs).1 = true) (hpages : ∀ r ∈ rs, pool.OnPages r) :
    (∀ r ∈ rs, ∀ p, pool.Touches r p → pool.bits p = false) ∧
      rs.Pairwise fun r r' => ∀ p, ¬ (pool.Touches r p ∧ pool.Touches r' p) := by
  induction rs generalizing pool with
  | nil => simp
  | cons r rs ih =>
      obtain ⟨hone, heq⟩ := reserveRanges_cons_eq_true hret
      rw [heq] at hret
      have hbase := base_memReservePpoolPpages pool r.ppages
      have hsize := size_memReservePpoolPpages pool r.ppages
      obtain ⟨hclear, hdisj⟩ := ih hret fun q hq =>
        (hpages q (List.mem_cons_of_mem _ hq)).congr hbase hsize
      have hr := hpages r List.mem_cons_self
      simp only [touches_congr hbase hsize] at hclear hdisj
      -- a page met later is clear after `r` is marked, so it was clear before
      have hlater : ∀ q ∈ rs, ∀ p, pool.Touches q p →
          ¬ (pool.bits p = true ∨ pool.Reserves r p) := by
        intro q hq p hp
        rw [← bits_memReservePpoolPpages, hclear q hq p hp]
        exact Bool.false_ne_true
      constructor
      · intro q hq p hp
        rcases List.mem_cons.mp hq with rfl | hq
        · exact hr.clear_of_reserve hone hp
        · exact Bool.eq_false_iff.mpr fun hset => hlater q hq p hp (.inl hset)
      · refine List.pairwise_cons.mpr ⟨fun q hq p => ?_, hdisj⟩
        rintro ⟨hpr, hpq⟩
        exact hlater q hq p hpq (.inr (hr.reserves_of_touches hpr))

end PagePool

end BaoHypervisor
