import BaoHypervisor.Core.Mem.PageTable.MapPages
import BaoHypervisor.Core.Mem.PageTable.Space
import BaoHypervisor.Core.Mem.PageTable.Uses

/-!
# Pages that mappings get from the pools

`mem_map` asks the pools for the pages of one entry after the other. What it maps then comes from
these calls, and no two pages of the range are the same (`Draws`), as long as the pools are so far
apart that a call that runs over the end of one does not come to another (`PoolsApart`).
-/

namespace BaoHypervisor

/-! ## The calls of `mem_alloc_ppages` -/

/-- The pools are asked one after the other, up to the one that has the pages. -/
theorem replays_allocPpagesLoop (c : Coloring) (colors : ColorMap) {n : SizeT} (hn : n ≠ 0#64)
    (before pools : List PagePool) {pages : PPages} (hpages : pages.numPages = 0#64) :
    ∃ log, Client.Replays ppAllocAt (before ++ pools) log
        (before ++ (allocPpagesLoop c colors n true pools pages).2) ∧
      (∀ e ∈ log, e.1.numPages = n) ∧
      ((allocPpagesLoop c colors n true pools pages).1.numPages = 0#64 ∨
        (allocPpagesLoop c colors n true pools pages).1.numPages = n ∧ ∃ k,
          (⟨k, n, true⟩, some (allocPpagesLoop c colors n true pools pages).1.base) ∈ log) := by
  induction pools generalizing before pages with
  | nil => exact ⟨[], rfl, by simp, .inl hpages⟩
  | cons pool pools ih =>
      have hcall : pool.allocPpages c colors n true pages = pool.ppAlloc n true pages := by
        rw [PagePool.allocPpages, Bool.not_true, Bool.and_false, if_neg Bool.false_ne_true]
      rw [allocPpagesLoop, hcall]
      dsimp only
      cases hsearch : pool.ppAllocSearch n.toNat true with
      | none =>
          have hanswer : ppAllocAt (before ++ pool :: pools) ⟨before.length, n, true⟩ =
              (none, before ++ pool :: pools) := by
            rw [ppAllocAt_append, PagePool.ppAlloc_of_search_none hn hsearch]
            rfl
          have hzero : ({ pages with colors := 0#64, numPages := 0#64 } : PPages).numPages = 0#64 :=
            rfl
          obtain ⟨log, hlog, hnum, hres⟩ := ih (before ++ [pool]) hzero
          simp only [List.append_assoc, List.cons_append, List.nil_append] at hlog
          rw [PagePool.ppAlloc_of_search_none hn hsearch, if_neg Bool.false_ne_true]
          refine ⟨(⟨before.length, n, true⟩, none) :: log, ⟨?_, ?_⟩, ?_, ?_⟩
          · rw [hanswer]
          · rw [hanswer]
            exact hlog
          · exact List.forall_mem_cons.mpr ⟨rfl, hnum⟩
          · exact hres.imp_right fun h =>
              h.imp_right (Exists.imp fun k hk => List.mem_cons_of_mem _ hk)
      | some bit =>
          have hanswer : ppAllocAt (before ++ pool :: pools) ⟨before.length, n, true⟩ =
              (some (pool.pageAddr bit), before ++ (pool.ppAlloc n true pages).pool :: pools) := by
            rw [ppAllocAt_append, PagePool.ppAlloc_of_search_some hn hsearch,
              PagePool.ppAlloc_of_search_some hn hsearch]
            rfl
          have hok : (pool.ppAlloc n true pages).ok = true := by
            rw [PagePool.ppAlloc_of_search_some hn hsearch]
          have hgot : (pool.ppAlloc n true pages).ppages.base = pool.pageAddr bit ∧
              (pool.ppAlloc n true pages).ppages.numPages = n := by
            rw [PagePool.ppAlloc_of_search_some hn hsearch]
            exact ⟨rfl, rfl⟩
          rw [if_pos hok]
          refine ⟨[(⟨before.length, n, true⟩, some (pool.pageAddr bit))], ⟨?_, ?_⟩, by simp, ?_⟩
          · rw [hanswer]
          · rw [hanswer]
            rfl
          · rw [hgot.1]
            exact .inr ⟨hgot.2, before.length, List.mem_singleton_self _⟩

theorem replays_memAllocPpages (c : Coloring) (colors : ColorMap) {n : SizeT} (hn : n ≠ 0#64)
    (pools : List PagePool) :
    ∃ log, Client.Replays ppAllocAt pools log (memAllocPpages c colors n true pools).2 ∧
      (∀ e ∈ log, e.1.numPages = n) ∧
      (¬ (memAllocPpages c colors n true pools).1.numPages < n → ∃ k,
        (⟨k, n, true⟩, some (memAllocPpages c colors n true pools).1.base) ∈ log) := by
  have hnone : (⟨0#64, 0#64, 0#64⟩ : PPages).numPages = 0#64 := rfl
  obtain ⟨log, hlog, hnum, hres⟩ := replays_allocPpagesLoop c colors hn [] pools hnone
  refine ⟨log, hlog, hnum, fun hfew => ?_⟩
  rcases hres with hzero | ⟨-, hmem⟩
  · have hpos : 0#64 < n := BitVec.lt_def.mpr (Nat.pos_of_ne_zero (BitVec.toNat_ne.mp hn))
    rw [memAllocPpages, hzero] at hfew
    exact absurd hpos hfew
  · exact hmem

/-! ## Pools that are apart -/

/-- The pages of the pools, and `n` more behind the end of each of them, are different, and have
addresses of `width` bits. -/
structure PoolsApart (pools : List PagePool) (n width : ℕ) : Prop where
  room : ∀ pool ∈ pools, pool.base.toNat + (pool.size.toNat + n) * pageSize ≤ 2 ^ width
  apart : ∀ (j k : ℕ) (pool pool' : PagePool), pools[j]? = some pool → pools[k]? = some pool' →
    ∀ i < pool.size.toNat + n, ∀ i' < pool'.size.toNat + n,
      pool.firstPage + i = pool'.firstPage + i' → j = k

section Sound

variable {pools pools' : List PagePool} {log : List (PoolCall × Option Addr)}
  {e : PoolCall × Option Addr} {n width p : ℕ}

/-- A page that a call has returned, by its pool. -/
theorem Served.page_of_le (hserved : Served pools pools' log) (he : e ∈ log)
    (hn : e.1.numPages.toNat ≤ n) (hp : HasPage e p) :
    ∃ (pool : PagePool) (bit x : ℕ),
      Takes (BaoHypervisor.places pools) e (pool.base, pool.size) bit ∧
      pools[e.1.pool]? = some pool ∧ x < e.1.numPages.toNat ∧
        (e.1.pool, bit + x) ∉ outPages pools ∧ bit + x < pool.size.toNat + n ∧
          p = pool.firstPage + (bit + x) := by
  obtain ⟨c, answer⟩ := e
  obtain ⟨base, rfl, hle, hlt⟩ := hp
  dsimp only at hn hlt ⊢
  have hne : c.numPages ≠ 0#64 := by
    rintro hzero
    rw [hzero] at hlt
    exact absurd (hle.trans_lt hlt) (lt_irrefl _)
  obtain ⟨place, bit, htaken⟩ := hserved.taken c base he hne
  have hget := htaken.takes.get
  rw [BaoHypervisor.places, List.getElem?_map, Option.map_eq_some_iff] at hget
  obtain ⟨pool, hpool, rfl⟩ := hget
  have hbit : bit < pool.size.toNat := htaken.takes.lt_size
  have hbase : base.toNat = pool.base.toNat + bit * pageSize := by
    rw [Option.some.inj htaken.takes.base]
    exact PagePool.toNat_pageAddr hbit
  have hfirst : base.toNat / pageSize = pool.firstPage + bit := by
    rw [hbase, Nat.add_mul_div_right _ _ (by decide), PagePool.firstPage]
  obtain ⟨x, rfl⟩ := Nat.exists_eq_add_of_le hle
  have hx : x < c.numPages.toNat := Nat.lt_of_add_lt_add_left hlt
  exact ⟨pool, bit, x, htaken.takes, hpool, hx, htaken.free x hx, by omega, by rw [hfirst]; omega⟩

/-- Calls for pools that are apart return different pages. -/
theorem sound_of_poolsApart (hlog : Client.Replays ppAllocAt pools log pools')
    (hapart : PoolsApart pools n width) (hn : ∀ e ∈ log, e.1.numPages.toNat ≤ n) :
    Sound width log := by
  have hserved := served_replays hlog
  have hplace : ∀ c base, (c, some base) ∈ log → c.numPages ≠ 0#64 → ∃ (pool : PagePool) (bit : ℕ),
      pool ∈ pools ∧ bit < pool.size.toNat ∧ base.toNat = pool.base.toNat + bit * pageSize ∧
        (c.aligned = true → (pool.firstPage + bit) % c.numPages.toNat = 0) := by
    intro c base hmem hne
    obtain ⟨place, bit, htaken⟩ := hserved.taken c base hmem hne
    have hget := htaken.takes.get
    rw [places, List.getElem?_map, Option.map_eq_some_iff] at hget
    obtain ⟨pool, hpool, rfl⟩ := hget
    refine ⟨pool, bit, List.mem_of_getElem? hpool, htaken.takes.lt_size, ?_, htaken.takes.aligned⟩
    rw [Option.some.inj htaken.takes.base]
    exact PagePool.toNat_pageAddr htaken.takes.lt_size
  refine ⟨fun c base hmem => ?_, fun c base hmem haligned => ?_, fun c base hmem => ?_, ?_⟩
  · by_cases hne : c.numPages = 0#64
    · rw [hserved.none c base hmem hne]
      exact Nat.dvd_zero pageSize
    · obtain ⟨pool, bit, -, -, hbase, -⟩ := hplace c base hmem hne
      rw [hbase]
      exact Nat.dvd_add (Nat.dvd_of_mod_eq_zero pool.base_aligned) (Nat.dvd_mul_left _ _)
  · by_cases hne : c.numPages = 0#64
    · rw [hserved.none c base hmem hne]
      exact Nat.dvd_zero _
    · obtain ⟨pool, bit, -, -, hbase, hmod⟩ := hplace c base hmem hne
      rw [hbase, ← Nat.div_mul_cancel (Nat.dvd_of_mod_eq_zero pool.base_aligned), ← Nat.add_mul]
      exact Nat.mul_dvd_mul_right (Nat.dvd_of_mod_eq_zero (hmod haligned)) _
  · by_cases hne : c.numPages = 0#64
    · rw [hserved.none c base hmem hne, hne]
      exact Nat.zero_le _
    · obtain ⟨pool, bit, hpool, hbit, hbase, -⟩ := hplace c base hmem hne
      have hle := hn _ hmem
      have hroom := hapart.room pool hpool
      rw [hbase, Nat.add_assoc, ← Nat.add_mul]
      refine (Nat.add_le_add_left (Nat.mul_le_mul_right _ ?_) _).trans hroom
      exact Nat.add_le_add hbit.le hle
  · refine List.Pairwise.imp_of_mem ?_ hserved.apart
    intro e e' he he' hne p hboth
    obtain ⟨pool, bit, x, htakes, hpool, hx, -, hlt, hp⟩ :=
      hserved.page_of_le he (hn e he) hboth.1
    obtain ⟨pool', bit', x', htakes', hpool', hx', -, hlt', hp'⟩ :=
      hserved.page_of_le he' (hn e' he') hboth.2
    have hsame := hapart.apart _ _ pool pool' hpool hpool' _ hlt _ hlt' (hp.symm.trans hp')
    rw [hsame, hpool'] at hpool
    obtain rfl := Option.some.inj hpool
    exact hne _ bit _ bit' htakes htakes' x hx x' hx'
      (Prod.ext hsame (Nat.add_left_cancel (hp.symm.trans hp')))

end Sound

/-! ## Entries whose pages come from calls -/

namespace Mmu

section Draws

variable (m : Mmu) (log : List (PoolCall × Option Addr))

def pageOf (e : ℕ × Pte) (b : ℕ) : ℕ :=
  (m.fmt.pteAddr e.2).toNat / pageSize + b % m.dscr.ptLvlsize e.1 / pageSize

/-- The leaf shows the pages that a call has returned for it. -/
def Drawn (e : ℕ × Pte) : Prop :=
  m.dscr.lvlTerm e.1 = true ∧ ∃ k base,
    (⟨k, BitVec.ofNat 64 (m.dscr.lvlPages e.1), true⟩, some base) ∈ log ∧
      (m.fmt.pteAddr e.2).toNat = base.toNat % 2 ^ m.fmt.addrWidth / pageSize * pageSize

/-- The pages from `va` on are those of calls, in entries that start in the range, and no two of
them are the same. -/
structure Draws (t : PtEntries) (va n : ℕ) : Prop where
  drawn : ∀ x < n * pageSize, ∀ e, m.leafAt t (va + x) = some e → m.Drawn log e
  start : ∀ x < n * pageSize, ∀ e, m.leafAt t (va + x) = some e →
    (va + x) % m.dscr.ptLvlsize e.1 ≤ x
  sole : Sound m.fmt.addrWidth log → ∀ x < n * pageSize, ∀ y < n * pageSize, ∀ e e',
    m.leafAt t (va + x) = some e → m.leafAt t (va + y) = some e' →
      m.pageOf e (va + x) = m.pageOf e' (va + y) → x / pageSize = y / pageSize

end Draws

variable {m : Mmu} {log log' : List (PoolCall × Option Addr)} {t t' : PtEntries}
  {lvl va n k left left' rounds : ℕ} {e : ℕ × Pte} {c : Coloring} {colors : ColorMap}
  {pools pools' : List PagePool} {flags : Pte} {va' : ℕ}

theorem Drawn.mono (h : m.Drawn log e) (hsub : log ⊆ log') : m.Drawn log' e :=
  ⟨h.1, h.2.imp fun _ => Exists.imp fun _ hbase => ⟨hsub hbase.1, hbase.2⟩⟩

theorem Drawn.addr (h : m.Drawn log e) (hlvl : e.1 < m.dscr.lvls)
    (hsound : Sound m.fmt.addrWidth log) : ∃ k base,
      (⟨k, BitVec.ofNat 64 (m.dscr.lvlPages e.1), true⟩, some base) ∈ log ∧
        (m.fmt.pteAddr e.2).toNat = base.toNat ∧ pageSize ∣ base.toNat ∧
          base.toNat + m.dscr.ptLvlsize e.1 ≤ 2 ^ m.fmt.addrWidth := by
  obtain ⟨-, k, base, hmem, haddr⟩ := h
  have hcount : (BitVec.ofNat 64 (m.dscr.lvlPages e.1)).toNat = m.dscr.lvlPages e.1 :=
    Nat.mod_eq_of_lt (lvlPages_lt hlvl)
  have hfits := hsound.fits _ base hmem
  rw [hcount, PtDscr.lvlPages_mul hlvl] at hfits
  rw [Nat.mod_eq_of_lt ((Nat.lt_add_of_pos_right PtDscr.ptLvlsize_pos).trans_le hfits),
    Nat.div_mul_cancel (hsound.page _ base hmem)] at haddr
  exact ⟨k, base, hmem, haddr, hsound.page _ base hmem, hfits⟩

/-- The page behind an address of such a leaf is one that a call has returned. -/
theorem Drawn.hasPage (h : m.Drawn log e) (hlvl : e.1 < m.dscr.lvls)
    (hsound : Sound m.fmt.addrWidth log) (b : ℕ) :
    ∃ call ∈ log, call.1.numPages = BitVec.ofNat 64 (m.dscr.lvlPages e.1) ∧
      HasPage call (m.pageOf e b) := by
  obtain ⟨k, base, hmem, haddr, -, -⟩ := h.addr hlvl hsound
  have hcount : (BitVec.ofNat 64 (m.dscr.lvlPages e.1)).toNat = m.dscr.lvlPages e.1 :=
    Nat.mod_eq_of_lt (lvlPages_lt hlvl)
  have hlt : b % m.dscr.ptLvlsize e.1 < m.dscr.lvlPages e.1 * pageSize := by
    rw [PtDscr.lvlPages_mul hlvl]
    exact Nat.mod_lt b PtDscr.ptLvlsize_pos
  refine ⟨_, hmem, rfl, base, rfl, ?_, ?_⟩
  · rw [pageOf, haddr]
    exact Nat.le_add_right _ _
  · rw [pageOf, haddr, hcount]
    refine Nat.add_lt_add_left (Nat.div_lt_of_lt_mul ?_) _
    rwa [Nat.mul_comm]

/-- What an address of such a leaf translates to. -/
theorem Drawn.toNat_translate (h : m.Drawn log e) (hclosed : m.Closed t) {va : Addr}
    (he : m.leafAt t va.toNat = some e) (hsound : Sound m.fmt.addrWidth log) :
    ∃ pa, (m.addrSpace t).translate va = some pa ∧
      pa.toNat = (m.fmt.pteAddr e.2).toNat + va.toNat % m.dscr.ptLvlsize e.1 ∧
        pa.toNat / pageSize = m.pageOf e va.toNat ∧ pa.toNat % pageSize = va.toNat % pageSize := by
  have hlvl : e.1 < m.dscr.lvls := by
    rw [← (leafAt_eq_some_iff.mp he).1]
    exact look_fst_lt hclosed _
  obtain ⟨k, base, -, haddr, ⟨p, hp⟩, hfits⟩ := h.addr hlvl hsound
  have hpos : 0 < m.dscr.ptLvlsize e.1 := PtDscr.ptLvlsize_pos
  have hoff := Nat.mod_lt va.toNat hpos
  have hwidth : 2 ^ m.fmt.addrWidth ≤ 2 ^ 64 :=
    Nat.pow_le_pow_right (by decide) m.fmt.addrWidth_lt.le
  have hpa : (m.fmt.pteAddr e.2 +
      BitVec.ofNat 64 (va.toNat % m.dscr.ptLvlsize e.1)).toNat =
        (m.fmt.pteAddr e.2).toNat + va.toNat % m.dscr.ptLvlsize e.1 := by
    rw [BitVec.toNat_add, BitVec.toNat_ofNat, haddr, Nat.mod_eq_of_lt (by omega),
      Nat.mod_eq_of_lt (by omega)]
  refine ⟨_, by rw [translate_addrSpace hclosed, he, Option.map_some], hpa, ?_, ?_⟩
  · rw [hpa, pageOf, haddr, hp, Nat.mul_add_div (by decide), Nat.mul_div_cancel_left _ (by decide)]
  · rw [hpa, haddr, hp, Nat.mul_add_mod,
      Nat.mod_mod_of_dvd _ (PtDscr.pageSize_dvd_ptLvlsize hlvl)]

theorem Draws.mono (h : m.Draws log t va n) (hsub : log.Sublist log') : m.Draws log' t va n :=
  ⟨fun x hx e he => (h.drawn x hx e he).mono hsub.subset, h.start,
    fun hsound => h.sole (hsound.sublist hsub)⟩

theorem Draws.keeps (h : m.Draws log t va n) (hkeeps : m.Keeps t t')
    (hbacked : ∀ x < n * pageSize, (m.leafAt t (va + x)).isSome = true) :
    m.Draws log t' va n := by
  have hleaf : ∀ x < n * pageSize, m.leafAt t' (va + x) = m.leafAt t (va + x) := fun x hx =>
    hkeeps.leafAt_eq (hbacked x hx)
  refine ⟨fun x hx e he => ?_, fun x hx e he => ?_, fun hsound x hx y hy e e' he he' => ?_⟩
  · exact h.drawn x hx e ((hleaf x hx).symm.trans he)
  · exact h.start x hx e ((hleaf x hx).symm.trans he)
  · exact h.sole hsound x hx y hy e e' ((hleaf x hx).symm.trans he) ((hleaf y hy).symm.trans he')

theorem Draws.zero (log : List (PoolCall × Option Addr)) (t : PtEntries) (va : ℕ) :
    m.Draws log t va 0 where
  drawn := fun x hx => absurd hx (by rw [Nat.zero_mul]; exact Nat.not_lt_zero x)
  start := fun x hx => absurd hx (by rw [Nat.zero_mul]; exact Nat.not_lt_zero x)
  sole := fun _ x hx => absurd hx (by rw [Nat.zero_mul]; exact Nat.not_lt_zero x)

/-- One range behind the other, each with calls of its own. -/
theorem Draws.append (h : m.Draws log t va n) (h' : m.Draws log' t' (va + n * pageSize) k)
    (hbacks : m.Backs t t' (va + n * pageSize) k)
    (hspan : (n + k) * pageSize ≤ m.dscr.shape.span) : m.Draws (log ++ log') t' va (n + k) := by
  rw [Nat.add_mul] at hspan
  have hfirst : ∀ x < n * pageSize, m.leafAt t' (va + x) = m.leafAt t (va + x) := fun x hx =>
    hbacks.frame _ fun y hy => Radix.mod_ne_of_lt (by omega) (by omega)
  have hlvl : ∀ {b e}, m.leafAt t' b = some e → e.1 < m.dscr.lvls := by
    intro b e he
    rw [← (leafAt_eq_some_iff.mp he).1]
    exact look_fst_lt hbacks.closed b
  -- an address is in the first range, or so far behind it
  have hcases : ∀ x < (n + k) * pageSize, x < n * pageSize ∨
      ∃ y < k * pageSize, x = n * pageSize + y := by
    intro x hx
    rw [Nat.add_mul] at hx
    by_cases hlt : x < n * pageSize
    · exact .inl hlt
    · exact .inr ⟨x - n * pageSize, by omega, by omega⟩
  refine ⟨fun x hx e he => ?_, fun x hx e he => ?_, fun hsound x hx y hy e e' he he' hpage => ?_⟩
  · rcases hcases x hx with hlt | ⟨z, hz, rfl⟩
    · rw [hfirst x hlt] at he
      exact (h.drawn x hlt e he).mono (List.subset_append_left _ _)
    · rw [← Nat.add_assoc] at he
      exact (h'.drawn z hz e he).mono (List.subset_append_right _ _)
  · rcases hcases x hx with hlt | ⟨z, hz, rfl⟩
    · rw [hfirst x hlt] at he
      exact h.start x hlt e he
    · rw [← Nat.add_assoc] at he ⊢
      exact (h'.start z hz e he).trans (Nat.le_add_left z _)
  · have hsound₁ := hsound.sublist (List.sublist_append_left log log')
    have hsound₂ := hsound.sublist (List.sublist_append_right log log')
    -- the calls for the two ranges return different pages
    have happart : ∀ {a b e e'}, m.Drawn log e → m.Drawn log' e' → m.leafAt t' a = some e →
        m.leafAt t' b = some e' → m.pageOf e a ≠ m.pageOf e' b := by
      intro a b e e' hdrawn hdrawn' ha hb heq
      obtain ⟨call, hcall, -, hp⟩ := hdrawn.hasPage (hlvl ha) hsound₁ a
      obtain ⟨call', hcall', -, hp'⟩ := hdrawn'.hasPage (hlvl hb) hsound₂ b
      exact (List.pairwise_append.mp hsound.apart).2.2 call hcall call' hcall' _ ⟨hp, heq ▸ hp'⟩
    rcases hcases x hx with hlt | ⟨z, hz, rfl⟩
    · rcases hcases y hy with hlt' | ⟨z', hz', rfl⟩
      · rw [hfirst x hlt] at he
        rw [hfirst y hlt'] at he'
        exact h.sole hsound₁ x hlt y hlt' e e' he he' hpage
      · have hleft : m.leafAt t (va + x) = some e := by rw [← hfirst x hlt, he]
        have hright := he'
        rw [← Nat.add_assoc] at hright
        exact absurd hpage (happart (h.drawn x hlt e hleft) (h'.drawn z' hz' e' hright) he he')
    · have hright := he
      rw [← Nat.add_assoc] at hright
      rcases hcases y hy with hlt' | ⟨z', hz', rfl⟩
      · have hleft : m.leafAt t (va + y) = some e' := by rw [← hfirst y hlt', he']
        exact absurd hpage.symm (happart (h.drawn y hlt' e' hleft) (h'.drawn z hz e hright) he' he)
      · rw [← Nat.add_assoc] at he' hpage
        rw [← Nat.add_assoc] at hpage
        have hsame := h'.sole hsound₂ z hz z' hz' e e' hright he' hpage
        rw [Nat.mul_comm, Nat.mul_add_div (by decide), Nat.mul_add_div (by decide), hsame]

/-- An entry that is written with pages of a call. -/
theorem draws_setPte (hclosed : m.Closed t) (hlvl : lvl < m.dscr.lvls) (hpath : m.Path t lvl va)
    (hdvd : m.dscr.ptLvlsize lvl ∣ va) (hterm : m.dscr.lvlTerm lvl = true)
    (hflags : m.fmt.FlagsOk flags) {base : Addr}
    (hmem : (⟨k, BitVec.ofNat 64 (m.dscr.lvlPages lvl), true⟩, some base) ∈ log) :
    m.Draws log (m.setPte t lvl va (m.fmt.pteSet base (m.ptPageType lvl) flags)) va
      (m.dscr.lvlPages lvl) := by
  obtain ⟨pte, hpte⟩ : ∃ pte, pte = m.fmt.pteSet base (m.ptPageType lvl) flags := ⟨_, rfl⟩
  have htable : m.fmt.pteTable (m.isLast lvl) pte = false := by
    rw [hpte]
    exact m.fmt.pteTable_of_ptePage _ _ (m.fmt.ptePage_pteSet _ _ _ hflags)
  have hleaf : ∀ x < m.dscr.lvlPages lvl * pageSize, ∀ e,
      m.leafAt (m.setPte t lvl va pte) (va + x) = some e →
        e = (lvl, pte) ∧ (va + x) % m.dscr.ptLvlsize lvl = x := by
    intro x hx e he
    rw [PtDscr.lvlPages_mul hlvl] at hx
    have hlook := look_setPte hclosed hlvl hpath htable (va + x)
    rw [if_pos (Radix.Shape.pos_add hdvd hx)] at hlook
    obtain ⟨rfl, -⟩ := leafAt_eq_some_iff.mp he
    obtain ⟨q, rfl⟩ := hdvd
    exact ⟨hlook, by rw [Nat.mul_add_mod, Nat.mod_eq_of_lt hx]⟩
  rw [← hpte]
  refine ⟨fun x hx e he => ?_, fun x hx e he => ?_, fun _ x hx y hy e e' he he' hpage => ?_⟩
  · obtain ⟨rfl, -⟩ := hleaf x hx e he
    refine ⟨hterm, k, base, hmem, ?_⟩
    rw [hpte, m.fmt.toNat_pteAddr_pteSet]
  · obtain ⟨rfl, hmod⟩ := hleaf x hx e he
    exact hmod.le
  · obtain ⟨rfl, hx'⟩ := hleaf x hx e he
    obtain ⟨rfl, hy'⟩ := hleaf y hy e' he'
    rw [pageOf, pageOf, hx', hy'] at hpage
    exact Nat.add_left_cancel hpage

/-! ## The loops of `mem_map` -/

theorem memMapFreshRun_draws (hclosed : m.Closed t) (hmark : m.Unmarked t)
    (hlvl : lvl < m.dscr.lvls) (hterm : m.dscr.lvlTerm lvl = true) (hflags : m.fmt.FlagsOk flags)
    (hdvd : m.dscr.ptLvlsize lvl ∣ va)
    (hpath : ∀ j < n, m.Path t lvl (va + j * m.dscr.ptLvlsize lvl))
    (hspan : left * pageSize ≤ m.dscr.shape.span)
    (h : m.memMapFreshRun c colors flags lvl n t pools va left = some (t', pools', va', left')) :
    ∃ log, Client.Replays ppAllocAt pools log pools' ∧
      (∀ e ∈ log, e.1.numPages.toNat ≤ left) ∧
        ∀ k, k + left' = left → m.Draws log t' va k := by
  have hstop : ∀ {t : PtEntries} {va left left' : ℕ}, left' = left →
      ∀ log k, k + left' = left → m.Draws log t va k := by
    rintro t va left left' rfl log k hk
    obtain rfl : k = 0 := by omega
    exact Draws.zero log t va
  induction n generalizing t pools va left with
  | zero =>
      cases h
      exact ⟨[], rfl, by simp, hstop rfl []⟩
  | succ n ih =>
      have hcount : (BitVec.ofNat 64 (m.dscr.lvlPages lvl)).toNat = m.dscr.lvlPages lvl :=
        Nat.mod_eq_of_lt (lvlPages_lt hlvl)
      have hne : BitVec.ofNat 64 (m.dscr.lvlPages lvl) ≠ 0#64 := by
        intro hzero
        rw [hzero] at hcount
        exact (PtDscr.lvlPages_pos hlvl).ne hcount
      rw [memMapFreshRun] at h
      by_cases hleft : 0 < left ∧ m.dscr.lvlPages lvl ≤ left
      swap
      · rw [if_neg hleft] at h
        cases h
        exact ⟨[], rfl, by simp, hstop rfl []⟩
      rw [if_pos hleft] at h
      dsimp only at h
      obtain ⟨log, hlog, hnum, hgot⟩ := replays_memAllocPpages c colors hne pools
      have hnum' : ∀ e ∈ log, e.1.numPages.toNat ≤ left := fun e he => by
        rw [hnum e he, hcount]
        exact hleft.2
      split_ifs at h with hfew hlast hvalid
      · cases h
        exact ⟨log, hlog, hnum', hstop rfl log⟩
      · cases h
        exact ⟨log, hlog, hnum', hstop rfl log⟩
      · have hpath0 := path_first hpath
        obtain ⟨pool, hmem⟩ := hgot hfew
        have hdraw := draws_setPte hclosed hlvl hpath0 hdvd hterm hflags hmem
        have htable := m.fmt.pteTable_of_ptePage _ _ (m.fmt.ptePage_pteSet (m.isLast lvl)
          (memAllocPpages c colors (BitVec.ofNat 64 (m.dscr.lvlPages lvl)) true pools).1.base
          flags hflags)
        have hclosed' := closed_setPte hclosed hlvl hpath0 htable
        have hmark' : m.Unmarked (m.setPte t lvl va _) := hmark.setPte htable
        have hsize := PtDscr.lvlPages_mul hlvl
        have hdvd' := Nat.dvd_add hdvd (dvd_refl (m.dscr.ptLvlsize lvl))
        have hspan' := (Nat.mul_le_mul_right pageSize
          (Nat.sub_le left (m.dscr.lvlPages lvl))).trans hspan
        obtain ⟨k', hk', -, hbacks⟩ := memMapFreshRun_backs hclosed' hmark' hlvl hflags hdvd'
          (path_next hlvl hpath) hspan' h
        obtain ⟨log', hlog', hnumLog', hrest⟩ := ih hclosed' hmark' hdvd' (path_next hlvl hpath)
          hspan' h
        refine ⟨log ++ log', hlog.append hlog', fun e he => ?_, fun k hk => ?_⟩
        · rcases List.mem_append.mp he with he | he
          · exact hnum' e he
          · exact (hnumLog' e he).trans (Nat.sub_le _ _)
        · obtain rfl : k = m.dscr.lvlPages lvl + k' := by omega
          have htail := hrest k' hk'
          rw [← hsize] at htail hbacks
          exact hdraw.append htail hbacks ((Nat.mul_le_mul_right _ (by omega)).trans hspan)

theorem lvlTerm_of_le {l : ℕ} (h : lvl ≤ l) (hterm : m.dscr.lvlTerm lvl = true) :
    m.dscr.lvlTerm l = true := by
  induction h with
  | refl => exact hterm
  | step _ ih => exact m.dscr.lvlTerm_succ _ ih

/-- A call that allocates its pages gets each of them for one page of its range. -/
theorem memMapFreshLoop_draws (hclosed : m.Closed t) (hmark : m.Unmarked t)
    (hflags : m.fmt.FlagsOk flags) (hspan : left * pageSize ≤ m.dscr.shape.span)
    (h : m.memMapFreshLoop c colors flags rounds t pools va left = some (t', pools')) :
    ∃ log, Client.Replays ppAllocAt pools log pools' ∧
      (∀ e ∈ log, e.1.numPages.toNat ≤ left) ∧ m.Draws log t' va left := by
  induction rounds generalizing t pools va left with
  | zero => cases h
  | succ rounds ih =>
      rw [memMapFreshLoop] at h
      by_cases hleft : left = 0
      · rw [if_pos hleft] at h
        cases h
        rw [hleft]
        exact ⟨[], rfl, by simp, Draws.zero [] _ va⟩
      · rw [if_neg hleft] at h
        obtain ⟨hgrown, hres, hfound⟩ := memMapLvl_spec left 0#64
          hclosed (Nat.zero_add _) (Radix.path_zero va)
        rw [← mapLvl] at hres
        have hmark' := unmarked_memMapLvl hmark (Nat.zero_add _) left va 0#64
        obtain ⟨t₁, lvl', hcall⟩ : ∃ t₁ lvl',
            m.memMapLvl left va 0#64 m.dscr.lvls 0 t = (t₁, lvl') := ⟨_, _, rfl⟩
        rw [hcall] at h hgrown hres hfound hmark'
        cases lvl' with
        | none => cases h
        | some lvl =>
            obtain ⟨hlvl, -, hterm, hle, hfits⟩ := mapLvl_eq_some hres.symm
            obtain ⟨-, hdvd, -⟩ := fits_iff.mp hfits
            obtain ⟨hpath, -⟩ := hfound lvl rfl
            obtain ⟨⟨t₂, pools₂, va₂, left₂⟩, hrun, hrest⟩ := Option.bind_eq_some_iff.mp h
            obtain ⟨k, hk, rfl, hbacks⟩ := memMapFreshRun_backs hgrown.closed hmark' hlvl hflags
              hdvd (fun _ => path_of_index hlvl hdvd hpath) hspan hrun
            obtain ⟨log, hlog, hnum, hdraws⟩ := memMapFreshRun_draws hgrown.closed hmark' hlvl
              (lvlTerm_of_le hle hterm) hflags hdvd (fun _ => path_of_index hlvl hdvd hpath) hspan
              hrun
            have hspan₂ := (Nat.mul_le_mul_right pageSize (Nat.le_of_add_left_le hk.le)).trans hspan
            obtain ⟨log₂, hlog₂, hnum₂, hdraws₂⟩ := ih hbacks.closed hbacks.unmarked hspan₂ hrest
            have hbacks₂ := memMapFreshLoop_backs hbacks.closed hbacks.unmarked hflags hspan₂ hrest
            refine ⟨log ++ log₂, hlog.append hlog₂, fun e he => ?_, ?_⟩
            · rcases List.mem_append.mp he with he | he
              · exact hnum e he
              · exact (hnum₂ e he).trans (Nat.le_of_add_left_le hk.le)
            · rw [← hk] at hspan ⊢
              exact (hdraws k hk).append hdraws₂ hbacks₂ hspan

/-- What a call of `mem_alloc_map` in an address space without colours takes from the pools: the
pages that it maps, if it is given none. -/
theorem memAllocMap_draws {a : ℕ} {page : Option PPages} {res : Option ℕ}
    (hsec : m.sections = [⟨0, maxVa⟩]) (hclosed : m.Closed t) (hmark : m.Unmarked t)
    (hflags : m.fmt.FlagsOk flags) (hspan : n * pageSize ≤ m.dscr.shape.span)
    (hclr : c.allClrs colors = true)
    (h : m.memAllocMap c colors rounds t pools 0 page (some a) n flags = some (t', pools', res)) :
    ∃ log, Client.Replays ppAllocAt pools log pools' ∧
      (∀ e ∈ log, e.1.numPages.toNat ≤ n) ∧
        (page = none → res.isSome = true → m.Draws log t' a n) := by
  obtain ⟨⟨t₁, address⟩, halloc, hmap⟩ := Option.bind_eq_some_iff.mp h
  rcases Nat.eq_zero_or_pos n with rfl | hn
  · obtain ⟨rfl, rfl⟩ := memAllocVpage_zero halloc
    cases hmap
    exact ⟨[], rfl, by simp, fun _ _ => Draws.zero [] _ a⟩
  have hsec0 : m.sections[0]? = some ⟨0, maxVa⟩ := by rw [hsec]; rfl
  cases address with
  | none =>
      cases hmap
      exact ⟨[], rfl, by simp, fun _ hres => by cases hres⟩
  | some v =>
      obtain ⟨hsearch, -, -, -, -, hreserves⟩ :=
        (memAllocVpage_eq_some_iff hclosed hmark hspan hn hsec0 le_rfl).mp halloc
      have hmark' := unmarked_memAllocVpage hclosed hmark hspan hn hsec0 le_rfl halloc
      obtain rfl := hreserves.target a rfl
      have hfloor : pageFloor v = v := Nat.div_mul_cancel hsearch.2.2
      obtain ⟨⟨t₂, pools₂, ok⟩, hpages, heq⟩ := Option.map_eq_some_iff.mp hmap
      cases heq
      have hin := inSection_of_all hsec hreserves.lt n
      cases page with
      | none =>
          rw [memMapPages, hfloor] at hpages
          dsimp only at hpages
          rw [if_pos hin, if_pos hclr] at hpages
          obtain ⟨⟨t₃, pools₃⟩, hloop, heq⟩ := Option.map_eq_some_iff.mp hpages
          cases heq
          obtain ⟨log, hlog, hnum, hdraws⟩ :=
            memMapFreshLoop_draws hreserves.closed hmark' hflags hspan hloop
          exact ⟨log, hlog, hnum, fun _ _ => hdraws⟩
      | some p =>
          rw [memMapPages, hfloor] at hpages
          dsimp only at hpages
          rw [if_pos hin] at hpages
          split_ifs at hpages
          cases hpages
          exact ⟨[], rfl, by simp, fun hnone => by cases hnone⟩

/-- Behind a call of `mem_alloc_map` that is given no pages, a leaf is one that was there before, or
shows pages of the calls for it. -/
theorem leafAt_memAllocMap {a : ℕ} {res : Option ℕ} (hsec : m.sections = [⟨0, maxVa⟩])
    (hclosed : m.Closed t) (hmark : m.Unmarked t) (hflags : m.fmt.FlagsOk flags)
    (hspan : n * pageSize ≤ m.dscr.shape.span) (hclr : c.allClrs colors = true)
    (h : m.memAllocMap c colors rounds t pools 0 none (some a) n flags = some (t', pools', res)) :
    ∃ log, Client.Replays ppAllocAt pools log pools' ∧
      (∀ e ∈ log, e.1.numPages.toNat ≤ n) ∧
        ∀ b e, m.leafAt t' b = some e → m.leafAt t b = some e ∨ m.Drawn log e := by
  obtain ⟨log, hlog, hnum, hdraws⟩ := memAllocMap_draws hsec hclosed hmark hflags hspan hclr h
  refine ⟨log, hlog, hnum, fun b e he => ?_⟩
  by_cases hres : n ≠ 0 → res.isSome = true
  · obtain ⟨-, hbacks, -⟩ := memAllocMap_backs hsec hclosed hmark hflags hspan hclr
      (fun p hp => by cases hp) hres h
    by_cases hb : ∀ x < n * pageSize, b % m.dscr.shape.span ≠ (a + x) % m.dscr.shape.span
    · exact .inl ((hbacks.frame b hb).symm.trans he)
    · rw [not_forall] at hb
      obtain ⟨x, hx⟩ := hb
      rw [Classical.not_imp, not_not] at hx
      rw [leafAt_of_mod_span hbacks.closed hx.2] at he
      refine .inr ((hdraws rfl (hres ?_)).drawn x hx.1 e he)
      rintro rfl
      rw [Nat.zero_mul] at hx
      exact absurd hx.1 (Nat.not_lt_zero x)
  · rw [Classical.not_imp, Bool.not_eq_true, Option.isSome_eq_false_iff,
      Option.isNone_iff_eq_none] at hres
    obtain ⟨hn, rfl⟩ := hres
    rw [(sameLeaves_memAllocMap hsec hclosed hmark hspan hn h).leafAt] at he
    exact .inl he

end Mmu

end BaoHypervisor
