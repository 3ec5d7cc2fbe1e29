import BaoHypervisor.Core.Mem.PageTable.SharedMap

/-!
# Mapping pages with pools for oneself

A CPU that nobody else disturbs maps what the functions of the page tables say: its program returns
iff `memAllocMap` does, the pools are then the same, and so are the tables, up to the pages of new
tables (`exists_exec_allocMapProg`). In these functions the page of a table comes with its place and
not from the pools. So here the calls for tables, which are for one page that need not be aligned,
are answered from a supply of its own.
-/

namespace BaoHypervisor

/-- The pools answer the calls for aligned pages, and a supply of pages those for tables. -/
def answerPages {τ : Type*} (supply : τ → PoolCall → Addr × τ) (s : List PagePool × τ)
    (c : PoolCall) : Option Addr × List PagePool × τ :=
  if c.aligned then
    let (answer, pools) := ppAllocAt s.1 c
    (answer, pools, s.2)
  else
    let (base, left) := supply s.2 c
    (some base, s.1, left)

namespace Mmu

variable (m : Mmu)

/-- The entries are the same, except that tables may be at other pages. -/
def UpToTables (t t' : PtEntries) : Prop :=
  ∀ lvl k, t' lvl k = t lvl k ∨ m.isLast lvl = false ∧ ∃ base base',
    t lvl k = m.fmt.pteSet base .table m.fmt.hypFlags ∧
      t' lvl k = m.fmt.pteSet base' .table m.fmt.hypFlags

def OnePageTables : Prop := ∀ lvl, m.ptPages (lvl + 1) = 1#64

variable {m} {t t' : PtEntries} {lvl va n left rounds : ℕ} {pa base : Addr} {flags : Pte}

/-! ## Entries up to the pages of tables -/

theorem UpToTables.refl (m : Mmu) (t : PtEntries) : m.UpToTables t t := fun _ _ => .inl rfl

namespace UpToTables

variable (h : m.UpToTables t t')
include h

theorem pteValid (lvl k : ℕ) : m.fmt.pteValid (t' lvl k) = m.fmt.pteValid (t lvl k) := by
  rcases h lvl k with heq | ⟨-, base, base', ht, ht'⟩
  · rw [heq]
  · rw [ht, ht', m.fmt.pteValid_pteSet, m.fmt.pteValid_pteSet]

theorem pteReserved (lvl k : ℕ) : m.fmt.pteReserved (t' lvl k) = m.fmt.pteReserved (t lvl k) := by
  rcases h lvl k with heq | ⟨-, base, base', ht, ht'⟩
  · rw [heq]
  · rw [ht, ht', m.fmt.pteReserved_pteSet _ _ _ m.fmt.hypFlags_ok,
      m.fmt.pteReserved_pteSet _ _ _ m.fmt.hypFlags_ok]

theorem tab : m.tab t' = m.tab t := by
  funext lvl k
  rw [Mmu.tab, Mmu.tab]
  rcases h lvl k with heq | ⟨hlast, base, base', ht, ht'⟩
  · rw [heq]
  · rw [ht, ht', hlast, m.fmt.pteTable_pteSet, m.fmt.pteTable_pteSet]

theorem pteTable (lvl va : ℕ) :
    m.fmt.pteTable (m.isLast lvl) (m.pteAt t' lvl va) =
      m.fmt.pteTable (m.isLast lvl) (m.pteAt t lvl va) :=
  congrFun (congrFun h.tab lvl) (m.dscr.pos lvl va)

theorem path_iff : m.Path t' lvl va ↔ m.Path t lvl va := by
  rw [Path, Path, h.tab]

theorem eq_of_not_valid {k : ℕ} (hvalid : m.fmt.pteValid (t lvl k) = false) :
    t' lvl k = t lvl k := by
  rcases h lvl k with heq | ⟨-, base, base', ht, -⟩
  · exact heq
  · rw [ht, m.fmt.pteValid_pteSet] at hvalid
    cases hvalid

/-- Walks stop at the same entries. -/
theorem look (hclosed : m.Closed t) (va : ℕ) : m.look t' va = m.look t va := by
  have hlvl : (m.look t' va).1 = (m.look t va).1 := by
    rw [Mmu.look, Mmu.look, h.tab]
  have hpte : m.pteAt t' (m.look t va).1 va = m.pteAt t (m.look t va).1 va := by
    rcases h (m.look t va).1 (m.dscr.pos (m.look t va).1 va) with heq | ⟨hlast, base, -, ht, -⟩
    · exact heq
    · have hnot := not_table_look hclosed va
      rw [look_snd, hlast, pteAt, ht, m.fmt.pteTable_pteSet] at hnot
      cases hnot
  exact Prod.ext hlvl ((congrArg (m.pteAt t' · va) hlvl).trans hpte)

theorem memTranslate (hclosed : m.Closed t) (va : ℕ) :
    m.memTranslate t' va = m.memTranslate t va := by
  rw [memTranslate_eq, memTranslate_eq, leafAt, leafAt, h.look hclosed]

theorem setPte (lvl va : ℕ) (pte : Pte) :
    m.UpToTables (m.setPte t lvl va pte) (m.setPte t' lvl va pte) := by
  intro l k
  rw [Mmu.setPte, Mmu.setPte]
  by_cases hl : l = lvl
  · subst hl
    rw [Function.update_self, Function.update_self]
    by_cases hk : k = m.dscr.pos l va
    · rw [hk, Function.update_self, Function.update_self]
      exact .inl rfl
    · rw [Function.update_of_ne hk, Function.update_of_ne hk]
      exact h l k
  · rw [Function.update_of_ne hl, Function.update_of_ne hl]
    exact h l k

theorem memAllocPt (hlast : m.isLast lvl = false)
    (hvalid : m.fmt.pteValid (m.pteAt t lvl va) = false) (base : Addr) :
    m.UpToTables ((m.withTable base).memAllocPt t lvl va) (m.memAllocPt t' lvl va) := by
  intro l k
  have hpte : m.pteAt t' lvl va = m.pteAt t lvl va := h.eq_of_not_valid hvalid
  have htable : (m.withTable base).memAllocPt t lvl va l k =
      if l = lvl ∧ k = m.dscr.pos lvl va then m.fmt.pteSet base .table m.fmt.hypFlags
      else if l = lvl + 1 ∧ k / m.dscr.ptNentries l = m.dscr.pos lvl va then
        m.pteAt t lvl va &&& m.fmt.rswMsk
      else t l k := rfl
  rw [htable, Mmu.memAllocPt]
  split_ifs with hhere hbelow
  · exact .inr ⟨hhere.1 ▸ hlast, _, _, rfl, rfl⟩
  · exact .inl (by rw [hpte])
  · exact h l k

end UpToTables

/-! ## Pages of the pools -/

section Alone

variable {τ : Type*} {supply : τ → PoolCall → Addr × τ} {pools : List PagePool} {numPools : ℕ}
  {x : τ} (hone : m.OnePageTables) (hpos : 0 < numPools) (h : m.UpToTables t t')

include hone hpos in
theorem alone_allocPt (pools : List PagePool) (x : τ) (lvl va : ℕ) (t : PtEntries) :
    ∃ base x', (m.allocPt numPools lvl va t).alone (answerPages supply) (pools, x) =
      (some ((m.withTable base).memAllocPt t lvl va), pools, x') := by
  obtain ⟨k, rfl⟩ := Nat.exists_eq_succ_of_ne_zero hpos.ne'
  rw [allocPt, hone lvl]
  exact ⟨_, _, rfl⟩

include hone hpos h in
theorem agrees_bindSome_allocPt {α β : Type*} {f : PtEntries → PoolProg (Option α)}
    {R : α × List PagePool × τ → β → Prop} {z : Option β} (hlast : m.isLast lvl = false)
    (hvalid : m.fmt.pteValid (m.pteAt t lvl va) = false)
    (hnext : ∀ t₁ x', m.UpToTables t₁ (m.memAllocPt t' lvl va) →
      (f t₁).Agrees (answerPages supply) R (pools, x') z) :
    ((m.allocPt numPools lvl va t).bindSome f).Agrees (answerPages supply) R (pools, x) z := by
  obtain ⟨base, x', halone⟩ := @alone_allocPt m τ supply numPools hone hpos pools x lvl va t
  rw [Client.Agrees, Client.aloneSome_bindSome, Client.aloneSome, halone]
  exact hnext _ x' (h.memAllocPt hlast hvalid base)

/-- The calls for aligned pages end at the pool that `mem_alloc_ppages` takes them from. -/
theorem alone_allocPpages (c : Coloring) (colors : ColorMap) {n : SizeT} (hn : n ≠ 0#64)
    (before pools : List PagePool) {pages : PPages} (hpages : pages.numPages = 0#64) :
    (allocPpages n true pools.length before.length).alone (answerPages supply)
        (before ++ pools, x) =
      let temp := allocPpagesLoop c colors n true pools pages
      (if temp.1.numPages < n then none else some temp.1.base, before ++ temp.2, x) := by
  have hpos : 0#64 < n := BitVec.lt_def.mpr (Nat.pos_of_ne_zero (BitVec.toNat_ne.mp hn))
  induction pools generalizing before pages with
  | nil =>
      rw [allocPpagesLoop]
      dsimp only
      rw [hpages, if_pos hpos]
      rfl
  | cons pool pools ih =>
      have hcall : pool.allocPpages c colors n true pages = pool.ppAlloc n true pages := by
        rw [PagePool.allocPpages, Bool.not_true, Bool.and_false, if_neg Bool.false_ne_true]
      rw [List.length_cons, allocPpages, Client.alone, answerPages, if_pos rfl, ppAllocAt_append,
        allocPpagesLoop, hcall]
      dsimp only
      cases hsearch : pool.ppAllocSearch n.toNat true with
      | none =>
          have hnext := @ih (before ++ [pool])
            { pages with colors := 0#64, numPages := 0#64 } rfl
          rw [List.length_append, List.length_singleton, List.append_assoc, List.singleton_append]
            at hnext
          rw [PagePool.ppAlloc_of_search_none hn hsearch,
            PagePool.ppAlloc_of_search_none hn hsearch]
          dsimp only
          rw [if_neg Bool.false_ne_true, if_neg Bool.false_ne_true]
          simpa using hnext
      | some bit =>
          rw [PagePool.ppAlloc_of_search_some hn hsearch,
            PagePool.ppAlloc_of_search_some hn hsearch]
          dsimp only
          rw [if_pos rfl, if_pos rfl, if_neg (BitVec.lt_irrefl n)]
          rfl

theorem length_allocPpagesLoop (c : Coloring) (colors : ColorMap) (n : SizeT) (aligned : Bool)
    (pools : List PagePool) (pages : PPages) :
    (allocPpagesLoop c colors n aligned pools pages).2.length = pools.length := by
  induction pools generalizing pages with
  | nil => rfl
  | cons pool pools ih =>
      rw [allocPpagesLoop]
      dsimp only
      split_ifs
      · rfl
      · rw [List.length_cons, List.length_cons, ih]

/-! ## The loops of `mem_map` -/

include hone hpos h in
theorem agrees_mapLvlProg (hn : lvl + n = m.dscr.lvls) :
    (m.mapLvlProg numPools left va pa n lvl t).Agrees (answerPages supply)
      (fun r u => m.UpToTables r.1.1 u.1 ∧ r.1.2 = u.2 ∧ r.2.1 = pools ∧ u.2 < m.dscr.lvls)
      (pools, x)
      ((m.memMapLvl left va pa n lvl t').2.map ((m.memMapLvl left va pa n lvl t').1, ·)) := by
  induction n generalizing lvl t t' x with
  | zero => exact Client.agrees_none
  | succ n ih =>
      have hnext : lvl + 1 + n = m.dscr.lvls := by omega
      rw [mapLvlProg, memMapLvl, ptGetPte, ptGetPte]
      by_cases hpath : m.Path t lvl va
      · have hvalid : m.fmt.pteValid (m.pteAt t' lvl va) = m.fmt.pteValid (m.pteAt t lvl va) :=
          h.pteValid lvl _
        rw [if_pos hpath, if_pos (h.path_iff.mpr hpath)]
        dsimp only
        rw [ptPteMappable, ptPteMappable, hvalid, h.pteTable]
        split_ifs with hterm hmap hinvalid hlast
        · exact Client.agrees_some ⟨h, rfl, rfl, show lvl < m.dscr.lvls by omega⟩
        · exact Client.agrees_none
        · rw [Bool.not_eq_true'] at hinvalid
          rw [Bool.not_eq_true] at hlast
          exact agrees_bindSome_allocPt hone hpos h hlast hinvalid fun t₁ x' h₁ => ih h₁ hnext
        · exact Client.agrees_none
        · exact ih h hnext
        · exact ih h hnext
      · rw [if_neg hpath, if_neg (hpath ∘ h.path_iff.mp)]
        exact Client.agrees_none

include hone hpos h in
theorem agrees_bindSome_mapLvlProg {α β : Type*} {f : PtEntries × ℕ → PoolProg (Option α)}
    {R : α × List PagePool × τ → β → Prop} {z : Option β}
    (hnone : (m.memMapLvl left va pa m.dscr.lvls 0 t').2 = none → z = none)
    (hsome : ∀ t₁ u lvl x', m.memMapLvl left va pa m.dscr.lvls 0 t' = (u, some lvl) →
      m.UpToTables t₁ u → lvl < m.dscr.lvls →
        (f (t₁, lvl)).Agrees (answerPages supply) R (pools, x') z) :
    ((m.mapLvlProg numPools left va pa m.dscr.lvls 0 t).bindSome f).Agrees (answerPages supply) R
      (pools, x) z := by
  apply (agrees_mapLvlProg hone hpos h (Nat.zero_add _)).bindSome
  · exact fun hmap => hnone (Option.map_eq_none_iff.mp hmap)
  · rintro ⟨t₁, lvl⟩ ⟨pools', x'⟩ _ hmap ⟨htables, heq, hpools, hlt⟩
    obtain ⟨lvl', hlvl, rfl⟩ := Option.map_eq_some_iff.mp hmap
    obtain rfl : lvl = lvl' := heq
    obtain rfl : pools' = pools := hpools
    exact hsome t₁ _ lvl x' (Prod.ext rfl hlvl) htables hlt

theorem UpToTables.memMapRun (h : m.UpToTables t t') :
    m.UpToTables (m.memMapRun flags lvl n t va pa left).1
        (m.memMapRun flags lvl n t' va pa left).1 ∧
      (m.memMapRun flags lvl n t va pa left).2 = (m.memMapRun flags lvl n t' va pa left).2 := by
  induction n generalizing t t' va pa left with
  | zero => exact ⟨h, rfl⟩
  | succ n ih =>
      rw [Mmu.memMapRun, Mmu.memMapRun]
      split_ifs
      · exact ih (h.setPte lvl va _)
      · exact ⟨h, rfl⟩

include hone hpos h in
theorem agrees_givenLoopProg :
    (m.givenLoopProg numPools flags n t va pa left).Agrees (answerPages supply)
      (fun r u => m.UpToTables r.1 u ∧ r.2.1 = pools) (pools, x)
      (bif (m.memMapLoop flags n t' va pa left).2 then
        some (m.memMapLoop flags n t' va pa left).1 else none) := by
  induction n generalizing t t' va pa left x with
  | zero =>
      rw [givenLoopProg, memMapLoop]
      by_cases hleft : left = 0
      · rw [hleft]
        exact Client.agrees_some ⟨h, rfl⟩
      · rw [if_neg hleft, beq_eq_false_iff_ne.mpr hleft]
        exact Client.agrees_none
  | succ n ih =>
      rw [givenLoopProg, memMapLoop]
      by_cases hleft : left = 0
      · rw [if_pos hleft, if_pos hleft]
        exact Client.agrees_some ⟨h, rfl⟩
      · rw [if_neg hleft, if_neg hleft]
        apply agrees_bindSome_mapLvlProg hone hpos h
        · intro hnone
          rw [← Prod.mk.eta (p := m.memMapLvl left va pa m.dscr.lvls 0 t'), hnone]
          rfl
        · intro t₁ u lvl x' hcall htables _
          have hrun := @UpToTables.memMapRun m t₁ u lvl va
            (m.dscr.ptNentries lvl - m.dscr.ptGetpteindexByVa va lvl) left pa flags htables
          rw [hcall]
          dsimp only
          revert hrun
          rcases m.memMapRun flags lvl _ t₁ va pa left with ⟨t₂, rest⟩
          rcases m.memMapRun flags lvl _ u va pa left with ⟨u₂, rest'⟩
          rintro ⟨hrun, rfl⟩
          exact ih hrun

include hone hpos h in
theorem agrees_freshRunProg (c : Coloring) (colors : ColorMap) (hlvl : lvl < m.dscr.lvls)
    (hlen : pools.length = numPools) :
    (m.freshRunProg numPools flags lvl n t va left).Agrees (answerPages supply)
      (fun r u => m.UpToTables r.1.1 u.1 ∧ r.1.2 = u.2.2 ∧ r.2.1 = u.2.1 ∧
        u.2.1.length = numPools) (pools, x)
      (m.memMapFreshRun c colors flags lvl n t' pools va left) := by
  induction n generalizing t t' pools va left x with
  | zero => exact Client.agrees_some ⟨h, rfl, rfl, hlen⟩
  | succ n ih =>
      rw [freshRunProg, memMapFreshRun]
      by_cases hleft : 0 < left ∧ m.dscr.lvlPages lvl ≤ left
      · have hsize : BitVec.ofNat 64 (m.dscr.lvlPages lvl) ≠ 0#64 := by
          intro hzero
          have hcount := congrArg BitVec.toNat hzero
          rw [BitVec.toNat_ofNat, Nat.mod_eq_of_lt (lvlPages_lt hlvl)] at hcount
          exact (PtDscr.lvlPages_pos hlvl).ne' hcount
        have halone := @alone_allocPpages τ supply x c colors _ hsize [] pools
          ⟨0#64, 0#64, 0#64⟩ rfl
        have hlen' := (length_allocPpagesLoop c colors (BitVec.ofNat 64 (m.dscr.lvlPages lvl)) true
          pools ⟨0#64, 0#64, 0#64⟩).trans hlen
        rw [List.length_nil, List.nil_append, hlen, ← memAllocPpages] at halone
        rw [← memAllocPpages] at hlen'
        rw [if_pos hleft, if_pos hleft, Client.Agrees, Client.aloneSome_bind, halone]
        dsimp only
        rw [List.nil_append]
        by_cases hfew : (memAllocPpages c colors (BitVec.ofNat 64 (m.dscr.lvlPages lvl)) true
            pools).1.numPages < BitVec.ofNat 64 (m.dscr.lvlPages lvl)
        · have hvalid : m.fmt.pteValid (m.pteAt t' lvl va) = m.fmt.pteValid (m.pteAt t lvl va) :=
            h.pteValid lvl _
          rw [if_pos hfew, if_pos hfew, hvalid]
          dsimp only
          split_ifs with hlast hinvalid
          · exact Client.agrees_none
          · exact Client.agrees_some ⟨h, rfl, rfl, hlen'⟩
          · rw [Bool.not_eq_true] at hlast hinvalid
            obtain ⟨base, x', halloc⟩ := @alone_allocPt m τ supply numPools hone hpos
              (memAllocPpages c colors (BitVec.ofNat 64 (m.dscr.lvlPages lvl)) true pools).2 x lvl
                va t
            rw [Client.aloneSome_bind, halloc]
            exact Client.agrees_some ⟨h.memAllocPt hlast hinvalid base, rfl, rfl, hlen'⟩
        · rw [if_neg hfew, if_neg hfew]
          exact ih (h.setPte lvl va _) hlen'
      · rw [if_neg hleft, if_neg hleft]
        exact Client.agrees_some ⟨h, rfl, rfl, hlen⟩

include hone hpos h in
theorem agrees_freshLoopProg (c : Coloring) (colors : ColorMap) (hlen : pools.length = numPools) :
    (m.freshLoopProg numPools flags rounds t va left).Agrees (answerPages supply)
      (fun r u => m.UpToTables r.1 u.1 ∧ r.2.1 = u.2) (pools, x)
      (m.memMapFreshLoop c colors flags rounds t' pools va left) := by
  induction rounds generalizing t t' pools va left x with
  | zero => exact Client.agrees_none
  | succ rounds ih =>
      rw [freshLoopProg, memMapFreshLoop]
      by_cases hleft : left = 0
      · rw [if_pos hleft, if_pos hleft]
        exact Client.agrees_some ⟨h, rfl⟩
      · rw [if_neg hleft, if_neg hleft]
        apply agrees_bindSome_mapLvlProg hone hpos h
        · intro hnone
          rw [← Prod.mk.eta (p := m.memMapLvl left va 0#64 m.dscr.lvls 0 t'), hnone]
        · intro t₁ u lvl x' hcall htables hlt
          rw [hcall]
          dsimp only
          apply (agrees_freshRunProg hone hpos htables c colors hlt hlen).bindSome
          · intro hnone
            rw [hnone, Option.bind_none]
          · rintro ⟨t₂, va₂, left₂⟩ ⟨pools₂, x₂⟩ ⟨u₂, pools₂', rest⟩ hrun ⟨h₂, rfl, rfl, hlen₂⟩
            rw [hrun, Option.bind_some]
            exact ih h₂ hlen₂

/-- The pages that a call of `mem_alloc_map` is given, without colours. -/
def givenPages (n : ℕ) (base : Addr) : PPages := ⟨base, BitVec.ofNat 64 n, 0#64⟩

include hone hpos h in
theorem agrees_mapProg (c : Coloring) (hlen : pools.length = numPools) (page : Option Addr) :
    (m.mapProg numPools rounds t va page n flags).Agrees (answerPages supply)
      (fun r u => m.UpToTables r.1 u.1 ∧ r.2.1 = u.2.1) (pools, x)
      (m.memMapPages c 0#64 rounds t' pools va (page.map (givenPages n)) n flags) := by
  have hclr := c.allClrs_zero
  unfold mapProg memMapPages
  dsimp only
  by_cases hin : m.InSection (pageFloor va) n
  · rw [if_pos hin, if_pos hin]
    cases page with
    | some base =>
        have hgiven := @agrees_givenLoopProg m t t' (pageFloor va) n n base flags τ supply pools
          numPools x hone hpos h
        rw [Option.map_some]
        dsimp only
        rw [memMapGiven, givenPages, hclr, Bool.not_true, if_neg Bool.false_ne_true]
        revert hgiven
        rcases m.memMapLoop flags n t' (pageFloor va) base n with ⟨u, done⟩
        intro hgiven
        cases done with
        | true => exact hgiven.map (g := fun u => (u, pools, true)) fun _ _ hr => hr
        | false => exact hgiven.map (g := fun u => (u, pools, true)) fun _ _ hr => hr
    | none =>
        rw [Option.map_none]
        dsimp only
        rw [if_pos hclr]
        exact (agrees_freshLoopProg hone hpos h c 0#64 hlen).map fun _ _ hr => hr
  · rw [if_neg hin, if_neg hin]
    exact Client.agrees_some ⟨h, rfl⟩

/-! ## The search of `mem_alloc_vpage` -/

def SameSearch (m : Mmu) (s s' : AllocState) : Prop :=
  ∃ t', m.UpToTables s.tables t' ∧ s' = { s with tables := t' }

section Search

variable {given : Bool} {s s' : AllocState} (hs : m.SameSearch s s')

include hone hpos hs in
theorem agrees_allocEntryProg :
    (m.allocEntryProg numPools given n s).Agrees (answerPages supply)
      (fun r u => m.SameSearch r.1 u ∧ r.2.1 = pools) (pools, x)
      (some (m.allocEntry given n s')) := by
  obtain ⟨t', h, rfl⟩ := hs
  have hreserved : m.fmt.pteReserved (m.pteAt t' s.lvl s.addr) =
      m.fmt.pteReserved (m.pteAt s.tables s.lvl s.addr) := h.pteReserved s.lvl _
  have hvalid : m.fmt.pteValid (m.pteAt t' s.lvl s.addr) =
      m.fmt.pteValid (m.pteAt s.tables s.lvl s.addr) := h.pteValid s.lvl _
  have htable := h.pteTable s.lvl s.addr
  have halloc : ∀ left, m.pteAllocable (m.pteAt t' s.lvl s.addr) s.lvl left s.addr =
      m.pteAllocable (m.pteAt s.tables s.lvl s.addr) s.lvl left s.addr := fun left => by
    rw [pteAllocable, pteAllocable, hvalid]
  rw [allocEntryProg, splitsEntry, allocEntry.eq_1 m given n s, allocEntry]
  dsimp only
  rw [halloc, hreserved, hvalid, htable]
  cases hres : m.fmt.pteReserved (m.pteAt s.tables s.lvl s.addr) with
  | true => exact Client.agrees_some ⟨⟨t', h, rfl⟩, rfl⟩
  | false =>
      cases hval : m.fmt.pteValid (m.pteAt s.tables s.lvl s.addr) with
      | true =>
          cases m.fmt.pteTable (m.isLast s.lvl) (m.pteAt s.tables s.lvl s.addr) with
          | true => exact Client.agrees_some ⟨⟨t', h, rfl⟩, rfl⟩
          | false => exact Client.agrees_some ⟨⟨t', h, rfl⟩, rfl⟩
      | false =>
          cases hall : m.pteAllocable (m.pteAt s.tables s.lvl s.addr) s.lvl (n - s.count)
            s.addr with
          | true => exact Client.agrees_some ⟨⟨t', h, rfl⟩, rfl⟩
          | false =>
              rw [pteAllocable, Bool.or_eq_false_iff] at hall
              exact agrees_bindSome_allocPt hone hpos h hall.1 hval fun t₁ x' h₁ =>
                Client.agrees_some ⟨⟨_, h₁, rfl⟩, rfl⟩

include hone hpos hs in
theorem agrees_allocEntriesProg :
    (m.allocEntriesProg numPools given n left s).Agrees (answerPages supply)
      (fun r u => m.SameSearch r.1 u ∧ r.2.1 = pools) (pools, x)
      (some (m.allocEntries given n left s')) := by
  induction left generalizing s s' x with
  | zero => exact Client.agrees_some ⟨hs, rfl⟩
  | succ left ih =>
      have hentry := @agrees_allocEntryProg m n τ supply pools numPools x hone hpos given s s' hs
      rw [allocEntriesProg, allocEntries]
      have hmore : (s'.count < n ∧ s'.failed = false) ↔ (s.count < n ∧ s.failed = false) := by
        obtain ⟨t', -, rfl⟩ := hs
        rfl
      by_cases h : s.count < n ∧ s.failed = false
      · rw [if_pos h, if_pos (hmore.mpr h)]
        apply hentry.bindSome (fun hnone => absurd hnone (Option.some_ne_none _))
        rintro s₁ ⟨pools', x'⟩ u heq ⟨⟨t₁, h₁, rfl⟩, rfl⟩
        have htable := h₁.pteTable s₁.lvl s₁.addr
        dsimp only at heq htable ⊢
        rw [Option.some.inj heq]
        dsimp only
        rw [htable]
        split_ifs with hfailed htable' hleft
        · exact Client.agrees_some ⟨⟨t₁, h₁, rfl⟩, rfl⟩
        · exact Client.agrees_some ⟨⟨t₁, h₁, rfl⟩, rfl⟩
        · exact Client.agrees_some ⟨⟨t₁, h₁, rfl⟩, rfl⟩
        · exact ih ⟨t₁, h₁, rfl⟩
      · rw [if_neg h, if_neg (h ∘ hmore.mp)]
        exact Client.agrees_some ⟨hs, rfl⟩

include hone hpos hs in
theorem agrees_allocSearchProg (sec : VaSection) :
    (m.allocSearchProg numPools given n sec rounds s).Agrees (answerPages supply)
      (fun r u => m.SameSearch r.1 u ∧ r.2.1 = pools) (pools, x)
      (m.allocSearch given n sec rounds s') := by
  induction rounds generalizing s s' x with
  | zero => exact Client.agrees_none
  | succ rounds ih =>
      have hentries := fun left => @agrees_allocEntriesProg m n left τ supply pools numPools x hone
        hpos given s s' hs
      obtain ⟨t', h, rfl⟩ := hs
      rw [allocSearchProg, allocSearch]
      dsimp only
      split_ifs with hmore hspace
      · exact Client.agrees_some ⟨⟨t', h, rfl⟩, rfl⟩
      · rw [ptGetPte, ptGetPte]
        by_cases hpath : m.Path s.tables s.lvl s.addr
        · rw [if_pos hpath, if_pos (h.path_iff.mpr hpath)]
          apply (hentries _).bindSome (fun hnone => absurd hnone (Option.some_ne_none _))
          rintro s₁ ⟨pools', x'⟩ u heq ⟨h₁, rfl⟩
          obtain rfl := Option.some.inj heq
          exact ih h₁
        · rw [if_neg hpath, if_neg (hpath ∘ h.path_iff.mp)]
          exact Client.agrees_none
      · exact Client.agrees_some ⟨⟨t', h, rfl⟩, rfl⟩

end Search

theorem UpToTables.invalidLvl (h : m.UpToTables t t') (k : ℕ) :
    m.invalidLvl t' va k lvl = m.invalidLvl t va k lvl := by
  induction k generalizing lvl with
  | zero => rfl
  | succ k ih =>
      have hvalid : m.fmt.pteValid (m.pteAt t' lvl va) = m.fmt.pteValid (m.pteAt t lvl va) :=
        h.pteValid lvl _
      rw [Mmu.invalidLvl, Mmu.invalidLvl, ptGetPte, ptGetPte]
      by_cases hpath : m.Path t lvl va
      · rw [if_pos hpath, if_pos (h.path_iff.mpr hpath), Option.bind_some, Option.bind_some, hvalid,
          ih]
      · rw [if_neg hpath, if_neg (hpath ∘ h.path_iff.mp), Option.bind_none, Option.bind_none]

theorem UpToTables.markReserved (h : m.UpToTables t t') {count : ℕ} :
    Option.Rel m.UpToTables (m.markReserved n rounds t va count)
      (m.markReserved n rounds t' va count) := by
  induction rounds generalizing t t' va count with
  | zero => exact .none
  | succ rounds ih =>
      rw [Mmu.markReserved, Mmu.markReserved, h.invalidLvl]
      split_ifs with hcount
      · cases hlvl : m.invalidLvl t va m.dscr.lvls 0 with
        | none => exact .none
        | some lvl =>
            have hpte : m.pteAt t' lvl va = m.pteAt t lvl va :=
              h.eq_of_not_valid (pteValid_of_invalidLvl hlvl)
            rw [Option.bind_some, Option.bind_some, hpte]
            exact ih (h.setPte lvl va _)
      · exact .some h

theorem SameSearch.allocMark {s s' : AllocState} (hs : m.SameSearch s s') :
    Option.Rel (fun r r' => m.UpToTables r.1 r'.1 ∧ r.2 = r'.2) (m.allocMark n s)
      (m.allocMark n s') := by
  obtain ⟨t', h, rfl⟩ := hs
  rw [Mmu.allocMark, Mmu.allocMark]
  dsimp only
  cases s.vpage with
  | none => exact .some ⟨h, rfl⟩
  | some vpage =>
      cases s.failed with
      | true => exact .some ⟨h, rfl⟩
      | false =>
          have hmark : Option.Rel m.UpToTables (m.markReserved n (n + 1) s.tables vpage 0)
            (m.markReserved n (n + 1) t' vpage 0) := h.markReserved
          dsimp only
          generalize m.markReserved n (n + 1) s.tables vpage 0 = r at hmark ⊢
          generalize m.markReserved n (n + 1) t' vpage 0 = r' at hmark ⊢
          cases hmark with
          | some h' => exact .some ⟨h', rfl⟩
          | none => exact .none

include hone hpos h in
theorem agrees_allocVpageProg (sectionIdx : ℕ) (at' : Option ℕ) :
    (m.allocVpageProg numPools n rounds t sectionIdx at').Agrees (answerPages supply)
      (fun r u => m.UpToTables r.1.1 u.1 ∧ r.1.2 = u.2 ∧ r.2.1 = pools) (pools, x)
      (m.memAllocVpage n rounds t' sectionIdx at') := by
  rw [allocVpageProg, memAllocVpage]
  cases m.sections[sectionIdx]? with
  | none => exact Client.agrees_none
  | some sec =>
      rw [Option.bind_some]
      dsimp only
      split_ifs
      · exact Client.agrees_some ⟨h, rfl, rfl⟩
      · exact Client.agrees_some ⟨h, rfl, rfl⟩
      · have hstart : m.SameSearch (allocStart t (at'.getD sec.beg))
            (allocStart t' (at'.getD sec.beg)) := ⟨t', h, rfl⟩
        apply (agrees_allocSearchProg hone hpos hstart sec).bindSome
        · intro hnone
          rw [hnone, Option.bind_none]
        · rintro s ⟨pools', x'⟩ u hsearch ⟨⟨t₁, h₁, rfl⟩, rfl⟩
          rw [hsearch, Option.bind_some]
          refine Client.agrees_ret ?_
          have hmark := @SameSearch.allocMark m n s _ ⟨t₁, h₁, rfl⟩
          dsimp only at hmark ⊢
          generalize m.allocMark n s = r at hmark ⊢
          generalize m.allocMark n _ = r' at hmark ⊢
          cases hmark with
          | some hr => exact .some ⟨hr.1, hr.2, rfl⟩
          | none => exact .none

/-! ## A call of `mem_alloc_map` -/

include hone h in
/-- A program that has the pools for itself returns iff the function does, with the same address and
the same pools, in tables that are the same up to their pages. -/
theorem agrees_allocMapProg (c : Coloring) (hpools : 0 < pools.length) (r : MapRequest) :
    (m.allocMapProg pools.length rounds t r).Agrees (answerPages supply)
      (fun res u => m.UpToTables res.1.1 u.1 ∧ res.2.1 = u.2.1 ∧ res.1.2 = u.2.2) (pools, x)
      (m.memAllocMap c 0#64 rounds t' pools r.sectionIdx (r.page.map (givenPages r.n)) r.at' r.n
        r.flags) := by
  rw [allocMapProg, memAllocMap]
  apply (agrees_allocVpageProg hone hpools h r.sectionIdx r.at').bindSome
  · intro hnone
    rw [hnone, Option.bind_none]
  · rintro ⟨t₁, address⟩ ⟨pools', x'⟩ ⟨u, address'⟩ halloc ⟨h₁, heq, hpools'⟩
    obtain rfl : address = address' := heq
    obtain rfl : pools' = pools := hpools'
    rw [halloc, Option.bind_some]
    dsimp only
    cases address with
    | none => exact Client.agrees_some ⟨h₁, rfl, rfl⟩
    | some va =>
        apply (agrees_mapProg hone hpools h₁ c rfl r.page).bindSome
        · intro hnone
          dsimp only at hnone ⊢
          rw [hnone, Option.map_none]
        · rintro t₂ ⟨pools₂, x₂⟩ ⟨u₂, pools₂', ok⟩ hmap ⟨h₂, heq⟩
          dsimp only at hmap ⊢
          rw [hmap, Option.map_some]
          exact Client.agrees_some ⟨h₂, heq, rfl⟩

include hone h in
theorem exists_exec_allocMapProg {ι : Type*} [DecidableEq ι] (c : Coloring)
    (hpools : 0 < pools.length) (r : MapRequest)
    (clients : ι → PoolProg (Option (PtEntries × Option ℕ))) {i : ι}
    (hi : clients i = m.allocMapProg pools.length rounds t r) :
    ∃ n s res, Run.exec (Client.step (answerPages supply)) ⟨(pools, x), clients⟩
        (List.replicate n i) = s ∧ s.clients i = .ret res ∧
      Option.Rel (fun res u => m.UpToTables res.1 u.1 ∧ s.obj.1 = u.2.1 ∧ res.2 = u.2.2) res
        (m.memAllocMap c 0#64 rounds t' pools r.sectionIdx (r.page.map (givenPages r.n)) r.at' r.n
          r.flags) := by
  have hagrees := @agrees_allocMapProg m t t' rounds τ supply pools x hone h c hpools r
  rw [← hi] at hagrees
  exact Client.Agrees.exists_exec (s := ⟨(pools, x), clients⟩) hagrees

end Alone

end Mmu

/-- The tables of a VM on RISC-V are pages. -/
example : someVmMmu.OnePageTables := by
  rintro (_ | lvl)
  · decide
  · have hentries : someVmMmu.dscr.ptNentries (lvl + 2) = 512 := by
      change 2 ^ (if lvl + 2 = 0 then 41 else if lvl + 2 = 1 then 30 else 21) /
        2 ^ (if lvl + 2 = 0 then 30 else if lvl + 2 = 1 then 21 else 12) = 512
      simp
    rw [Mmu.ptPages, hentries]
    rfl

end BaoHypervisor
