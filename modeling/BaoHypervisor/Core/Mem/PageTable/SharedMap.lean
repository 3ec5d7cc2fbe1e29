import BaoHypervisor.Core.Mem.PageTable.MapPages
import BaoHypervisor.Core.Mem.PageTable.Uses

/-!
# Mapping pages with pools that CPUs share

`mem_alloc_map`, without colours, as a program of a CPU that calls `pp_alloc` for the pages that it
maps and for those of each new table, while other CPUs do so. A program that comes to `ERROR`, or
that has no rounds left, has no result. Where no other CPU does so, the program does what the
functions of the page tables say (`exists_exec_allocMapProg`).

Whatever pages the pools return, each page has one use (`satSome_allocMapsProg`).
-/

namespace BaoHypervisor

/-- A call of `mem_alloc_map`, with the base of the pages that it is given. `fixed` tells that the
caller stops in `ERROR` if the address is another one than it asks for. -/
structure MapRequest where
  sectionIdx : ℕ
  page : Option Addr
  at' : Option ℕ
  n : ℕ
  flags : Pte
  fixed : Bool

namespace Mmu

variable (m : Mmu) (numPools : ℕ)

/-- `mem_alloc_pt`. There are no tables for `NULL`. -/
def allocPt (lvl va : ℕ) (t : PtEntries) : PoolProg (Option PtEntries) :=
  let ptsize := m.ptPages (lvl + 1)
  (allocPpages ptsize (decide (1#64 < ptsize)) numPools 0).bindSome fun base =>
    .ret (some ((m.withTable base).memAllocPt t lvl va))

/-- The choice of a level in `mem_map`. -/
def mapLvlProg (left va : ℕ) (pa : Addr) : ℕ → ℕ → PtEntries → PoolProg (Option (PtEntries × ℕ))
  | 0, _, _ => .ret none
  | n + 1, lvl, t =>
      match m.ptGetPte t lvl va with
      | none => .ret none
      | some pte =>
          if m.dscr.lvlTerm lvl then
            if m.ptPteMappable pte lvl left va pa then .ret (some (t, lvl))
            else if !m.fmt.pteValid pte then
              if m.isLast lvl then .ret none
              else (m.allocPt numPools lvl va t).bindSome (mapLvlProg left va pa n (lvl + 1))
            else if !m.fmt.pteTable (m.isLast lvl) pte then .ret none
            else mapLvlProg left va pa n (lvl + 1) t
          else mapLvlProg left va pa n (lvl + 1) t

/-- The loop of `mem_map` over the tables, for pages that it is given. -/
def givenLoopProg (flags : Pte) : ℕ → PtEntries → ℕ → Addr → ℕ → PoolProg (Option PtEntries)
  | 0, t, _, _, left => .ret (if left = 0 then some t else none)
  | fuel + 1, t, va, pa, left =>
      if left = 0 then .ret (some t)
      else (m.mapLvlProg numPools left va pa m.dscr.lvls 0 t).bindSome fun (t', lvl) =>
        let n := m.dscr.ptNentries lvl - m.dscr.ptGetpteindexByVa va lvl
        let (t'', va', pa', left') := m.memMapRun flags lvl n t' va pa left
        givenLoopProg flags fuel t'' va' pa' left'

/-- The entries of one table that `mem_map` writes with pages it allocates. -/
def freshRunProg (flags : Pte) (lvl : ℕ) :
    ℕ → PtEntries → ℕ → ℕ → PoolProg (Option (PtEntries × ℕ × ℕ))
  | 0, t, va, left => .ret (some (t, va, left))
  | n + 1, t, va, left =>
      if 0 < left ∧ m.dscr.lvlPages lvl ≤ left then
        (allocPpages (BitVec.ofNat 64 (m.dscr.lvlPages lvl)) true numPools 0).bind fun
          | none =>
              if m.isLast lvl then .ret none
              else if m.fmt.pteValid (m.pteAt t lvl va) then .ret (some (t, va, left))
              else (m.allocPt numPools lvl va t).bind fun t' => .ret (some (t'.getD t, va, left))
          | some base =>
              freshRunProg flags lvl n
                (m.setPte t lvl va (m.fmt.pteSet base (m.ptPageType lvl) flags))
                (va + m.dscr.ptLvlsize lvl) (left - m.dscr.lvlPages lvl)
      else .ret (some (t, va, left))

/-- The loop of `mem_map` over the tables, for pages that it allocates. -/
def freshLoopProg (flags : Pte) : ℕ → PtEntries → ℕ → ℕ → PoolProg (Option PtEntries)
  | 0, _, _, _ => .ret none
  | rounds + 1, t, va, left =>
      if left = 0 then .ret (some t)
      else (m.mapLvlProg numPools left va 0#64 m.dscr.lvls 0 t).bindSome fun (t', lvl) =>
        let n := m.dscr.ptNentries lvl - m.dscr.ptGetpteindexByVa va lvl
        (m.freshRunProg numPools flags lvl n t' va left).bindSome fun (t'', va', left') =>
          freshLoopProg flags rounds t'' va' left'

/-- `mem_map`. -/
def mapProg (rounds : ℕ) (t : PtEntries) (va : ℕ) (page : Option Addr) (n : ℕ) (flags : Pte) :
    PoolProg (Option PtEntries) :=
  let vaddr := pageFloor va
  if m.InSection vaddr n then
    match page with
    | some base => m.givenLoopProg numPools flags n t vaddr base n
    | none => m.freshLoopProg numPools flags rounds t vaddr n
  else .ret (some t)

section AllocVpage

variable (given : Bool) (n : ℕ)

/-- What the search of `mem_alloc_vpage` does with one entry. -/
def allocEntryProg (s : AllocState) : PoolProg (Option AllocState) :=
  if m.splitsEntry n s then
    (m.allocPt numPools s.lvl s.addr s.tables).bindSome fun t => .ret (some { s with tables := t })
  else .ret (some (m.allocEntry given n s))

def allocEntriesProg : ℕ → AllocState → PoolProg (Option AllocState)
  | 0, s => .ret (some s)
  | left + 1, s =>
      if s.count < n ∧ s.failed = false then
        (m.allocEntryProg numPools given n s).bindSome fun s' =>
          if s'.failed then .ret (some s')
          else if m.fmt.pteTable (m.isLast s'.lvl) (m.pteAt s'.tables s'.lvl s'.addr) then
            .ret (some { s' with lvl := s'.lvl + 1 })
          else
            let next := { s' with addr := (s'.addr + m.dscr.ptLvlsize s'.lvl) % 2 ^ 64 }
            if left = 0 then .ret (some { next with lvl := 0 }) else allocEntriesProg left next
      else .ret (some s)

def allocSearchProg (sec : VaSection) : ℕ → AllocState → PoolProg (Option AllocState)
  | 0, _ => .ret none
  | rounds + 1, s =>
      if s.count < n ∧ s.failed = false then
        if !sec.hasSpace n s.addr then .ret (some { s with vpage := none, failed := true })
        else
          match m.ptGetPte s.tables s.lvl s.addr with
          | none => .ret none
          | some _ =>
              (m.allocEntriesProg numPools given n
                (m.dscr.ptNentries s.lvl - m.dscr.ptGetpteindexByVa s.addr s.lvl) s).bindSome
                  (allocSearchProg sec rounds)
      else .ret (some s)

/-- `mem_alloc_vpage`. -/
def allocVpageProg (rounds : ℕ) (t : PtEntries) (sectionIdx : ℕ) (at' : Option ℕ) :
    PoolProg (Option (PtEntries × Option ℕ)) :=
  match m.sections[sectionIdx]? with
  | none => .ret none
  | some sec =>
      if at'.isSome ∧ at'.bind m.memFindSec ≠ some sectionIdx then .ret (some (t, none))
      else
        let addr := at'.getD sec.beg
        if sec.last < addr ∨ ¬ pageSize ∣ addr then .ret (some (t, none))
        else
          (m.allocSearchProg numPools at'.isSome n sec rounds (allocStart t addr)).bindSome fun s =>
            .ret (m.allocMark n s)

end AllocVpage

/-- `mem_alloc_map`, with the address that it returns. -/
def allocMapProg (rounds : ℕ) (t : PtEntries) (r : MapRequest) :
    PoolProg (Option (PtEntries × Option ℕ)) :=
  (m.allocVpageProg numPools r.n rounds t r.sectionIdx r.at').bindSome fun (t', address) =>
    match address with
    | none => .ret (some (t', none))
    | some va =>
        (m.mapProg numPools rounds t' va r.page r.n r.flags).bindSome fun t'' =>
          .ret (some (t'', some va))

/-- Calls of `mem_alloc_map`, one after the other. -/
def allocMapsProg (rounds : ℕ) : List MapRequest → PtEntries → PoolProg (Option PtEntries)
  | [], t => .ret (some t)
  | r :: rs, t =>
      (m.allocMapProg numPools rounds t r).bindSome fun (t', address) =>
        if r.fixed ∧ address ≠ r.at' then .ret none else allocMapsProg rounds rs t'

variable {m numPools} {given : Set ℕ} {log : List (PoolCall × Option Addr)} {t : PtEntries}
  {lvl va n left rounds : ℕ} {pa base : Addr} {flags : Pte} {s : AllocState}

/-! ## Pages of the pools -/

theorem sat_allocPpages {Q : List (PoolCall × Option Addr) → Option Addr → Prop} {n : SizeT}
    {aligned : Bool} (hnone : ∀ log', Q (log ++ log') none)
    (hsome : ∀ log' pool base, Q (log ++ log' ++ [(⟨pool, n, aligned⟩, some base)]) (some base))
    (left pool : ℕ) : Client.Sat Q log (allocPpages n aligned left pool) := by
  induction left generalizing log pool with
  | zero =>
      rw [allocPpages, Client.sat_ret]
      simpa using hnone []
  | succ left ih =>
      rw [allocPpages, Client.sat_call]
      intro answer
      cases answer with
      | none =>
          apply ih
          · intro log'
            simpa using hnone ((⟨pool, n, aligned⟩, none) :: log')
          · intro log' pool' base
            simpa using hsome ((⟨pool, n, aligned⟩, none) :: log') pool' base
      | some base => simpa using hsome [] pool base

theorem sat_allocPt (h : m.Backed given log t) (hlvl : lvl + 1 < m.dscr.lvls)
    (hpath : m.Path t lvl va) (hvalid : m.fmt.pteValid (m.pteAt t lvl va) = false) :
    Client.Sat (fun log r => m.Backed given log (r.getD t) ∧
      ∀ t' ∈ r, ∃ base, t' = (m.withTable base).memAllocPt t lvl va) log
        (m.allocPt numPools lvl va t) := by
  rw [allocPt, Client.bindSome, Client.sat_bind]
  apply sat_allocPpages
  · intro log'
    exact ⟨h.calls log', fun _ hr => absurd hr (Option.not_mem_none _)⟩
  · intro log' pool base
    refine ⟨?_, fun t' ht' => ⟨base, (Option.mem_some_iff.mp ht').symm⟩⟩
    have hclosed := closed_memAllocPt (m := m.withTable base) h.closed hlvl hpath
    refine (h.calls log').draw hclosed (fun u _ => u = .table lvl (m.dscr.pos lvl va))
      (fun hsound u p hu => ?_) fun u u' _ hu hu' => hu.trans hu'.symm
    have hroom : 0 < (m.ptPages (lvl + 1)).toNat → base.toNat < 2 ^ m.fmt.addrWidth := fun hpos =>
      (Nat.lt_add_of_pos_right (Nat.mul_pos hpos (by decide))).trans_le
        (hsound.fits _ base (List.mem_append_right _ (List.mem_singleton_self _)))
    refine (uses_memAllocPt h.closed hlvl hpath hvalid hroom hu).imp_right ?_
    rintro ⟨hnew, hle, hlt⟩
    exact ⟨⟨base, rfl, hle, hlt⟩, hnew⟩

theorem satSome_allocPt (h : m.Backed given log t) (hlvl : lvl + 1 < m.dscr.lvls)
    (hpath : m.Path t lvl va) (hvalid : m.fmt.pteValid (m.pteAt t lvl va) = false) :
    Client.SatSome (fun log t' => m.Backed given log t' ∧
      ∃ base, t' = (m.withTable base).memAllocPt t lvl va) log (m.allocPt numPools lvl va t) := by
  refine (sat_allocPt h hlvl hpath hvalid).mono ?_
  rintro log r ⟨hbacked, htables⟩ t' ht'
  obtain rfl := Option.mem_def.mp ht'
  exact ⟨hbacked, htables t' rfl⟩

/-- An entry is written with pages that a call has returned. -/
theorem Backed.setPte_draw (h : m.Backed given log t) (hlvl : lvl < m.dscr.lvls)
    (hpath : m.Path t lvl va) (hflags : m.fmt.FlagsOk flags) (pool : ℕ) (base : Addr) :
    m.Backed given (log ++ [(⟨pool, BitVec.ofNat 64 (m.dscr.lvlPages lvl), true⟩, some base)])
      (m.setPte t lvl va (m.fmt.pteSet base (m.ptPageType lvl) flags)) := by
  have htable : m.fmt.pteTable (m.isLast lvl)
      (m.fmt.pteSet base (m.ptPageType lvl) flags) = false :=
    m.fmt.pteTable_of_ptePage _ _ (m.fmt.ptePage_pteSet _ _ _ hflags)
  have hcount : (BitVec.ofNat 64 (m.dscr.lvlPages lvl)).toNat = m.dscr.lvlPages lvl :=
    Nat.mod_eq_of_lt (lvlPages_lt hlvl)
  refine h.draw (closed_setPte h.closed hlvl hpath htable) (fun u p => ∃ x,
    u = .shown (m.dscr.pos lvl va * m.dscr.lvlPages lvl + x) ∧ p = base.toNat / pageSize + x)
      (fun hsound u p hu => ?_) ?_
  · have hmem := List.mem_append_right log (List.mem_singleton_self
      (PoolCall.mk pool (BitVec.ofNat 64 (m.dscr.lvlPages lvl)) true, some base))
    have hfits := hsound.fits _ base hmem
    have hdvd := hsound.aligned _ base hmem rfl
    rw [hcount, PtDscr.lvlPages_mul hlvl] at hfits hdvd
    have haddr : (m.fmt.pteAddr (m.fmt.pteSet base (m.ptPageType lvl) flags)).toNat =
        base.toNat := by
      rw [m.fmt.toNat_pteAddr_pteSet,
        Nat.mod_eq_of_lt ((Nat.lt_add_of_pos_right PtDscr.ptLvlsize_pos).trans_le hfits),
        Nat.div_mul_cancel (hsound.page _ base hmem)]
    refine (uses_setPte h.closed hlvl hpath htable (fun _ => haddr ▸ hdvd) hu).imp_right ?_
    rintro ⟨-, x, hx, rfl, rfl⟩
    rw [haddr]
    exact ⟨⟨base, rfl, Nat.le_add_right _ _, by rw [hcount]; exact Nat.add_lt_add_left hx _⟩,
      x, rfl, rfl⟩
  · rintro u u' p ⟨x, rfl, rfl⟩ ⟨x', rfl, hp⟩
    rw [Nat.add_left_cancel hp]

/-! ## The loops of `mem_map` -/

theorem satSome_mapLvlProg (h : m.Backed given log t) (hn : lvl + n = m.dscr.lvls) :
    Client.SatSome (fun log r => m.Backed given log r.1 ∧ r.2 < m.dscr.lvls ∧
      m.Path r.1 r.2 va ∧ m.fits r.2 left va pa = true) log
        (m.mapLvlProg numPools left va pa n lvl t) := by
  induction n generalizing log lvl t with
  | zero => exact Client.satSome_none
  | succ n ih =>
      have hlvl : lvl < m.dscr.lvls := by omega
      have hnext : lvl + 1 + n = m.dscr.lvls := by omega
      rw [mapLvlProg, ptGetPte]
      by_cases hpath : m.Path t lvl va
      · rw [if_pos hpath]
        dsimp only
        split_ifs with hterm hmap hvalid hlast
        · rw [ptPteMappable, Bool.and_eq_true] at hmap
          exact Client.satSome_some.mpr ⟨h, hlvl, hpath, hmap.2⟩
        · exact Client.satSome_none
        · rw [Bool.not_eq_true'] at hvalid
          rw [isLast, beq_iff_eq] at hlast
          exact (satSome_allocPt h (Nat.lt_of_le_of_ne hlvl hlast) hpath hvalid).bindSome
            fun log t' ht' => ih ht'.1 hnext
        · exact Client.satSome_none
        · exact ih h hnext
        · exact ih h hnext
      · rw [if_neg hpath]
        exact Client.satSome_none

/-- Pages from an address on that are given, as far as entries have room for their addresses. -/
structure Given (m : Mmu) (given : Set ℕ) (pa : Addr) (left : ℕ) : Prop where
  page : pageSize ∣ pa.toNat
  fits : pa.toNat + left * pageSize ≤ 2 ^ m.fmt.addrWidth
  mem : ∀ i < left, pa.toNat / pageSize + i ∈ given

/-- The pages behind those of an entry. -/
theorem Given.next (h : m.Given given pa left) (hlvl : lvl < m.dscr.lvls)
    (hleft : m.dscr.lvlPages lvl ≤ left) :
    (pa + BitVec.ofNat 64 (m.dscr.ptLvlsize lvl)).toNat = pa.toNat + m.dscr.ptLvlsize lvl ∧
      m.Given given (pa + BitVec.ofNat 64 (m.dscr.ptLvlsize lvl)) (left - m.dscr.lvlPages lvl) := by
  have hsize := PtDscr.lvlPages_mul hlvl
  have hroom := h.fits
  have hsplit : left * pageSize = m.dscr.ptLvlsize lvl +
      (left - m.dscr.lvlPages lvl) * pageSize := by
    rw [← hsize, ← Nat.add_mul, Nat.add_sub_cancel' hleft]
  have hword : 2 ^ m.fmt.addrWidth < 2 ^ 64 := Nat.pow_lt_pow_right (by decide) m.fmt.addrWidth_lt
  have hpa : (pa + BitVec.ofNat 64 (m.dscr.ptLvlsize lvl)).toNat =
      pa.toNat + m.dscr.ptLvlsize lvl := by
    rw [BitVec.toNat_add, BitVec.toNat_ofNat, Nat.add_mod_mod]
    exact Nat.mod_eq_of_lt (by omega)
  refine ⟨hpa, ?_, ?_, fun i hi => ?_⟩
  · rw [hpa]
    exact Nat.dvd_add h.page (PtDscr.pageSize_dvd_ptLvlsize hlvl)
  · rw [hpa]
    omega
  · rw [hpa, ← hsize, Nat.add_mul_div_right _ _ (by decide), Nat.add_assoc]
    exact h.mem _ (by omega)

/-- An entry is written with pages that are given. -/
theorem Backed.setPte_give (h : m.Backed given log t) (hlvl : lvl < m.dscr.lvls)
    (hpath : m.Path t lvl va) (hflags : m.fmt.FlagsOk flags) (hgiven : m.Given given pa left)
    (hleft : m.dscr.lvlPages lvl ≤ left) (hdvd : m.dscr.ptLvlsize lvl ∣ pa.toNat) :
    m.Backed given log (m.setPte t lvl va (m.fmt.pteSet pa (m.ptPageType lvl) flags)) := by
  have htable : m.fmt.pteTable (m.isLast lvl) (m.fmt.pteSet pa (m.ptPageType lvl) flags) = false :=
    m.fmt.pteTable_of_ptePage _ _ (m.fmt.ptePage_pteSet _ _ _ hflags)
  have hpages := PtDscr.lvlPages_pos hlvl
  have hroom : pa.toNat < 2 ^ m.fmt.addrWidth :=
    (Nat.lt_add_of_pos_right (Nat.mul_pos (hpages.trans_le hleft) (by decide))).trans_le hgiven.fits
  have haddr : (m.fmt.pteAddr (m.fmt.pteSet pa (m.ptPageType lvl) flags)).toNat = pa.toNat := by
    rw [m.fmt.toNat_pteAddr_pteSet, Nat.mod_eq_of_lt hroom, Nat.div_mul_cancel hgiven.page]
  refine h.give (closed_setPte h.closed hlvl hpath htable) fun u p hu => ?_
  refine (uses_setPte h.closed hlvl hpath htable (fun _ => haddr ▸ hdvd) hu).imp_right ?_
  rintro ⟨-, x, hx, rfl, rfl⟩
  rw [haddr]
  exact ⟨hgiven.mem x (hx.trans_le hleft), _, rfl⟩

theorem Backed.memMapRun (h : m.Backed given log t) (hlvl : lvl < m.dscr.lvls)
    (hflags : m.fmt.FlagsOk flags) (hgiven : m.Given given pa left)
    (hdvd : m.dscr.ptLvlsize lvl ∣ pa.toNat)
    (hpath : ∀ j < n, m.Path t lvl (va + j * m.dscr.ptLvlsize lvl)) :
    m.Backed given log (m.memMapRun flags lvl n t va pa left).1 ∧
      m.Given given (m.memMapRun flags lvl n t va pa left).2.2.1
        (m.memMapRun flags lvl n t va pa left).2.2.2 := by
  induction n generalizing t va pa left with
  | zero => exact ⟨h, hgiven⟩
  | succ n ih =>
      rw [Mmu.memMapRun]
      split_ifs with hleft
      · obtain ⟨hpa, hnext⟩ := hgiven.next hlvl hleft.2
        apply ih
        · exact h.setPte_give hlvl (path_first hpath) hflags hgiven hleft.2 hdvd
        · exact hnext
        · rw [hpa]
          exact Nat.dvd_add hdvd dvd_rfl
        · exact path_next hlvl hpath
      · exact ⟨h, hgiven⟩

theorem satSome_givenLoopProg (h : m.Backed given log t) (hflags : m.fmt.FlagsOk flags)
    (hgiven : m.Given given pa left) :
    Client.SatSome (m.Backed given) log (m.givenLoopProg numPools flags n t va pa left) := by
  induction n generalizing log t va pa left with
  | zero =>
      rw [givenLoopProg]
      split_ifs
      · exact Client.satSome_some.mpr h
      · exact Client.satSome_none
  | succ n ih =>
      rw [givenLoopProg]
      split_ifs with hleft
      · exact Client.satSome_some.mpr h
      · apply (satSome_mapLvlProg h (Nat.zero_add _)).bindSome
        rintro log ⟨t', lvl⟩ ⟨hbacked, hlvl, hpath, hfits⟩
        obtain ⟨-, hva, hpa⟩ := fits_iff.mp hfits
        obtain ⟨hrun, hrest⟩ := hbacked.memMapRun hlvl hflags hgiven hpa
          fun _ => path_of_index hlvl hva hpath
        exact ih hrun hrest

theorem satSome_freshRunProg (h : m.Backed given log t) (hlvl : lvl < m.dscr.lvls)
    (hflags : m.fmt.FlagsOk flags)
    (hpath : ∀ j < n, m.Path t lvl (va + j * m.dscr.ptLvlsize lvl)) :
    Client.SatSome (fun log r => m.Backed given log r.1) log
      (m.freshRunProg numPools flags lvl n t va left) := by
  induction n generalizing log t va left with
  | zero => exact Client.satSome_some.mpr h
  | succ n ih =>
      rw [freshRunProg]
      by_cases hleft : 0 < left ∧ m.dscr.lvlPages lvl ≤ left
      · rw [if_pos hleft, Client.SatSome, Client.sat_bind]
        apply sat_allocPpages
        · intro log'
          have hcalls := h.calls log'
          dsimp only
          split_ifs with hlast hvalid
          · exact Client.satSome_none
          · exact Client.satSome_some.mpr hcalls
          · rw [isLast, beq_iff_eq] at hlast
            rw [Bool.not_eq_true] at hvalid
            rw [Client.sat_bind]
            refine (sat_allocPt hcalls (Nat.lt_of_le_of_ne hlvl hlast) (path_first hpath)
              hvalid).mono fun log r hr => ?_
            exact Client.satSome_some.mpr hr.1
        · intro log' pool base
          exact ih ((h.calls log').setPte_draw hlvl (path_first hpath) hflags pool base)
            (path_next hlvl hpath)
      · rw [if_neg hleft]
        exact Client.satSome_some.mpr h

theorem satSome_freshLoopProg (h : m.Backed given log t) (hflags : m.fmt.FlagsOk flags) :
    Client.SatSome (m.Backed given) log (m.freshLoopProg numPools flags rounds t va left) := by
  induction rounds generalizing log t va left with
  | zero => exact Client.satSome_none
  | succ rounds ih =>
      rw [freshLoopProg]
      split_ifs with hleft
      · exact Client.satSome_some.mpr h
      · apply (satSome_mapLvlProg h (Nat.zero_add _)).bindSome
        rintro log ⟨t', lvl⟩ ⟨hbacked, hlvl, hpath, hfits⟩
        obtain ⟨-, hva, -⟩ := fits_iff.mp hfits
        apply (satSome_freshRunProg hbacked hlvl hflags
          fun _ => path_of_index hlvl hva hpath).bindSome
        rintro log ⟨t'', va', left'⟩ hbacked'
        exact ih hbacked'

theorem satSome_mapProg (h : m.Backed given log t) (hflags : m.fmt.FlagsOk flags)
    {page : Option Addr} (hgiven : ∀ base ∈ page, m.Given given base n) :
    Client.SatSome (m.Backed given) log (m.mapProg numPools rounds t va page n flags) := by
  unfold mapProg
  dsimp only
  split_ifs
  · cases page with
    | some base => exact satSome_givenLoopProg h hflags (hgiven base rfl)
    | none => exact satSome_freshLoopProg h hflags
  · exact Client.satSome_some.mpr h

/-! ## The search of `mem_alloc_vpage` -/

/-- The search is at an entry of a table. -/
structure Searching (m : Mmu) (given : Set ℕ) (log : List (PoolCall × Option Addr))
    (s : AllocState) : Prop where
  backed : m.Backed given log s.tables
  lt : s.lvl < m.dscr.lvls
  path : m.Path s.tables s.lvl s.addr

theorem lvl_allocEntry (at' : Bool) (n : ℕ) (s : AllocState) :
    (m.allocEntry at' n s).lvl = s.lvl ∧ (m.allocEntry at' n s).addr = s.addr := by
  rw [allocEntry]
  split_ifs
  · exact ⟨rfl, rfl⟩
  · exact ⟨rfl, rfl⟩
  · exact ⟨rfl, rfl⟩
  · exact ⟨rfl, rfl⟩
  · exact ⟨rfl, rfl⟩

/-- The search stays at the entry, which may be that of a new table now. -/
theorem Searching.allocEntryProg (h : m.Searching given log s) (at' : Bool) :
    Client.SatSome (fun log s' => m.Searching given log s' ∧ s'.lvl = s.lvl ∧ s'.addr = s.addr) log
      (m.allocEntryProg numPools at' n s) := by
  rw [Mmu.allocEntryProg]
  split_ifs with hsplit
  · rw [splitsEntry, Bool.and_eq_true, Bool.and_eq_true, Bool.not_eq_true', Bool.not_eq_true',
      Bool.not_eq_true'] at hsplit
    obtain ⟨⟨-, hvalid⟩, halloc⟩ := hsplit
    have hlvl := AllocInv.not_last_of_not_allocable h.lt hvalid (Bool.eq_false_iff.mp halloc)
    apply (satSome_allocPt h.backed hlvl h.path hvalid).bindSome
    rintro log t' ⟨hbacked, base, rfl⟩
    have hagree := agreeOff_memAllocPt (m := m.withTable base) hlvl s.tables s.addr
    have hpath := (path_iff_of_agreeOff (m := m) hagree h.lt le_rfl s.addr).mpr h.path
    exact Client.satSome_some.mpr ⟨⟨hbacked, h.lt, hpath⟩, rfl, rfl⟩
  · obtain ⟨hlvl, haddr⟩ := lvl_allocEntry (m := m) at' n s
    have htables : (m.allocEntry at' n s).tables = _ := tables_allocEntry s
    rw [if_neg hsplit] at htables
    refine Client.satSome_some.mpr ⟨⟨?_, ?_, ?_⟩, hlvl, haddr⟩
    · rw [htables]
      exact h.backed
    · rw [hlvl]
      exact h.lt
    · rw [htables, hlvl, haddr]
      exact h.path

theorem Searching.descend (h : m.Searching given log s)
    (htable : m.fmt.pteTable (m.isLast s.lvl) (m.pteAt s.tables s.lvl s.addr) = true) :
    m.Searching given log { s with lvl := s.lvl + 1 } := by
  have hpath : m.Path s.tables (s.lvl + 1) s.addr := Radix.path_succ_iff.mpr ⟨h.path, htable⟩
  exact ⟨h.backed, ((path_iff_le_look h.backed.closed).mp hpath).trans_lt
    (look_fst_lt h.backed.closed s.addr), hpath⟩

/-- The next entry of the table. -/
theorem Searching.next (h : m.Searching given log s) (hleft : left ≠ 0)
    (hindex : left + 1 = m.dscr.ptNentries s.lvl - m.dscr.ptGetpteindexByVa s.addr s.lvl) :
    m.Searching given log { s with addr := (s.addr + m.dscr.ptLvlsize s.lvl) % 2 ^ 64 } := by
  refine ⟨h.backed, h.lt, ?_⟩
  change m.Path s.tables s.lvl ((s.addr + m.dscr.ptLvlsize s.lvl) % 2 ^ 64)
  rw [path_mod_two_pow h.lt]
  refine h.path.congr fun i hi => congrArg (m.tab s.tables i) ?_
  refine Radix.Shape.pos_add_size h.lt hi ?_
  rw [PtDscr.ptNentries_eq h.lt, PtDscr.ptGetpteindexByVa_eq h.lt] at hindex
  omega

theorem Searching.restart (h : m.Searching given log s) (addr : ℕ) :
    m.Searching given log { s with addr := addr, lvl := 0 } :=
  ⟨h.backed, m.dscr.lvls_pos, Radix.path_zero _⟩

theorem Searching.allocEntriesProg (h : m.Searching given log s) (at' : Bool)
    (hindex : left = m.dscr.ptNentries s.lvl - m.dscr.ptGetpteindexByVa s.addr s.lvl) :
    Client.SatSome (m.Searching given) log (m.allocEntriesProg numPools at' n left s) := by
  induction left generalizing log s with
  | zero => exact Client.satSome_some.mpr h
  | succ left ih =>
      rw [Mmu.allocEntriesProg]
      by_cases hmore : s.count < n ∧ s.failed = false
      · rw [if_pos hmore]
        apply (h.allocEntryProg at').bindSome
        rintro log s' ⟨h', hlvl, haddr⟩
        rw [← hlvl, ← haddr] at hindex
        dsimp only
        split_ifs with hfailed htable hzero
        · exact Client.satSome_some.mpr h'
        · exact Client.satSome_some.mpr (h'.descend htable)
        · exact Client.satSome_some.mpr (h'.restart _)
        · exact ih (h'.next hzero hindex) (AllocInv.index_next h'.lt hzero hindex)
      · rw [if_neg hmore]
        exact Client.satSome_some.mpr h

theorem Searching.allocSearchProg (h : m.Searching given log s) (at' : Bool) (sec : VaSection) :
    Client.SatSome (fun log s => m.Backed given log s.tables) log
      (m.allocSearchProg numPools at' n sec rounds s) := by
  induction rounds generalizing log s with
  | zero => exact Client.satSome_none
  | succ rounds ih =>
      rw [Mmu.allocSearchProg]
      by_cases hmore : s.count < n ∧ s.failed = false
      · rw [if_pos hmore]
        by_cases hspace : (!sec.hasSpace n s.addr) = true
        · rw [if_pos hspace]
          exact Client.satSome_some.mpr h.backed
        · rw [if_neg hspace, ptGetPte, if_pos h.path]
          exact (h.allocEntriesProg at' rfl).bindSome fun log s' h' => ih h'
      · rw [if_neg hmore]
        exact Client.satSome_some.mpr h.backed

theorem path_of_invalidLvl {i k : ℕ} (h : m.invalidLvl t va k lvl = some i) :
    m.Path t i va ∧ i < lvl + k := by
  induction k generalizing lvl with
  | zero => cases h
  | succ k ih =>
      rw [invalidLvl, ptGetPte] at h
      split_ifs at h with hpath
      · rw [Option.bind_some] at h
        split_ifs at h with hvalid
        · obtain rfl := Option.some.inj h
          exact ⟨hpath, by omega⟩
        · obtain ⟨hpath', hlt⟩ := ih h
          exact ⟨hpath', by omega⟩
      · cases h

theorem Backed.markReserved (h : m.Backed given log t) {count : ℕ} {t' : PtEntries}
    (hmark : m.markReserved n rounds t va count = some t') : m.Backed given log t' := by
  induction rounds generalizing t va count with
  | zero => cases hmark
  | succ rounds ih =>
      rw [Mmu.markReserved] at hmark
      split_ifs at hmark with hcount
      · obtain ⟨lvl, hlvl, hrest⟩ := Option.bind_eq_some_iff.mp hmark
        obtain ⟨hpath, hlt⟩ := path_of_invalidLvl hlvl
        rw [Nat.zero_add] at hlt
        have hinvalid : m.fmt.pteValid (m.fmt.pteReserve (m.pteAt t lvl va)) = false := by
          rw [m.fmt.pteValid_pteReserve, pteValid_of_invalidLvl hlvl]
        have htable := pteTable_of_not_valid hinvalid (m.isLast lvl)
        refine ih (h.shrink (closed_setPte h.closed hlt hpath htable) fun u p hu => ?_) hrest
        refine (uses_setPte h.closed hlt hpath htable (fun hvalid => ?_) hu).resolve_right ?_
        · rw [hinvalid] at hvalid
          cases hvalid
        · rintro ⟨hvalid, -⟩
          rw [hinvalid] at hvalid
          cases hvalid
      · obtain rfl := Option.some.inj hmark
        exact h

theorem satSome_allocVpageProg (h : m.Backed given log t) (sectionIdx : ℕ) (at' : Option ℕ) :
    Client.SatSome (fun log r => m.Backed given log r.1) log
      (m.allocVpageProg numPools n rounds t sectionIdx at') := by
  rw [allocVpageProg]
  cases m.sections[sectionIdx]? with
  | none => exact Client.satSome_none
  | some sec =>
      dsimp only
      split_ifs
      · exact Client.satSome_some.mpr h
      · exact Client.satSome_some.mpr h
      · have hstart : m.Searching given log (allocStart t (at'.getD sec.beg)) :=
          ⟨h, m.dscr.lvls_pos, Radix.path_zero _⟩
        apply (hstart.allocSearchProg at'.isSome sec).bindSome
        intro log s hs r hr
        rw [Option.mem_def, allocMark] at hr
        split at hr
        · obtain ⟨t', hmark, rfl⟩ := Option.map_eq_some_iff.mp hr
          exact hs.markReserved hmark
        · obtain rfl := Option.some.inj hr
          exact hs

/-! ## Calls of `mem_alloc_map` -/

/-- The flags are those of pages, and the pages that a call is given are aligned and some that
entries have room for. -/
structure RequestOk (m : Mmu) (given : Set ℕ) (r : MapRequest) : Prop where
  flags : m.fmt.FlagsOk r.flags
  page : ∀ base ∈ r.page, m.Given given base r.n

theorem satSome_allocMapProg (h : m.Backed given log t) {r : MapRequest}
    (hr : m.RequestOk given r) :
    Client.SatSome (fun log r => m.Backed given log r.1) log
      (m.allocMapProg numPools rounds t r) := by
  apply (satSome_allocVpageProg h r.sectionIdx r.at').bindSome
  rintro log ⟨t', address⟩ hbacked
  cases address with
  | none => exact Client.satSome_some.mpr hbacked
  | some va =>
      apply (satSome_mapProg hbacked hr.flags hr.page).bindSome
      exact fun log t'' hbacked' => Client.satSome_some.mpr hbacked'

theorem satSome_allocMapsProg (h : m.Backed given log t) {rs : List MapRequest}
    (hrs : ∀ r ∈ rs, m.RequestOk given r) :
    Client.SatSome (m.Backed given) log (m.allocMapsProg numPools rounds rs t) := by
  induction rs generalizing log t with
  | nil => exact Client.satSome_some.mpr h
  | cons r rs ih =>
      apply (satSome_allocMapProg h (hrs r List.mem_cons_self)).bindSome
      rintro log ⟨t', address⟩ hbacked
      dsimp only
      split_ifs
      · exact Client.satSome_none
      · exact ih hbacked fun r' hr' => hrs r' (List.mem_cons_of_mem r hr')

end Mmu

end BaoHypervisor
