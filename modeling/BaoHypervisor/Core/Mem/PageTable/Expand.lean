import BaoHypervisor.Core.Mem.PageTable.Law

/-!
# Expanding an entry

`mem_expand_pte` puts a table in the place of an entry of a level above the last one. The
entries of the table map the parts of a superpage, or are reserved where the entry was, so that
no translation and no reservation changes (`memTranslate_memExpandPte`,
`isReserved_memExpandPte`).
-/

namespace BaoHypervisor

namespace Mmu

variable (m : Mmu) (t : PtEntries) (lvl va : ℕ)

def expandFlags : Pte := if m.asType = .hyp then m.fmt.hypFlags else m.fmt.vmFlags

/-- The loop of `mem_expand_pte` over the entries of the new table, for the entry `pte` that was
valid or reserved. -/
def expandLoop (pte : Pte) : PtEntries := fun l k =>
  if l = lvl + 1 ∧ k / m.dscr.ptNentries l = m.dscr.pos lvl va then
    if m.fmt.pteValid pte then
      m.fmt.pteSet
        (m.fmt.pteAddr pte + BitVec.ofNat 64 (k % m.dscr.ptNentries l * m.dscr.ptLvlsize l))
        (m.ptPageType l) m.expandFlags
    else m.fmt.pteReserve (t l k)
  else t l k

def memExpandPte : PtEntries :=
  if m.dscr.lvls - 1 ≤ lvl then t
  else
    match m.ptGetPte t lvl va with
    | none => t
    | some pte =>
        if m.fmt.pteTable (m.isLast lvl) pte then t
        else if m.fmt.pteValid pte || m.fmt.pteReserved pte then
          m.expandLoop (m.memAllocPt t lvl va) lvl va pte
        else m.memAllocPt t lvl va

/-- The entry of the new table with the index `i`, for the entry `pte` of the level above. -/
def expandedPte (pte : Pte) (i : ℕ) : Pte :=
  if m.fmt.pteValid pte then
    m.fmt.pteSet (m.fmt.pteAddr pte + BitVec.ofNat 64 (i * m.dscr.ptLvlsize (lvl + 1)))
      (m.ptPageType (lvl + 1)) m.expandFlags
  else if m.fmt.pteReserved pte then m.fmt.pteReserve (pte &&& m.fmt.rswMsk)
  else pte &&& m.fmt.rswMsk

variable {m t lvl va} {t' : PtEntries} {b : ℕ} {pte : Pte}

theorem memExpandPte_of_not_table (hlvl : lvl + 1 < m.dscr.lvls) (hpath : m.Path t lvl va)
    (htable : m.fmt.pteTable (m.isLast lvl) (m.pteAt t lvl va) = false) :
    m.memExpandPte t lvl va =
      if m.fmt.pteValid (m.pteAt t lvl va) || m.fmt.pteReserved (m.pteAt t lvl va) then
        m.expandLoop (m.memAllocPt t lvl va) lvl va (m.pteAt t lvl va)
      else m.memAllocPt t lvl va := by
  rw [memExpandPte, if_neg (by omega), ptGetPte, if_pos hpath]
  dsimp only
  rw [htable, if_neg Bool.false_ne_true]

/-- There is nothing to expand where a walk does not stop, or where it ends. -/
theorem memExpandPte_of_not_stops (h : ¬ (lvl + 1 < m.dscr.lvls ∧ m.Stops t lvl va)) :
    m.memExpandPte t lvl va = t := by
  rw [memExpandPte, ptGetPte]
  by_cases hlvl : lvl + 1 < m.dscr.lvls
  swap
  · rw [if_pos (by omega)]
  rw [if_neg (by omega)]
  by_cases hpath : m.Path t lvl va
  swap
  · rw [if_neg hpath]
  rw [if_pos hpath]
  cases htable : m.fmt.pteTable (m.isLast lvl) (m.pteAt t lvl va) with
  | true =>
      dsimp only
      rw [if_pos htable]
  | false => exact absurd ⟨hlvl, Nat.lt_of_succ_lt hlvl, hpath, htable⟩ h

theorem agreeOff_memExpandPte (hlvl : lvl + 1 < m.dscr.lvls) (hpath : m.Path t lvl va)
    (htable : m.fmt.pteTable (m.isLast lvl) (m.pteAt t lvl va) = false) :
    Radix.AgreeOff m.dscr.shape t (m.memExpandPte t lvl va) lvl va := by
  have halloc := agreeOff_memAllocPt hlvl t va
  rw [memExpandPte_of_not_table hlvl hpath htable]
  split_ifs
  · refine halloc.trans fun i hi b hb => ?_
    rw [expandLoop, if_neg]
    rintro ⟨rfl, hpos⟩
    rw [pos_div_ptNentries hlvl] at hpos
    exact absurd hpos (hb.resolve_left (by omega))
  · exact halloc

/-- The entries of the new table are those for the parts of the old entry. -/
theorem pteAt_memExpandPte (hlvl : lvl + 1 < m.dscr.lvls) (hpath : m.Path t lvl va)
    (htable : m.fmt.pteTable (m.isLast lvl) (m.pteAt t lvl va) = false)
    (h : m.dscr.pos lvl b = m.dscr.pos lvl va) :
    m.pteAt (m.memExpandPte t lvl va) (lvl + 1) b =
      m.expandedPte lvl (m.pteAt t lvl va) (m.dscr.ptGetpteindexByVa b (lvl + 1)) := by
  have halloc := pteAt_memAllocPt_succ (t := t) hlvl h
  have hindex : m.dscr.pos (lvl + 1) b % m.dscr.ptNentries (lvl + 1) =
      m.dscr.ptGetpteindexByVa b (lvl + 1) := by
    rw [PtDscr.ptNentries_eq hlvl, PtDscr.ptGetpteindexByVa_eq hlvl, Radix.Shape.index_eq hlvl]
  rw [memExpandPte_of_not_table hlvl hpath htable, expandedPte]
  cases hvalid : m.fmt.pteValid (m.pteAt t lvl va) with
  | true =>
      rw [Bool.true_or, if_pos rfl, if_pos rfl, pteAt, expandLoop,
        if_pos ⟨rfl, by rw [pos_div_ptNentries hlvl, h]⟩, if_pos hvalid, hindex]
  | false =>
      rw [Bool.false_or, if_neg Bool.false_ne_true]
      split_ifs
      · rw [pteAt, expandLoop, if_pos ⟨rfl, by rw [pos_div_ptNentries hlvl, h]⟩, hvalid,
          if_neg Bool.false_ne_true]
        exact congrArg _ halloc
      · exact halloc

theorem pteValid_expandedPte (pte : Pte) (i : ℕ) :
    m.fmt.pteValid (m.expandedPte lvl pte i) = m.fmt.pteValid pte := by
  rw [expandedPte]
  split_ifs with hvalid
  · rw [m.fmt.pteValid_pteSet, hvalid]
  · rw [m.fmt.pteValid_pteReserve, m.fmt.pteValid_rsw, Bool.eq_false_iff.mpr hvalid]
  · rw [m.fmt.pteValid_rsw, Bool.eq_false_iff.mpr hvalid]

theorem pteReserved_expandedPte (hvalid : m.fmt.pteValid pte = false) (i : ℕ) :
    m.fmt.pteReserved (m.expandedPte lvl pte i) = m.fmt.pteReserved pte := by
  rw [expandedPte, hvalid, if_neg Bool.false_ne_true]
  split_ifs with hreserved
  · rw [m.fmt.pteReserved_pteReserve, hreserved]
  · rw [m.fmt.pteReserved_rsw]

theorem flagsOk_expandFlags : m.fmt.FlagsOk m.expandFlags := by
  rw [expandFlags]
  split_ifs
  · exact m.fmt.hypFlags_ok
  · exact m.fmt.vmFlags_ok

theorem pteTable_expandedPte (pte : Pte) (i : ℕ) :
    m.fmt.pteTable (m.isLast (lvl + 1)) (m.expandedPte lvl pte i) = false := by
  cases hvalid : m.fmt.pteValid pte with
  | true =>
      rw [expandedPte, if_pos hvalid]
      exact m.fmt.pteTable_of_ptePage _ _ (m.fmt.ptePage_pteSet _ _ _ flagsOk_expandFlags)
  | false => exact pteTable_of_not_valid (by rw [pteValid_expandedPte, hvalid]) _

theorem stops_memExpandPte (hlvl : lvl + 1 < m.dscr.lvls) (hpath : m.Path t lvl va)
    (htable : m.fmt.pteTable (m.isLast lvl) (m.pteAt t lvl va) = false)
    (h : m.dscr.pos lvl b = m.dscr.pos lvl va) :
    m.Stops (m.memExpandPte t lvl va) (lvl + 1) b := by
  refine stops_of_not_table hlvl ?_ ?_
  · refine (path_memAllocPt hlvl hpath h).congr fun i hi => ?_
    rw [memExpandPte_of_not_table hlvl hpath htable]
    split_ifs
    · rw [tab, expandLoop, if_neg (fun hentry => absurd hentry.1 (Nat.ne_of_lt hi))]
      rfl
    · rfl
  · rw [pteAt_memExpandPte hlvl hpath htable h, pteTable_expandedPte]

theorem closed_memExpandPte (hclosed : m.Closed t) (hlvl : lvl + 1 < m.dscr.lvls)
    (hpath : m.Path t lvl va)
    (htable : m.fmt.pteTable (m.isLast lvl) (m.pteAt t lvl va) = false) :
    m.Closed (m.memExpandPte t lvl va) :=
  (agreeOff_tab (agreeOff_memExpandPte hlvl hpath htable)).closed hclosed fun _ h =>
    ⟨lvl + 1, stops_memExpandPte hlvl hpath htable h⟩

theorem look_memExpandPte (hclosed : m.Closed t) (hlvl : lvl + 1 < m.dscr.lvls)
    (hpath : m.Path t lvl va)
    (htable : m.fmt.pteTable (m.isLast lvl) (m.pteAt t lvl va) = false) (b : ℕ) :
    m.look (m.memExpandPte t lvl va) b =
      if m.dscr.pos lvl b = m.dscr.pos lvl va then
        (lvl + 1, m.expandedPte lvl (m.pteAt t lvl va) (m.dscr.ptGetpteindexByVa b (lvl + 1)))
      else m.look t b := by
  have hclosed' := closed_memExpandPte hclosed hlvl hpath htable
  split_ifs with h
  · rw [look_of_stops hclosed' (stops_memExpandPte hlvl hpath htable h),
      pteAt_memExpandPte hlvl hpath htable h]
  · exact look_of_agreeOff hclosed hclosed' (agreeOff_memExpandPte hlvl hpath htable) h

theorem look_of_expandable (hclosed : m.Closed t) (hlvl : lvl + 1 < m.dscr.lvls)
    (hpath : m.Path t lvl va)
    (htable : m.fmt.pteTable (m.isLast lvl) (m.pteAt t lvl va) = false)
    (h : m.dscr.pos lvl b = m.dscr.pos lvl va) : m.look t b = (lvl, m.pteAt t lvl va) := by
  have hlvl' : lvl < m.dscr.lvls := by omega
  have hentry := pteAt_congr_pos (m := m) (t := t) h
  rw [look_of_stops hclosed (stops_of_not_table hlvl'
    (path_congr_pos hlvl' h (Nat.le_succ lvl) hpath) (by rw [hentry, htable])), hentry]

/-! ## Translations -/

theorem ptNentries_mul_ptLvlsize (hlvl : lvl + 1 < m.dscr.lvls) :
    m.dscr.ptNentries (lvl + 1) * m.dscr.ptLvlsize (lvl + 1) = m.dscr.ptLvlsize lvl := by
  rw [PtDscr.ptNentries_eq hlvl]
  exact Nat.div_mul_cancel (m.dscr.shape.size_dvd lvl hlvl)

theorem ptLvlsize_dvd_width (hlvl : lvl < m.dscr.lvls) :
    m.dscr.ptLvlsize lvl ∣ 2 ^ m.fmt.addrWidth :=
  Dvd.dvd.trans (Radix.Shape.size_dvd_of_le (g := m.dscr.shape) hlvl (Nat.zero_le lvl))
    (Nat.pow_dvd_pow 2 m.lvlOff_le)

/-- The part of a superpage with the index `i`. -/
theorem toNat_pteAddr_expandedPte (hlvl : lvl + 1 < m.dscr.lvls)
    (hvalid : m.fmt.pteValid pte = true)
    (hdvd : m.dscr.ptLvlsize lvl ∣ (m.fmt.pteAddr pte).toNat) {i : ℕ}
    (hi : i < m.dscr.ptNentries (lvl + 1)) :
    (m.fmt.pteAddr (m.expandedPte lvl pte i)).toNat =
      (m.fmt.pteAddr pte).toNat + i * m.dscr.ptLvlsize (lvl + 1) := by
  have hlvl' : lvl < m.dscr.lvls := by omega
  have hsize := ptNentries_mul_ptLvlsize hlvl
  have hpos : 0 < m.dscr.ptLvlsize (lvl + 1) := PtDscr.ptLvlsize_pos
  have hlt := m.fmt.toNat_pteAddr_lt pte
  have hwidth : 2 ^ m.fmt.addrWidth < 2 ^ 64 :=
    Nat.pow_lt_pow_right (by decide) m.fmt.addrWidth_lt
  -- the superpage ends within the addresses that an entry can hold
  have hend : (m.fmt.pteAddr pte).toNat + m.dscr.ptLvlsize lvl ≤ 2 ^ m.fmt.addrWidth := by
    obtain ⟨c, hc⟩ := (ptLvlsize_dvd_width hlvl')
    obtain ⟨q, hq⟩ := hdvd
    rw [hq, hc] at hlt ⊢
    rw [← Nat.mul_succ]
    exact Nat.mul_le_mul_left _ (Nat.lt_of_mul_lt_mul_left hlt)
  have hmul : (i + 1) * m.dscr.ptLvlsize (lvl + 1) ≤ m.dscr.ptLvlsize lvl := by
    rw [← hsize]
    exact Nat.mul_le_mul_right _ hi
  rw [Nat.add_mul, Nat.one_mul] at hmul
  have hpage : pageSize ∣ (m.fmt.pteAddr pte).toNat + i * m.dscr.ptLvlsize (lvl + 1) :=
    Nat.dvd_add ((PtDscr.pageSize_dvd_ptLvlsize hlvl').trans hdvd)
      (dvd_mul_of_dvd_right (PtDscr.pageSize_dvd_ptLvlsize hlvl) i)
  have hsum : (m.fmt.pteAddr pte + BitVec.ofNat 64 (i * m.dscr.ptLvlsize (lvl + 1))).toNat =
      (m.fmt.pteAddr pte).toNat + i * m.dscr.ptLvlsize (lvl + 1) := by
    rw [BitVec.toNat_add, BitVec.toNat_ofNat, Nat.mod_eq_of_lt (a := i * _) (by omega),
      Nat.mod_eq_of_lt (by omega)]
  rw [expandedPte, if_pos hvalid, m.fmt.toNat_pteAddr_pteSet, hsum, Nat.mod_eq_of_lt (by omega)]
  exact Nat.div_mul_cancel hpage

/-- An entry and those of the table in its place show the same. -/
theorem leafAddr_expandedPte (hlvl : lvl + 1 < m.dscr.lvls) (hvalid : m.fmt.pteValid pte = true)
    (hdvd : m.dscr.ptLvlsize lvl ∣ (m.fmt.pteAddr pte).toNat) (b : ℕ) :
    m.leafAddr (lvl + 1, m.expandedPte lvl pte (m.dscr.ptGetpteindexByVa b (lvl + 1))) b =
      m.leafAddr (lvl, pte) b := by
  have hlvl' : lvl < m.dscr.lvls := by omega
  have hindex : m.dscr.ptGetpteindexByVa b (lvl + 1) < m.dscr.ptNentries (lvl + 1) := by
    rw [PtDscr.ptNentries_eq hlvl, PtDscr.ptGetpteindexByVa_eq hlvl]
    exact Radix.Shape.index_lt hlvl b
  have hsum := toNat_pteAddr_expandedPte hlvl hvalid hdvd hindex
  have hsplit : b % m.dscr.ptLvlsize lvl = b % m.dscr.ptLvlsize (lvl + 1) +
      m.dscr.ptLvlsize (lvl + 1) * m.dscr.ptGetpteindexByVa b (lvl + 1) := by
    rw [← ptNentries_mul_ptLvlsize hlvl, Nat.mul_comm, Nat.mod_mul, PtDscr.ptGetpteindexByVa]
  have hdvd' : m.dscr.ptLvlsize (lvl + 1) ∣ (m.fmt.pteAddr (m.expandedPte lvl pte
      (m.dscr.ptGetpteindexByVa b (lvl + 1)))).toNat := by
    rw [hsum]
    exact Nat.dvd_add ((m.dscr.shape.size_dvd lvl hlvl).trans hdvd) (Nat.dvd_mul_left _ _)
  refine BitVec.eq_of_toNat_eq ?_
  rw [toNat_leafAddr hlvl hdvd', toNat_leafAddr hlvl' hdvd, hsum, hsplit,
    Nat.mul_comm (m.dscr.ptLvlsize (lvl + 1))]
  omega

def LeavesAligned (m : Mmu) (t : PtEntries) : Prop :=
  ∀ va e, m.leafAt t va = some e → m.dscr.ptLvlsize e.1 ∣ (m.fmt.pteAddr e.2).toNat

theorem WellFormed.leavesAligned (h : m.WellFormed t) : m.LeavesAligned t := by
  intro va e hleaf
  obtain ⟨hlook, hvalid⟩ := leafAt_eq_some_iff.mp hleaf
  have hstops := stops_look h.closed va
  rw [← hlook] at hvalid ⊢
  exact h.aligned _ va hstops hvalid

/-- To expand an entry changes no translation. -/
theorem memTranslate_memExpandPte (hclosed : m.Closed t) (haligned : m.LeavesAligned t)
    (hlvl : lvl + 1 < m.dscr.lvls) (hpath : m.Path t lvl va)
    (htable : m.fmt.pteTable (m.isLast lvl) (m.pteAt t lvl va) = false) (b : ℕ) :
    m.memTranslate (m.memExpandPte t lvl va) b = m.memTranslate t b := by
  have hlook := look_memExpandPte hclosed hlvl hpath htable b
  rw [memTranslate_eq, memTranslate_eq]
  split_ifs at hlook with h
  · have hbefore := look_of_expandable hclosed hlvl hpath htable h
    rw [leafAt, leafAt, hlook, hbefore, pteValid_expandedPte]
    split_ifs with hvalid
    · have hdvd := haligned b _ (leafAt_eq_some_iff.mpr ⟨hbefore, hvalid⟩)
      rw [Option.map_some, Option.map_some, leafAddr_expandedPte hlvl hvalid hdvd]
    · rfl
  · rw [leafAt_congr hlook]

theorem isReserved_memExpandPte (hclosed : m.Closed t) (hlvl : lvl + 1 < m.dscr.lvls)
    (hpath : m.Path t lvl va)
    (htable : m.fmt.pteTable (m.isLast lvl) (m.pteAt t lvl va) = false) (b : ℕ) :
    m.isReserved (m.memExpandPte t lvl va) b = m.isReserved t b := by
  rw [isReserved, isReserved, look_memExpandPte hclosed hlvl hpath htable]
  split_ifs with h
  · rw [look_of_expandable hclosed hlvl hpath htable h, pteValid_expandedPte]
    cases hvalid : m.fmt.pteValid (m.pteAt t lvl va) with
    | true => rfl
    | false => rw [pteReserved_expandedPte hvalid]
  · rfl

theorem leavesAligned_memExpandPte (hclosed : m.Closed t) (haligned : m.LeavesAligned t)
    (hlvl : lvl + 1 < m.dscr.lvls) (hpath : m.Path t lvl va)
    (htable : m.fmt.pteTable (m.isLast lvl) (m.pteAt t lvl va) = false) :
    m.LeavesAligned (m.memExpandPte t lvl va) := by
  intro b e hleaf
  obtain ⟨hlook, hvalid⟩ := leafAt_eq_some_iff.mp hleaf
  rw [look_memExpandPte hclosed hlvl hpath htable] at hlook
  split_ifs at hlook with h
  · rw [← hlook, pteValid_expandedPte] at hvalid
    have hbefore := look_of_expandable hclosed hlvl hpath htable h
    have hdvd := haligned b _ (leafAt_eq_some_iff.mpr ⟨hbefore, hvalid⟩)
    have hindex : m.dscr.ptGetpteindexByVa b (lvl + 1) < m.dscr.ptNentries (lvl + 1) := by
      rw [PtDscr.ptNentries_eq hlvl, PtDscr.ptGetpteindexByVa_eq hlvl]
      exact Radix.Shape.index_lt hlvl b
    rw [← hlook, toNat_pteAddr_expandedPte hlvl hvalid hdvd hindex]
    exact Nat.dvd_add ((m.dscr.shape.size_dvd lvl hlvl).trans hdvd) (Nat.dvd_mul_left _ _)
  · exact haligned b e (leafAt_eq_some_iff.mpr ⟨hlook, hvalid⟩)

end Mmu

end BaoHypervisor
