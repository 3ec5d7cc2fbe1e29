import BaoHypervisor.Core.Mem.PageTable

/-!
# Writing entries

What a walk finds after an entry was written (`look_setPte`) and after an invalid entry was
replaced by a table (`look_memAllocPt`). A new table changes no translation and no
reservation, since its entries keep the software bits of the one it replaces.
-/

namespace BaoHypervisor

namespace Mmu

variable {m : Mmu} {t t' : PtEntries} {lvl i va a b : ℕ} {pte : Pte}

theorem pos_eq_of_le (hlvl : lvl < m.dscr.lvls) (hi : i ≤ lvl)
    (h : m.dscr.pos lvl a = m.dscr.pos lvl b) : m.dscr.pos i a = m.dscr.pos i b :=
  Radix.Shape.pos_eq_of_le hlvl hi h

theorem isLast_eq_true (hlvl : lvl + 1 = m.dscr.lvls) : m.isLast lvl = true := by
  rw [isLast, beq_iff_eq, hlvl]

theorem isLast_eq_false (hlvl : lvl + 1 < m.dscr.lvls) : m.isLast lvl = false := by
  rw [isLast, beq_eq_false_iff_ne]
  exact hlvl.ne

theorem pteTable_of_not_valid (h : m.fmt.pteValid pte = false) (last : Bool) :
    m.fmt.pteTable last pte = false := by
  rw [← Bool.not_eq_true]
  intro htable
  rw [m.fmt.pteValid_of_pteTable last pte htable] at h
  cases h

theorem stops_of_not_table (hlvl : lvl < m.dscr.lvls) (hpath : m.Path t lvl va)
    (h : m.fmt.pteTable (m.isLast lvl) (m.pteAt t lvl va) = false) : m.Stops t lvl va :=
  ⟨hlvl, hpath, h⟩

theorem stops_of_not_valid (hlvl : lvl < m.dscr.lvls) (hpath : m.Path t lvl va)
    (h : m.fmt.pteValid (m.pteAt t lvl va) = false) : m.Stops t lvl va :=
  stops_of_not_table hlvl hpath (pteTable_of_not_valid h _)

/-! ## What a walk finds -/

theorem look_of_stops (hclosed : m.Closed t) (h : m.Stops t lvl va) :
    m.look t va = (lvl, m.pteAt t lvl va) := by
  rw [look, h.stop_eq hclosed]

theorem stops_look (hclosed : m.Closed t) (va : ℕ) : m.Stops t (m.look t va).1 va :=
  Radix.stops_stop hclosed va

theorem look_fst_lt (hclosed : m.Closed t) (va : ℕ) : (m.look t va).1 < m.dscr.lvls :=
  (stops_look hclosed va).lt_depth

theorem look_snd (va : ℕ) : (m.look t va).2 = m.pteAt t (m.look t va).1 va := rfl

theorem not_table_look (hclosed : m.Closed t) (va : ℕ) :
    m.fmt.pteTable (m.isLast (m.look t va).1) (m.look t va).2 = false :=
  (stops_look hclosed va).not_table

theorem path_iff_le_look (hclosed : m.Closed t) : m.Path t lvl va ↔ lvl ≤ (m.look t va).1 :=
  ⟨(stops_look hclosed va).le_of_path, (stops_look hclosed va).path.mono⟩

theorem look_of_pos_eq (hclosed : m.Closed t)
    (h : m.dscr.pos (m.look t a).1 b = m.dscr.pos (m.look t a).1 a) : m.look t b = m.look t a := by
  have hstops := stops_look hclosed a
  have heq : ∀ j ≤ (m.look t a).1, m.dscr.pos j b = m.dscr.pos j a := fun j hj =>
    pos_eq_of_le hstops.lt_depth hj h
  have hstops' : m.Stops t (m.look t a).1 b :=
    hstops.congr fun j hj => congrArg (m.tab t j) (heq j hj)
  rw [look_of_stops hclosed hstops']
  refine Prod.ext rfl ?_
  change t (m.look t a).1 (m.dscr.pos (m.look t a).1 b) = t _ _
  rw [h]
  rfl

theorem leafAt_congr (h : m.look t' a = m.look t b) : m.leafAt t' a = m.leafAt t b := by
  rw [leafAt, leafAt, h]

theorem isReserved_congr (h : m.look t' a = m.look t b) :
    m.isReserved t' a = m.isReserved t b := by
  rw [isReserved, isReserved, h]

/-! ## Changes below an entry -/

theorem agreeOff_tab (h : Radix.AgreeOff m.dscr.shape t t' lvl va) :
    Radix.AgreeOff m.dscr.shape (m.tab t) (m.tab t') lvl va :=
  h.map fun l => m.fmt.pteTable (m.isLast l)

theorem path_iff_of_agreeOff (h : Radix.AgreeOff m.dscr.shape t t' lvl va)
    (hlvl : lvl < m.dscr.lvls) (hi : i ≤ lvl) (b : ℕ) : m.Path t' i b ↔ m.Path t i b :=
  (agreeOff_tab h).path_iff hlvl hi b

theorem look_of_agreeOff (hclosed : m.Closed t) (hclosed' : m.Closed t')
    (h : Radix.AgreeOff m.dscr.shape t t' lvl va) (hne : m.dscr.pos lvl b ≠ m.dscr.pos lvl va) :
    m.look t' b = m.look t b := by
  have hstops := stops_look hclosed b
  rw [look_of_stops hclosed' ((agreeOff_tab h).stops_of_ne hne hstops)]
  refine Prod.ext rfl ?_
  exact h _ hstops.lt_depth b (.inr hne)

theorem path_congr_pos (hlvl : lvl < m.dscr.lvls) (hpos : m.dscr.pos lvl a = m.dscr.pos lvl b)
    (hi : i ≤ lvl + 1) (hpath : m.Path t i b) : m.Path t i a :=
  hpath.congr fun _ hj =>
    congrArg (m.tab t _) (pos_eq_of_le hlvl (Nat.le_of_lt_succ (hj.trans_le hi)) hpos)

theorem pteAt_congr_pos (hpos : m.dscr.pos lvl a = m.dscr.pos lvl b) :
    m.pteAt t lvl a = m.pteAt t lvl b := by
  rw [pteAt, pteAt, hpos]

theorem leafAt_eq_some_iff {e : ℕ × Pte} :
    m.leafAt t va = some e ↔ m.look t va = e ∧ m.fmt.pteValid e.2 = true := by
  rw [leafAt]
  split_ifs with h
  · constructor
    · intro heq
      rw [← Option.some.inj heq]
      exact ⟨rfl, h⟩
    · rintro ⟨rfl, -⟩
      rfl
  · constructor
    · intro heq
      cases heq
    · rintro ⟨rfl, hvalid⟩
      exact absurd hvalid h

theorem isSome_leafAt : (m.leafAt t va).isSome = m.fmt.pteValid (m.look t va).2 := by
  rw [leafAt]
  split_ifs with h
  · rw [h, Option.isSome_some]
  · rw [Bool.eq_false_iff.mpr h, Option.isSome_none]

/-! ## Empty tables -/

theorem leafAt_emptyTables (m : Mmu) (va : ℕ) : m.leafAt emptyTables va = none := by
  rw [leafAt, look, pteAt, emptyTables, if_neg]
  rw [m.fmt.pteValid_zero]
  exact Bool.false_ne_true

theorem isReserved_emptyTables (m : Mmu) (va : ℕ) : m.isReserved emptyTables va = false := by
  rw [isReserved, look, pteAt, emptyTables, m.fmt.pteReserved_zero, Bool.and_false]

theorem wellFormed_emptyTables (m : Mmu) : m.WellFormed emptyTables := by
  have htable : ∀ lvl k, m.tab emptyTables lvl k = false := fun lvl k =>
    pteTable_of_not_valid m.fmt.pteValid_zero _
  have hvalid : ∀ lvl va, m.fmt.pteValid (m.pteAt emptyTables lvl va) = true → False := by
    intro lvl va h
    rw [pteAt, emptyTables, m.fmt.pteValid_zero] at h
    cases h
  exact ⟨fun _ _ => htable _ _, fun lvl _ va h =>
    absurd (h lvl (Nat.lt_succ_self lvl)) (by rw [htable]; exact Bool.false_ne_true),
    fun lvl va _ h => (hvalid lvl va h).elim, fun lvl va _ h => (hvalid lvl va h).elim,
    fun lvl va _ h => (hvalid lvl va h).elim⟩

/-! ## An entry is written -/

theorem agreeOff_setPte (t : PtEntries) (lvl va : ℕ) (pte : Pte) :
    Radix.AgreeOff m.dscr.shape t (m.setPte t lvl va pte) lvl va := by
  intro i hi b hb
  rw [setPte]
  by_cases hlvl : i = lvl
  · subst hlvl
    rw [Function.update_self, Function.update_of_ne (hb.resolve_left (lt_irrefl i))]
  · rw [Function.update_of_ne hlvl]

theorem pteAt_setPte (h : m.dscr.pos lvl b = m.dscr.pos lvl va) :
    m.pteAt (m.setPte t lvl va pte) lvl b = pte := by
  rw [pteAt, setPte, Function.update_self, h, Function.update_self]

theorem stops_setPte (hlvl : lvl < m.dscr.lvls) (hpath : m.Path t lvl va)
    (htable : m.fmt.pteTable (m.isLast lvl) pte = false)
    (h : m.dscr.pos lvl b = m.dscr.pos lvl va) : m.Stops (m.setPte t lvl va pte) lvl b := by
  refine stops_of_not_table hlvl ?_ (by rw [pteAt_setPte h, htable])
  rw [path_iff_of_agreeOff (agreeOff_setPte t lvl va pte) hlvl le_rfl]
  exact path_congr_pos hlvl h (Nat.le_succ lvl) hpath

theorem closed_setPte (hclosed : m.Closed t) (hlvl : lvl < m.dscr.lvls) (hpath : m.Path t lvl va)
    (htable : m.fmt.pteTable (m.isLast lvl) pte = false) : m.Closed (m.setPte t lvl va pte) :=
  (agreeOff_tab (agreeOff_setPte t lvl va pte)).closed hclosed fun _ h =>
    ⟨lvl, stops_setPte hlvl hpath htable h⟩

theorem look_setPte (hclosed : m.Closed t) (hlvl : lvl < m.dscr.lvls) (hpath : m.Path t lvl va)
    (htable : m.fmt.pteTable (m.isLast lvl) pte = false) (b : ℕ) :
    m.look (m.setPte t lvl va pte) b =
      if m.dscr.pos lvl b = m.dscr.pos lvl va then (lvl, pte) else m.look t b := by
  have hclosed' := closed_setPte hclosed hlvl hpath htable
  split_ifs with h
  · rw [look_of_stops hclosed' (stops_setPte hlvl hpath htable h), pteAt_setPte h]
  · exact look_of_agreeOff hclosed hclosed' (agreeOff_setPte t lvl va pte) h

/-! ## A table is put below an entry -/

theorem pos_div_ptNentries (hlvl : lvl + 1 < m.dscr.lvls) (b : ℕ) :
    m.dscr.pos (lvl + 1) b / m.dscr.ptNentries (lvl + 1) = m.dscr.pos lvl b := by
  rw [PtDscr.ptNentries_eq hlvl]
  exact (Radix.Shape.pos_of_le (g := m.dscr.shape) hlvl (Nat.le_succ lvl) b).symm

theorem agreeOff_memAllocPt (hlvl : lvl + 1 < m.dscr.lvls) (t : PtEntries) (va : ℕ) :
    Radix.AgreeOff m.dscr.shape t (m.memAllocPt t lvl va) lvl va := by
  intro i hi b hb
  rw [memAllocPt]
  split_ifs with hentry hchild
  · obtain ⟨rfl, hpos⟩ := hentry
    exact absurd hpos (hb.resolve_left (lt_irrefl i))
  · obtain ⟨rfl, hpos⟩ := hchild
    rw [pos_div_ptNentries hlvl] at hpos
    exact absurd hpos (hb.resolve_left (by omega))
  · rfl

theorem pteAt_memAllocPt (h : m.dscr.pos lvl b = m.dscr.pos lvl va) :
    m.pteAt (m.memAllocPt t lvl va) lvl b =
      m.fmt.pteSet (m.newTable lvl (m.dscr.pos lvl va)) .table m.fmt.hypFlags := by
  rw [pteAt, memAllocPt, if_pos ⟨rfl, h⟩, h]

theorem pteAt_memAllocPt_succ (hlvl : lvl + 1 < m.dscr.lvls)
    (h : m.dscr.pos lvl b = m.dscr.pos lvl va) :
    m.pteAt (m.memAllocPt t lvl va) (lvl + 1) b = m.pteAt t lvl va &&& m.fmt.rswMsk := by
  rw [pteAt, memAllocPt, if_neg (fun hentry => absurd hentry.1 (Nat.succ_ne_self lvl)),
    if_pos ⟨rfl, by rw [pos_div_ptNentries hlvl, h]⟩]

theorem path_memAllocPt (hlvl : lvl + 1 < m.dscr.lvls) (hpath : m.Path t lvl va)
    (h : m.dscr.pos lvl b = m.dscr.pos lvl va) : m.Path (m.memAllocPt t lvl va) (lvl + 1) b := by
  have hlvl' : lvl < m.dscr.lvls := by omega
  refine Radix.path_succ_iff.mpr ⟨?_, ?_⟩
  · refine (path_iff_of_agreeOff (agreeOff_memAllocPt hlvl t va) hlvl' le_rfl b).mpr ?_
    exact path_congr_pos hlvl' h (Nat.le_succ lvl) hpath
  · change m.fmt.pteTable (m.isLast lvl) (m.pteAt (m.memAllocPt t lvl va) lvl b) = true
    rw [pteAt_memAllocPt h, isLast_eq_false hlvl, m.fmt.pteTable_pteSet]

theorem stops_memAllocPt (hlvl : lvl + 1 < m.dscr.lvls) (hpath : m.Path t lvl va)
    (h : m.dscr.pos lvl b = m.dscr.pos lvl va) : m.Stops (m.memAllocPt t lvl va) (lvl + 1) b := by
  refine stops_of_not_valid hlvl (path_memAllocPt hlvl hpath h) ?_
  rw [pteAt_memAllocPt_succ hlvl h, m.fmt.pteValid_rsw]

theorem closed_memAllocPt (hclosed : m.Closed t) (hlvl : lvl + 1 < m.dscr.lvls)
    (hpath : m.Path t lvl va) : m.Closed (m.memAllocPt t lvl va) :=
  (agreeOff_tab (agreeOff_memAllocPt hlvl t va)).closed hclosed fun _ h =>
    ⟨lvl + 1, stops_memAllocPt hlvl hpath h⟩

theorem look_memAllocPt (hclosed : m.Closed t) (hlvl : lvl + 1 < m.dscr.lvls)
    (hpath : m.Path t lvl va) (b : ℕ) :
    m.look (m.memAllocPt t lvl va) b =
      if m.dscr.pos lvl b = m.dscr.pos lvl va then (lvl + 1, m.pteAt t lvl va &&& m.fmt.rswMsk)
      else m.look t b := by
  have hclosed' := closed_memAllocPt hclosed hlvl hpath
  split_ifs with h
  · rw [look_of_stops hclosed' (stops_memAllocPt hlvl hpath h), pteAt_memAllocPt_succ hlvl h]
  · exact look_of_agreeOff hclosed hclosed' (agreeOff_memAllocPt hlvl t va) h

theorem leafAt_memAllocPt (hclosed : m.Closed t) (hlvl : lvl + 1 < m.dscr.lvls)
    (hpath : m.Path t lvl va) (hvalid : m.fmt.pteValid (m.pteAt t lvl va) = false) (b : ℕ) :
    m.leafAt (m.memAllocPt t lvl va) b = m.leafAt t b := by
  by_cases h : m.dscr.pos lvl b = m.dscr.pos lvl va
  · have hlvl' : lvl < m.dscr.lvls := by omega
    have hstops : m.Stops t lvl b := stops_of_not_valid hlvl'
      (path_congr_pos hlvl' h (Nat.le_succ lvl) hpath) (by rw [pteAt_congr_pos h, hvalid])
    rw [leafAt, leafAt, look_memAllocPt hclosed hlvl hpath, if_pos h, look_of_stops hclosed hstops,
      if_neg (by rw [m.fmt.pteValid_rsw]; exact Bool.false_ne_true),
      if_neg (by rw [pteAt_congr_pos h, hvalid]; exact Bool.false_ne_true)]
  · refine leafAt_congr ?_
    rw [look_memAllocPt hclosed hlvl hpath, if_neg h]

theorem isReserved_memAllocPt (hclosed : m.Closed t) (hlvl : lvl + 1 < m.dscr.lvls)
    (hpath : m.Path t lvl va) (hvalid : m.fmt.pteValid (m.pteAt t lvl va) = false) (b : ℕ) :
    m.isReserved (m.memAllocPt t lvl va) b = m.isReserved t b := by
  by_cases h : m.dscr.pos lvl b = m.dscr.pos lvl va
  · have hlvl' : lvl < m.dscr.lvls := by omega
    have hstops : m.Stops t lvl b := stops_of_not_valid hlvl'
      (path_congr_pos hlvl' h (Nat.le_succ lvl) hpath) (by rw [pteAt_congr_pos h, hvalid])
    rw [isReserved, isReserved, look_memAllocPt hclosed hlvl hpath, if_pos h,
      look_of_stops hclosed hstops, m.fmt.pteValid_rsw, m.fmt.pteReserved_rsw, pteAt_congr_pos h,
      hvalid]
  · refine isReserved_congr ?_
    rw [look_memAllocPt hclosed hlvl hpath, if_neg h]

/-! ## Tables that are not marked -/

def Unmarked (m : Mmu) (t : PtEntries) : Prop :=
  ∀ lvl < m.dscr.lvls, ∀ va, m.Path t (lvl + 1) va → m.fmt.pteReserved (m.pteAt t lvl va) = false

theorem Unmarked.setPte (h : m.Unmarked t) (htable : m.fmt.pteTable (m.isLast lvl) pte = false) :
    m.Unmarked (m.setPte t lvl va pte) := by
  intro i hi b hpath
  have hne : i < lvl ∨ m.dscr.pos lvl b ≠ m.dscr.pos lvl va := by
    by_contra hor
    rw [not_or, not_lt, not_not] at hor
    have htab := hpath lvl (Nat.lt_succ_of_le hor.1)
    change m.fmt.pteTable (m.isLast lvl) (m.pteAt (m.setPte t lvl va pte) lvl b) = true at htab
    rw [pteAt_setPte hor.2, htable] at htab
    cases htab
  have hsame : ∀ j ≤ i, m.pteAt (m.setPte t lvl va pte) j b = m.pteAt t j b := fun j hj =>
    agreeOff_setPte t lvl va pte j (hj.trans_lt hi) b (hne.imp_left hj.trans_lt)
  rw [hsame i le_rfl]
  refine h i hi b (hpath.congr fun j hj => ?_)
  exact congrArg (m.fmt.pteTable (m.isLast j)) (hsame j (Nat.le_of_lt_succ hj)).symm

/-- The new table is not marked, and no walk goes through its entries. -/
theorem Unmarked.memAllocPt (h : m.Unmarked t) (hlvl : lvl + 1 < m.dscr.lvls) :
    m.Unmarked (m.memAllocPt t lvl va) := by
  intro i hi b hpath
  by_cases hne : i < lvl ∨ m.dscr.pos lvl b ≠ m.dscr.pos lvl va
  · have hsame : ∀ j ≤ i, m.pteAt (m.memAllocPt t lvl va) j b = m.pteAt t j b := fun j hj =>
      agreeOff_memAllocPt hlvl t va j (hj.trans_lt hi) b (hne.imp_left hj.trans_lt)
    rw [hsame i le_rfl]
    refine h i hi b (hpath.congr fun j hj => ?_)
    exact congrArg (m.fmt.pteTable (m.isLast j)) (hsame j (Nat.le_of_lt_succ hj)).symm
  · rw [not_or, not_lt, not_not] at hne
    rcases hne.1.eq_or_lt with heq | hlt
    · rw [← heq, pteAt_memAllocPt hne.2]
      exact m.fmt.pteReserved_pteSet _ _ _ m.fmt.hypFlags_ok
    · have htab := hpath (lvl + 1) (Nat.succ_lt_succ hlt)
      change m.fmt.pteTable (m.isLast (lvl + 1))
        (m.pteAt (m.memAllocPt t lvl va) (lvl + 1) b) = true at htab
      rw [pteAt_memAllocPt_succ hlvl hne.2, pteTable_of_not_valid (m.fmt.pteValid_rsw _)] at htab
      cases htab

end Mmu

end BaoHypervisor
