import BaoHypervisor.Core.Mem.PageTable.AllocComplete
import BaoHypervisor.Core.Mem.PageTable.Phys
import BaoHypervisor.Theory.Run

/-!
# Writing page tables in physical memory

An entry is written where it lies, and a new table is a page whose words are filled in. As long as
the pages for tables are fresh, no two entries share a word, and what walks find in memory is what
they find in the entries by levels and positions on which the same is done (`run_refines`).
-/

namespace BaoHypervisor

namespace Mmu

variable (m : Mmu) (mem : PtMem) (root : ℕ)

def Alike (t t' : PtEntries) : Prop :=
  ∀ lvl < m.dscr.lvls, ∀ va, m.Path t lvl va → m.pteAt t' lvl va = m.pteAt t lvl va

abbrev addrAt (lvl va : ℕ) : ℕ := m.entryAddr mem root lvl (m.dscr.pos lvl va)

/-- No two entries that walks come to share a word. -/
def Unshared : Prop :=
  ∀ lvl < m.dscr.lvls, ∀ lvl' < m.dscr.lvls, ∀ va va', m.Path (m.memTables mem root) lvl va →
    m.Path (m.memTables mem root) lvl' va' →
      m.addrAt mem root lvl va = m.addrAt mem root lvl' va' →
        lvl = lvl' ∧ m.dscr.pos lvl va = m.dscr.pos lvl' va'

/-- The words of a new table below an entry are not those of entries. -/
def Fresh (lvl va : ℕ) : Prop :=
  ∀ l < m.dscr.lvls, ∀ a, m.Path (m.memTables mem root) l a →
    ∀ i < m.dscr.ptNentries (lvl + 1),
      m.addrAt mem root l a ≠ (m.newTable lvl (m.dscr.pos lvl va)).toNat + 8 * i

def memSetPte (lvl va : ℕ) (pte : Pte) : PtMem :=
  Function.update mem (m.addrAt mem root lvl va) pte

/-- The loop of `mem_alloc_pt` over the words of the new table. -/
def fillTable (mem : PtMem) (table n : ℕ) (pte : Pte) : PtMem :=
  (List.range n).foldl (fun mem i => Function.update mem (table + 8 * i) pte) mem

/-- `mem_alloc_pt`, on memory. -/
def memAllocPtAt (lvl va : ℕ) : PtMem :=
  let page := m.newTable lvl (m.dscr.pos lvl va)
  let dflt := mem (m.addrAt mem root lvl va) &&& m.fmt.rswMsk
  fillTable (m.memSetPte mem root lvl va (m.fmt.pteSet page .table m.fmt.hypFlags)) page.toNat
    (m.dscr.ptNentries (lvl + 1)) dflt

variable {m mem root} {mem' : PtMem} {t t' : PtEntries} {lvl l va a : ℕ} {pte : Pte}

theorem fillTable_apply (mem : PtMem) (table n : ℕ) (pte : Pte) (x : ℕ) :
    fillTable mem table n pte x = if ∃ i < n, x = table + 8 * i then pte else mem x := by
  induction n with
  | zero => simp [fillTable]
  | succ n ih =>
      have hsucc : fillTable mem table (n + 1) pte =
          Function.update (fillTable mem table n pte) (table + 8 * n) pte := by
        rw [fillTable, List.range_succ, List.foldl_concat]
        rfl
      rw [hsucc]
      by_cases hx : x = table + 8 * n
      · rw [hx, Function.update_self, if_pos ⟨n, Nat.lt_succ_self n, rfl⟩]
      · rw [Function.update_of_ne hx, ih]
        refine if_congr ⟨fun ⟨i, hi, h⟩ => ⟨i, Nat.lt_succ_of_lt hi, h⟩, ?_⟩ rfl rfl
        rintro ⟨i, hi, rfl⟩
        refine ⟨i, Nat.lt_of_le_of_ne (Nat.le_of_lt_succ hi) fun heq => hx (by rw [heq]), rfl⟩

/-! ## Entries that walks come to -/

theorem Alike.refl (m : Mmu) (t : PtEntries) : m.Alike t t := fun _ _ _ _ => rfl

theorem Alike.path (h : m.Alike t t') (hl : l ≤ m.dscr.lvls) (hpath : m.Path t l a) :
    m.Path t' l a := by
  intro i hi
  have hpte := h i (hi.trans_le hl) a (hpath.mono hi.le)
  have htable := hpath i hi
  rw [tab] at htable ⊢
  rwa [show t' i (m.dscr.shape.pos i a) = t i (m.dscr.shape.pos i a) from hpte]

theorem Alike.path_iff (h : m.Alike t t') (hl : l ≤ m.dscr.lvls) :
    m.Path t' l a ↔ m.Path t l a := by
  refine ⟨fun hpath => ?_, h.path hl⟩
  induction l with
  | zero => exact Radix.path_zero a
  | succ l ih =>
      obtain ⟨habove, htable⟩ := Radix.path_succ_iff.mp hpath
      have hpath' := ih (by omega) habove
      refine Radix.path_succ_iff.mpr ⟨hpath', ?_⟩
      rw [tab] at htable ⊢
      rwa [← show t' l (m.dscr.shape.pos l a) = t l (m.dscr.shape.pos l a) from
        h l (by omega) a hpath']

theorem Alike.symm (h : m.Alike t t') : m.Alike t' t := fun l hl a hpath =>
  (h l hl a ((h.path_iff hl.le).mp hpath)).symm

theorem Alike.trans {t'' : PtEntries} (h : m.Alike t t') (h' : m.Alike t' t'') : m.Alike t t'' :=
  fun l hl a hpath => (h' l hl a (h.path hl.le hpath)).trans (h l hl a hpath)

/-- Walks find the same. -/
theorem Alike.look (h : m.Alike t t') (hclosed : m.Closed t) (hclosed' : m.Closed t') (va : ℕ) :
    m.look t' va = m.look t va := by
  have hstops := stops_look hclosed va
  have hpte := h _ hstops.lt_depth va hstops.path
  have hstops' : m.Stops t' (m.look t va).1 va :=
    stops_of_not_table hstops.lt_depth (h.path hstops.lt_depth.le hstops.path)
      (by rw [hpte]; exact hstops.not_table)
  rw [look_of_stops hclosed' hstops', hpte]
  rfl

theorem addrAt_congr (hl : l < m.dscr.lvls)
    (h : ∀ i < l, mem' (m.addrAt mem root i a) = mem (m.addrAt mem root i a)) :
    m.addrAt mem' root l a = m.addrAt mem root l a := by
  induction l with
  | zero => rfl
  | succ l ih =>
      have habove := ih (by omega) fun i hi => h i (by omega)
      rw [addrAt, addrAt, entryAddr_pos hl, entryAddr_pos hl, tableAddr, tableAddr, pteAt, pteAt,
        memTables, memTables]
      rw [addrAt] at habove
      rw [habove, h l (Nat.lt_succ_self l)]

theorem path_of_agreeOff (h : Radix.AgreeOff m.dscr.shape t t' lvl va) (hlvl : lvl < m.dscr.lvls)
    (hl : l < m.dscr.lvls) (hoff : l ≤ lvl ∨ m.dscr.pos lvl a ≠ m.dscr.pos lvl va)
    (hpath : m.Path t' l a) : m.Path t l a := by
  rcases hoff with hle | hne
  · exact (path_iff_of_agreeOff h hlvl hle a).mp hpath
  · refine Radix.Path.congr hpath fun i hi => ?_
    rw [tab, tab, h i (hi.trans hl) a (.inr hne)]

/-! ## An entry is written -/

theorem pteAt_setPte_of_ne (hne : ¬(l = lvl ∧ m.dscr.pos lvl a = m.dscr.pos lvl va)) :
    m.pteAt (m.setPte t lvl va pte) l a = m.pteAt t l a := by
  rw [pteAt, pteAt, setPte]
  by_cases hl : l = lvl
  · subst hl
    rw [Function.update_self, Function.update_of_ne fun hpos => hne ⟨rfl, hpos⟩]
  · rw [Function.update_of_ne hl]

theorem off_of_path_setPte (htable : m.fmt.pteTable (m.isLast lvl) pte = false)
    (hpath : m.Path (m.setPte t lvl va pte) l a) :
    l ≤ lvl ∨ m.dscr.pos lvl a ≠ m.dscr.pos lvl va := by
  by_contra hnot
  obtain ⟨hlt, hpos⟩ := not_or.mp hnot
  have hentry : m.fmt.pteTable (m.isLast lvl) (m.pteAt (m.setPte t lvl va pte) lvl a) = true :=
    hpath lvl (Nat.lt_of_not_le hlt)
  rw [pteAt_setPte (not_not.mp hpos), htable] at hentry
  cases hentry

section SetPte

variable (hun : m.Unshared mem root) (hlvl : lvl < m.dscr.lvls)
  (hva : m.Path (m.memTables mem root) lvl va)
  (htable : m.fmt.pteTable (m.isLast lvl) pte = false)
include hun hlvl hva htable

theorem addrAt_memSetPte (hl : l < m.dscr.lvls)
    (hpath : m.Path (m.setPte (m.memTables mem root) lvl va pte) l a) :
    m.Path (m.memTables mem root) l a ∧
      m.addrAt (m.memSetPte mem root lvl va pte) root l a = m.addrAt mem root l a := by
  have hoff := off_of_path_setPte htable hpath
  have hold := path_of_agreeOff (agreeOff_setPte _ lvl va pte) hlvl hl hoff hpath
  refine ⟨hold, addrAt_congr hl fun i hi => ?_⟩
  rw [memSetPte, Function.update_of_ne]
  intro heq
  obtain ⟨rfl, hpos⟩ := hun i (hi.trans hl) lvl hlvl a va (hold.mono hi.le) hva heq
  rcases hoff with hle | hne
  · exact absurd hi (Nat.not_lt_of_le hle)
  · exact hne hpos

theorem alike_memSetPte :
    m.Alike (m.setPte (m.memTables mem root) lvl va pte)
      (m.memTables (m.memSetPte mem root lvl va pte) root) := by
  intro l hl a hpath
  obtain ⟨hold, haddr⟩ := addrAt_memSetPte hun hlvl hva htable hl hpath
  change m.memSetPte mem root lvl va pte (m.addrAt (m.memSetPte mem root lvl va pte) root l a) = _
  rw [haddr]
  by_cases hentry : l = lvl ∧ m.dscr.pos lvl a = m.dscr.pos lvl va
  · obtain ⟨rfl, hpos⟩ := hentry
    rw [pteAt_setPte hpos, memSetPte, addrAt, addrAt, hpos, Function.update_self]
  · have hne : m.addrAt mem root l a ≠ m.addrAt mem root lvl va := by
      intro heq
      obtain ⟨rfl, hpos⟩ := hun l hl lvl hlvl a va hold hva heq
      exact hentry ⟨rfl, hpos⟩
    rw [memSetPte, Function.update_of_ne hne, pteAt_setPte_of_ne hentry]
    rfl

theorem unshared_memSetPte : m.Unshared (m.memSetPte mem root lvl va pte) root := by
  have halike := alike_memSetPte hun hlvl hva htable
  intro l hl l' hl' a a' hpath hpath' heq
  obtain ⟨hold, haddr⟩ := addrAt_memSetPte hun hlvl hva htable hl ((halike.path_iff hl.le).mp hpath)
  obtain ⟨hold', haddr'⟩ := addrAt_memSetPte hun hlvl hva htable hl'
    ((halike.path_iff hl'.le).mp hpath')
  rw [haddr, haddr'] at heq
  exact hun l hl l' hl' a a' hold hold' heq

end SetPte

/-! ## A table is put below an entry -/

theorem off_or_under_of_path_memAllocPt (hlvl : lvl + 1 < m.dscr.lvls)
    (hpath : m.Path (m.memAllocPt t lvl va) l a) :
    (l ≤ lvl ∨ m.dscr.pos lvl a ≠ m.dscr.pos lvl va) ∨
      l = lvl + 1 ∧ m.dscr.pos lvl a = m.dscr.pos lvl va := by
  by_cases hpos : m.dscr.pos lvl a = m.dscr.pos lvl va
  · rcases Nat.lt_or_ge (lvl + 1) l with hlt | hge
    · have hentry : m.fmt.pteTable (m.isLast (lvl + 1))
          (m.pteAt (m.memAllocPt t lvl va) (lvl + 1) a) = true := hpath (lvl + 1) hlt
      rw [pteAt_memAllocPt_succ hlvl hpos, pteTable_of_not_valid (m.fmt.pteValid_rsw _)] at hentry
      cases hentry
    · rcases Nat.lt_or_ge lvl l with hlt | hle
      · exact .inr ⟨Nat.le_antisymm hge hlt, hpos⟩
      · exact .inl (.inl hle)
  · exact .inl (.inr hpos)

theorem pteAt_memAllocPt_of_ne (hlvl : lvl + 1 < m.dscr.lvls)
    (hne : ¬(l = lvl ∧ m.dscr.pos lvl a = m.dscr.pos lvl va))
    (hoff : l ≤ lvl ∨ m.dscr.pos lvl a ≠ m.dscr.pos lvl va) (hl : l < m.dscr.lvls) :
    m.pteAt (m.memAllocPt t lvl va) l a = m.pteAt t l a := by
  apply agreeOff_memAllocPt hlvl t va l hl a
  by_cases heq : l = lvl
  · exact .inr fun hpos => hne ⟨heq, hpos⟩
  · exact hoff.imp_left fun hle => Nat.lt_of_le_of_ne hle heq

section AllocPt

variable (hun : m.Unshared mem root) (hlvl : lvl + 1 < m.dscr.lvls)
  (hva : m.Path (m.memTables mem root) lvl va) (hfresh : m.Fresh mem root lvl va)
  (hpage : (m.newTable lvl (m.dscr.pos lvl va)).toNat % 2 ^ m.fmt.addrWidth / pageSize * pageSize =
    (m.newTable lvl (m.dscr.pos lvl va)).toNat)
include hun hlvl hva hfresh

theorem memAllocPtAt_of_ne (hl : l < m.dscr.lvls) (hold : m.Path (m.memTables mem root) l a)
    (hne : ¬(l = lvl ∧ m.dscr.pos lvl a = m.dscr.pos lvl va)) :
    m.memAllocPtAt mem root lvl va (m.addrAt mem root l a) = mem (m.addrAt mem root l a) := by
  have hwords : ¬∃ i < m.dscr.ptNentries (lvl + 1), m.addrAt mem root l a =
      (m.newTable lvl (m.dscr.pos lvl va)).toNat + 8 * i :=
    fun ⟨i, hi, heq⟩ => hfresh l hl a hold i hi heq
  rw [memAllocPtAt, fillTable_apply, if_neg hwords, memSetPte, Function.update_of_ne]
  intro heq
  obtain ⟨rfl, hpos⟩ := hun l hl lvl (Nat.lt_of_succ_lt hlvl) a va hold hva heq
  exact hne ⟨rfl, hpos⟩

theorem addrAt_memAllocPtAt (hl : l < m.dscr.lvls)
    (hoff : l ≤ lvl ∨ m.dscr.pos lvl a ≠ m.dscr.pos lvl va)
    (hold : m.Path (m.memTables mem root) l a) :
    m.addrAt (m.memAllocPtAt mem root lvl va) root l a = m.addrAt mem root l a := by
  refine addrAt_congr hl fun i hi => ?_
  refine memAllocPtAt_of_ne hun hlvl hva hfresh (hi.trans hl) (hold.mono hi.le) ?_
  rintro ⟨rfl, hpos⟩
  rcases hoff with hle | hne
  · exact absurd hi (Nat.not_lt_of_le hle)
  · exact hne hpos

theorem memAllocPtAt_self (hpos : m.dscr.pos lvl a = m.dscr.pos lvl va) :
    m.pteAt (m.memTables (m.memAllocPtAt mem root lvl va) root) lvl a =
      m.fmt.pteSet (m.newTable lvl (m.dscr.pos lvl va)) .table m.fmt.hypFlags := by
  have hlvl' := Nat.lt_of_succ_lt hlvl
  have hold := path_congr_pos hlvl' hpos (Nat.le_succ lvl) hva
  have haddr : m.addrAt (m.memAllocPtAt mem root lvl va) root lvl a = m.addrAt mem root lvl va := by
    rw [addrAt_memAllocPtAt hun hlvl hva hfresh hlvl' (.inl le_rfl) hold, addrAt, hpos]
  have hwords : ¬∃ i < m.dscr.ptNentries (lvl + 1), m.addrAt mem root lvl va =
      (m.newTable lvl (m.dscr.pos lvl va)).toNat + 8 * i :=
    fun ⟨i, hi, heq⟩ => hfresh lvl hlvl' va hva i hi heq
  change m.memAllocPtAt mem root lvl va (m.addrAt (m.memAllocPtAt mem root lvl va) root lvl a) = _
  rw [haddr, memAllocPtAt, fillTable_apply, if_neg hwords, memSetPte, Function.update_self]

include hpage

theorem addrAt_memAllocPtAt_succ (hpos : m.dscr.pos lvl a = m.dscr.pos lvl va) :
    m.addrAt (m.memAllocPtAt mem root lvl va) root (lvl + 1) a =
      (m.newTable lvl (m.dscr.pos lvl va)).toNat +
        8 * m.dscr.ptGetpteindexByVa a (lvl + 1) := by
  rw [addrAt, entryAddr_pos hlvl, tableAddr, memAllocPtAt_self hun hlvl hva hfresh hpos,
    m.fmt.toNat_pteAddr_pteSet, hpage]

theorem alike_memAllocPtAt :
    m.Alike (m.memAllocPt (m.memTables mem root) lvl va)
      (m.memTables (m.memAllocPtAt mem root lvl va) root) := by
  intro l hl a hpath
  by_cases hentry : l = lvl ∧ m.dscr.pos lvl a = m.dscr.pos lvl va
  · obtain ⟨rfl, hpos⟩ := hentry
    rw [memAllocPtAt_self hun hlvl hva hfresh hpos, pteAt_memAllocPt hpos]
  · change m.memAllocPtAt mem root lvl va (m.addrAt (m.memAllocPtAt mem root lvl va) root l a) = _
    rcases off_or_under_of_path_memAllocPt hlvl hpath with hoff | ⟨rfl, hpos⟩
    · have hold := path_of_agreeOff (agreeOff_memAllocPt hlvl _ va) (Nat.lt_of_succ_lt hlvl) hl
        hoff hpath
      rw [addrAt_memAllocPtAt hun hlvl hva hfresh hl hoff hold,
        memAllocPtAt_of_ne hun hlvl hva hfresh hl hold hentry]
      exact (pteAt_memAllocPt_of_ne (t := m.memTables mem root) hlvl hentry hoff hl).symm
    · have hindex : m.dscr.ptGetpteindexByVa a (lvl + 1) < m.dscr.ptNentries (lvl + 1) :=
        PtDscr.ptGetpteindexByVa_eq hlvl a ▸ PtDscr.ptNentries_eq hlvl ▸
          Radix.Shape.index_lt hlvl a
      rw [addrAt_memAllocPtAt_succ hun hlvl hva hfresh hpage hpos, pteAt_memAllocPt_succ hlvl hpos,
        memAllocPtAt, fillTable_apply, if_pos ⟨_, hindex, rfl⟩]
      rfl

theorem unshared_memAllocPtAt : m.Unshared (m.memAllocPtAt mem root lvl va) root := by
  have halike := alike_memAllocPtAt hun hlvl hva hfresh hpage
  have hlvl' := Nat.lt_of_succ_lt hlvl
  -- An entry of the new tables lies where it did, or in the new page.
  have hplace : ∀ l < m.dscr.lvls, ∀ a,
      m.Path (m.memTables (m.memAllocPtAt mem root lvl va) root) l a →
        (m.Path (m.memTables mem root) l a ∧
          m.addrAt (m.memAllocPtAt mem root lvl va) root l a = m.addrAt mem root l a) ∨
        l = lvl + 1 ∧ m.dscr.pos lvl a = m.dscr.pos lvl va := by
    intro l hl a hpath
    have hnew := (halike.path_iff hl.le).mp hpath
    refine (off_or_under_of_path_memAllocPt hlvl hnew).imp_left fun hoff => ?_
    have hold := path_of_agreeOff (agreeOff_memAllocPt hlvl _ va) hlvl' hl hoff hnew
    exact ⟨hold, addrAt_memAllocPtAt hun hlvl hva hfresh hl hoff hold⟩
  have hindex : ∀ a, m.dscr.ptGetpteindexByVa a (lvl + 1) < m.dscr.ptNentries (lvl + 1) := fun a =>
    PtDscr.ptGetpteindexByVa_eq hlvl a ▸ PtDscr.ptNentries_eq hlvl ▸ Radix.Shape.index_lt hlvl a
  intro l hl l' hl' a a' hpath hpath' heq
  rcases hplace l hl a hpath with ⟨hold, haddr⟩ | ⟨rfl, hpos⟩
  · rcases hplace l' hl' a' hpath' with ⟨hold', haddr'⟩ | ⟨rfl, hpos'⟩
    · rw [haddr, haddr'] at heq
      exact hun l hl l' hl' a a' hold hold' heq
    · rw [haddr, addrAt_memAllocPtAt_succ hun hlvl hva hfresh hpage hpos'] at heq
      exact absurd heq (hfresh l hl a hold _ (hindex a'))
  · rw [addrAt_memAllocPtAt_succ hun hlvl hva hfresh hpage hpos] at heq
    rcases hplace l' hl' a' hpath' with ⟨hold', haddr'⟩ | ⟨rfl, hpos'⟩
    · rw [haddr'] at heq
      exact absurd heq.symm (hfresh l' hl' a' hold' _ (hindex a))
    · rw [addrAt_memAllocPtAt_succ hun hlvl hva hfresh hpage hpos'] at heq
      refine ⟨rfl, ?_⟩
      have hsame : m.dscr.ptGetpteindexByVa a (lvl + 1) =
          m.dscr.ptGetpteindexByVa a' (lvl + 1) := by omega
      rw [PtDscr.pos_succ hlvl, PtDscr.pos_succ hlvl, hpos, hpos', hsame]

end AllocPt

/-! ## Runs -/

section Runs

/-- The writes of the functions of `mem.c`: of one entry, and of `mem_alloc_pt`. -/
inductive PtWrite
  | set (lvl va : ℕ) (pte : Pte)
  | allocPt (lvl va : ℕ)

variable (m root)

def applyWrite (t : PtEntries) : PtWrite → PtEntries
  | .set lvl va pte => m.setPte t lvl va pte
  | .allocPt lvl va => m.memAllocPt t lvl va

def applyWriteAt (mem : PtMem) : PtWrite → PtMem
  | .set lvl va pte => m.memSetPte mem root lvl va pte
  | .allocPt lvl va => m.memAllocPtAt mem root lvl va

/-- The walk comes to the entry, and tables are only made of pages that `mem_alloc_ppages` has,
which are not those of other tables. -/
def WriteOk (mem : PtMem) : PtWrite → Prop
  | .set lvl va pte => lvl < m.dscr.lvls ∧ m.Path (m.memTables mem root) lvl va ∧
      m.fmt.pteTable (m.isLast lvl) pte = false
  | .allocPt lvl va => lvl + 1 < m.dscr.lvls ∧ m.Path (m.memTables mem root) lvl va ∧
      m.Fresh mem root lvl va ∧
      (m.newTable lvl (m.dscr.pos lvl va)).toNat % 2 ^ m.fmt.addrWidth / pageSize * pageSize =
        (m.newTable lvl (m.dscr.pos lvl va)).toNat

variable {m root} {w : PtWrite}

theorem Alike.setPte (h : m.Alike t t') (hlvl : lvl < m.dscr.lvls)
    (htable : m.fmt.pteTable (m.isLast lvl) pte = false) :
    m.Alike (m.setPte t lvl va pte) (m.setPte t' lvl va pte) := by
  intro l hl a hpath
  by_cases hentry : l = lvl ∧ m.dscr.pos lvl a = m.dscr.pos lvl va
  · obtain ⟨rfl, hpos⟩ := hentry
    rw [pteAt_setPte hpos, pteAt_setPte hpos]
  · rw [pteAt_setPte_of_ne hentry, pteAt_setPte_of_ne hentry]
    exact h l hl a (path_of_agreeOff (agreeOff_setPte t lvl va pte) hlvl hl
      (off_of_path_setPte htable hpath) hpath)

theorem Alike.memAllocPt (h : m.Alike t t') (hlvl : lvl + 1 < m.dscr.lvls)
    (hva : m.Path t lvl va) : m.Alike (m.memAllocPt t lvl va) (m.memAllocPt t' lvl va) := by
  have hlvl' := Nat.lt_of_succ_lt hlvl
  intro l hl a hpath
  by_cases hentry : l = lvl ∧ m.dscr.pos lvl a = m.dscr.pos lvl va
  · obtain ⟨rfl, hpos⟩ := hentry
    rw [pteAt_memAllocPt hpos, pteAt_memAllocPt hpos]
  · rcases off_or_under_of_path_memAllocPt hlvl hpath with hoff | ⟨rfl, hpos⟩
    · rw [pteAt_memAllocPt_of_ne hlvl hentry hoff hl, pteAt_memAllocPt_of_ne hlvl hentry hoff hl]
      exact h l hl a (path_of_agreeOff (agreeOff_memAllocPt hlvl _ va) hlvl' hl hoff hpath)
    · rw [pteAt_memAllocPt_succ hlvl hpos, pteAt_memAllocPt_succ hlvl hpos, h lvl hlvl' va hva]

theorem Alike.closed (h : m.Alike t t') (hclosed : m.Closed t) : m.Closed t' := by
  intro a hpath'
  have hlast : m.dscr.lvls - 1 < m.dscr.lvls := Nat.sub_lt m.dscr.lvls_pos Nat.one_pos
  have hpath : m.Path t (m.dscr.lvls - 1) a := (h.path_iff hlast.le).mp hpath'
  have hend := hclosed a hpath
  rw [tab] at hend ⊢
  rwa [show t' (m.dscr.shape.depth - 1) (m.dscr.shape.pos (m.dscr.shape.depth - 1) a) =
    t (m.dscr.shape.depth - 1) (m.dscr.shape.pos (m.dscr.shape.depth - 1) a) from
      h _ hlast a hpath]

/-- What a run keeps: the entries of memory are alike, they end, and they do not share words. -/
structure Refines (m : Mmu) (root : ℕ) (t : PtEntries) (mem : PtMem) : Prop where
  alike : m.Alike t (m.memTables mem root)
  closed : m.Closed t
  unshared : m.Unshared mem root

theorem Refines.applyWrite (h : m.Refines root t mem) (hok : m.WriteOk root mem w) :
    m.Refines root (m.applyWrite t w) (m.applyWriteAt root mem w) := by
  cases w with
  | set lvl va pte =>
      obtain ⟨hlvl, hva, htable⟩ := hok
      have hpath : m.Path t lvl va := (h.alike.path_iff hlvl.le).mp hva
      exact ⟨(h.alike.setPte hlvl htable).trans (alike_memSetPte h.unshared hlvl hva htable),
        closed_setPte h.closed hlvl hpath htable, unshared_memSetPte h.unshared hlvl hva htable⟩
  | allocPt lvl va =>
      obtain ⟨hlvl, hva, hfresh, hpage⟩ := hok
      have hpath : m.Path t lvl va := (h.alike.path_iff (Nat.lt_of_succ_lt hlvl).le).mp hva
      exact ⟨(h.alike.memAllocPt hlvl hpath).trans
          (alike_memAllocPtAt h.unshared hlvl hva hfresh hpage),
        closed_memAllocPt h.closed hlvl hpath,
        unshared_memAllocPtAt h.unshared hlvl hva hfresh hpage⟩

theorem Refines.memTranslate (h : m.Refines root t mem) (va : ℕ) :
    m.memTranslate (m.memTables mem root) va = m.memTranslate t va := by
  have hlook := h.alike.look h.closed (h.alike.closed h.closed) va
  rw [memTranslate_eq, memTranslate_eq, leafAt_congr hlook]

/-- Writes to tables that lie in memory do what they do to entries by levels and positions, as long
as each new table has words of its own: no entry comes to share a word with another one, and each
address is translated to the same. -/
theorem refines_exec {mem : PtMem} {ws : List PtWrite} (hun : m.Unshared mem root)
    (hclosed : m.Closed (m.memTables mem root))
    (hok : Run.Along (m.applyWriteAt root) (m.WriteOk root) mem ws) :
    m.Unshared (Run.exec (m.applyWriteAt root) mem ws) root ∧
      ∀ va, m.memTranslate (m.memTables (Run.exec (m.applyWriteAt root) mem ws) root) va =
        m.memTranslate (Run.exec m.applyWrite (m.memTables mem root) ws) va := by
  have hrefines : m.Refines root (Run.exec m.applyWrite (m.memTables mem root) ws)
      (Run.exec (m.applyWriteAt root) mem ws) :=
    hok.exec_refines ⟨Alike.refl m _, hclosed, hun⟩ fun _ _ _ h hw => h.applyWrite hw
  exact ⟨hrefines.unshared, hrefines.memTranslate⟩

end Runs

/-! ## A cleared root table -/

section Cleared

variable (hclear : ∀ k, m.fmt.pteValid (mem (root + 8 * k)) = false)
include hclear

theorem path_cleared (hpath : m.Path (m.memTables mem root) l a) : l = 0 := by
  by_contra hne
  have htable : m.fmt.pteTable (m.isLast 0) (mem (root + 8 * m.dscr.pos 0 a)) = true :=
    hpath 0 (Nat.pos_of_ne_zero hne)
  rw [pteTable_of_not_valid (hclear _)] at htable
  cases htable

theorem unshared_cleared : m.Unshared mem root := by
  intro l hl l' hl' a a' hpath hpath' heq
  obtain rfl := path_cleared hclear hpath
  obtain rfl := path_cleared hclear hpath'
  simp only [addrAt, entryAddr] at heq
  exact ⟨rfl, by omega⟩

theorem closed_cleared : m.Closed (m.memTables mem root) := by
  intro a hpath
  have hzero : m.dscr.lvls - 1 = 0 := path_cleared hclear hpath
  rw [show m.dscr.shape.depth - 1 = 0 from hzero, tab]
  exact pteTable_of_not_valid (hclear _) _

theorem fresh_cleared (hpage : root + 8 * m.dscr.shape.count 0 ≤
    (m.newTable lvl (m.dscr.pos lvl va)).toNat) : m.Fresh mem root lvl va := by
  intro l hl a hpath i hi heq
  obtain rfl := path_cleared hclear hpath
  have hpos : m.dscr.pos 0 a < m.dscr.shape.count 0 :=
    Nat.mod_lt _ (Radix.Shape.count_pos m.dscr.lvls_pos)
  simp only [addrAt, entryAddr] at heq
  omega

end Cleared

end Mmu

/-- A page is mapped in a table that is put below the first entry. -/
theorem refines_exec_superpage :
    fourPageMmu.Unshared (Run.exec (fourPageMmu.applyWriteAt 0x80000000) (fun _ => 0#64)
      [.allocPt 0 0, .set 1 0 (Riscv.pteSet 0x90000000#64 .superpage Riscv.pteHypFlags)])
        0x80000000 ∧
      ∀ va, fourPageMmu.memTranslate (fourPageMmu.memTables
        (Run.exec (fourPageMmu.applyWriteAt 0x80000000) (fun _ => 0#64)
          [.allocPt 0 0, .set 1 0 (Riscv.pteSet 0x90000000#64 .superpage Riscv.pteHypFlags)])
            0x80000000) va =
        fourPageMmu.memTranslate (Run.exec fourPageMmu.applyWrite
          (fourPageMmu.memTables (fun _ => 0#64) 0x80000000)
          [.allocPt 0 0, .set 1 0 (Riscv.pteSet 0x90000000#64 .superpage Riscv.pteHypFlags)])
            va := by
  have hclear : ∀ k, fourPageMmu.fmt.pteValid ((fun _ => 0#64 : PtMem) (0x80000000 + 8 * k)) =
      false := fun _ => fourPageMmu.fmt.pteValid_zero
  refine Mmu.refines_exec (Mmu.unshared_cleared hclear) (Mmu.closed_cleared hclear)
    ⟨⟨?_, ?_, ?_, ?_⟩, ⟨?_, ?_, ?_⟩, trivial⟩
  · decide
  · exact Radix.path_zero 0
  · exact Mmu.fresh_cleared hclear (by decide +kernel)
  · decide +kernel
  · decide
  · decide +kernel
  · decide +kernel

end BaoHypervisor
