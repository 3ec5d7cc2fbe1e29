import BaoHypervisor.Core.Mem.PageTable.Law

/-!
# Page tables in physical memory

The tables of an address space lie in memory, a page or more each, and the entry above a table has
its address. The entries by levels and positions that the other modules start from are those that a
walk from the root table comes to.
-/

namespace BaoHypervisor

abbrev PtMem := ℕ → Pte

namespace Mmu

variable (m : Mmu) (mem : PtMem) (root : ℕ)

def entryAddr : ℕ → ℕ → ℕ
  | 0, k => root + 8 * k
  | lvl + 1, k =>
      (m.fmt.pteAddr (mem (entryAddr lvl (k / m.dscr.ptNentries (lvl + 1))))).toNat +
        8 * (k % m.dscr.ptNentries (lvl + 1))

def memTables : PtEntries := fun lvl k => mem (m.entryAddr mem root lvl k)

def tableAddr : ℕ → ℕ → ℕ
  | 0, _ => root
  | lvl + 1, va => (m.fmt.pteAddr (m.pteAt (m.memTables mem root) lvl va)).toNat

variable {m mem root} {lvl va : ℕ}

/-- The entry of a level for an address is that of its index in the table of the level. -/
theorem entryAddr_pos (hlvl : lvl < m.dscr.lvls) :
    m.entryAddr mem root lvl (m.dscr.pos lvl va) =
      m.tableAddr mem root lvl va + 8 * m.dscr.ptGetpteindexByVa va lvl := by
  cases lvl with
  | zero => rfl
  | succ lvl =>
      have hindex : m.dscr.ptGetpteindexByVa va (lvl + 1) < m.dscr.ptNentries (lvl + 1) :=
        PtDscr.ptGetpteindexByVa_eq hlvl va ▸ PtDscr.ptNentries_eq hlvl ▸
          Radix.Shape.index_lt hlvl va
      have hdiv : m.dscr.pos (lvl + 1) va / m.dscr.ptNentries (lvl + 1) = m.dscr.pos lvl va := by
        rw [PtDscr.pos_succ hlvl, Nat.add_comm,
          Nat.add_mul_div_right _ _ (Nat.zero_lt_of_lt hindex), Nat.div_eq_of_lt hindex,
          Nat.zero_add]
      have hmod : m.dscr.pos (lvl + 1) va % m.dscr.ptNentries (lvl + 1) =
          m.dscr.ptGetpteindexByVa va (lvl + 1) := by
        rw [PtDscr.pos_succ hlvl, Nat.mul_add_mod_of_lt hindex]
      rw [entryAddr, hdiv, hmod]
      rfl

theorem pteAt_memTables (hlvl : lvl < m.dscr.lvls) :
    m.pteAt (m.memTables mem root) lvl va =
      mem (m.tableAddr mem root lvl va + 8 * m.dscr.ptGetpteindexByVa va lvl) := by
  rw [pteAt, memTables, entryAddr_pos hlvl]

theorem memTranslate_of_path {t : PtEntries} (hclosed : m.Closed t)
    (hpath : m.Path t (m.dscr.lvls - 1) va)
    (hvalid : m.fmt.pteValid (m.pteAt t (m.dscr.lvls - 1) va) = true)
    (haligned : pageSize ∣ (m.fmt.pteAddr (m.pteAt t (m.dscr.lvls - 1) va)).toNat) :
    (m.memTranslate t va).map BitVec.toNat =
      some ((m.fmt.pteAddr (m.pteAt t (m.dscr.lvls - 1) va)).toNat + va % pageSize) := by
  have hlast : m.dscr.lvls - 1 < m.dscr.lvls := Nat.sub_lt m.dscr.lvls_pos Nat.one_pos
  have hlook := look_of_stops hclosed (stops_of_not_table hlast hpath (hclosed va hpath))
  rw [memTranslate_eq, leafAt_eq_some_iff.mpr ⟨hlook, hvalid⟩, Option.map_some, Option.map_some,
    toNat_leafAddr hlast (PtDscr.ptLvlsize_last.symm ▸ haligned), PtDscr.ptLvlsize_last]

end Mmu

end BaoHypervisor
