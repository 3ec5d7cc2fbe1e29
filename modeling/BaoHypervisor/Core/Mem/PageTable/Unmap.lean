import BaoHypervisor.Core.Mem.PageTable.Expand

/-!
# Unmapping pages

`mem_unmap` for pages that stay allocated. Its walk keeps a level from one address to the next:
it skips an invalid entry by the whole size of the level, from wherever it is in the entry, and
behind the end of a table it goes up one level. So it may pass over mapped pages, and come to a
level for which the next address has no table.

Where it does so is seen from the tables before the call (`UnmapWalkOk`).
-/

namespace BaoHypervisor

namespace Mmu

variable (m : Mmu)

/-- The entries of one table that `mem_unmap` clears, with the entries that the table has left.
After the last one the level is one less; there is none above the root. -/
def memUnmapRun (top lvl : ℕ) : ℕ → PtEntries → ℕ → PtEntries × ℕ × Option ℕ
  | 0, t, vaddr => (t, vaddr, if lvl = 0 then none else some (lvl - 1))
  | n + 1, t, vaddr =>
      if vaddr < top then
        if !m.fmt.pteTable (m.isLast lvl) (m.pteAt t lvl vaddr) then
          let vpageBase := vaddr / m.dscr.ptLvlsize lvl * m.dscr.ptLvlsize lvl
          if vpageBase < vaddr ∨ top < (vpageBase + m.dscr.ptLvlsize lvl) % 2 ^ 64 then
            (m.memExpandPte t lvl vaddr, vaddr, some (lvl + 1))
          else
            memUnmapRun top lvl n (m.setPte t lvl vaddr 0#64)
              ((vaddr + m.dscr.ptLvlsize lvl) % 2 ^ 64)
        else (t, vaddr, some lvl)
      else (t, vaddr, some lvl)

/-- The loop of `mem_unmap`. There is no result where it stops in `ERROR` and where it leaves the
tables. -/
def memUnmapLoop (top : ℕ) : ℕ → PtEntries → ℕ → Option ℕ → Option PtEntries
  | 0, _, _, _ => none
  | fuel + 1, t, vaddr, lvl? =>
      if vaddr < top then
        lvl?.bind fun lvl =>
          (m.ptGetPte t lvl vaddr).bind fun pte =>
            if !m.fmt.pteValid pte then
              memUnmapLoop top fuel t ((vaddr + m.dscr.ptLvlsize lvl) % 2 ^ 64) (some lvl)
            else if m.fmt.pteTable (m.isLast lvl) pte then
              memUnmapLoop top fuel t vaddr (some (lvl + 1))
            else
              let n := m.dscr.ptNentries lvl - m.dscr.ptGetpteindexByVa vaddr lvl
              let (t', vaddr', lvl') := m.memUnmapRun top lvl n t vaddr
              memUnmapLoop top fuel t' vaddr' lvl'
      else some t

/-- `mem_unmap`, without `free_ppages`. -/
def memUnmap (t : PtEntries) (at' n : ℕ) : Option PtEntries :=
  (m.memFindSec at').bind fun _ =>
    m.memUnmapLoop ((at' + n * pageSize) % 2 ^ 64) ((n + 1) * (m.dscr.lvls + 1)) t at' (some 0)

/-! ## The walk over the tables before the call -/

variable (t₀ : PtEntries) (top : ℕ)

/-- Where a run over one table ends, by the tables before the call: the address and the level,
and none at the end of the table. -/
def unmapRunEnd (lvl : ℕ) : ℕ → ℕ → ℕ × Option ℕ
  | 0, va => (va, none)
  | n + 1, va =>
      if va < top then
        if lvl < (m.look t₀ va).1 then (va, some lvl)
        else if ¬ m.dscr.ptLvlsize lvl ∣ va ∨ top < va + m.dscr.ptLvlsize lvl then
          (va, some (lvl + 1))
        else unmapRunEnd lvl n (va + m.dscr.ptLvlsize lvl)
      else (va, some lvl)

/-- The walk is at a table of the level for the address `va'`, after one for `va`. -/
def Arrives (lvl va va' : ℕ) : Prop :=
  lvl ≤ (m.look t₀ va').1 ∨ m.dscr.pos (lvl - 1) va' = m.dscr.pos (lvl - 1) va

/-- The walk from an address and a level on passes over no mapped page where it skips an entry,
and comes to a table wherever it keeps the level or goes up. -/
def unmapOk : ℕ → ℕ → ℕ → Prop
  | 0, _, _ => True
  | fuel + 1, va, lvl =>
      va < top →
        if lvl < (m.look t₀ va).1 then unmapOk fuel va (lvl + 1)
        else if m.leafAt t₀ va = none then
          (∀ x < m.dscr.ptLvlsize lvl, va + x < top → m.leafAt t₀ (va + x) = none) ∧
            (va + m.dscr.ptLvlsize lvl < top →
              m.Arrives t₀ lvl va (va + m.dscr.ptLvlsize lvl)) ∧
            unmapOk fuel (va + m.dscr.ptLvlsize lvl) lvl
        else
          match m.unmapRunEnd t₀ top lvl
              (m.dscr.ptNentries lvl - m.dscr.ptGetpteindexByVa va lvl) va with
          | (va', none) =>
              (va' < top → m.Arrives t₀ (lvl - 1) va va') ∧ unmapOk fuel va' (lvl - 1)
          | (va', some lvl') => unmapOk fuel va' lvl'

def UnmapWalkOk (at' n : ℕ) : Prop :=
  m.unmapOk t₀ (at' + n * pageSize) ((n + 1) * (m.dscr.lvls + 1)) at' 0

end Mmu

end BaoHypervisor
