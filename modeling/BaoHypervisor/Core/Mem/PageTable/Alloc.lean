import BaoHypervisor.Core.Mem.PageTable.Entries

/-!
# Reserving pages of an address space

`mem_alloc_vpage`: the search of a section for pages that are neither valid nor reserved, which
splits entries as it goes, and the pass that marks the pages found. The room that the section has
left is looked at only when the search comes to another table (`hasSpace`).

The search ends nowhere if it finds nothing and no space check fails, so it runs on a number of
rounds, one for each table it comes to.
-/

namespace BaoHypervisor

/-- The variables of the search of `mem_alloc_vpage`, with the tables. There is no `vpage` where
it is `INVALID_VA`. -/
structure AllocState where
  tables : PtEntries
  lvl : ℕ
  addr : ℕ
  count : ℕ
  vpage : Option ℕ
  failed : Bool

/-- There is still enough space, or the target address is 0 and the section ends with the
addresses. -/
def VaSection.hasSpace (sec : VaSection) (n addr : ℕ) : Bool :=
  (addr == 0 && sec.last == maxVa) ||
    decide (n ≤ (sec.last + 1 + 2 ^ 64 - addr) % 2 ^ 64 / pageSize)

namespace Mmu

variable (m : Mmu)

def pteAllocable (pte : Pte) (lvl left addr : ℕ) : Bool :=
  m.isLast lvl ||
    (m.dscr.lvlTerm lvl && !m.fmt.pteValid pte &&
      decide (m.dscr.ptLvlsize lvl ≤ left * pageSize) && addr % m.dscr.ptLvlsize lvl == 0)

variable (given : Bool) (n : ℕ)

/-- What the search does with one entry before it goes on: `given` tells that there is a target
address. -/
def allocEntry (s : AllocState) : AllocState :=
  let pte := m.pteAt s.tables s.lvl s.addr
  if m.fmt.pteReserved pte || m.fmt.pteValid pte && !m.fmt.pteTable (m.isLast s.lvl) pte then
    { s with count := 0, vpage := none, failed := given }
  else if !m.fmt.pteValid pte then
    if m.pteAllocable pte s.lvl (n - s.count) s.addr then
      { s with
        vpage := if s.count = 0 then some s.addr else s.vpage
        count := s.count + m.dscr.lvlPages s.lvl }
    else { s with tables := m.memAllocPt s.tables s.lvl s.addr }
  else s

/-- The entries of one table, with the entries that it has left. -/
def allocEntries : ℕ → AllocState → AllocState
  | 0, s => s
  | left + 1, s =>
      if s.count < n ∧ s.failed = false then
        let s' := m.allocEntry given n s
        if s'.failed then s'
        else if m.fmt.pteTable (m.isLast s'.lvl) (m.pteAt s'.tables s'.lvl s'.addr) then
          { s' with lvl := s'.lvl + 1 }
        else
          let next := { s' with addr := (s'.addr + m.dscr.ptLvlsize s'.lvl) % 2 ^ 64 }
          if left = 0 then { next with lvl := 0 } else allocEntries left next
      else s

def allocSearch (sec : VaSection) : ℕ → AllocState → Option AllocState
  | 0, _ => none
  | rounds + 1, s =>
      if s.count < n ∧ s.failed = false then
        if !sec.hasSpace n s.addr then some { s with vpage := none, failed := true }
        else
          (m.ptGetPte s.tables s.lvl s.addr).bind fun _ =>
            allocSearch sec rounds (m.allocEntries given n
              (m.dscr.ptNentries s.lvl - m.dscr.ptGetpteindexByVa s.addr s.lvl) s)
      else some s

/-- The level of the first invalid entry for an address, from a level on with so many below. -/
def invalidLvl (t : PtEntries) (addr : ℕ) : ℕ → ℕ → Option ℕ
  | 0, _ => none
  | k + 1, lvl =>
      (m.ptGetPte t lvl addr).bind fun pte =>
        if !m.fmt.pteValid pte then some lvl else invalidLvl t addr k (lvl + 1)

def markReserved : ℕ → PtEntries → ℕ → ℕ → Option PtEntries
  | 0, _, _, _ => none
  | rounds + 1, t, addr, count =>
      if count < n then
        (m.invalidLvl t addr m.dscr.lvls 0).bind fun lvl =>
          markReserved rounds (m.setPte t lvl addr (m.fmt.pteReserve (m.pteAt t lvl addr)))
            ((addr + m.dscr.ptLvlsize lvl) % 2 ^ 64) (count + m.dscr.lvlPages lvl)
      else some t

/-- The end of `mem_alloc_vpage`: the pages that the search has found are marked. -/
def allocMark (s : AllocState) : Option (PtEntries × Option ℕ) :=
  match s.vpage, s.failed with
  | some vpage, false => (m.markReserved n (n + 1) s.tables vpage 0).map (·, some vpage)
  | vpage, _ => some (s.tables, vpage)

/-- The search of `mem_alloc_vpage` starts at an address. -/
def allocStart (t : PtEntries) (addr : ℕ) : AllocState :=
  ⟨t, 0, addr, 0, none, false⟩

/-- `mem_alloc_vpage`, with the rounds that the search has, and no address for `INVALID_VA`. There
is no result where the search does not end within them. -/
def memAllocVpage (rounds : ℕ) (t : PtEntries) (sectionIdx : ℕ) (at' : Option ℕ) :
    Option (PtEntries × Option ℕ) :=
  (m.sections[sectionIdx]?).bind fun sec =>
    if at'.isSome ∧ at'.bind m.memFindSec ≠ some sectionIdx then some (t, none)
    else
      let addr := at'.getD sec.beg
      if sec.last < addr ∨ ¬ pageSize ∣ addr then some (t, none)
      else
        (m.allocSearch at'.isSome n sec rounds (allocStart t addr)).bind (m.allocMark n)

end Mmu

end BaoHypervisor
