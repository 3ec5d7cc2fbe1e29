import BaoHypervisor.Core.Mem.PageTable.Alloc
import BaoHypervisor.Core.Mem.Pools

/-!
# The pages of new tables

Each entry that the search of `mem_alloc_vpage` splits takes a page for its table from the pools
(`mem_alloc_pt`). The levels of these entries are those of the search itself, and a search for
which no pool has a page stops in `ERROR`.
-/

namespace BaoHypervisor

namespace Mmu

variable (m : Mmu)

/-- `NUM_PAGES(pt_size)`. -/
def ptPages (lvl : ℕ) : SizeT := numPages (BitVec.ofNat 64 (m.dscr.ptNentries lvl * 8))

/-- The pools after `mem_alloc_pt` has taken the pages of the tables below entries of some levels,
if they have them all. -/
def takeTables (c : Coloring) (colors : ColorMap) : List ℕ → List PagePool → Option (List PagePool)
  | [], pools => some pools
  | lvl :: lvls, pools =>
      let ptsize := m.ptPages (lvl + 1)
      let (ppage, pools') := memAllocPpages c colors ptsize (decide (1#64 < ptsize)) pools
      if ppage.numPages = 0#64 then none else takeTables c colors lvls pools'

variable (given : Bool) (n : ℕ)

/-- The search calls `mem_alloc_pt` for an entry. -/
def splitsEntry (s : AllocState) : Bool :=
  let pte := m.pteAt s.tables s.lvl s.addr
  !m.fmt.pteReserved pte && !m.fmt.pteValid pte && !m.pteAllocable pte s.lvl (n - s.count) s.addr

/-- The levels of the entries of one table that the search splits. -/
def entriesSplits : ℕ → AllocState → List ℕ
  | 0, _ => []
  | left + 1, s =>
      if s.count < n ∧ s.failed = false then
        let here := if m.splitsEntry n s then [s.lvl] else []
        let s' := m.allocEntry given n s
        if s'.failed then here
        else if m.fmt.pteTable (m.isLast s'.lvl) (m.pteAt s'.tables s'.lvl s'.addr) then here
        else
          let next := { s' with addr := (s'.addr + m.dscr.ptLvlsize s'.lvl) % 2 ^ 64 }
          if left = 0 then here else here ++ entriesSplits left next
      else []

/-- The levels of all entries that the search splits. -/
def searchSplits (sec : VaSection) : ℕ → AllocState → List ℕ
  | 0, _ => []
  | rounds + 1, s =>
      if s.count < n ∧ s.failed = false then
        if !sec.hasSpace n s.addr then []
        else
          let left := m.dscr.ptNentries s.lvl - m.dscr.ptGetpteindexByVa s.addr s.lvl
          m.entriesSplits given n left s ++
            searchSplits sec rounds (m.allocEntries given n left s)
      else []

/-- The levels of the entries that `mem_alloc_vpage` splits. -/
def vpageSplits (rounds : ℕ) (t : PtEntries) (sectionIdx : ℕ) (at' : Option ℕ) : List ℕ :=
  match m.sections[sectionIdx]? with
  | none => []
  | some sec =>
      if at'.isSome ∧ at'.bind m.memFindSec ≠ some sectionIdx then []
      else
        let addr := at'.getD sec.beg
        if sec.last < addr ∨ ¬ pageSize ∣ addr then []
        else m.searchSplits at'.isSome n sec rounds (allocStart t addr)

variable {m given n}

/-- The search puts a table below an entry exactly if it splits it. -/
theorem tables_allocEntry (s : AllocState) :
    (m.allocEntry given n s).tables =
      if m.splitsEntry n s then m.memAllocPt s.tables s.lvl s.addr else s.tables := by
  rw [allocEntry, splitsEntry]
  cases m.fmt.pteReserved (m.pteAt s.tables s.lvl s.addr) with
  | true => rfl
  | false =>
      cases m.fmt.pteValid (m.pteAt s.tables s.lvl s.addr) with
      | true =>
          cases m.fmt.pteTable (m.isLast s.lvl) (m.pteAt s.tables s.lvl s.addr) with
          | true => rfl
          | false => rfl
      | false =>
          cases m.pteAllocable (m.pteAt s.tables s.lvl s.addr) s.lvl (n - s.count) s.addr with
          | true => rfl
          | false => rfl

end Mmu

end BaoHypervisor
