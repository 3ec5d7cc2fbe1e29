import BaoHypervisor.Lib.Util
import BaoHypervisor.Theory.Radix

/-!
# Page tables

The page tables of `core/mmu/mem.c`, with what the architectures define in their
`page_table.h`: the levels of a table (`PtDscr`) and the words of its entries (`PteFormat`).
The entries of an address space are a function of levels and positions, as the recursive
mapping of the Armv8 code shows them, so no two tables share an entry. The physical page of a
new table only goes into the entry that points to it; there always is one.

Virtual addresses are natural numbers: the walks of the code stay below the end of the 64-bit
addresses. Addresses that the root table does not tell apart are the same page.
-/

namespace BaoHypervisor

/-- `pte_t`, and `mem_flags_t`. -/
abbrev Pte := BitVec 64

/-- `PTE_TABLE`, `PTE_PAGE` and `PTE_SUPERPAGE`. -/
inductive PteType
  | table
  | page
  | superpage
deriving DecidableEq, Repr

/-- `struct page_table_dscr`. -/
structure PtDscr where
  lvls : ℕ
  lvlOff : ℕ → ℕ
  lvlWdt : ℕ → ℕ
  lvlTerm : ℕ → Bool
  lvls_pos : 0 < lvls
  lvlOff_last : lvlOff (lvls - 1) = 12
  lvlWdt_succ : ∀ l, l + 1 < lvls → lvlWdt (l + 1) = lvlOff l
  lvlOff_lt : ∀ l < lvls, lvlOff l < lvlWdt l
  lvlWdt_le : lvlWdt 0 ≤ 64
  lvlTerm_last : lvlTerm (lvls - 1) = true
  lvlTerm_succ : ∀ l, lvlTerm l = true → lvlTerm (l + 1) = true

namespace PtDscr

variable (d : PtDscr)

def ptNentries (lvl : ℕ) : ℕ := 2 ^ d.lvlWdt lvl / 2 ^ d.lvlOff lvl

def ptLvlsize (lvl : ℕ) : ℕ := 2 ^ d.lvlOff lvl

def ptGetpteindexByVa (va lvl : ℕ) : ℕ := va / d.ptLvlsize lvl % d.ptNentries lvl

/-- The pages of an entry, `pt_lvlsize / PAGE_SIZE`. -/
def lvlPages (lvl : ℕ) : ℕ := d.ptLvlsize lvl / pageSize

/-- The shape of the tree of tables. -/
def shape : Radix.Shape where
  depth := d.lvls
  size := d.ptLvlsize
  span := 2 ^ d.lvlWdt 0
  depth_pos := d.lvls_pos
  size_pos := fun _ => Nat.two_pow_pos _
  size_dvd := fun l hl => by
    have hlt := d.lvlOff_lt (l + 1) hl
    rw [d.lvlWdt_succ l hl] at hlt
    exact Nat.pow_dvd_pow 2 hlt.le
  span_dvd := Nat.pow_dvd_pow 2 (d.lvlOff_lt 0 d.lvls_pos).le
  span_pos := Nat.two_pow_pos _

abbrev pos (lvl va : ℕ) : ℕ := d.shape.pos lvl va

variable {d} {lvl : ℕ}

theorem ptNentries_eq (h : lvl < d.lvls) : d.ptNentries lvl = d.shape.fanout lvl := by
  cases lvl with
  | zero => rfl
  | succ l => rw [ptNentries, d.lvlWdt_succ l h]; rfl

theorem ptGetpteindexByVa_eq (h : lvl < d.lvls) (va : ℕ) :
    d.ptGetpteindexByVa va lvl = d.shape.index lvl va := by
  rw [ptGetpteindexByVa, ptNentries_eq h]
  rfl

theorem pos_succ (h : lvl + 1 < d.lvls) (va : ℕ) :
    d.pos (lvl + 1) va =
      d.pos lvl va * d.ptNentries (lvl + 1) + d.ptGetpteindexByVa va (lvl + 1) := by
  have hdiv := Radix.Shape.pos_of_le (g := d.shape) h (Nat.le_succ lvl) va
  rw [pos, pos, ptNentries_eq h, ptGetpteindexByVa_eq h, Radix.Shape.index_eq h, hdiv]
  exact (Nat.div_add_mod' _ _).symm

theorem pageSize_dvd_ptLvlsize (h : lvl < d.lvls) : pageSize ∣ d.ptLvlsize lvl := by
  have hdvd := Radix.Shape.size_dvd_of_le (g := d.shape) (i := lvl) (l := d.lvls - 1)
    (Nat.sub_lt d.lvls_pos Nat.one_pos) (Nat.le_sub_one_of_lt h)
  have hlast : d.shape.size (d.lvls - 1) = pageSize := by
    change 2 ^ d.lvlOff (d.lvls - 1) = pageSize
    rw [d.lvlOff_last]
    rfl
  rwa [hlast] at hdvd

theorem ptLvlsize_last : d.ptLvlsize (d.lvls - 1) = pageSize := by
  rw [ptLvlsize, d.lvlOff_last]
  rfl

theorem ptLvlsize_pos : 0 < d.ptLvlsize lvl := Nat.two_pow_pos _

theorem span_dvd_two_pow : d.shape.span ∣ 2 ^ 64 := Nat.pow_dvd_pow 2 d.lvlWdt_le

theorem lvlPages_mul (h : lvl < d.lvls) : d.lvlPages lvl * pageSize = d.ptLvlsize lvl :=
  Nat.div_mul_cancel (pageSize_dvd_ptLvlsize h)

theorem lvlPages_pos (h : lvl < d.lvls) : 0 < d.lvlPages lvl := by
  refine Nat.pos_of_ne_zero fun hzero => ?_
  have hmul := lvlPages_mul h
  rw [hzero, Nat.zero_mul] at hmul
  exact absurd hmul.symm (ptLvlsize_pos (d := d)).ne'

end PtDscr

/-- The mask of an address in an entry drops the offset in the page and the bits that the entry
has no room for. -/
theorem toNat_and_addrMsk {msk : BitVec 64} {k : ℕ} (h : msk.toNat = (2 ^ k - 1) <<< 12)
    (addr : Addr) :
    (addr &&& msk).toNat = addr.toNat % 2 ^ (k + 12) / pageSize * pageSize := by
  have hpage : pageSize = 2 ^ 12 := rfl
  refine Nat.eq_of_testBit_eq fun i => ?_
  rw [BitVec.toNat_and, h, Nat.testBit_and, Nat.testBit_shiftLeft, Nat.testBit_two_pow_sub_one,
    hpage, ← Nat.shiftLeft_eq, Nat.testBit_shiftLeft, ← Nat.shiftRight_eq_div_pow,
    Nat.testBit_shiftRight, Nat.testBit_mod_two_pow]
  by_cases hi : 12 ≤ i
  · have hsum : 12 + (i - 12) = i := by omega
    have hlt : (i - 12 < k) = (i < k + 12) := by
      rw [eq_iff_iff]
      omega
    simp [hi, hsum, hlt, Bool.and_comm]
  · simp [hi]

/-- What an architecture says of the words of entries. `pteReserve` and `pteReserved` are
`pte_set_rsw` and `pte_check_rsw` for `PTE_RSW_RSRV`; the first argument of `pteTable` and
`ptePage` tells the last level. `FlagsOk` are flags that leave the type of an entry and its
software bits alone. -/
structure PteFormat where
  addrWidth : ℕ
  typeBits : PteType → Pte
  flagsMsk : Pte
  rswMsk : Pte
  hypFlags : Pte
  vmFlags : Pte
  FlagsOk : Pte → Prop
  pteSet : Addr → PteType → Pte → Pte
  pteAddr : Pte → Addr
  pteValid : Pte → Bool
  pteTable : Bool → Pte → Bool
  ptePage : Bool → Pte → Bool
  pteReserve : Pte → Pte
  pteReserved : Pte → Bool
  addrWidth_lt : addrWidth < 64
  hypFlags_ok : FlagsOk hypFlags
  vmFlags_ok : FlagsOk vmFlags
  toNat_pteAddr_pteSet : ∀ addr type flags, (pteAddr (pteSet addr type flags)).toNat =
    addr.toNat % 2 ^ addrWidth / pageSize * pageSize
  toNat_pteAddr_lt : ∀ pte, (pteAddr pte).toNat < 2 ^ addrWidth
  flags_pteSet : ∀ addr type flags, type ≠ .table →
    pteSet addr type flags &&& flagsMsk = (typeBits type ||| flags) &&& flagsMsk
  pteValid_pteSet : ∀ addr type flags, pteValid (pteSet addr type flags) = true
  pteTable_pteSet : ∀ addr, pteTable false (pteSet addr .table hypFlags) = true
  ptePage_pteSet : ∀ last addr flags, FlagsOk flags →
    ptePage last (pteSet addr (if last then .page else .superpage) flags) = true
  pteReserved_pteSet : ∀ addr type flags, FlagsOk flags →
    pteReserved (pteSet addr type flags) = false
  pteTable_of_ptePage : ∀ last pte, ptePage last pte = true → pteTable last pte = false
  pteValid_of_pteTable : ∀ last pte, pteTable last pte = true → pteValid pte = true
  pteValid_pteReserve : ∀ pte, pteValid (pteReserve pte) = pteValid pte
  pteReserved_pteReserve : ∀ pte, pteReserved (pteReserve pte) = true
  pteValid_rsw : ∀ pte, pteValid (pte &&& rswMsk) = false
  pteReserved_rsw : ∀ pte, pteReserved (pte &&& rswMsk) = pteReserved pte
  pteValid_zero : pteValid 0#64 = false
  pteReserved_zero : pteReserved 0#64 = false

/-- `struct section`, with its last address. -/
structure VaSection where
  beg : ℕ
  last : ℕ
deriving DecidableEq, Repr

abbrev maxVa : ℕ := 2 ^ 64 - 1

/-- What is fixed of a `struct addr_space`: its type and the sections of that type, and its
page-table descriptor. `newTable` is the page that `mem_alloc_ppages` has for a table below an
entry. It is a function of the level and the position and takes nothing from the pools, so a table
that is allocated once more gets the page that it had. -/
structure Mmu where
  fmt : PteFormat
  dscr : PtDscr
  asType : AsType
  sections : List VaSection
  newTable : ℕ → ℕ → Addr
  lvlOff_le : dscr.lvlOff 0 ≤ fmt.addrWidth

abbrev PtEntries := ℕ → ℕ → Pte

def emptyTables : PtEntries := fun _ _ => 0#64

namespace Mmu

variable (m : Mmu) (t : PtEntries)

/-- `lvl == lvls - 1`. -/
def isLast (lvl : ℕ) : Bool := lvl + 1 == m.dscr.lvls

/-- `pte_table`, at each position. -/
def tab (lvl k : ℕ) : Bool := m.fmt.pteTable (m.isLast lvl) (t lvl k)

def Path (lvl va : ℕ) : Prop := Radix.Path m.dscr.shape (m.tab t) lvl va

def Stops (lvl va : ℕ) : Prop := Radix.Stops m.dscr.shape (m.tab t) lvl va

instance (lvl va : ℕ) : Decidable (m.Path t lvl va) :=
  inferInstanceAs (Decidable (Radix.Path ..))

def pteAt (lvl va : ℕ) : Pte := t lvl (m.dscr.pos lvl va)

/-- `pt_get_pte`, with its entry. There is none below an entry that is not a table: the pointer
is `NULL`, cannot be read, or leads into the memory that a superpage maps. -/
def ptGetPte (lvl va : ℕ) : Option Pte := if m.Path t lvl va then some (m.pteAt t lvl va) else none

def ptPageType (lvl : ℕ) : PteType := if m.isLast lvl then .page else .superpage

def setPte (lvl va : ℕ) (pte : Pte) : PtEntries :=
  Function.update t lvl (Function.update (t lvl) (m.dscr.pos lvl va) pte)

/-- `mem_alloc_pt`. The entries of the new table are invalid and keep the software bits. -/
def memAllocPt (lvl va : ℕ) : PtEntries := fun l k =>
  if l = lvl ∧ k = m.dscr.pos lvl va then
    m.fmt.pteSet (m.newTable lvl k) .table m.fmt.hypFlags
  else if l = lvl + 1 ∧ k / m.dscr.ptNentries l = m.dscr.pos lvl va then
    m.pteAt t lvl va &&& m.fmt.rswMsk
  else t l k

def memTranslate (va : ℕ) : Option Addr :=
  let lvl := Radix.stop m.dscr.shape (m.tab t) va
  let pte := m.pteAt t lvl va
  if m.fmt.pteValid pte then
    let mask : Addr := BitVec.ofNat 64 (m.dscr.ptLvlsize lvl) - 1#64
    some (m.fmt.pteAddr pte &&& ~~~mask ||| BitVec.ofNat 64 va &&& mask)
  else none

/-- `mem_find_sec`, with the index of the section. -/
def memFindSec (va : ℕ) : Option ℕ :=
  m.sections.findIdx? fun sec => decide (sec.beg ≤ va) && decide (va ≤ sec.last)

/-! ## Address spaces -/

abbrev Closed : Prop := Radix.Closed m.dscr.shape (m.tab t)

/-- The entry that a walk stops at, with its level. -/
def look (va : ℕ) : ℕ × Pte :=
  (Radix.stop m.dscr.shape (m.tab t) va, m.pteAt t (Radix.stop m.dscr.shape (m.tab t) va) va)

def leafAt (va : ℕ) : Option (ℕ × Pte) :=
  if m.fmt.pteValid (m.look t va).2 then some (m.look t va) else none

def isReserved (va : ℕ) : Bool :=
  !m.fmt.pteValid (m.look t va).2 && m.fmt.pteReserved (m.look t va).2

/-- The tables end, none of them is marked as reserved, and the valid entries that are no tables
map pages or superpages at the levels that have them, aligned to their size. -/
structure WellFormed : Prop where
  closed : m.Closed t
  table : ∀ lvl < m.dscr.lvls, ∀ va, m.Path t (lvl + 1) va →
    m.fmt.pteReserved (m.pteAt t lvl va) = false
  page : ∀ lvl va, m.Stops t lvl va → m.fmt.pteValid (m.pteAt t lvl va) = true →
    m.fmt.ptePage (m.isLast lvl) (m.pteAt t lvl va) = true
  term : ∀ lvl va, m.Stops t lvl va → m.fmt.pteValid (m.pteAt t lvl va) = true →
    m.dscr.lvlTerm lvl = true
  aligned : ∀ lvl va, m.Stops t lvl va → m.fmt.pteValid (m.pteAt t lvl va) = true →
    m.dscr.ptLvlsize lvl ∣ (m.fmt.pteAddr (m.pteAt t lvl va)).toNat

end Mmu

end BaoHypervisor
