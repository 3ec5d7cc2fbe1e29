import BaoHypervisor.Core.Mem.PageTable.Alloc

/-!
# What reserving pages does to the tables

The search keeps all translations and reservations (`AllocInv`), and the pages that it has counted
are tiled by free entries (`Tiled`), each of which starts where the one before it ends. So the
second pass marks just these entries.
-/

namespace BaoHypervisor

namespace Mmu

variable {m : Mmu} {t t' t₀ : PtEntries} {lvl n left rounds a b va : ℕ} {ls : List ℕ}
  {s : AllocState} {sec : VaSection} {at' : Option ℕ}

/-! ## Addresses that wrap -/

theorem pos_mod_two_pow (hlvl : lvl < m.dscr.lvls) (a : ℕ) :
    m.dscr.pos lvl (a % 2 ^ 64) = m.dscr.pos lvl a :=
  Radix.Shape.pos_eq_of_mod_span hlvl (Nat.mod_mod_of_dvd a PtDscr.span_dvd_two_pow)

theorem path_mod_two_pow (hlvl : lvl < m.dscr.lvls) :
    m.Path t lvl (a % 2 ^ 64) ↔ m.Path t lvl a := by
  have hpos : ∀ i < lvl, m.dscr.pos i (a % 2 ^ 64) = m.dscr.pos i a := fun i hi =>
    pos_mod_two_pow (hi.trans hlvl) a
  exact ⟨fun h => h.congr fun i hi => congrArg _ (hpos i hi).symm,
    fun h => h.congr fun i hi => congrArg _ (hpos i hi)⟩

theorem look_mod_two_pow (hclosed : m.Closed t) (a : ℕ) :
    m.look t (a % 2 ^ 64) = m.look t a :=
  look_of_pos_eq hclosed (pos_mod_two_pow (look_fst_lt hclosed a) a)

theorem ptLvlsize_dvd_mod_two_pow (hlvl : lvl < m.dscr.lvls) :
    m.dscr.ptLvlsize lvl ∣ a % 2 ^ 64 ↔ m.dscr.ptLvlsize lvl ∣ a :=
  Nat.dvd_mod_iff ((Radix.Shape.size_dvd_span hlvl).trans PtDscr.span_dvd_two_pow)

theorem pageSize_dvd_mod_two_pow : pageSize ∣ a % 2 ^ 64 ↔ pageSize ∣ a :=
  Nat.dvd_mod_iff (by decide)

/-! ## Entries that tile a range -/

/-- The page of an address is neither valid nor reserved. -/
structure IsFree (m : Mmu) (t : PtEntries) (va : ℕ) : Prop where
  leafAt : m.leafAt t va = none
  isReserved : m.isReserved t va = false

/-- From the address on there are free entries of these levels, one behind the other. -/
def Tiled (m : Mmu) (t : PtEntries) : ℕ → List ℕ → Prop
  | _, [] => True
  | a, l :: ls =>
      ((m.look t a).1 = l ∧ m.dscr.ptLvlsize l ∣ a ∧ m.dscr.lvlTerm l = true ∧ m.IsFree t a) ∧
        Tiled m t (a + m.dscr.ptLvlsize l) ls

def tiledSize (m : Mmu) (ls : List ℕ) : ℕ := (ls.map m.dscr.ptLvlsize).sum

theorem tiledSize_cons (l : ℕ) (ls : List ℕ) :
    m.tiledSize (l :: ls) = m.dscr.ptLvlsize l + m.tiledSize ls := List.sum_cons

theorem tiledSize_append_singleton (ls : List ℕ) (l : ℕ) :
    m.tiledSize (ls ++ [l]) = m.tiledSize ls + m.dscr.ptLvlsize l := by
  rw [tiledSize, List.map_append, List.sum_append, List.map_singleton, List.sum_singleton]
  rfl

theorem IsFree.congr (h : m.IsFree t a) (hlook : m.look t' b = m.look t a) : m.IsFree t' b :=
  ⟨(leafAt_congr hlook).trans h.leafAt, (isReserved_congr hlook).trans h.isReserved⟩

theorem Tiled.congr (h : m.Tiled t a ls)
    (hlook : ∀ x < m.tiledSize ls, m.look t' (a + x) = m.look t (a + x)) : m.Tiled t' a ls := by
  induction ls generalizing a with
  | nil => trivial
  | cons l ls ih =>
      obtain ⟨⟨hlvl, hdvd, hterm, hfree⟩, hrest⟩ := h
      have hsize : 0 < m.dscr.ptLvlsize l := PtDscr.ptLvlsize_pos
      rw [tiledSize_cons] at hlook
      have hfirst := hlook 0 (by omega)
      rw [Nat.add_zero] at hfirst
      refine ⟨⟨by rw [hfirst, hlvl], hdvd, hterm, hfree.congr hfirst⟩, ih hrest fun x hx => ?_⟩
      rw [Nat.add_assoc]
      exact hlook _ (Nat.add_lt_add_left hx _)

theorem Tiled.append (h : m.Tiled t a ls) (hlvl : (m.look t (a + m.tiledSize ls)).1 = lvl)
    (hdvd : m.dscr.ptLvlsize lvl ∣ a + m.tiledSize ls) (hterm : m.dscr.lvlTerm lvl = true)
    (hfree : m.IsFree t (a + m.tiledSize ls)) : m.Tiled t a (ls ++ [lvl]) := by
  induction ls generalizing a with
  | nil => exact ⟨⟨hlvl, hdvd, hterm, hfree⟩, trivial⟩
  | cons l ls ih =>
      rw [tiledSize_cons, ← Nat.add_assoc] at hlvl hdvd hfree
      exact ⟨h.1, ih h.2 hlvl hdvd hfree⟩

/-- An address of the range is in one of the entries. -/
theorem Tiled.exists_entry (hclosed : m.Closed t) (h : m.Tiled t a ls) {x : ℕ}
    (hx : x < m.tiledSize ls) :
    ∃ c l, a ≤ c ∧ c + m.dscr.ptLvlsize l ≤ a + m.tiledSize ls ∧ m.dscr.ptLvlsize l ∣ c ∧
      m.dscr.lvlTerm l = true ∧ m.dscr.pos l (a + x) = m.dscr.pos l c ∧ (m.look t c).1 = l ∧
      m.look t (a + x) = m.look t c ∧ m.IsFree t c := by
  induction ls generalizing a x with
  | nil => exact absurd hx (Nat.not_lt_zero x)
  | cons l ls ih =>
      obtain ⟨⟨hlvl, hdvd, hterm, hfree⟩, hrest⟩ := h
      rw [tiledSize_cons] at hx ⊢
      by_cases hlt : x < m.dscr.ptLvlsize l
      · have hpos : m.dscr.pos l (a + x) = m.dscr.pos l a := Radix.Shape.pos_add hdvd hlt
        refine ⟨a, l, le_rfl, by omega, hdvd, hterm, hpos, hlvl, ?_, hfree⟩
        rw [← hlvl] at hpos
        exact look_of_pos_eq hclosed hpos
      · rw [not_lt] at hlt
        obtain ⟨y, rfl⟩ := Nat.exists_eq_add_of_le hlt
        obtain ⟨c, l', hle, hend, hentry⟩ := ih hrest (x := y) (by omega)
        rw [Nat.add_assoc] at hentry
        exact ⟨c, l', by omega, by omega, hentry⟩

theorem Tiled.isFree (hclosed : m.Closed t) (h : m.Tiled t a ls) {x : ℕ}
    (hx : x < m.tiledSize ls) : m.IsFree t (a + x) := by
  obtain ⟨c, l, -, -, -, -, -, -, hlook, hfree⟩ := h.exists_entry hclosed hx
  exact hfree.congr hlook

theorem Tiled.pos_ne (hclosed : m.Closed t) (h : m.Tiled t a ls)
    (hspan : m.tiledSize ls < m.dscr.shape.span)
    (hlook : (m.look t (a + m.tiledSize ls)).1 = lvl) {x : ℕ} (hx : x < m.tiledSize ls) :
    m.dscr.pos lvl (a + x) ≠ m.dscr.pos lvl (a + m.tiledSize ls) := by
  intro hpos
  obtain ⟨c, l, hle, hend, hdvd, -, hposc, hlvl, hlookx, -⟩ := h.exists_entry hclosed hx
  rw [← hlook] at hpos
  have hsame := look_of_pos_eq hclosed hpos
  have hl : l = (m.look t (a + m.tiledSize ls)).1 := by
    rw [← hlvl, ← hlookx, hsame]
  rw [← hl, hposc] at hpos
  refine Radix.Shape.pos_ne_of_le (g := m.dscr.shape) ?_ hdvd hend (by omega) hpos.symm
  rw [← hlvl]
  exact look_fst_lt hclosed c

/-! ## One entry -/

section Entry

variable {given : Bool}

/-- The search goes on with the next entry of the table, or with the root behind the last one. -/
def allocRest (m : Mmu) (given : Bool) (n left : ℕ) (s : AllocState) : AllocState :=
  if left = 0 then { s with addr := (s.addr + m.dscr.ptLvlsize s.lvl) % 2 ^ 64, lvl := 0 }
  else m.allocEntries given n left
    { s with addr := (s.addr + m.dscr.ptLvlsize s.lvl) % 2 ^ 64 }

theorem allocEntries_of_le (hcount : n ≤ s.count) : m.allocEntries given n left s = s := by
  cases left with
  | zero => rfl
  | succ left => rw [allocEntries, if_neg fun h => absurd h.1 (Nat.not_lt.mpr hcount)]

theorem allocEntries_table (hcount : s.count < n) (hfailed : s.failed = false)
    (hres : m.fmt.pteReserved (m.pteAt s.tables s.lvl s.addr) = false)
    (htable : m.fmt.pteTable (m.isLast s.lvl) (m.pteAt s.tables s.lvl s.addr) = true) :
    m.allocEntries given n (left + 1) s = { s with lvl := s.lvl + 1 } := by
  have hentry : m.allocEntry given n s = s := by
    rw [allocEntry, hres, htable, m.fmt.pteValid_of_pteTable _ _ htable]
    rfl
  rw [allocEntries, if_pos ⟨hcount, hfailed⟩, hentry]
  dsimp only
  rw [hfailed, htable, if_neg Bool.false_ne_true, if_pos rfl]

theorem allocEntries_obstacle (hcount : s.count < n) (hfailed : s.failed = false)
    (hobst : m.fmt.pteReserved (m.pteAt s.tables s.lvl s.addr) = true ∨
      m.fmt.pteValid (m.pteAt s.tables s.lvl s.addr) = true)
    (htable : m.fmt.pteTable (m.isLast s.lvl) (m.pteAt s.tables s.lvl s.addr) = false) :
    m.allocEntries given n (left + 1) s =
      if given then { s with count := 0, vpage := none, failed := true }
      else m.allocRest given n left { s with count := 0, vpage := none } := by
  have hor : (m.fmt.pteReserved (m.pteAt s.tables s.lvl s.addr) ||
      m.fmt.pteValid (m.pteAt s.tables s.lvl s.addr) && !false) = true := by
    rw [Bool.not_false, Bool.and_true, Bool.or_eq_true]
    exact hobst
  have hentry : m.allocEntry given n s = { s with count := 0, vpage := none, failed := given } := by
    rw [allocEntry, htable, hor]
    rfl
  rw [allocEntries, if_pos ⟨hcount, hfailed⟩, hentry]
  cases given with
  | true => rfl
  | false =>
      dsimp only
      rw [htable, allocRest, hfailed]
      rfl

theorem allocEntries_count (hcount : s.count < n) (hfailed : s.failed = false)
    (hvalid : m.fmt.pteValid (m.pteAt s.tables s.lvl s.addr) = false)
    (hres : m.fmt.pteReserved (m.pteAt s.tables s.lvl s.addr) = false)
    (halloc : m.pteAllocable (m.pteAt s.tables s.lvl s.addr) s.lvl (n - s.count) s.addr = true) :
    m.allocEntries given n (left + 1) s =
      m.allocRest given n left { s with
        vpage := if s.count = 0 then some s.addr else s.vpage
        count := s.count + m.dscr.lvlPages s.lvl } := by
  have hentry : m.allocEntry given n s = { s with
      vpage := if s.count = 0 then some s.addr else s.vpage
      count := s.count + m.dscr.lvlPages s.lvl } := by
    rw [allocEntry, hvalid, hres, halloc]
    rfl
  rw [allocEntries, if_pos ⟨hcount, hfailed⟩, hentry]
  dsimp only
  rw [hfailed, pteTable_of_not_valid hvalid, if_neg Bool.false_ne_true, if_neg Bool.false_ne_true,
    allocRest]

theorem allocEntries_split (hcount : s.count < n) (hfailed : s.failed = false)
    (hlvl : s.lvl + 1 < m.dscr.lvls)
    (hvalid : m.fmt.pteValid (m.pteAt s.tables s.lvl s.addr) = false)
    (hres : m.fmt.pteReserved (m.pteAt s.tables s.lvl s.addr) = false)
    (halloc : m.pteAllocable (m.pteAt s.tables s.lvl s.addr) s.lvl (n - s.count) s.addr = false) :
    m.allocEntries given n (left + 1) s =
      { s with tables := m.memAllocPt s.tables s.lvl s.addr, lvl := s.lvl + 1 } := by
  have hentry : m.allocEntry given n s =
      { s with tables := m.memAllocPt s.tables s.lvl s.addr } := by
    rw [allocEntry, hvalid, hres, halloc]
    rfl
  have htable : m.fmt.pteTable (m.isLast s.lvl)
      (m.pteAt (m.memAllocPt s.tables s.lvl s.addr) s.lvl s.addr) = true := by
    rw [pteAt_memAllocPt rfl, isLast_eq_false hlvl, m.fmt.pteTable_pteSet]
  rw [allocEntries, if_pos ⟨hcount, hfailed⟩, hentry]
  dsimp only
  rw [hfailed, htable, if_neg Bool.false_ne_true, if_pos rfl]

end Entry

theorem pteAllocable_iff {pte : Pte} (hvalid : m.fmt.pteValid pte = false) :
    m.pteAllocable pte lvl left a = true ↔ m.isLast lvl = true ∨
      m.dscr.lvlTerm lvl = true ∧ m.dscr.ptLvlsize lvl ≤ left * pageSize ∧
        m.dscr.ptLvlsize lvl ∣ a := by
  rw [pteAllocable, hvalid, Bool.or_eq_true, Bool.and_eq_true, Bool.and_eq_true, Bool.not_false,
    Bool.and_true, decide_eq_true_iff, beq_iff_eq, Nat.dvd_iff_mod_eq_zero, and_assoc]

theorem add_lvlPages_le (hlvl : lvl < m.dscr.lvls) {count : ℕ} (hcount : count < n) {pte : Pte}
    (hvalid : m.fmt.pteValid pte = false)
    (halloc : m.pteAllocable pte lvl (n - count) a = true) : count + m.dscr.lvlPages lvl ≤ n := by
  rcases (pteAllocable_iff hvalid).mp halloc with hlast | ⟨-, hfits, -⟩
  · rw [isLast, beq_iff_eq] at hlast
    obtain rfl : lvl = m.dscr.lvls - 1 := by omega
    rw [PtDscr.lvlPages, PtDscr.ptLvlsize_last, Nat.div_self (by decide)]
    exact hcount
  · rw [← PtDscr.lvlPages_mul hlvl] at hfits
    have hle := Nat.le_of_mul_le_mul_right hfits (by decide)
    omega

/-! ## The search -/

/-- The tables end, none of them is marked as reserved, and walks find the leaves and the marks that
they found before. -/
structure SameLeaves (m : Mmu) (t t' : PtEntries) : Prop where
  closed : m.Closed t'
  unmarked : m.Unmarked t'
  leafAt : ∀ b, m.leafAt t' b = m.leafAt t b
  isReserved : ∀ b, m.isReserved t' b = m.isReserved t b

/-- The search has come to an entry of a level. The tables translate and reserve as those before
the call, and the pages that are counted are free. -/
structure AllocInv (m : Mmu) (t₀ : PtEntries) (at' : Option ℕ) (n : ℕ) (s : AllocState) :
    Prop where
  closed : m.Closed s.tables
  leafAt : ∀ b, m.leafAt s.tables b = m.leafAt t₀ b
  isReserved : ∀ b, m.isReserved s.tables b = m.isReserved t₀ b
  table : ∀ lvl < m.dscr.lvls, ∀ b, m.Path s.tables (lvl + 1) b →
    m.fmt.pteReserved (m.pteAt s.tables lvl b) = false
  lt : s.lvl < m.dscr.lvls
  path : m.Path s.tables s.lvl s.addr
  page : pageSize ∣ s.addr
  le : s.count ≤ n
  failed : s.failed = false
  run : ∃ v ls, v < 2 ^ 64 ∧ s.vpage = (if s.count = 0 then none else some v) ∧
    m.Tiled s.tables v ls ∧ m.tiledSize ls = s.count * pageSize ∧
      (v + s.count * pageSize) % 2 ^ 64 = s.addr ∧ ∀ a, at' = some a → v = a

namespace AllocInv

variable (h : m.AllocInv t₀ at' n s)

include h

theorem pteReserved_of_table
    (htable : m.fmt.pteTable (m.isLast s.lvl) (m.pteAt s.tables s.lvl s.addr) = true) :
    m.fmt.pteReserved (m.pteAt s.tables s.lvl s.addr) = false :=
  h.table s.lvl h.lt s.addr (Radix.path_succ_iff.mpr ⟨h.path, htable⟩)

theorem look_eq
    (htable : m.fmt.pteTable (m.isLast s.lvl) (m.pteAt s.tables s.lvl s.addr) = false) :
    m.look s.tables s.addr = (s.lvl, m.pteAt s.tables s.lvl s.addr) :=
  look_of_stops h.closed (stops_of_not_table h.lt h.path htable)

theorem isFree (hvalid : m.fmt.pteValid (m.pteAt s.tables s.lvl s.addr) = false)
    (hres : m.fmt.pteReserved (m.pteAt s.tables s.lvl s.addr) = false) :
    m.IsFree s.tables s.addr := by
  have hlook := h.look_eq (pteTable_of_not_valid hvalid _)
  refine ⟨?_, ?_⟩
  · rw [Mmu.leafAt, hlook, hvalid, if_neg Bool.false_ne_true]
  · rw [Mmu.isReserved, hlook, hres, Bool.and_false]

theorem sameLeaves : m.SameLeaves t₀ s.tables := ⟨h.closed, h.table, h.leafAt, h.isReserved⟩

theorem descend
    (htable : m.fmt.pteTable (m.isLast s.lvl) (m.pteAt s.tables s.lvl s.addr) = true) :
    m.AllocInv t₀ at' n { s with lvl := s.lvl + 1 } := by
  have hpath : m.Path s.tables (s.lvl + 1) s.addr := Radix.path_succ_iff.mpr ⟨h.path, htable⟩
  exact ⟨h.closed, h.leafAt, h.isReserved, h.table,
    ((path_iff_le_look h.closed).mp hpath).trans_lt (look_fst_lt h.closed s.addr), hpath, h.page,
    h.le, h.failed, h.run⟩

/-- An entry that is not allocated is split. -/
theorem split (hspan : n * pageSize ≤ m.dscr.shape.span) (hcount : s.count < n)
    (hlvl : s.lvl + 1 < m.dscr.lvls)
    (hvalid : m.fmt.pteValid (m.pteAt s.tables s.lvl s.addr) = false) :
    m.AllocInv t₀ at' n
      { s with tables := m.memAllocPt s.tables s.lvl s.addr, lvl := s.lvl + 1 } where
  closed := closed_memAllocPt h.closed hlvl h.path
  leafAt := fun b => (leafAt_memAllocPt h.closed hlvl h.path hvalid b).trans (h.leafAt b)
  isReserved := fun b =>
    (isReserved_memAllocPt h.closed hlvl h.path hvalid b).trans (h.isReserved b)
  table := by
    have hclosed := closed_memAllocPt h.closed hlvl h.path
    intro l hl b hpath
    dsimp only at hpath ⊢
    have hagree := agreeOff_memAllocPt hlvl s.tables s.addr
    by_cases hpos : m.dscr.pos s.lvl b = m.dscr.pos s.lvl s.addr
    · have hle := (path_iff_le_look hclosed).mp hpath
      rw [look_memAllocPt h.closed hlvl h.path, if_pos hpos] at hle
      by_cases heq : l = s.lvl
      · subst heq
        rw [pteAt_memAllocPt hpos]
        exact m.fmt.pteReserved_pteSet _ _ _ m.fmt.hypFlags_ok
      · have hlt : l < s.lvl := lt_of_le_of_ne (Nat.le_of_succ_le_succ hle) heq
        rw [path_iff_of_agreeOff hagree h.lt hlt] at hpath
        rw [pteAt, hagree l hl b (.inl hlt)]
        exact h.table l hl b hpath
    · rw [path_iff_le_look hclosed, look_memAllocPt h.closed hlvl h.path, if_neg hpos,
        ← path_iff_le_look h.closed] at hpath
      rw [pteAt, hagree l hl b (.inr hpos)]
      exact h.table l hl b hpath
  lt := hlvl
  path := path_memAllocPt hlvl h.path rfl
  page := h.page
  le := h.le
  failed := h.failed
  run := by
    obtain ⟨v, ls, hv, hvpage, htiled, hsize, haddr, hat⟩ := h.run
    refine ⟨v, ls, hv, hvpage, htiled.congr fun x hx => ?_, hsize, haddr, hat⟩
    have hlook : (m.look s.tables (v + m.tiledSize ls)).1 = s.lvl := by
      rw [hsize, ← look_mod_two_pow h.closed, haddr, h.look_eq (pteTable_of_not_valid hvalid _)]
    have hlt : m.tiledSize ls < m.dscr.shape.span := by
      rw [hsize]
      exact (Nat.mul_lt_mul_of_pos_right hcount (by decide)).trans_le hspan
    have hne := htiled.pos_ne h.closed hlt hlook hx
    rw [hsize, ← pos_mod_two_pow h.lt (v + s.count * pageSize), haddr] at hne
    rw [look_memAllocPt h.closed hlvl h.path, if_neg hne]

/-- The search goes on behind an entry, with what it has counted. -/
theorem next {count : ℕ} {vpage : Option ℕ} (hcount : count ≤ n)
    (hleft : left + 1 = m.dscr.ptNentries s.lvl - m.dscr.ptGetpteindexByVa s.addr s.lvl)
    (hrun : ∃ v ls, v < 2 ^ 64 ∧ vpage = (if count = 0 then none else some v) ∧
      m.Tiled s.tables v ls ∧ m.tiledSize ls = count * pageSize ∧
        (v + count * pageSize) % 2 ^ 64 = (s.addr + m.dscr.ptLvlsize s.lvl) % 2 ^ 64 ∧
          ∀ a, at' = some a → v = a) :
    m.AllocInv t₀ at' n
      { s with
        addr := (s.addr + m.dscr.ptLvlsize s.lvl) % 2 ^ 64
        lvl := if left = 0 then 0 else s.lvl
        count := count
        vpage := vpage } where
  closed := h.closed
  leafAt := h.leafAt
  isReserved := h.isReserved
  table := h.table
  lt := by
    dsimp only
    split_ifs
    · exact m.dscr.lvls_pos
    · exact h.lt
  path := by
    dsimp only
    split_ifs with hzero
    · exact Radix.path_zero _
    · rw [path_mod_two_pow h.lt]
      refine h.path.congr fun i hi => congrArg (m.tab s.tables i) ?_
      refine Radix.Shape.pos_add_size h.lt hi ?_
      rw [PtDscr.ptNentries_eq h.lt, PtDscr.ptGetpteindexByVa_eq h.lt] at hleft
      omega
  page := pageSize_dvd_mod_two_pow.mpr (Nat.dvd_add h.page (PtDscr.pageSize_dvd_ptLvlsize h.lt))
  le := hcount
  failed := h.failed
  run := hrun

omit h in
theorem index_next (hlvl : lvl < m.dscr.lvls) (hleft : left ≠ 0)
    (h : left + 1 = m.dscr.ptNentries lvl - m.dscr.ptGetpteindexByVa a lvl) :
    left = m.dscr.ptNentries lvl -
      m.dscr.ptGetpteindexByVa ((a + m.dscr.ptLvlsize lvl) % 2 ^ 64) lvl := by
  rw [PtDscr.ptNentries_eq hlvl, PtDscr.ptGetpteindexByVa_eq hlvl] at h ⊢
  have hindex := Radix.Shape.index_add_size (g := m.dscr.shape) (l := lvl) (a := a) (by omega)
  have hmod : m.dscr.shape.index lvl ((a + m.dscr.ptLvlsize lvl) % 2 ^ 64) =
      m.dscr.shape.index lvl (a + m.dscr.ptLvlsize lvl) := by
    rw [Radix.Shape.index_eq hlvl, Radix.Shape.index_eq hlvl]
    exact congrArg (· % _) (pos_mod_two_pow hlvl _)
  change m.dscr.shape.index lvl (a + m.dscr.ptLvlsize lvl) = _ at hindex
  rw [hmod, hindex]
  omega

/-- The run with an entry that is counted. -/
theorem run_count (hvalid : m.fmt.pteValid (m.pteAt s.tables s.lvl s.addr) = false)
    (hres : m.fmt.pteReserved (m.pteAt s.tables s.lvl s.addr) = false)
    (halloc : m.pteAllocable (m.pteAt s.tables s.lvl s.addr) s.lvl (n - s.count) s.addr = true) :
    ∃ v ls, v < 2 ^ 64 ∧
      (if s.count = 0 then some s.addr else s.vpage) =
        (if s.count + m.dscr.lvlPages s.lvl = 0 then none else some v) ∧
      m.Tiled s.tables v ls ∧
      m.tiledSize ls = (s.count + m.dscr.lvlPages s.lvl) * pageSize ∧
      (v + (s.count + m.dscr.lvlPages s.lvl) * pageSize) % 2 ^ 64 =
        (s.addr + m.dscr.ptLvlsize s.lvl) % 2 ^ 64 ∧ ∀ a, at' = some a → v = a := by
  obtain ⟨v, ls, hv, hvpage, htiled, hsize, haddr, hat⟩ := h.run
  have hpages := PtDscr.lvlPages_pos h.lt
  have hsum : (s.count + m.dscr.lvlPages s.lvl) * pageSize =
      s.count * pageSize + m.dscr.ptLvlsize s.lvl := by
    rw [Nat.add_mul, PtDscr.lvlPages_mul h.lt]
  have hlook : m.look s.tables (v + m.tiledSize ls) = m.look s.tables s.addr := by
    rw [hsize, ← look_mod_two_pow h.closed, haddr]
  have hfst := congrArg Prod.fst (h.look_eq (pteTable_of_not_valid hvalid _))
  have hfree := h.isFree hvalid hres
  obtain ⟨hterm, hdvd⟩ : m.dscr.lvlTerm s.lvl = true ∧ m.dscr.ptLvlsize s.lvl ∣ s.addr := by
    rcases (pteAllocable_iff hvalid).mp halloc with hlast | ⟨hterm, -, hdvd⟩
    · rw [isLast, beq_iff_eq] at hlast
      obtain hlvl : s.lvl = m.dscr.lvls - 1 := by omega
      rw [hlvl, PtDscr.ptLvlsize_last]
      exact ⟨m.dscr.lvlTerm_last, h.page⟩
    · exact ⟨hterm, hdvd⟩
  refine ⟨v, ls ++ [s.lvl], hv, ?_, htiled.append (by rw [hlook, hfst]) ?_ hterm
    (hfree.congr hlook), ?_, ?_, hat⟩
  · rw [if_neg (Nat.add_pos_right s.count hpages).ne', hvpage]
    split_ifs with hzero
    · rw [hzero, Nat.zero_mul, Nat.add_zero, Nat.mod_eq_of_lt hv] at haddr
      rw [haddr]
    · rfl
  · rw [← ptLvlsize_dvd_mod_two_pow h.lt, hsize, haddr]
    exact hdvd
  · rw [tiledSize_append_singleton, hsize, hsum]
  · rw [hsum, ← Nat.add_assoc, ← Nat.mod_add_mod, haddr]

/-- The search goes on behind an obstacle. -/
theorem skip (hat : at' = none)
    (hleft : left + 1 = m.dscr.ptNentries s.lvl - m.dscr.ptGetpteindexByVa s.addr s.lvl) :
    m.AllocInv t₀ at' n
      { s with
        addr := (s.addr + m.dscr.ptLvlsize s.lvl) % 2 ^ 64
        lvl := if left = 0 then 0 else s.lvl
        count := 0
        vpage := none } := by
  refine h.next (Nat.zero_le n) hleft ⟨(s.addr + m.dscr.ptLvlsize s.lvl) % 2 ^ 64, [],
    Nat.mod_lt _ (Nat.two_pow_pos 64), rfl, trivial, (Nat.zero_mul _).symm, ?_, fun a ha => ?_⟩
  · rw [Nat.zero_mul, Nat.add_zero, Nat.mod_mod]
  · rw [hat] at ha
    cases ha

/-- The search goes on behind an entry that is counted. -/
theorem count (hcount : s.count < n)
    (hvalid : m.fmt.pteValid (m.pteAt s.tables s.lvl s.addr) = false)
    (hres : m.fmt.pteReserved (m.pteAt s.tables s.lvl s.addr) = false)
    (halloc : m.pteAllocable (m.pteAt s.tables s.lvl s.addr) s.lvl (n - s.count) s.addr = true)
    (hleft : left + 1 = m.dscr.ptNentries s.lvl - m.dscr.ptGetpteindexByVa s.addr s.lvl) :
    m.AllocInv t₀ at' n
      { s with
        addr := (s.addr + m.dscr.ptLvlsize s.lvl) % 2 ^ 64
        lvl := if left = 0 then 0 else s.lvl
        count := s.count + m.dscr.lvlPages s.lvl
        vpage := if s.count = 0 then some s.addr else s.vpage } :=
  h.next (add_lvlPages_le h.lt hcount hvalid halloc) hleft (h.run_count hvalid hres halloc)

omit h in
theorem not_last_of_not_allocable {pte : Pte} (hlvl : lvl < m.dscr.lvls)
    (hvalid : m.fmt.pteValid pte = false) (halloc : m.pteAllocable pte lvl left a ≠ true) :
    lvl + 1 < m.dscr.lvls := by
  refine lt_of_le_of_ne hlvl fun heq => halloc ((pteAllocable_iff hvalid).mpr (.inl ?_))
  rw [isLast, heq, beq_self_eq_true]

end AllocInv

/-- The search of the entries of one table ends at an entry, or with a failure. -/
theorem allocEntries_inv (hspan : n * pageSize ≤ m.dscr.shape.span)
    (h : m.AllocInv t₀ at' n s)
    (hleft : left = m.dscr.ptNentries s.lvl - m.dscr.ptGetpteindexByVa s.addr s.lvl) :
    m.AllocInv t₀ at' n (m.allocEntries at'.isSome n left s) ∨
      (m.allocEntries at'.isSome n left s).failed = true ∧
        (m.allocEntries at'.isSome n left s).vpage = none ∧
          m.SameLeaves t₀ (m.allocEntries at'.isSome n left s).tables := by
  induction left generalizing s with
  | zero => exact .inl h
  | succ left ih =>
      by_cases hcount : s.count < n
      swap
      · rw [allocEntries_of_le (Nat.not_lt.mp hcount)]
        exact .inl h
      have hrest : ∀ count vpage, m.AllocInv t₀ at' n { s with
          addr := (s.addr + m.dscr.ptLvlsize s.lvl) % 2 ^ 64
          lvl := if left = 0 then 0 else s.lvl
          count := count
          vpage := vpage } →
          m.AllocInv t₀ at' n
            (m.allocRest at'.isSome n left { s with count := count, vpage := vpage }) ∨
          (m.allocRest at'.isSome n left { s with count := count, vpage := vpage }).failed = true ∧
          (m.allocRest at'.isSome n left { s with count := count, vpage := vpage }).vpage = none ∧
          m.SameLeaves t₀
            (m.allocRest at'.isSome n left { s with count := count, vpage := vpage }).tables := by
        intro count vpage hnext
        rw [allocRest]
        split_ifs at hnext ⊢ with hzero
        · exact .inl hnext
        · exact ih hnext (AllocInv.index_next h.lt hzero hleft)
      by_cases htable : m.fmt.pteTable (m.isLast s.lvl) (m.pteAt s.tables s.lvl s.addr) = true
      · rw [allocEntries_table hcount h.failed (h.pteReserved_of_table htable) htable]
        exact .inl (h.descend htable)
      rw [Bool.not_eq_true] at htable
      by_cases hobst : m.fmt.pteReserved (m.pteAt s.tables s.lvl s.addr) = true ∨
          m.fmt.pteValid (m.pteAt s.tables s.lvl s.addr) = true
      · rw [allocEntries_obstacle hcount h.failed hobst htable]
        cases at' with
        | some a => exact .inr ⟨rfl, rfl, h.sameLeaves⟩
        | none => exact hrest 0 none (h.skip rfl hleft)
      rw [not_or, Bool.not_eq_true, Bool.not_eq_true] at hobst
      obtain ⟨hres, hvalid⟩ := hobst
      by_cases halloc : m.pteAllocable (m.pteAt s.tables s.lvl s.addr) s.lvl (n - s.count)
          s.addr = true
      · rw [allocEntries_count hcount h.failed hvalid hres halloc]
        exact hrest _ _ (h.count hcount hvalid hres halloc hleft)
      · have hlvl := AllocInv.not_last_of_not_allocable h.lt hvalid halloc
        rw [Bool.not_eq_true] at halloc
        rw [allocEntries_split hcount h.failed hlvl hvalid hres halloc]
        exact .inl (h.split hspan hcount hlvl hvalid)

theorem allocSearch_of_failed {given : Bool} {s' : AllocState} (hfailed : s.failed = true)
    (h : m.allocSearch given n sec rounds s = some s') : s' = s := by
  cases rounds with
  | zero => cases h
  | succ rounds =>
      rw [allocSearch, if_neg] at h
      · exact (Option.some.inj h).symm
      · rintro ⟨-, hok⟩
        rw [hfailed] at hok
        cases hok

/-- The search ends with free pages counted, or with a failure. -/
theorem allocSearch_inv (hspan : n * pageSize ≤ m.dscr.shape.span) (h : m.AllocInv t₀ at' n s)
    {s' : AllocState} (hs : m.allocSearch at'.isSome n sec rounds s = some s') :
    m.AllocInv t₀ at' n s' ∧ s'.count = n ∨
      s'.failed = true ∧ s'.vpage = none ∧ m.SameLeaves t₀ s'.tables := by
  induction rounds generalizing s with
  | zero => cases hs
  | succ rounds ih =>
      rw [allocSearch] at hs
      by_cases hcount : s.count < n
      · rw [if_pos ⟨hcount, h.failed⟩] at hs
        cases hspace : sec.hasSpace n s.addr with
        | false =>
            rw [hspace, Bool.not_false, if_pos rfl] at hs
            rw [← Option.some.inj hs]
            exact .inr ⟨rfl, rfl, h.sameLeaves⟩
        | true =>
            rw [hspace, Bool.not_true, if_neg Bool.false_ne_true, ptGetPte, if_pos h.path,
              Option.bind_some] at hs
            rcases allocEntries_inv hspan h rfl with hinv | hend
            · exact ih hinv hs
            · rw [allocSearch_of_failed hend.1 hs]
              exact .inr hend
      · rw [if_neg fun hc => hcount hc.1] at hs
        rw [← Option.some.inj hs]
        exact .inl ⟨h, le_antisymm h.le (Nat.not_lt.mp hcount)⟩

theorem allocInv_start (hclosed : m.Closed t) (hmark : m.Unmarked t) (ha : a < 2 ^ 64)
    (hpage : pageSize ∣ a) (hat : ∀ b, at' = some b → a = b) :
    m.AllocInv t at' n (allocStart t a) where
  closed := hclosed
  leafAt := fun _ => rfl
  isReserved := fun _ => rfl
  table := hmark
  lt := m.dscr.lvls_pos
  path := Radix.path_zero a
  page := hpage
  le := Nat.zero_le n
  failed := rfl
  run := by
    refine ⟨a, [], ha, rfl, trivial, (Nat.zero_mul _).symm, ?_, hat⟩
    change (a + 0 * pageSize) % 2 ^ 64 = a
    rw [Nat.zero_mul, Nat.add_zero, Nat.mod_eq_of_lt ha]

/-! ## The pages are marked -/

theorem pteValid_of_invalidLvl {i k : ℕ} (h : m.invalidLvl t a k lvl = some i) :
    m.fmt.pteValid (m.pteAt t i a) = false := by
  induction k generalizing lvl with
  | zero => cases h
  | succ k ih =>
      rw [invalidLvl, ptGetPte] at h
      split_ifs at h with hpath
      · rw [Option.bind_some] at h
        split_ifs at h with hvalid
        · rw [← Option.some.inj h, ← Bool.not_eq_true']
          exact hvalid
        · exact ih h
      · cases h

theorem invalidLvl_eq (hclosed : m.Closed t) (hvalid : m.fmt.pteValid (m.look t a).2 = false)
    {k : ℕ} (hpath : m.Path t lvl a) (hk : m.dscr.lvls ≤ lvl + k) :
    m.invalidLvl t a k lvl = some (m.look t a).1 := by
  have hle := (path_iff_le_look hclosed).mp hpath
  have hlt := look_fst_lt hclosed a
  induction k generalizing lvl with
  | zero => omega
  | succ k ih =>
      rw [invalidLvl, ptGetPte, if_pos hpath, Option.bind_some]
      rcases hle.lt_or_eq with hlvl | rfl
      · have hnext : m.Path t (lvl + 1) a := (path_iff_le_look hclosed).mpr hlvl
        have htable : m.fmt.pteTable (m.isLast lvl) (m.pteAt t lvl a) = true :=
          (Radix.path_succ_iff.mp hnext).2
        rw [m.fmt.pteValid_of_pteTable _ _ htable, Bool.not_true, if_neg Bool.false_ne_true]
        exact ih hnext (by omega) hlvl
      · rw [← look_snd, hvalid, Bool.not_false, if_pos rfl]

/-- What marking the entries that tile a range does: all addresses of it are reserved, and
otherwise all walks find what they did. -/
structure Marked (m : Mmu) (t t' : PtEntries) (a : ℕ) (ls : List ℕ) : Prop where
  closed : m.Closed t'
  level : ∀ b, (m.look t' b).1 = (m.look t b).1
  leafAt : ∀ b, m.leafAt t' b = m.leafAt t b
  mono : ∀ b, m.isReserved t b = true → m.isReserved t' b = true
  reserved : ∀ x < m.tiledSize ls, m.isReserved t' (a + x) = true
  frame : ∀ b, (∀ x < m.tiledSize ls, b % m.dscr.shape.span ≠ (a + x) % m.dscr.shape.span) →
    m.isReserved t' b = m.isReserved t b

theorem IsFree.pteValid (h : m.IsFree t a) : m.fmt.pteValid (m.look t a).2 = false := by
  rw [← isSome_leafAt, h.leafAt, Option.isSome_none]

theorem Marked.refl (hclosed : m.Closed t) (a : ℕ) : m.Marked t t a [] :=
  ⟨hclosed, fun _ => rfl, fun _ => rfl, fun _ => id, fun x hx => absurd hx (Nat.not_lt_zero x),
    fun _ _ => rfl⟩

theorem Marked.cons {t'' : PtEntries} {l : ℕ} (h : m.Marked t t' a [l])
    (h' : m.Marked t' t'' (a + m.dscr.ptLvlsize l) ls) : m.Marked t t'' a (l :: ls) where
  closed := h'.closed
  level := fun b => (h'.level b).trans (h.level b)
  leafAt := fun b => (h'.leafAt b).trans (h.leafAt b)
  mono := fun b hb => h'.mono b (h.mono b hb)
  reserved := fun x hx => by
    rw [tiledSize_cons] at hx
    by_cases hlt : x < m.dscr.ptLvlsize l
    · exact h'.mono _ (h.reserved x hlt)
    · obtain ⟨y, rfl⟩ := Nat.exists_eq_add_of_le (Nat.not_lt.mp hlt)
      rw [← Nat.add_assoc]
      exact h'.reserved y (Nat.lt_of_add_lt_add_left hx)
  frame := fun b hb => by
    rw [tiledSize_cons] at hb
    rw [h'.frame b fun x hx => ?_, h.frame b fun x hx => ?_]
    · rw [tiledSize_cons, tiledSize, List.map_nil, List.sum_nil, Nat.add_zero] at hx
      exact hb x (hx.trans_le (Nat.le_add_right _ _))
    · rw [Nat.add_assoc]
      exact hb _ (Nat.add_lt_add_left hx _)

/-- The pass finds the entry of an address that is free, and marks it. -/
theorem Tiled.mark (hclosed : m.Closed t) {l : ℕ} (h : m.Tiled t a (l :: ls))
    (hspan : m.tiledSize (l :: ls) ≤ m.dscr.shape.span) :
    m.invalidLvl t (a % 2 ^ 64) m.dscr.lvls 0 = some l ∧
      m.Marked t (m.setPte t l (a % 2 ^ 64) (m.fmt.pteReserve (m.pteAt t l (a % 2 ^ 64)))) a [l] ∧
      m.Tiled (m.setPte t l (a % 2 ^ 64) (m.fmt.pteReserve (m.pteAt t l (a % 2 ^ 64))))
        (a + m.dscr.ptLvlsize l) ls := by
  obtain ⟨⟨hl, hdvd, -, hfree⟩, hrest⟩ := h
  have hlvl : l < m.dscr.lvls := by
    rw [← hl]
    exact look_fst_lt hclosed a
  have hlook := look_mod_two_pow hclosed a
  have hvalid := hfree.pteValid
  have hpath : m.Path t l (a % 2 ^ 64) := (path_iff_le_look hclosed).mpr (by rw [hlook, hl])
  have hpte : m.pteAt t l (a % 2 ^ 64) = (m.look t a).2 := by
    rw [← hlook, look_snd, hlook, hl]
  have hmark : m.fmt.pteValid (m.fmt.pteReserve (m.look t a).2) = false := by
    rw [m.fmt.pteValid_pteReserve, hvalid]
  have hreserved : m.fmt.pteReserved (m.fmt.pteReserve (m.look t a).2) = true :=
    m.fmt.pteReserved_pteReserve _
  have htable := pteTable_of_not_valid hmark (m.isLast l)
  have hclosed' := closed_setPte hclosed hlvl hpath htable
  have hset := look_setPte hclosed hlvl hpath htable
  rw [pos_mod_two_pow hlvl] at hset
  have hentry : ∀ b, m.dscr.pos l b = m.dscr.pos l a → m.look t b = m.look t a := by
    intro b hb
    rw [← hl] at hb
    exact look_of_pos_eq hclosed hb
  rw [hpte]
  refine ⟨?_, ⟨hclosed', fun b => ?_, fun b => ?_, fun b hb => ?_, fun x hx => ?_,
    fun b hb => ?_⟩, hrest.congr fun x hx => ?_⟩
  · rw [invalidLvl_eq hclosed (by rw [hlook, hvalid]) (Radix.path_zero _) (Nat.zero_add _).ge,
      hlook, hl]
  · rw [hset]
    split_ifs with hpos
    · rw [hentry b hpos, hl]
    · rfl
  · by_cases hpos : m.dscr.pos l b = m.dscr.pos l a
    · rw [leafAt_congr (hentry b hpos), hfree.leafAt, Mmu.leafAt, hset, if_pos hpos, if_neg]
      rw [hmark]
      exact Bool.false_ne_true
    · refine leafAt_congr ?_
      rw [hset, if_neg hpos]
  · rw [isReserved, hset]
    split_ifs with hpos
    · rw [hmark, hreserved]
      rfl
    · exact hb
  · have hpos : m.dscr.pos l (a + x) = m.dscr.pos l a := Radix.Shape.pos_add hdvd hx
    rw [isReserved, hset, if_pos hpos, hmark, hreserved]
    rfl
  · refine isReserved_congr ?_
    rw [hset, if_neg]
    intro hpos
    obtain ⟨x, hx, hmod⟩ := (Radix.Shape.pos_eq_iff (g := m.dscr.shape) hlvl hdvd).mp hpos
    refine hb x ?_ hmod
    rwa [tiledSize_cons, tiledSize, List.map_nil, List.sum_nil, Nat.add_zero]
  · rw [hset, if_neg]
    refine Radix.Shape.pos_ne_of_le (g := m.dscr.shape) hlvl hdvd (Nat.le_add_right _ _) ?_
    rw [tiledSize_cons] at hspan
    rw [Nat.add_assoc]
    exact Nat.add_lt_add_left ((Nat.add_lt_add_left hx _).trans_le hspan) a

theorem markReserved_marked (count rounds : ℕ) (hclosed : m.Closed t) (h : m.Tiled t a ls)
    (hsize : m.tiledSize ls + count * pageSize = n * pageSize)
    (hspan : m.tiledSize ls ≤ m.dscr.shape.span) (hrounds : n - count < rounds) :
    ∃ t', m.markReserved n rounds t (a % 2 ^ 64) count = some t' ∧ m.Marked t t' a ls := by
  induction rounds generalizing t a ls count with
  | zero => exact absurd hrounds (Nat.not_lt_zero _)
  | succ rounds ih =>
      rw [markReserved]
      cases ls with
      | nil =>
          rw [tiledSize, List.map_nil, List.sum_nil, Nat.zero_add] at hsize
          rw [if_neg fun hlt => absurd hsize (Nat.mul_lt_mul_of_pos_right hlt (by decide)).ne]
          exact ⟨t, rfl, .refl hclosed a⟩
      | cons l ls =>
          obtain ⟨hinvalid, hmark, hrest⟩ := h.mark hclosed hspan
          have hlvl : l < m.dscr.lvls := by
            rw [← h.1.1]
            exact look_fst_lt hclosed a
          have hlpos : 0 < m.dscr.ptLvlsize l := PtDscr.ptLvlsize_pos
          have hpages := PtDscr.lvlPages_mul hlvl
          have hppos := PtDscr.lvlPages_pos hlvl
          rw [tiledSize_cons] at hsize hspan
          have hcount : count < n := by
            refine Nat.lt_of_mul_lt_mul_right (a := pageSize) ?_
            omega
          rw [if_pos hcount, hinvalid, Option.bind_some, Nat.mod_add_mod]
          obtain ⟨t', ht', hmarked⟩ := ih (count + m.dscr.lvlPages l) hmark.closed hrest
            (by rw [Nat.add_mul, hpages]; omega) (by omega) (by omega)
          exact ⟨t', ht', hmark.cons hmarked⟩

/-! ## Calls -/

/-- A call looks for pages iff the target address is in the section and a page starts at it. -/
def Searches (m : Mmu) (sec : VaSection) (idx : ℕ) (at' : Option ℕ) : Prop :=
  (∀ a, at' = some a → m.memFindSec a = some idx) ∧ at'.getD sec.beg ≤ sec.last ∧
    pageSize ∣ at'.getD sec.beg

theorem memAllocVpage_of_searches {idx : ℕ} (hsec : m.sections[idx]? = some sec)
    (h : m.Searches sec idx at') :
    m.memAllocVpage n rounds t idx at' =
      (m.allocSearch at'.isSome n sec rounds (allocStart t (at'.getD sec.beg))).bind
        (m.allocMark n) := by
  have hfind : ¬ (at'.isSome = true ∧ at'.bind m.memFindSec ≠ some idx) := by
    rintro ⟨hsome, hne⟩
    obtain ⟨a, rfl⟩ := Option.isSome_iff_exists.mp hsome
    exact hne (h.1 a rfl)
  rw [memAllocVpage, hsec, Option.bind_some, if_neg hfind]
  dsimp only
  rw [if_neg fun hor => hor.elim (Nat.not_lt.mpr h.2.1) (not_not.mpr h.2.2)]

theorem memAllocVpage_of_not_searches {idx : ℕ} (hsec : m.sections[idx]? = some sec)
    (h : ¬ m.Searches sec idx at') : m.memAllocVpage n rounds t idx at' = some (t, none) := by
  rw [memAllocVpage, hsec, Option.bind_some]
  by_cases hfind : at'.isSome = true ∧ at'.bind m.memFindSec ≠ some idx
  · rw [if_pos hfind]
  · rw [if_neg hfind]
    dsimp only
    rw [if_pos]
    by_contra haddr
    rw [not_or, not_lt, not_not] at haddr
    refine h ⟨fun a ha => ?_, haddr⟩
    by_contra hne
    exact hfind ⟨by rw [ha]; rfl, by rwa [ha]⟩

/-- What a call that returns pages does, wherever they are. -/
structure Reserves (m : Mmu) (t t' : PtEntries) (at' : Option ℕ) (v n : ℕ) : Prop where
  lt : v < 2 ^ 64
  target : ∀ a, at' = some a → v = a
  closed : m.Closed t'
  leafAt : ∀ b, m.leafAt t' b = m.leafAt t b
  free : ∀ x < n * pageSize, m.IsFree t (v + x)
  reserved : ∀ x < n * pageSize, m.isReserved t' (v + x) = true
  frame : ∀ b, (∀ x < n * pageSize, b % m.dscr.shape.span ≠ (v + x) % m.dscr.shape.span) →
    m.isReserved t' b = m.isReserved t b
  term : ∀ x < n * pageSize, m.dscr.lvlTerm (m.look t' (v + x)).1 = true

/-- Pages that the search has counted are marked. -/
theorem AllocInv.allocMark (h : m.AllocInv t₀ at' n s) (hspan : n * pageSize ≤ m.dscr.shape.span)
    (hn : 0 < n) (hcount : s.count = n) :
    ∃ v t', s.vpage = some v ∧ m.allocMark n s = some (t', some v) ∧ m.Reserves t₀ t' at' v n := by
  obtain ⟨v, ls, hv, hvpage, htiled, hsize, -, hat⟩ := h.run
  rw [hcount] at hvpage hsize
  rw [if_neg hn.ne'] at hvpage
  obtain ⟨t', ht', hmarked⟩ := markReserved_marked (n := n) 0 (n + 1) h.closed htiled
    (by rw [hsize, Nat.zero_mul, Nat.add_zero]) (by rw [hsize]; exact hspan) (by omega)
  rw [Nat.mod_eq_of_lt hv] at ht'
  refine ⟨v, t', hvpage, ?_, hv, hat, hmarked.closed,
    fun b => (hmarked.leafAt b).trans (h.leafAt b), fun x hx => ?_, fun x hx => ?_,
    fun b hb => (hmarked.frame b (hsize ▸ hb)).trans (h.isReserved b), fun x hx => ?_⟩
  · rw [Mmu.allocMark, hvpage, h.failed]
    dsimp only
    rw [ht', Option.map_some]
  · have hfree := htiled.isFree h.closed (hsize ▸ hx)
    exact ⟨(h.leafAt _).symm.trans hfree.leafAt, (h.isReserved _).symm.trans hfree.isReserved⟩
  · exact hmarked.reserved x (hsize ▸ hx)
  · obtain ⟨c, l, -, -, -, hterm, -, hl, hlook, -⟩ :=
      htiled.exists_entry h.closed (hsize ▸ hx : x < m.tiledSize ls)
    rw [hmarked.level, hlook, hl]
    exact hterm

/-- A call returns pages iff its search counts them, and then reserves them. -/
theorem memAllocVpage_eq_some_iff {idx v : ℕ} (hclosed : m.Closed t) (hmark : m.Unmarked t)
    (hspan : n * pageSize ≤ m.dscr.shape.span) (hn : 0 < n) (hsec : m.sections[idx]? = some sec)
    (hlast : sec.last ≤ maxVa) :
    m.memAllocVpage n rounds t idx at' = some (t', some v) ↔
      m.Searches sec idx at' ∧
        ∃ s, m.allocSearch at'.isSome n sec rounds (allocStart t (at'.getD sec.beg)) = some s ∧
          s.vpage = some v ∧ m.allocMark n s = some (t', some v) ∧ m.Reserves t t' at' v n := by
  by_cases hsearch : m.Searches sec idx at'
  swap
  · rw [memAllocVpage_of_not_searches hsec hsearch]
    exact iff_of_false (fun h => by cases h) fun h => hsearch h.1
  rw [memAllocVpage_of_searches hsec hsearch, and_iff_right hsearch]
  have hstart : m.AllocInv t at' n (allocStart t (at'.getD sec.beg)) := by
    refine allocInv_start hclosed hmark (hsearch.2.1.trans_lt ?_) hsearch.2.2
      fun b hb => by rw [hb]; rfl
    exact Nat.lt_of_le_of_lt hlast (by decide)
  refine ⟨fun h => ?_, ?_⟩
  · obtain ⟨s, hs, hmark⟩ := Option.bind_eq_some_iff.mp h
    refine ⟨s, hs, ?_⟩
    rcases allocSearch_inv hspan hstart hs with ⟨hinv, hcount⟩ | ⟨-, hvpage, -⟩
    · obtain ⟨w, t₁, hvpage, hmark', hres⟩ := hinv.allocMark hspan hn hcount
      rw [hmark'] at hmark
      cases hmark
      exact ⟨hvpage, hmark', hres⟩
    · rw [allocMark, hvpage] at hmark
      cases hmark
  · rintro ⟨s, hs, -, hmark, -⟩
    rw [hs, Option.bind_some, hmark]

theorem unmarked_markReserved {rounds count : ℕ} (hmark : m.Unmarked t)
    (h : m.markReserved n rounds t a count = some t') : m.Unmarked t' := by
  induction rounds generalizing t a count with
  | zero => cases h
  | succ rounds ih =>
      rw [markReserved] at h
      split_ifs at h
      · obtain ⟨lvl, hlvl, hrest⟩ := Option.bind_eq_some_iff.mp h
        refine ih (hmark.setPte (pteTable_of_not_valid ?_ _)) hrest
        rw [m.fmt.pteValid_pteReserve]
        exact pteValid_of_invalidLvl hlvl
      · rw [← Option.some.inj h]
        exact hmark

theorem allocInv_of_memAllocVpage {idx v : ℕ} (hclosed : m.Closed t) (hmark : m.Unmarked t)
    (hspan : n * pageSize ≤ m.dscr.shape.span) (hn : 0 < n) (hsec : m.sections[idx]? = some sec)
    (hlast : sec.last ≤ maxVa) (h : m.memAllocVpage n rounds t idx at' = some (t', some v)) :
    ∃ s, m.AllocInv t at' n s ∧ s.count = n ∧ s.vpage = some v ∧
      m.allocMark n s = some (t', some v) := by
  obtain ⟨hsearch, s, hs, hvpage, hallocMark, -⟩ :=
    (memAllocVpage_eq_some_iff hclosed hmark hspan hn hsec hlast).mp h
  have hstart : m.AllocInv t at' n (allocStart t (at'.getD sec.beg)) := by
    refine allocInv_start hclosed hmark (hsearch.2.1.trans_lt ?_) hsearch.2.2 fun b hb => by
      rw [hb]; rfl
    exact Nat.lt_of_le_of_lt hlast (by decide)
  rcases allocSearch_inv hspan hstart hs with ⟨hinv, hcount⟩ | ⟨-, hnone, -⟩
  · exact ⟨s, hinv, hcount, hvpage, hallocMark⟩
  · rw [hvpage] at hnone
    cases hnone

theorem unmarked_memAllocVpage {idx v : ℕ} (hclosed : m.Closed t) (hmark : m.Unmarked t)
    (hspan : n * pageSize ≤ m.dscr.shape.span) (hn : 0 < n) (hsec : m.sections[idx]? = some sec)
    (hlast : sec.last ≤ maxVa) (h : m.memAllocVpage n rounds t idx at' = some (t', some v)) :
    m.Unmarked t' := by
  obtain ⟨s, hinv, -, hvpage, hallocMark⟩ :=
    allocInv_of_memAllocVpage hclosed hmark hspan hn hsec hlast h
  rw [allocMark, hvpage, hinv.failed] at hallocMark
  obtain ⟨t₁, ht₁, heq⟩ := Option.map_eq_some_iff.mp hallocMark
  cases heq
  exact unmarked_markReserved hinv.table ht₁

/-- A call that returns no pages leaves all leaves and marks as they were. -/
theorem sameLeaves_memAllocVpage {idx : ℕ} (hclosed : m.Closed t) (hmark : m.Unmarked t)
    (hspan : n * pageSize ≤ m.dscr.shape.span) (hn : 0 < n) (hsec : m.sections[idx]? = some sec)
    (hlast : sec.last ≤ maxVa)
    (h : m.memAllocVpage n rounds t idx at' = some (t', none)) : m.SameLeaves t t' := by
  by_cases hsearch : m.Searches sec idx at'
  · rw [memAllocVpage_of_searches hsec hsearch] at h
    obtain ⟨s, hs, hend⟩ := Option.bind_eq_some_iff.mp h
    have hstart : m.AllocInv t at' n (allocStart t (at'.getD sec.beg)) := by
      refine allocInv_start hclosed hmark (hsearch.2.1.trans_lt ?_) hsearch.2.2 fun b hb => by
        rw [hb]; rfl
      exact Nat.lt_of_le_of_lt hlast (by decide)
    rcases allocSearch_inv hspan hstart hs with ⟨hinv, hcount⟩ | ⟨-, hvpage, hsame⟩
    · obtain ⟨v, t₁, -, hmarked, -⟩ := hinv.allocMark hspan hn hcount
      rw [hmarked] at hend
      cases hend
    · rw [allocMark, hvpage] at hend
      cases hend
      exact hsame
  · rw [memAllocVpage_of_not_searches hsec hsearch] at h
    cases h
    exact ⟨hclosed, hmark, fun _ => rfl, fun _ => rfl⟩

theorem pageSize_dvd_memAllocVpage {idx v : ℕ} (hclosed : m.Closed t) (hmark : m.Unmarked t)
    (hspan : n * pageSize ≤ m.dscr.shape.span) (hn : 0 < n) (hsec : m.sections[idx]? = some sec)
    (hlast : sec.last ≤ maxVa) (h : m.memAllocVpage n rounds t idx at' = some (t', some v)) :
    pageSize ∣ v := by
  obtain ⟨s, hinv, hcount, hvpage, -⟩ :=
    allocInv_of_memAllocVpage hclosed hmark hspan hn hsec hlast h
  obtain ⟨w, ls, -, hw, htiled, hsize, -⟩ := hinv.run
  rw [hvpage, hcount, if_neg hn.ne', Option.some.injEq] at hw
  cases ls with
  | nil =>
      rw [tiledSize, List.map_nil, List.sum_nil, hcount] at hsize
      exact absurd hsize (Nat.mul_pos hn (by decide)).ne
  | cons l ls =>
      obtain ⟨⟨hlook, hdvd, -, -⟩, -⟩ := htiled
      rw [hw]
      refine (PtDscr.pageSize_dvd_ptLvlsize ?_).trans hdvd
      rw [← hlook]
      exact look_fst_lt hinv.closed w

end Mmu

end BaoHypervisor
