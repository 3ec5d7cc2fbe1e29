import BaoHypervisor.Core.Mem.PageTable.AllocLaw

/-!
# The search for pages, by the tables before the call

How the search of `mem_alloc_vpage` goes is seen from the tables before the call (`allocWalk`): an
entry that the search has split is not looked at again at an address that it could be counted
from. So the two go the same way (`allocSearch_sim`) as long as the addresses do not come round to
those where the search began.
-/

namespace BaoHypervisor

/-- Where the search is, as seen from the tables before the call: `again` tells that it has come
to an obstacle since the last space check, `blocked` that it stopped at one. -/
structure AllocWalk where
  lvl : ℕ
  addr : ℕ
  count : ℕ
  again : Bool
  blocked : Bool

/-- The ends of a search: with a run of pages, which ends at an address; at an obstacle; at a space
check that fails; and at one that passes although the section has no room for the pages, or behind
the addresses that the root table tells apart. -/
inductive AllocEnd
  | run (again : Bool) (top : ℕ)
  | blocked
  | noSpace
  | lost
deriving DecidableEq

namespace Mmu

variable (m : Mmu) (t : PtEntries)

instance (va : ℕ) : Decidable (m.IsFree t va) :=
  decidable_of_iff (m.leafAt t va = none ∧ m.isReserved t va = false)
    ⟨fun h => ⟨h.1, h.2⟩, fun h => ⟨h.1, h.2⟩⟩

/-- An entry of a level can be counted from an address on, if it is free. -/
def AllocFits (lvl left addr : ℕ) : Prop :=
  m.isLast lvl = true ∨ m.dscr.lvlTerm lvl = true ∧ m.dscr.ptLvlsize lvl ≤ left * pageSize ∧
    m.dscr.ptLvlsize lvl ∣ addr

instance (lvl left addr : ℕ) : Decidable (m.AllocFits lvl left addr) :=
  inferInstanceAs (Decidable (_ ∨ _))

variable (given : Bool) (n : ℕ)

/-- One entry, and whether the search goes on with the next one. -/
def walkEntry (w : AllocWalk) : AllocWalk × Bool :=
  let next := { w with addr := w.addr + m.dscr.ptLvlsize w.lvl }
  if w.lvl < (m.look t w.addr).1 then ({ w with lvl := w.lvl + 1 }, false)
  else if ¬ m.IsFree t w.addr then
    if given then ({ w with blocked := true }, false)
    else ({ next with count := 0, again := true }, true)
  else if m.AllocFits w.lvl (n - w.count) w.addr then
    ({ next with count := w.count + m.dscr.lvlPages w.lvl }, true)
  else ({ w with lvl := w.lvl + 1 }, false)

/-- The entries of one table, with the entries that it has left. -/
def walkEntries : ℕ → AllocWalk → AllocWalk
  | 0, w => w
  | left + 1, w =>
      if w.count < n then
        let r := m.walkEntry t given n w
        if r.2 then if left = 0 then { r.1 with lvl := 0 } else walkEntries left r.1 else r.1
      else w

/-- The search over the tables, up to the end of the addresses that the root table tells apart. -/
def allocWalk (sec : VaSection) (lapEnd : ℕ) : ℕ → AllocWalk → Option AllocEnd
  | 0, _ => none
  | rounds + 1, w =>
      if w.blocked then some .blocked
      else if n ≤ w.count then some (.run w.again w.addr)
      else if !sec.hasSpace n (w.addr % 2 ^ 64) then some .noSpace
      else if w.addr + n * pageSize ≤ sec.last + 1 ∧ w.addr < lapEnd then
        allocWalk sec lapEnd rounds (m.walkEntries t given n
          (m.dscr.ptNentries w.lvl - m.dscr.ptGetpteindexByVa w.addr w.lvl)
          { w with again := false })
      else some .lost

/-- The search from an address on ends so. -/
def AllocEnds (sec : VaSection) (given : Bool) (start n : ℕ) (e : AllocEnd) : Prop :=
  ∃ rounds, m.allocWalk t given n sec ((start / m.dscr.shape.span + 1) * m.dscr.shape.span) rounds
    ⟨0, start, 0, false, false⟩ = some e

variable {m t} {t₀ : PtEntries} {given : Bool} {n left rounds start lapEnd c : ℕ} {sec : VaSection}
  {w : AllocWalk} {s : AllocState} {at' : Option ℕ} {e e' : AllocEnd}

/-- A search has one end. -/
theorem allocWalk_unique {rounds' : ℕ}
    (h : m.allocWalk t given n sec lapEnd rounds w = some e)
    (h' : m.allocWalk t given n sec lapEnd rounds' w = some e') : e = e' := by
  induction rounds generalizing w rounds' with
  | zero => cases h
  | succ rounds ih =>
      cases rounds' with
      | zero => cases h'
      | succ rounds' =>
          rw [allocWalk] at h h'
          split_ifs at h h'
          · exact Option.some.inj (h.symm.trans h')
          · exact Option.some.inj (h.symm.trans h')
          · exact Option.some.inj (h.symm.trans h')
          · exact ih h h'
          · exact Option.some.inj (h.symm.trans h')

theorem AllocEnds.unique (h : m.AllocEnds t sec given start n e)
    (h' : m.AllocEnds t sec given start n e') : e = e' := by
  obtain ⟨rounds, hrounds⟩ := h
  obtain ⟨rounds', hrounds'⟩ := h'
  exact allocWalk_unique hrounds hrounds'

/-! ## One entry -/

theorem walkEntry_table (htable : w.lvl < (m.look t w.addr).1) :
    m.walkEntry t given n w = ({ w with lvl := w.lvl + 1 }, false) := by
  rw [walkEntry, if_pos htable]

theorem walkEntry_obstacle (given : Bool) (n : ℕ)
    (htable : ¬ w.lvl < (m.look t w.addr).1) (hfree : ¬ m.IsFree t w.addr) :
    m.walkEntry t given n w =
      if given then ({ w with blocked := true }, false)
      else ({ w with
        addr := w.addr + m.dscr.ptLvlsize w.lvl
        count := 0
        again := true }, true) := by
  rw [walkEntry, if_neg htable, if_pos hfree]

theorem walkEntry_count (htable : ¬ w.lvl < (m.look t w.addr).1) (hfree : m.IsFree t w.addr)
    (hfits : m.AllocFits w.lvl (n - w.count) w.addr) :
    m.walkEntry t given n w =
      ({ w with
        addr := w.addr + m.dscr.ptLvlsize w.lvl
        count := w.count + m.dscr.lvlPages w.lvl }, true) := by
  rw [walkEntry, if_neg htable, if_neg (not_not.mpr hfree), if_pos hfits]

theorem walkEntry_split (htable : ¬ w.lvl < (m.look t w.addr).1) (hfree : m.IsFree t w.addr)
    (hfits : ¬ m.AllocFits w.lvl (n - w.count) w.addr) :
    m.walkEntry t given n w = ({ w with lvl := w.lvl + 1 }, false) := by
  rw [walkEntry, if_neg htable, if_neg (not_not.mpr hfree), if_neg hfits]

/-- What one entry can do: the search stays at its address, or goes on behind it. -/
theorem walkEntry_cases (m : Mmu) (t : PtEntries) (given : Bool) (n : ℕ) (w : AllocWalk) :
    m.walkEntry t given n w = ({ w with lvl := w.lvl + 1 }, false) ∨
      (given = true ∧ ¬ m.IsFree t w.addr ∧
        m.walkEntry t given n w = ({ w with blocked := true }, false)) ∨
      (given = false ∧ m.walkEntry t given n w =
        ({ w with
          addr := w.addr + m.dscr.ptLvlsize w.lvl
          count := 0
          again := true }, true)) ∨
      (m.IsFree t w.addr ∧ m.walkEntry t given n w =
        ({ w with
          addr := w.addr + m.dscr.ptLvlsize w.lvl
          count := w.count + m.dscr.lvlPages w.lvl }, true)) := by
  by_cases htable : w.lvl < (m.look t w.addr).1
  · exact .inl (walkEntry_table htable)
  · by_cases hfree : m.IsFree t w.addr
    · by_cases hfits : m.AllocFits w.lvl (n - w.count) w.addr
      · exact .inr (.inr (.inr ⟨hfree, walkEntry_count htable hfree hfits⟩))
      · exact .inl (walkEntry_split htable hfree hfits)
    · have hobst := walkEntry_obstacle given n htable hfree
      cases given with
      | true => exact .inr (.inl ⟨rfl, hfree, hobst⟩)
      | false => exact .inr (.inr (.inl ⟨rfl, hobst⟩))

theorem walkEntries_of_le (hcount : n ≤ w.count) : m.walkEntries t given n left w = w := by
  cases left with
  | zero => rfl
  | succ left => rw [walkEntries, if_neg (Nat.not_lt.mpr hcount)]

theorem walkEntries_stop {w' : AllocWalk} (hcount : w.count < n)
    (h : m.walkEntry t given n w = (w', false)) :
    m.walkEntries t given n (left + 1) w = w' := by
  rw [walkEntries, if_pos hcount, h]
  rfl

theorem walkEntries_next {w' : AllocWalk} (hcount : w.count < n)
    (h : m.walkEntry t given n w = (w', true)) :
    m.walkEntries t given n (left + 1) w =
      if left = 0 then { w' with lvl := 0 } else m.walkEntries t given n left w' := by
  rw [walkEntries, if_pos hcount, h]
  rfl

/-! ## Where the search is -/

/-- The addresses of a search that began at `start` and was at `c` at the last space check. -/
structure WalkBounds (m : Mmu) (given : Bool) (start lapEnd c : ℕ) (w : AllocWalk) : Prop where
  lt : w.lvl < m.dscr.lvls
  low : start + w.count * pageSize ≤ w.addr
  high : w.count = 0 ∨ w.addr < lapEnd + w.count * pageSize
  again : w.again = false → w.addr ≤ c + w.count * pageSize
  target : given = true → w.addr = start + w.count * pageSize

theorem WalkBounds.walkEntry (hclosed : m.Closed t) (h : m.WalkBounds given start lapEnd c w)
    (hlap : w.addr < lapEnd) :
    m.WalkBounds given start lapEnd c (m.walkEntry t given n w).1 := by
  obtain ⟨hlt, hlow, hhigh, hagain, htarget⟩ := h
  have hpages := PtDscr.lvlPages_mul hlt
  have hsize : 0 < m.dscr.ptLvlsize w.lvl := PtDscr.ptLvlsize_pos
  have hdown : w.lvl + 1 < m.dscr.lvls →
      m.WalkBounds given start lapEnd c { w with lvl := w.lvl + 1 } := fun hlvl =>
    ⟨hlvl, hlow, hhigh, hagain, htarget⟩
  by_cases htable : w.lvl < (m.look t w.addr).1
  · rw [walkEntry_table htable]
    exact hdown (Nat.lt_of_le_of_lt htable (look_fst_lt hclosed w.addr))
  by_cases hfree : m.IsFree t w.addr
  swap
  · rw [walkEntry_obstacle _ _ htable hfree]
    cases given with
    | true => exact ⟨hlt, hlow, hhigh, hagain, htarget⟩
    | false =>
        refine ⟨hlt, ?_, .inl rfl, fun h => absurd h.symm Bool.false_ne_true, fun h => by cases h⟩
        change start + 0 * pageSize ≤ w.addr + m.dscr.ptLvlsize w.lvl
        rw [Nat.zero_mul, Nat.add_zero]
        exact ((Nat.le_add_right _ _).trans hlow).trans (Nat.le_add_right _ _)
  by_cases hfits : m.AllocFits w.lvl (n - w.count) w.addr
  · rw [walkEntry_count htable hfree hfits]
    have hadd : ∀ a, a + (w.count + m.dscr.lvlPages w.lvl) * pageSize =
        a + w.count * pageSize + m.dscr.ptLvlsize w.lvl := fun a => by
      rw [Nat.add_mul, hpages, Nat.add_assoc]
    refine ⟨hlt, (hadd start).trans_le (Nat.add_le_add_right hlow _), .inr ?_, fun h => ?_,
      fun h => ?_⟩
    · refine (Nat.add_lt_add_right ?_ _).trans_eq (hadd lapEnd).symm
      exact hlap.trans_le (Nat.le_add_right _ _)
    · exact (Nat.add_le_add_right (hagain h) _).trans_eq (hadd c).symm
    · exact (congrArg (· + m.dscr.ptLvlsize w.lvl) (htarget h)).trans (hadd start).symm
  · rw [walkEntry_split htable hfree hfits]
    refine hdown (lt_of_le_of_ne hlt fun heq => hfits (.inl ?_))
    rw [isLast, heq, beq_self_eq_true]

/-- Behind an entry that is not the last one of its table, the addresses have not come round. -/
theorem walkEntry_more (hlvl : w.lvl < m.dscr.lvls) (hmore : (m.walkEntry t given n w).2 = true)
    (hleft : left + 1 = m.dscr.ptNentries w.lvl - m.dscr.ptGetpteindexByVa w.addr w.lvl)
    (hzero : left ≠ 0) :
    (m.walkEntry t given n w).1.addr / m.dscr.shape.span = w.addr / m.dscr.shape.span ∧
      left = m.dscr.ptNentries (m.walkEntry t given n w).1.lvl -
        m.dscr.ptGetpteindexByVa (m.walkEntry t given n w).1.addr
          (m.walkEntry t given n w).1.lvl := by
  rw [PtDscr.ptNentries_eq hlvl, PtDscr.ptGetpteindexByVa_eq hlvl] at hleft
  have hindex : m.dscr.shape.index w.lvl w.addr + 1 < m.dscr.shape.fanout w.lvl := by omega
  have hnext := Radix.Shape.index_add_size hindex
  have hspan := Radix.Shape.div_span_add_size (g := m.dscr.shape) hlvl hindex
  have hsame : (m.walkEntry t given n w).1.addr = w.addr + m.dscr.ptLvlsize w.lvl ∧
      (m.walkEntry t given n w).1.lvl = w.lvl := by
    rcases walkEntry_cases m t given n w with h | ⟨-, -, h⟩ | ⟨-, h⟩ | ⟨-, h⟩
    · rw [h] at hmore
      cases hmore
    · rw [h] at hmore
      cases hmore
    · rw [h]
      exact ⟨rfl, rfl⟩
    · rw [h]
      exact ⟨rfl, rfl⟩
  rw [hsame.1, hsame.2, PtDscr.ptNentries_eq hlvl, PtDscr.ptGetpteindexByVa_eq hlvl]
  refine ⟨hspan, ?_⟩
  change m.dscr.shape.index w.lvl (w.addr + m.dscr.ptLvlsize w.lvl) = _ at hnext
  rw [hnext]
  omega

theorem walkEntries_bounds (hclosed : m.Closed t)
    (hlapEnd : lapEnd = (start / m.dscr.shape.span + 1) * m.dscr.shape.span)
    (h : m.WalkBounds given start lapEnd c w)
    (hlap : w.addr / m.dscr.shape.span = start / m.dscr.shape.span)
    (hleft : left = m.dscr.ptNentries w.lvl - m.dscr.ptGetpteindexByVa w.addr w.lvl) :
    m.WalkBounds given start lapEnd c (m.walkEntries t given n left w) := by
  induction left generalizing w with
  | zero => exact h
  | succ left ih =>
      have hlt : w.addr < lapEnd := by
        rw [hlapEnd, ← hlap]
        exact (Nat.div_lt_iff_lt_mul m.dscr.shape.span_pos).mp (Nat.lt_succ_self _)
      have hentry := h.walkEntry (n := n) hclosed hlt
      rw [walkEntries]
      by_cases hcount : w.count < n
      · rw [if_pos hcount]
        dsimp only
        split_ifs with hmore hzero
        · exact ⟨m.dscr.lvls_pos, hentry.low, hentry.high, hentry.again, hentry.target⟩
        · obtain ⟨hspan, hleft'⟩ := walkEntry_more h.lt hmore hleft hzero
          exact ih hentry (hspan.trans hlap) hleft'
        · exact hentry
      · rw [if_neg hcount]
        exact h

/-! ## The search goes the same way -/

/-- The search is where the walk is. An entry that it has split is not looked at again at the
address that the entry starts at. -/
structure AllocSim (m : Mmu) (t₀ : PtEntries) (lapEnd : ℕ) (s : AllocState) (w : AllocWalk) :
    Prop where
  lvl : s.lvl = w.lvl
  addr : s.addr = w.addr % 2 ^ 64
  count : s.count = w.count
  blocked : w.blocked = false
  kept : ∀ i b, m.Path t₀ i b → m.Path s.tables i b
  obstacle : ∀ b, ¬ m.IsFree t₀ b → m.look s.tables b = m.look t₀ b
  fresh : ∀ i < m.dscr.lvls, ∀ b, w.addr ≤ b → b < lapEnd → m.dscr.ptLvlsize i ∣ b →
    (b = w.addr → w.lvl ≤ i) → m.Path s.tables (i + 1) b → m.Path t₀ (i + 1) b

theorem pte_of_not_isFree (h : ¬ m.IsFree t va) :
    m.fmt.pteReserved (m.look t va).2 = true ∨ m.fmt.pteValid (m.look t va).2 = true := by
  by_contra hnone
  rw [not_or, Bool.not_eq_true, Bool.not_eq_true] at hnone
  refine h ⟨?_, ?_⟩
  · rw [leafAt, hnone.2, if_neg Bool.false_ne_true]
  · rw [isReserved, hnone.1, Bool.and_false]

theorem IsFree.pteReserved (h : m.IsFree t va) : m.fmt.pteReserved (m.look t va).2 = false := by
  have hres := h.isReserved
  rw [Mmu.isReserved, h.pteValid] at hres
  exact hres

theorem AllocInv.isFree_iff (h : m.AllocInv t₀ at' n s) (b : ℕ) :
    m.IsFree s.tables b ↔ m.IsFree t₀ b :=
  ⟨fun hfree => ⟨(h.leafAt b).symm.trans hfree.leafAt, (h.isReserved b).symm.trans
    hfree.isReserved⟩, fun hfree => ⟨(h.leafAt b).trans hfree.leafAt, (h.isReserved b).trans
    hfree.isReserved⟩⟩

namespace AllocSim

variable {lvl addr count : ℕ} {again : Bool} {vpage : Option ℕ}

/-- The search goes on behind an entry. -/
theorem next (h : m.AllocSim t₀ lapEnd s w) (haddr : s.addr = w.addr) :
    m.AllocSim t₀ lapEnd
      { s with
        addr := (s.addr + m.dscr.ptLvlsize s.lvl) % 2 ^ 64
        lvl := lvl
        count := count
        vpage := vpage }
      { w with
        addr := w.addr + m.dscr.ptLvlsize w.lvl
        lvl := lvl
        count := count
        again := again } where
  lvl := rfl
  addr := by
    dsimp only
    rw [haddr, h.lvl]
  count := rfl
  blocked := h.blocked
  kept := h.kept
  obstacle := h.obstacle
  fresh := fun i hi b hb hlap hdvd _ hpath => by
    have hlt : w.addr < b := (Nat.lt_add_of_pos_right PtDscr.ptLvlsize_pos).trans_le hb
    exact h.fresh i hi b hlt.le hlap hdvd (fun heq => absurd heq hlt.ne') hpath

theorem descend (h : m.AllocSim t₀ lapEnd s w) :
    m.AllocSim t₀ lapEnd { s with lvl := s.lvl + 1 } { w with lvl := w.lvl + 1 } where
  lvl := congrArg (· + 1) h.lvl
  addr := h.addr
  count := h.count
  blocked := h.blocked
  kept := h.kept
  obstacle := h.obstacle
  fresh := fun i hi b hb hlap hdvd hlvl =>
    h.fresh i hi b hb hlap hdvd fun heq => (Nat.le_succ _).trans (hlvl heq)

/-- The search splits an entry. -/
theorem split (hinv : m.AllocInv t₀ at' n s) (h : m.AllocSim t₀ lapEnd s w)
    (haddr : s.addr = w.addr) {q : ℕ} (hq : q * m.dscr.shape.span ≤ w.addr)
    (hlapEnd : lapEnd = (q + 1) * m.dscr.shape.span) (hlvl : s.lvl + 1 < m.dscr.lvls)
    (hvalid : m.fmt.pteValid (m.pteAt s.tables s.lvl s.addr) = false)
    (hres : m.fmt.pteReserved (m.pteAt s.tables s.lvl s.addr) = false) :
    m.AllocSim t₀ lapEnd
      { s with tables := m.memAllocPt s.tables s.lvl s.addr, lvl := s.lvl + 1 }
      { w with lvl := w.lvl + 1 } := by
  have hclosed := closed_memAllocPt hinv.closed hlvl hinv.path
  have hlook := look_memAllocPt hinv.closed hlvl hinv.path
  have hentry := hinv.look_eq (pteTable_of_not_valid hvalid _)
  have hsame : ∀ b, m.dscr.pos s.lvl b = m.dscr.pos s.lvl s.addr →
      m.look s.tables b = m.look s.tables s.addr := by
    intro b hb
    refine look_of_pos_eq hinv.closed ?_
    rw [hentry]
    exact hb
  refine ⟨congrArg (· + 1) h.lvl, h.addr, h.count, h.blocked, fun i b hpath => ?_,
    fun b hb => ?_, fun i hi b hb hlap hdvd hlvli hpath => ?_⟩
  · have hle := (path_iff_le_look hinv.closed).mp (h.kept i b hpath)
    rw [path_iff_le_look hclosed, hlook]
    split_ifs with hpos
    · rw [hsame b hpos, hentry] at hle
      exact hle.trans (Nat.le_succ _)
    · exact hle
  · dsimp only
    rw [hlook, if_neg, h.obstacle b hb]
    intro hpos
    refine hb ((hinv.isFree_iff b).mp ?_)
    exact (hinv.isFree hvalid hres).congr (hsame b hpos)
  · dsimp only at hpath hb hlvli
    rw [path_iff_le_look hclosed, hlook] at hpath
    split_ifs at hpath with hpos
    · -- an entry starts at no address behind this one in the entry that is split
      have hle : i ≤ s.lvl := Nat.le_of_succ_le_succ hpath
      have hne : b ≠ w.addr := fun heq => by
        have := hlvli heq
        rw [← h.lvl] at this
        omega
      rw [haddr] at hpos
      refine absurd hpos ?_
      have hdvd' := (Radix.Shape.size_dvd_of_le (g := m.dscr.shape) hinv.lt hle).trans hdvd
      exact Radix.Shape.pos_ne_of_dvd hinv.lt hq (lt_of_le_of_ne hb hne.symm)
        (hlapEnd ▸ hlap) hdvd'
    · refine h.fresh i hi b hb hlap hdvd (fun heq => ?_)
        ((path_iff_le_look hinv.closed).mpr hpath)
      rw [heq, haddr] at hpos
      exact absurd rfl hpos

/-- An obstacle of the walk is one of the search. -/
theorem pte_obstacle (hinv : m.AllocInv t₀ at' n s) (h : m.AllocSim t₀ lapEnd s w)
    (haddr : s.addr = w.addr) (htable : ¬ w.lvl < (m.look t₀ w.addr).1)
    (hfree : ¬ m.IsFree t₀ w.addr) :
    m.fmt.pteTable (m.isLast s.lvl) (m.pteAt s.tables s.lvl s.addr) = false ∧
      (m.fmt.pteReserved (m.pteAt s.tables s.lvl s.addr) = true ∨
        m.fmt.pteValid (m.pteAt s.tables s.lvl s.addr) = true) := by
  have hlook := h.obstacle _ hfree
  have hle := (path_iff_le_look hinv.closed).mp hinv.path
  rw [haddr, hlook, h.lvl] at hle
  have hlvl : (m.look s.tables w.addr).1 = s.lvl := by
    rw [hlook, h.lvl]
    exact le_antisymm (Nat.not_lt.mp htable) hle
  have hpte : m.pteAt s.tables s.lvl s.addr = (m.look s.tables w.addr).2 := by
    rw [look_snd, hlvl, haddr]
  have hnot := not_table_look hinv.closed w.addr
  rw [hlvl] at hnot
  rw [hpte]
  refine ⟨hnot, pte_of_not_isFree ?_⟩
  rw [hinv.isFree_iff]
  exact hfree

/-- An entry that can be counted was not split. -/
theorem not_table (hinv : m.AllocInv t₀ at' n s) (h : m.AllocSim t₀ lapEnd s w)
    (hclosed : m.Closed t₀) (haddr : s.addr = w.addr) (hlap : w.addr < lapEnd)
    (htable : ¬ w.lvl < (m.look t₀ w.addr).1) (hfits : m.AllocFits w.lvl left w.addr) :
    m.fmt.pteTable (m.isLast s.lvl) (m.pteAt s.tables s.lvl s.addr) = false := by
  rw [← Bool.not_eq_true]
  intro htab
  have hpath : m.Path s.tables (s.lvl + 1) s.addr := Radix.path_succ_iff.mpr ⟨hinv.path, htab⟩
  rcases hfits with hlast | ⟨-, -, hdvd⟩
  · have hlt := (path_iff_le_look hinv.closed).mp hpath
    have hlook := look_fst_lt hinv.closed s.addr
    rw [isLast, beq_iff_eq, ← h.lvl] at hlast
    omega
  · rw [h.lvl, haddr] at hpath
    have hlvl : w.lvl < m.dscr.lvls := h.lvl ▸ hinv.lt
    have hpath' := h.fresh w.lvl hlvl w.addr le_rfl hlap hdvd (fun _ => le_rfl) hpath
    exact htable ((path_iff_le_look hclosed).mp hpath')

theorem pte_free (hinv : m.AllocInv t₀ at' n s)
    (htab : m.fmt.pteTable (m.isLast s.lvl) (m.pteAt s.tables s.lvl s.addr) = false)
    (hfree : m.IsFree t₀ s.addr) :
    m.fmt.pteValid (m.pteAt s.tables s.lvl s.addr) = false ∧
      m.fmt.pteReserved (m.pteAt s.tables s.lvl s.addr) = false := by
  have hpte : (m.look s.tables s.addr).2 = m.pteAt s.tables s.lvl s.addr := by
    rw [hinv.look_eq htab]
  have hfree' := (hinv.isFree_iff s.addr).mpr hfree
  rw [← hpte]
  exact ⟨hfree'.pteValid, hfree'.pteReserved⟩

end AllocSim

def SameWay (m : Mmu) (t₀ : PtEntries) (lapEnd : ℕ) (s : AllocState) (w : AllocWalk) : Prop :=
  s.failed = false ∧ m.AllocSim t₀ lapEnd s w ∨ s.failed = true ∧ w.blocked = true

/-- The entries of one table are taken alike. -/
theorem allocEntries_sim (hclosed : m.Closed t₀) {q : ℕ}
    (hlapEnd : lapEnd = (q + 1) * m.dscr.shape.span) (hle : lapEnd ≤ 2 ^ 64)
    (h : m.AllocInv t₀ at' n s) (hsim : m.AllocSim t₀ lapEnd s w)
    (hlap : w.addr / m.dscr.shape.span = q)
    (hleft : left = m.dscr.ptNentries s.lvl - m.dscr.ptGetpteindexByVa s.addr s.lvl) :
    m.SameWay t₀ lapEnd (m.allocEntries at'.isSome n left s)
      (m.walkEntries t₀ at'.isSome n left w) := by
  induction left generalizing s w with
  | zero => exact .inl ⟨h.failed, hsim⟩
  | succ left ih =>
      have hlow : q * m.dscr.shape.span ≤ w.addr := by
        rw [← hlap]
        exact Nat.div_mul_le_self _ _
      have hhigh : w.addr < lapEnd := by
        rw [hlapEnd, ← hlap]
        exact (Nat.div_lt_iff_lt_mul m.dscr.shape.span_pos).mp (Nat.lt_succ_self _)
      have haddr : s.addr = w.addr := hsim.addr.trans (Nat.mod_eq_of_lt (hhigh.trans_le hle))
      by_cases hcount : s.count < n
      swap
      · rw [allocEntries_of_le (Nat.not_lt.mp hcount),
          walkEntries_of_le (by rw [← hsim.count]; exact Nat.not_lt.mp hcount)]
        exact .inl ⟨h.failed, hsim⟩
      have hcount' : w.count < n := by rwa [← hsim.count]
      -- behind the entry
      have hrest : ∀ {count vpage again}, m.walkEntry t₀ at'.isSome n w =
            ({ w with
              addr := w.addr + m.dscr.ptLvlsize w.lvl
              count := count
              again := again }, true) →
          m.AllocInv t₀ at' n { s with
            addr := (s.addr + m.dscr.ptLvlsize s.lvl) % 2 ^ 64
            lvl := if left = 0 then 0 else s.lvl
            count := count
            vpage := vpage } →
          m.SameWay t₀ lapEnd
            (m.allocRest at'.isSome n left { s with count := count, vpage := vpage })
            (m.walkEntries t₀ at'.isSome n (left + 1) w) := by
        intro count vpage again hentry hinv
        rw [walkEntries_next hcount' hentry, allocRest]
        by_cases hzero : left = 0
        · rw [if_pos hzero, if_pos hzero]
          exact .inl ⟨h.failed, hsim.next haddr⟩
        · obtain ⟨hspan', -⟩ := walkEntry_more (hsim.lvl ▸ h.lt)
            (congrArg Prod.snd hentry) (by rwa [hsim.lvl, haddr] at hleft) hzero
          rw [hentry, hlap] at hspan'
          rw [if_neg hzero] at hinv ⊢
          rw [if_neg hzero]
          refine ih hinv ?_ hspan' (AllocInv.index_next h.lt hzero hleft)
          have hnext := @AllocSim.next _ _ _ _ _ s.lvl count again vpage hsim haddr
          rwa [show (s.lvl : ℕ) = w.lvl from hsim.lvl] at hnext ⊢
      by_cases htable : w.lvl < (m.look t₀ w.addr).1
      · have hpath : m.Path s.tables (s.lvl + 1) s.addr := by
          rw [hsim.lvl, haddr]
          exact hsim.kept _ _ ((path_iff_le_look hclosed).mpr htable)
        have htab : m.fmt.pteTable (m.isLast s.lvl) (m.pteAt s.tables s.lvl s.addr) = true :=
          (Radix.path_succ_iff.mp hpath).2
        rw [allocEntries_table hcount h.failed (h.pteReserved_of_table htab) htab,
          walkEntries_stop hcount' (walkEntry_table htable)]
        exact .inl ⟨h.failed, hsim.descend⟩
      by_cases hfree : m.IsFree t₀ w.addr
      swap
      · obtain ⟨htab, hobst⟩ := hsim.pte_obstacle h haddr htable hfree
        have hentry := walkEntry_obstacle at'.isSome n htable hfree
        rw [allocEntries_obstacle hcount h.failed hobst htab]
        cases at' with
        | some a =>
            rw [walkEntries_stop hcount' hentry]
            exact .inr ⟨rfl, rfl⟩
        | none => exact hrest hentry (h.skip rfl hleft)
      have hfree' : m.IsFree t₀ s.addr := haddr ▸ hfree
      by_cases hfits : m.AllocFits w.lvl (n - w.count) w.addr
      · have htab := hsim.not_table h hclosed haddr hhigh htable hfits
        obtain ⟨hvalid, hres⟩ := AllocSim.pte_free h htab hfree'
        have halloc : m.pteAllocable (m.pteAt s.tables s.lvl s.addr) s.lvl (n - s.count) s.addr =
            true := by
          rw [pteAllocable_iff hvalid, hsim.lvl, hsim.count, haddr]
          exact hfits
        rw [allocEntries_count hcount h.failed hvalid hres halloc]
        have hentry : m.walkEntry t₀ at'.isSome n w =
            ({ w with
              addr := w.addr + m.dscr.ptLvlsize w.lvl
              count := s.count + m.dscr.lvlPages s.lvl }, true) := by
          rw [walkEntry_count htable hfree hfits, hsim.count, hsim.lvl]
        exact hrest hentry (h.count hcount hvalid hres halloc hleft)
      · rw [walkEntries_stop hcount' (walkEntry_split htable hfree hfits)]
        by_cases htab : m.fmt.pteTable (m.isLast s.lvl) (m.pteAt s.tables s.lvl s.addr) = true
        · rw [allocEntries_table hcount h.failed (h.pteReserved_of_table htab) htab]
          exact .inl ⟨h.failed, hsim.descend⟩
        · rw [Bool.not_eq_true] at htab
          obtain ⟨hvalid, hres⟩ := AllocSim.pte_free h htab hfree'
          have halloc : m.pteAllocable (m.pteAt s.tables s.lvl s.addr) s.lvl (n - s.count)
              s.addr ≠ true := by
            rw [ne_eq, pteAllocable_iff hvalid, hsim.lvl, hsim.count, haddr]
            exact hfits
          have hlvl := AllocInv.not_last_of_not_allocable h.lt hvalid halloc
          rw [allocEntries_split hcount h.failed hlvl hvalid hres (Bool.not_eq_true _ ▸ halloc)]
          exact .inl ⟨h.failed, hsim.split h haddr hlow hlapEnd hlvl hvalid hres⟩

theorem allocWalk_of_blocked (hblocked : w.blocked = true)
    (h : m.allocWalk t given n sec lapEnd rounds w = some e) : e = .blocked := by
  cases rounds with
  | zero => cases h
  | succ rounds =>
      rw [allocWalk, if_pos hblocked] at h
      exact (Option.some.inj h).symm

/-- The pages that end at `top`, of a search that began at `start`. -/
structure RunAt (sec : VaSection) (given : Bool) (start n v : ℕ) (again : Bool) (top : ℕ) :
    Prop where
  add_eq : v + n * pageSize = top
  start_le : start ≤ v
  inside : again = false → top ≤ sec.last + 1
  target : given = true → v = start

theorem runAt_of_count (hn : 0 < n) (hle : lapEnd ≤ 2 ^ 64) (h : m.AllocInv t₀ at' n s)
    (hsim : m.AllocSim t₀ lapEnd s w) (hbounds : m.WalkBounds given start lapEnd c w)
    (hroom : c + n * pageSize ≤ sec.last + 1) (hcount : n ≤ w.count) :
    s.count = n ∧ ∃ v, s.vpage = some v ∧ RunAt sec given start n v w.again w.addr := by
  obtain ⟨v, ls, hv, hvpage, -, -, haddr, -⟩ := h.run
  have hsn : s.count = n := le_antisymm h.le (by rwa [hsim.count])
  have hwn : w.count = n := by rw [← hsim.count, hsn]
  obtain ⟨-, hlow, hhigh, hagain, htarget⟩ := hbounds
  rw [hwn] at hlow hhigh hagain htarget
  rw [hsn] at hvpage haddr
  rw [if_neg hn.ne'] at hvpage
  have hhigh := hhigh.resolve_left hn.ne'
  obtain ⟨x, hx⟩ := Nat.exists_eq_add_of_le hlow
  have hmod : v + n * pageSize ≡ start + x + n * pageSize [MOD 2 ^ 64] := by
    refine haddr.trans (hsim.addr.trans (congrArg (· % 2 ^ 64) ?_))
    rw [hx, Nat.add_right_comm]
  have hlt : start + x < 2 ^ 64 := by
    rw [hx, Nat.add_right_comm] at hhigh
    exact (Nat.lt_of_add_lt_add_right hhigh).trans_le hle
  have hvx : v = start + x := (Nat.ModEq.add_right_cancel' _ hmod).eq_of_lt_of_lt hv hlt
  have htop : v + n * pageSize = w.addr := by rw [hvx, hx, Nat.add_right_comm]
  refine ⟨hsn, v, hvpage, htop, hvx ▸ Nat.le_add_right _ _, fun hag => (hagain hag).trans hroom,
    fun hgiven => Nat.add_right_cancel (htop.trans (htarget hgiven))⟩

/-- The search of a section finds pages iff the walk does, unless the walk is lost. -/
theorem allocSearch_sim (sec : VaSection) (rounds : ℕ)
    (hspan : n * pageSize ≤ m.dscr.shape.span) (hn : 0 < n)
    (hclosed : m.Closed t₀)
    (hlapEnd : lapEnd = (start / m.dscr.shape.span + 1) * m.dscr.shape.span)
    (hle : lapEnd ≤ 2 ^ 64) (h : m.AllocInv t₀ at' n s) (hsim : m.AllocSim t₀ lapEnd s w)
    (hbounds : m.WalkBounds at'.isSome start lapEnd c w)
    (hroom : n ≤ w.count → c + n * pageSize ≤ sec.last + 1) :
    (∀ s' v, m.allocSearch at'.isSome n sec rounds s = some s' → s'.vpage = some v →
      m.allocWalk t₀ at'.isSome n sec lapEnd rounds w = some .lost ∨
        ∃ again top, m.allocWalk t₀ at'.isSome n sec lapEnd rounds w = some (.run again top) ∧
          RunAt sec at'.isSome start n v again top) ∧
    (∀ again top, m.allocWalk t₀ at'.isSome n sec lapEnd rounds w = some (.run again top) →
      ∃ s' v, m.allocSearch at'.isSome n sec rounds s = some s' ∧ m.AllocInv t₀ at' n s' ∧
        s'.count = n ∧ s'.vpage = some v ∧ RunAt sec at'.isSome start n v again top) := by
  induction rounds generalizing s w c with
  | zero => exact ⟨fun _ _ hs _ => (by cases hs), fun _ _ hw => (by cases hw)⟩
  | succ rounds ih =>
      have hgo : ¬ w.blocked = true := by
        rw [hsim.blocked]
        exact Bool.false_ne_true
      rw [allocSearch, allocWalk, if_neg hgo]
      by_cases hcount : n ≤ w.count
      · obtain ⟨hsn, v, hvpage, hrun⟩ := runAt_of_count hn hle h hsim hbounds (hroom hcount) hcount
        rw [if_neg fun hc => absurd hc.1 (by rw [hsn]; exact lt_irrefl n), if_pos hcount]
        constructor
        · intro s' v' hs hv'
          rw [← Option.some.inj hs, hvpage] at hv'
          exact .inr ⟨_, _, rfl, Option.some.inj hv' ▸ hrun⟩
        · intro again top hw
          cases hw
          exact ⟨s, v, rfl, h, hsn, hvpage, hrun⟩
      rw [if_pos ⟨by rw [hsim.count]; exact Nat.not_le.mp hcount, h.failed⟩, if_neg hcount,
        hsim.addr]
      cases hspace : sec.hasSpace n (w.addr % 2 ^ 64) with
      | false =>
          rw [Bool.not_false, if_pos rfl, if_pos rfl]
          refine ⟨fun s' v hs hv => ?_, fun _ _ hw => by cases hw⟩
          rw [← Option.some.inj hs] at hv
          cases hv
      | true =>
          rw [Bool.not_true, if_neg Bool.false_ne_true, if_neg Bool.false_ne_true]
          by_cases hin : w.addr + n * pageSize ≤ sec.last + 1 ∧ w.addr < lapEnd
          swap
          · rw [if_neg hin]
            exact ⟨fun _ _ _ _ => .inl rfl, fun _ _ hw => by cases hw⟩
          have hstart : start ≤ w.addr := (Nat.le_add_right _ _).trans hbounds.low
          have hlap : w.addr / m.dscr.shape.span = start / m.dscr.shape.span := by
            have hlt := hin.2
            rw [hlapEnd] at hlt
            exact le_antisymm (Nat.le_of_lt_succ ((Nat.div_lt_iff_lt_mul
              m.dscr.shape.span_pos).mpr hlt)) (Nat.div_le_div_right hstart)
          have haddr : s.addr = w.addr := hsim.addr.trans (Nat.mod_eq_of_lt (hin.2.trans_le hle))
          have hsim' : m.AllocSim t₀ lapEnd s { w with again := false } :=
            ⟨hsim.lvl, hsim.addr, hsim.count, hsim.blocked, hsim.kept, hsim.obstacle, hsim.fresh⟩
          have hbounds' : m.WalkBounds at'.isSome start lapEnd w.addr { w with again := false } :=
            ⟨hbounds.lt, hbounds.low, hbounds.high, fun _ => Nat.le_add_right _ _,
              hbounds.target⟩
          have hpath : m.Path s.tables s.lvl (w.addr % 2 ^ 64) := by
            rw [← hsim.addr]
            exact h.path
          rw [if_pos hin, ptGetPte, if_pos hpath, Option.bind_some, ← hsim.addr, haddr, hsim.lvl]
          have hleft : m.dscr.ptNentries w.lvl - m.dscr.ptGetpteindexByVa w.addr w.lvl =
              m.dscr.ptNentries s.lvl - m.dscr.ptGetpteindexByVa s.addr s.lvl := by
            rw [hsim.lvl, haddr]
          have hinv := allocEntries_inv hspan h hleft
          have hway := allocEntries_sim hclosed hlapEnd hle h hsim' hlap hleft
          have hnext := walkEntries_bounds (n := n) hclosed hlapEnd hbounds' hlap rfl
          generalize m.allocEntries at'.isSome n _ s = s₁ at hinv hway ⊢
          rcases hway with ⟨hok, hsim₁⟩ | ⟨hfailed, hblocked⟩
          · refine ih (hinv.resolve_right fun hbad => ?_) hsim₁ hnext fun _ => hin.1
            rw [hok] at hbad
            cases hbad.1
          · have hvpage := (hinv.resolve_left fun hgood => by
              have := hgood.failed
              rw [hfailed] at this
              cases this).2.1
            refine ⟨fun s' v hs hv => ?_, fun _ _ hw => ?_⟩
            · rw [allocSearch_of_failed hfailed hs, hvpage] at hv
              cases hv
            · cases allocWalk_of_blocked hblocked hw

end Mmu

end BaoHypervisor
