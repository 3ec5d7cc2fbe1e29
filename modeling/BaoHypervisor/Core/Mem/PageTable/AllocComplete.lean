import BaoHypervisor.Core.Mem.PageTable.AllocSound

/-!
# The pages that are found

The space check at each table that the search comes to asks for room for all the pages, those
that are counted already included. So a call finds a run only if the search comes to no table for
which the section has not that much room, which for a run at the end of a section is so only if
it lies in one table.
-/

namespace BaoHypervisor

namespace Mmu

variable {m : Mmu} {t : PtEntries} {n left idx start lapEnd c k : ℕ} {sec : VaSection}
  {at' : Option ℕ} {given : Bool} {w : AllocWalk}

/-- The section has so many pages that are neither valid nor reserved, at the target address if
there is one. -/
def HasRun (m : Mmu) (t : PtEntries) (sec : VaSection) (at' : Option ℕ) (n : ℕ) : Prop :=
  ∃ v, pageSize ∣ v ∧ sec.beg ≤ v ∧ v + n * pageSize ≤ sec.last + 1 ∧
    (∀ a, at' = some a → v = a) ∧
      ∀ x < n * pageSize, m.leafAt t (v + x) = none ∧ m.isReserved t (v + x) = false

/-- A call finds pages if the section has them. -/
def AllocComplete (m : Mmu) (t : PtEntries) (sec : VaSection) (idx : ℕ) (at' : Option ℕ)
    (n : ℕ) : Prop :=
  m.HasRun t sec at' n → ∃ rounds t' v, m.memAllocVpage n rounds t idx at' = some (t', some v)

/-- The call searches, and no space check that it comes to fails, or passes without room. -/
def AllocChecksPass (m : Mmu) (t : PtEntries) (sec : VaSection) (idx : ℕ) (at' : Option ℕ)
    (n : ℕ) : Prop :=
  m.Searches sec idx at' ∧ ¬ m.AllocEnds t sec at'.isSome (at'.getD sec.beg) n .noSpace ∧
    ¬ m.AllocEnds t sec at'.isSome (at'.getD sec.beg) n .lost

/-! ## The walk ends -/

def walkLeft (m : Mmu) (lapEnd : ℕ) (w : AllocWalk) : ℕ :=
  (lapEnd - w.addr) * (m.dscr.lvls + 1) + (m.dscr.lvls - w.lvl)

theorem walkLeft_lt_of_lt {w' : AllocWalk} (hlap : w.addr < lapEnd) (h : w.addr < w'.addr) :
    m.walkLeft lapEnd w' < m.walkLeft lapEnd w := by
  have hmul := Nat.mul_le_mul_right (m.dscr.lvls + 1)
    (show lapEnd - w'.addr + 1 ≤ lapEnd - w.addr by omega)
  rw [Nat.add_mul, Nat.one_mul] at hmul
  rw [walkLeft, walkLeft]
  omega

theorem le_walkEntries (t : PtEntries) (given : Bool) (n left : ℕ) (w : AllocWalk) :
    w.addr ≤ (m.walkEntries t given n left w).addr := by
  induction left generalizing w with
  | zero => exact le_rfl
  | succ left ih =>
      have hentry : w.addr ≤ (m.walkEntry t given n w).1.addr := by
        rcases walkEntry_cases m t given n w with h | ⟨-, -, h⟩ | ⟨-, h⟩ | ⟨-, h⟩
        · rw [h]
        · rw [h]
        · rw [h]
          exact Nat.le_add_right _ _
        · rw [h]
          exact Nat.le_add_right _ _
      rw [walkEntries]
      dsimp only
      split_ifs
      · exact hentry
      · exact hentry.trans (ih _)
      · exact hentry
      · exact le_rfl

/-- The walk of one table goes down, or on behind an entry, unless it stops at an obstacle. -/
theorem walkEntries_progress (hlvl : w.lvl < m.dscr.lvls) (hlap : w.addr < lapEnd)
    (hcount : w.count < n) (hleft : 0 < left)
    (hblocked : (m.walkEntries t given n left w).blocked = false) :
    m.walkLeft lapEnd (m.walkEntries t given n left w) < m.walkLeft lapEnd w := by
  obtain ⟨left, rfl⟩ := Nat.exists_eq_succ_of_ne_zero hleft.ne'
  have hnext : ∀ w', m.walkEntry t given n w = (w', true) → w.addr < w'.addr →
      m.walkLeft lapEnd (m.walkEntries t given n (left + 1) w) < m.walkLeft lapEnd w := by
    intro w' hentry hlt
    rw [walkEntries_next hcount hentry]
    refine walkLeft_lt_of_lt hlap ?_
    split_ifs
    · exact hlt
    · exact hlt.trans_le (le_walkEntries t given n left w')
  have hsize : w.addr < w.addr + m.dscr.ptLvlsize w.lvl :=
    Nat.lt_add_of_pos_right PtDscr.ptLvlsize_pos
  rcases walkEntry_cases m t given n w with h | ⟨-, -, h⟩ | ⟨-, h⟩ | ⟨-, h⟩
  · rw [walkEntries_stop hcount h, walkLeft, walkLeft]
    dsimp only
    omega
  · rw [walkEntries_stop hcount h] at hblocked
    cases hblocked
  · exact hnext _ h hsize
  · exact hnext _ h hsize

/-- The walk stops at no obstacle where all pages from a target address on are free. -/
theorem walkEntries_blocked (hclosed : m.Closed t)
    (hlapEnd : lapEnd = (start / m.dscr.shape.span + 1) * m.dscr.shape.span)
    (hfree : given = true → ∀ x < n * pageSize, m.IsFree t (start + x))
    (h : m.WalkBounds given start lapEnd c w) (hblocked : w.blocked = false)
    (hlap : w.addr / m.dscr.shape.span = start / m.dscr.shape.span)
    (hleft : left = m.dscr.ptNentries w.lvl - m.dscr.ptGetpteindexByVa w.addr w.lvl) :
    (m.walkEntries t given n left w).blocked = false := by
  induction left generalizing w with
  | zero => exact hblocked
  | succ left ih =>
      have hlt : w.addr < lapEnd := by
        rw [hlapEnd, ← hlap]
        exact (Nat.div_lt_iff_lt_mul m.dscr.shape.span_pos).mp (Nat.lt_succ_self _)
      have hbounds := h.walkEntry (n := n) hclosed hlt
      rw [walkEntries]
      by_cases hcount : w.count < n
      swap
      · rw [if_neg hcount]
        exact hblocked
      have hentry : (m.walkEntry t given n w).1.blocked = false := by
        rcases walkEntry_cases m t given n w with h' | ⟨hgiven, hnot, -⟩ | ⟨-, h'⟩ | ⟨-, h'⟩
        · rw [h']
          exact hblocked
        · refine absurd ?_ hnot
          rw [h.target hgiven]
          exact hfree hgiven _ (Nat.mul_lt_mul_of_pos_right hcount (by decide))
        · rw [h']
          exact hblocked
        · rw [h']
          exact hblocked
      rw [if_pos hcount]
      dsimp only
      split_ifs with hmore hzero
      · exact hentry
      · obtain ⟨hspan, hleft'⟩ := walkEntry_more h.lt hmore hleft hzero
        exact ih hbounds hentry (hspan.trans hlap) hleft'
      · exact hentry

/-- The walk comes to an end, and to no obstacle that it stops at. -/
theorem allocWalk_ends (sec : VaSection) (hclosed : m.Closed t)
    (hlapEnd : lapEnd = (start / m.dscr.shape.span + 1) * m.dscr.shape.span)
    (hfree : given = true → ∀ x < n * pageSize, m.IsFree t (start + x))
    (h : m.WalkBounds given start lapEnd c w) (hblocked : w.blocked = false)
    (hk : m.walkLeft lapEnd w < k) :
    ∃ e, m.allocWalk t given n sec lapEnd k w = some e ∧ e ≠ .blocked := by
  induction k generalizing w c with
  | zero => exact absurd hk (Nat.not_lt_zero _)
  | succ k ih =>
      rw [allocWalk, if_neg (by rw [hblocked]; exact Bool.false_ne_true)]
      by_cases hcount : n ≤ w.count
      · rw [if_pos hcount]
        exact ⟨_, rfl, AllocEnd.noConfusion⟩
      rw [if_neg hcount]
      cases sec.hasSpace n (w.addr % 2 ^ 64) with
      | false => exact ⟨.noSpace, rfl, AllocEnd.noConfusion⟩
      | true =>
          rw [Bool.not_true, if_neg Bool.false_ne_true]
          by_cases hin : w.addr + n * pageSize ≤ sec.last + 1 ∧ w.addr < lapEnd
          swap
          · rw [if_neg hin]
            exact ⟨.lost, rfl, AllocEnd.noConfusion⟩
          have hstart : start ≤ w.addr := (Nat.le_add_right _ _).trans h.low
          have hlap : w.addr / m.dscr.shape.span = start / m.dscr.shape.span := by
            have hlt := hin.2
            rw [hlapEnd] at hlt
            exact le_antisymm (Nat.le_of_lt_succ ((Nat.div_lt_iff_lt_mul
              m.dscr.shape.span_pos).mpr hlt)) (Nat.div_le_div_right hstart)
          have hbounds : m.WalkBounds given start lapEnd w.addr { w with again := false } :=
            ⟨h.lt, h.low, h.high, fun _ => Nat.le_add_right _ _, h.target⟩
          have hleft : 0 < m.dscr.ptNentries w.lvl - m.dscr.ptGetpteindexByVa w.addr w.lvl := by
            rw [PtDscr.ptNentries_eq h.lt, PtDscr.ptGetpteindexByVa_eq h.lt]
            exact Nat.sub_pos_of_lt (Radix.Shape.index_lt h.lt _)
          have hok := walkEntries_blocked hclosed hlapEnd hfree hbounds hblocked hlap rfl
          rw [if_pos hin]
          refine ih (walkEntries_bounds hclosed hlapEnd hbounds hlap rfl) hok ?_
          have hprogress := walkEntries_progress (w := { w with again := false }) h.lt hin.2
            (Nat.not_le.mp hcount) hleft hok
          exact hprogress.trans_le (Nat.le_of_lt_succ hk)

theorem hasSpace_of_room {a : ℕ} (hlast : sec.last ≤ maxVa)
    (h : a + n * pageSize ≤ sec.last + 1) : sec.hasSpace n a = true := by
  rw [VaSection.hasSpace, Bool.or_eq_true, Bool.and_eq_true, beq_iff_eq, beq_iff_eq,
    decide_eq_true_iff, Nat.le_div_iff_mul_le (by decide)]
  by_cases hzero : a = 0 ∧ sec.last = maxVa
  · exact .inl hzero
  · refine .inr ?_
    unfold maxVa at hlast hzero
    rw [show sec.last + 1 + 2 ^ 64 - a = sec.last + 1 - a + 2 ^ 64 by omega, Nat.add_mod_right,
      Nat.mod_eq_of_lt (by omega)]
    omega

/-- A walk from a target address behind which the section has room twice passes its checks. -/
theorem allocWalk_end_of_room {e : AllocEnd} (hclosed : m.Closed t)
    (hlapEnd : lapEnd = (start / m.dscr.shape.span + 1) * m.dscr.shape.span)
    (hlast : sec.last ≤ maxVa) (hlap : start + n * pageSize ≤ lapEnd)
    (hroom : start + 2 * (n * pageSize) ≤ sec.last + 1) (h : m.WalkBounds true start lapEnd c w)
    (hend : m.allocWalk t true n sec lapEnd k w = some e) :
    e = .blocked ∨ ∃ again top, e = .run again top := by
  induction k generalizing w c with
  | zero => cases hend
  | succ k ih =>
      rw [allocWalk] at hend
      by_cases hblocked : w.blocked = true
      · rw [if_pos hblocked] at hend
        exact .inl (Option.some.inj hend).symm
      rw [if_neg hblocked] at hend
      by_cases hcount : n ≤ w.count
      · rw [if_pos hcount] at hend
        exact .inr ⟨_, _, (Option.some.inj hend).symm⟩
      have hmul := Nat.mul_lt_mul_of_pos_right (Nat.not_le.mp hcount) (show 0 < pageSize by decide)
      have haddr := h.target rfl
      have hlt : w.addr < lapEnd := by omega
      have hspace : sec.hasSpace n (w.addr % 2 ^ 64) = true := by
        unfold maxVa at hlast
        rw [Nat.mod_eq_of_lt (by omega)]
        exact hasSpace_of_room hlast (by omega)
      have hsame : w.addr / m.dscr.shape.span = start / m.dscr.shape.span := by
        rw [hlapEnd] at hlt
        exact le_antisymm (Nat.le_of_lt_succ ((Nat.div_lt_iff_lt_mul
          m.dscr.shape.span_pos).mpr hlt)) (Nat.div_le_div_right (by omega))
      have hbounds : m.WalkBounds true start lapEnd w.addr { w with again := false } :=
        ⟨h.lt, h.low, h.high, fun _ => Nat.le_add_right _ _, h.target⟩
      rw [if_neg hcount, hspace, Bool.not_true, if_neg Bool.false_ne_true,
        if_pos ⟨by omega, hlt⟩] at hend
      exact ih (walkEntries_bounds hclosed hlapEnd hbounds hsame rfl) hend

theorem allocSearch_mono {s s' : AllocState} {rounds rounds' : ℕ} (hle : rounds ≤ rounds')
    (h : m.allocSearch given n sec rounds s = some s') :
    m.allocSearch given n sec rounds' s = some s' := by
  induction rounds generalizing s rounds' with
  | zero => cases h
  | succ rounds ih =>
      obtain ⟨rounds', rfl⟩ : ∃ k, rounds' = k + 1 := ⟨rounds' - 1, by omega⟩
      have hle' := Nat.le_of_succ_le_succ hle
      rw [allocSearch] at h ⊢
      split_ifs at h ⊢
      · exact h
      · obtain ⟨pte, hpte, h⟩ := Option.bind_eq_some_iff.mp h
        rw [hpte, Option.bind_some]
        exact ih hle' h
      · exact h

/-- A call for free pages at a target address, behind which the section has room twice, returns the
address. The pages are to be in one table of the first level. -/
theorem memAllocVpage_target {t' : PtEntries} {rounds a : ℕ} {res : Option ℕ}
    (hclosed : m.Closed t) (hmark : m.Unmarked t) (hn : 0 < n) (hsec : m.sections[idx]? = some sec)
    (hlast : sec.last ≤ maxVa) (hsearch : m.Searches sec idx (some a))
    (hfree : ∀ x < n * pageSize, m.IsFree t (a + x))
    (hlap : a + n * pageSize ≤ (a / m.dscr.shape.span + 1) * m.dscr.shape.span)
    (hroom : a + 2 * (n * pageSize) ≤ sec.last + 1)
    (h : m.memAllocVpage n rounds t idx (some a) = some (t', res)) : res = some a := by
  have hspan : n * pageSize ≤ m.dscr.shape.span := by
    have hlow := Nat.div_mul_le_self a m.dscr.shape.span
    rw [Nat.add_mul, Nat.one_mul] at hlap
    omega
  have ha : a < 2 ^ 64 := (hsearch.2.1.trans hlast).trans_lt (by decide)
  have hword : (a / m.dscr.shape.span + 1) * m.dscr.shape.span ≤ 2 ^ 64 :=
    lapEnd_le PtDscr.span_dvd_two_pow ha
  have hbounds := walkBounds_start (m := m) true
    ((a / m.dscr.shape.span + 1) * m.dscr.shape.span) a
  obtain ⟨e, hend, hblocked⟩ := allocWalk_ends sec hclosed rfl (fun _ => hfree) hbounds rfl
    (Nat.lt_succ_self _)
  obtain rfl | ⟨again, top, rfl⟩ :=
    allocWalk_end_of_room hclosed rfl hlast hlap hroom hbounds hend
  · exact absurd rfl hblocked
  -- the walk ends at a run, so the search does, with as many rounds or with those of the call
  have hstart := allocInv_start (n := n) hclosed hmark ha hsearch.2.2 fun b hb => Option.some.inj hb
  obtain ⟨s, v, hs, hinv, hcount, hvpage, hrun⟩ := (allocSearch_sim sec _ hspan hn hclosed rfl hword
    hstart (allocSim_start t _ a ha) hbounds fun hle => absurd hn (Nat.not_lt.mpr hle)).2 _ _ hend
  rw [memAllocVpage_of_searches hsec hsearch] at h
  obtain ⟨s', hs', hmarked⟩ := Option.bind_eq_some_iff.mp h
  have hsame : s = s' := Option.some.inj
    ((allocSearch_mono (le_max_left _ rounds) hs).symm.trans
      (allocSearch_mono (le_max_right _ rounds) hs'))
  obtain ⟨v', t₁, hv', hmark', -⟩ := hinv.allocMark hspan hn hcount
  rw [← hsame, hmark'] at hmarked
  cases hmarked
  rw [hvpage] at hv'
  rw [← Option.some.inj hv', hrun.target rfl]

/-- Calls find the pages of the section, with no space check passed without room, iff their space
checks pass. -/
theorem memAllocVpage_complete_iff (hwf : m.WellFormed t) (hn : 0 < n)
    (hspan : n * pageSize ≤ m.dscr.shape.span) (hsec : m.sections[idx]? = some sec)
    (hlast : sec.last ≤ maxVa) :
    (m.AllocComplete t sec idx at' n ∧ (m.HasRun t sec at' n →
        ¬ m.AllocEnds t sec at'.isSome (at'.getD sec.beg) n .lost)) ↔
      (m.HasRun t sec at' n → m.AllocChecksPass t sec idx at' n) := by
  constructor
  · rintro ⟨hcomplete, hlost⟩ hrun
    obtain ⟨rounds, t', v, h⟩ := hcomplete hrun
    obtain ⟨hsearch, -, hends⟩ := ends_of_memAllocVpage hwf hn hspan hsec hlast h
    refine ⟨hsearch, fun hno => ?_, hlost hrun⟩
    rcases hends with hend | ⟨again, top, hend, -⟩
    · exact hlost hrun hend
    · cases hend.unique hno
  · intro hpass
    refine ⟨fun hrun => ?_, fun hrun => (hpass hrun).2.2⟩
    obtain ⟨hsearch, hno, hlost⟩ := hpass hrun
    obtain ⟨v, -, -, -, htarget, hfree⟩ := hrun
    have hfree' : at'.isSome = true →
        ∀ x < n * pageSize, m.IsFree t (at'.getD sec.beg + x) := by
      intro hsome x hx
      obtain ⟨a, rfl⟩ := Option.isSome_iff_exists.mp hsome
      obtain rfl := htarget a rfl
      exact ⟨(hfree x hx).1, (hfree x hx).2⟩
    obtain ⟨e, he, hblocked⟩ := allocWalk_ends sec hwf.closed rfl hfree'
      (walkBounds_start at'.isSome _ (at'.getD sec.beg)) rfl (Nat.lt_succ_self _)
    have hend : m.AllocEnds t sec at'.isSome (at'.getD sec.beg) n e := ⟨_, he⟩
    cases e with
    | run again top =>
        obtain ⟨rounds, t', v, h, -⟩ :=
          exists_memAllocVpage at' hwf hn hspan hsec hlast hsearch hend
        exact ⟨rounds, t', v, h⟩
    | blocked => exact absurd rfl hblocked
    | noSpace => exact absurd hend hno
    | lost => exact absurd hend hlost

end Mmu

/-- An address space of the hypervisor with a section of four pages, two on each side of the
addresses of a table. -/
def fourPageMmu : Mmu :=
  Riscv.hypMmu [⟨0x1fe000, 0x201fff⟩]
    fun lvl k => BitVec.ofNat 64 (0xa0000000 + (2048 * lvl + k) * pageSize)

theorem allocChecksPass_two_pages :
    fourPageMmu.AllocChecksPass emptyTables ⟨0x1fe000, 0x201fff⟩ 0 none 2 := by
  have hrun : fourPageMmu.AllocEnds emptyTables ⟨0x1fe000, 0x201fff⟩ false 0x1fe000 2
      (.run false 0x200000) := ⟨4, by decide +kernel⟩
  refine ⟨⟨fun a ha => ?_, by decide, by decide⟩, fun h => ?_, fun h => ?_⟩
  · cases ha
  · cases hrun.unique h
  · cases hrun.unique h

theorem memAllocVpage_complete_iff_two_pages :
    fourPageMmu.AllocComplete emptyTables ⟨0x1fe000, 0x201fff⟩ 0 none 2 :=
  ((Mmu.memAllocVpage_complete_iff (Mmu.wellFormed_emptyTables _) (by decide) (by decide) rfl
    (by decide)).mpr fun _ => allocChecksPass_two_pages).1

/-- All four pages of the section are free, but the check at the second table fails. -/
theorem memAllocVpage_misses_run :
    fourPageMmu.WellFormed emptyTables ∧
      fourPageMmu.HasRun emptyTables ⟨0x1fe000, 0x201fff⟩ none 4 ∧
      ¬ fourPageMmu.AllocComplete emptyTables ⟨0x1fe000, 0x201fff⟩ 0 none 4 := by
  have hwf := Mmu.wellFormed_emptyTables fourPageMmu
  have hrun : fourPageMmu.HasRun emptyTables ⟨0x1fe000, 0x201fff⟩ none 4 := by
    refine ⟨0x1fe000, by decide, by decide, by decide, fun a ha => ?_, fun x _ => ?_⟩
    · cases ha
    · exact ⟨Mmu.leafAt_emptyTables _ _, Mmu.isReserved_emptyTables _ _⟩
  have hno : fourPageMmu.AllocEnds emptyTables ⟨0x1fe000, 0x201fff⟩ false 0x1fe000 4 .noSpace :=
    ⟨4, by decide +kernel⟩
  refine ⟨hwf, hrun, fun h => ?_⟩
  obtain ⟨rounds, t', v, hres⟩ := h hrun
  obtain ⟨-, -, hends⟩ :=
    Mmu.ends_of_memAllocVpage hwf (by decide) (by decide) rfl (by decide) hres
  rcases hends with hend | ⟨again, top, hend, -⟩
  · cases hend.unique hno
  · cases hend.unique hno

end BaoHypervisor
