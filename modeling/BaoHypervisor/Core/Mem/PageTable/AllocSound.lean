import BaoHypervisor.Core.Mem.PageTable.AllocWalk
import BaoHypervisor.Core.Mem.PageTable.Law

/-!
# The pages that are reserved

Whatever pages `mem_alloc_vpage` returns were free and are reserved afterwards, and no translation
changes. They are in the section if there was a target address, or if the run that the search
found goes back to before the last space check; a run that began behind an obstacle after it may
end behind the section.
-/

namespace BaoHypervisor

namespace Mmu

variable {m : Mmu} {t t' : PtEntries} {n rounds idx v a start : ℕ} {sec : VaSection}
  {at' : Option ℕ}

/-- The pages were free and are reserved now, all of them in the section, and no translation has
changed. -/
structure AllocLaw (m : Mmu) (sec : VaSection) (t t' : PtEntries) (at' : Option ℕ) (v n : ℕ) :
    Prop where
  inside : sec.beg ≤ v ∧ v + n * pageSize ≤ sec.last + 1
  target : ∀ a, at' = some a → v = a
  free : ∀ x < n * pageSize, m.leafAt t (v + x) = none ∧ m.isReserved t (v + x) = false
  reserved : ∀ x < n * pageSize, m.isReserved t' (v + x) = true
  frame : ∀ b, m.memTranslate t' b = m.memTranslate t b

/-- Every call that returns pages obeys the law. -/
def AllocSound (m : Mmu) (t : PtEntries) (sec : VaSection) (idx : ℕ) (at' : Option ℕ) (n : ℕ) :
    Prop :=
  ∀ rounds t' v, m.memAllocVpage n rounds t idx at' = some (t', some v) →
    m.AllocLaw sec t t' at' v n

/-- The search of a section without a target address passes no space check without room, and finds
no run that began behind an obstacle after the last space check and ends behind the section. -/
def AllocStays (m : Mmu) (t : PtEntries) (sec : VaSection) (n : ℕ) : Prop :=
  ¬ m.AllocEnds t sec false sec.beg n .lost ∧
    ∀ top, m.AllocEnds t sec false sec.beg n (.run true top) → top ≤ sec.last + 1

theorem Reserves.allocLaw (h : m.Reserves t t' at' v n)
    (hin : sec.beg ≤ v ∧ v + n * pageSize ≤ sec.last + 1) : m.AllocLaw sec t t' at' v n where
  inside := hin
  target := h.target
  free := fun x hx => ⟨(h.free x hx).leafAt, (h.free x hx).isReserved⟩
  reserved := h.reserved
  frame := fun b => by rw [memTranslate_eq, memTranslate_eq, h.leafAt]

theorem memFindSec_eq_some (h : m.memFindSec a = some idx) (hsec : m.sections[idx]? = some sec) :
    sec.beg ≤ a ∧ a ≤ sec.last := by
  rw [memFindSec, List.findIdx?_eq_some_iff_getElem] at h
  obtain ⟨hlt, hin, -⟩ := h
  rw [List.getElem?_eq_getElem hlt, Option.some.injEq] at hsec
  rw [hsec, Bool.and_eq_true, decide_eq_true_iff, decide_eq_true_iff] at hin
  exact hin

theorem room_of_hasSpace (hn : 0 < n) (hspan : n * pageSize ≤ m.dscr.shape.span)
    (hlast : sec.last ≤ maxVa) (ha : a ≤ sec.last) (h : sec.hasSpace n a = true) :
    a + n * pageSize ≤ sec.last + 1 := by
  have hle : m.dscr.shape.span ≤ 2 ^ 64 :=
    Nat.le_of_dvd (Nat.two_pow_pos 64) PtDscr.span_dvd_two_pow
  rw [VaSection.hasSpace, Bool.or_eq_true, Bool.and_eq_true, beq_iff_eq, beq_iff_eq,
    decide_eq_true_iff, Nat.le_div_iff_mul_le (by decide)] at h
  have hpos : 0 < n * pageSize := Nat.mul_pos hn (by decide)
  rcases h with ⟨rfl, hmax⟩ | h
  · rw [hmax, Nat.zero_add]
    exact hspan.trans hle
  · unfold maxVa at hlast
    omega

theorem allocSim_start (t : PtEntries) (lapEnd a : ℕ) (ha : a < 2 ^ 64) :
    m.AllocSim t lapEnd (allocStart t a) ⟨0, a, 0, false, false⟩ :=
  ⟨rfl, (Nat.mod_eq_of_lt ha).symm, rfl, rfl, fun _ _ => id, fun _ _ => rfl,
    fun _ _ _ _ _ _ _ => id⟩

theorem walkBounds_start (given : Bool) (lapEnd a : ℕ) :
    m.WalkBounds given a lapEnd a ⟨0, a, 0, false, false⟩ := by
  have hzero : a + 0 * pageSize = a := by rw [Nat.zero_mul, Nat.add_zero]
  exact ⟨m.dscr.lvls_pos, hzero.le, .inl rfl, fun _ => hzero.ge, fun _ => hzero.symm⟩

theorem lapEnd_le {s : ℕ} (hs : s ∣ 2 ^ 64) (ha : a < 2 ^ 64) : (a / s + 1) * s ≤ 2 ^ 64 := by
  obtain ⟨k, hk⟩ := hs
  rw [hk, Nat.mul_comm s k]
  refine Nat.mul_le_mul_right s (Nat.div_lt_of_lt_mul ?_)
  rwa [hk] at ha

/-- The search from an address on finds pages iff the walk does, unless the walk is lost. -/
theorem allocSearch_ends (sec : VaSection) (rounds : ℕ) (hwf : m.WellFormed t) (hn : 0 < n)
    (hspan : n * pageSize ≤ m.dscr.shape.span) (ha : a < 2 ^ 64) (hpage : pageSize ∣ a)
    (hat : ∀ b, at' = some b → a = b) :
    (∀ s' v, m.allocSearch at'.isSome n sec rounds (allocStart t a) = some s' →
      s'.vpage = some v → m.AllocEnds t sec at'.isSome a n .lost ∨
        ∃ again top, m.AllocEnds t sec at'.isSome a n (.run again top) ∧
          RunAt sec at'.isSome a n v again top) ∧
    (∀ again top, m.AllocEnds t sec at'.isSome a n (.run again top) →
      ∃ rounds s' v, m.allocSearch at'.isSome n sec rounds (allocStart t a) = some s' ∧
        m.AllocInv t at' n s' ∧ s'.count = n ∧ s'.vpage = some v ∧
          RunAt sec at'.isSome a n v again top) := by
  have hsim := fun rounds => allocSearch_sim sec rounds hspan hn hwf.closed rfl
    (lapEnd_le PtDscr.span_dvd_two_pow ha) (allocInv_start hwf.closed hwf.table ha hpage hat)
    (allocSim_start t _ a ha) (walkBounds_start at'.isSome _ a)
    fun h => absurd hn (Nat.not_lt.mpr h)
  refine ⟨fun s' v hs hv => ?_, fun again top h => ?_⟩
  · rcases (hsim rounds).1 s' v hs hv with hlost | ⟨again, top, hw, hrun⟩
    · exact .inl ⟨rounds, hlost⟩
    · exact .inr ⟨again, top, ⟨rounds, hw⟩, hrun⟩
  · obtain ⟨rounds, hw⟩ := h
    exact ⟨rounds, (hsim rounds).2 again top hw⟩

theorem ends_of_memAllocVpage (hwf : m.WellFormed t) (hn : 0 < n)
    (hspan : n * pageSize ≤ m.dscr.shape.span) (hsec : m.sections[idx]? = some sec)
    (hlast : sec.last ≤ maxVa) (h : m.memAllocVpage n rounds t idx at' = some (t', some v)) :
    m.Searches sec idx at' ∧ m.Reserves t t' at' v n ∧
      (m.AllocEnds t sec at'.isSome (at'.getD sec.beg) n .lost ∨
        ∃ again top, m.AllocEnds t sec at'.isSome (at'.getD sec.beg) n (.run again top) ∧
          RunAt sec at'.isSome (at'.getD sec.beg) n v again top) := by
  obtain ⟨hsearch, s, hs, hvpage, -, hres⟩ :=
    (memAllocVpage_eq_some_iff hwf.closed hwf.table hspan hn hsec hlast).mp h
  have haddr : at'.getD sec.beg < 2 ^ 64 := (hsearch.2.1.trans hlast).trans_lt (by decide)
  exact ⟨hsearch, hres, (allocSearch_ends sec rounds hwf hn hspan haddr hsearch.2.2
    fun b hb => by rw [hb]; rfl).1 s v hs hvpage⟩

theorem exists_memAllocVpage (at' : Option ℕ) (hwf : m.WellFormed t) (hn : 0 < n)
    (hspan : n * pageSize ≤ m.dscr.shape.span) (hsec : m.sections[idx]? = some sec)
    (hlast : sec.last ≤ maxVa) (hsearch : m.Searches sec idx at') {again : Bool} {top : ℕ}
    (h : m.AllocEnds t sec at'.isSome (at'.getD sec.beg) n (.run again top)) :
    ∃ rounds t' v, m.memAllocVpage n rounds t idx at' = some (t', some v) ∧
      RunAt sec at'.isSome (at'.getD sec.beg) n v again top := by
  have haddr : at'.getD sec.beg < 2 ^ 64 := (hsearch.2.1.trans hlast).trans_lt (by decide)
  obtain ⟨rounds, s, v, hs, hinv, hcount, hvpage, hrun⟩ := (allocSearch_ends sec 0 hwf hn
    hspan haddr hsearch.2.2 fun b hb => by rw [hb]; rfl).2 again top h
  obtain ⟨v', t', hv', hmark, hres⟩ := hinv.allocMark hspan hn hcount
  rw [hvpage] at hv'
  cases hv'
  exact ⟨rounds, t', v, (memAllocVpage_eq_some_iff hwf.closed hwf.table hspan hn hsec hlast).mpr
    ⟨hsearch, s, hs, hvpage, hmark, hres⟩, hrun⟩

/-- Pages returned at a target address are in the section. -/
theorem inside_of_target (hwf : m.WellFormed t) (hn : 0 < n)
    (hspan : n * pageSize ≤ m.dscr.shape.span) (hsec : m.sections[idx]? = some sec)
    (hlast : sec.last ≤ maxVa)
    (h : m.memAllocVpage n rounds t idx (some a) = some (t', some v)) :
    sec.beg ≤ v ∧ v + n * pageSize ≤ sec.last + 1 := by
  obtain ⟨hsearch, s, hs, hvpage, -, hres⟩ :=
    (memAllocVpage_eq_some_iff hwf.closed hwf.table hspan hn hsec hlast).mp h
  obtain rfl := hres.target a rfl
  refine ⟨(memFindSec_eq_some (hsearch.1 v rfl) hsec).1, ?_⟩
  cases rounds with
  | zero => cases hs
  | succ rounds =>
      rw [allocSearch, if_pos ⟨hn, rfl⟩] at hs
      refine room_of_hasSpace hn hspan hlast hsearch.2.1 ?_
      by_contra hspace
      rw [Bool.not_eq_true] at hspace
      rw [if_pos (by rw [Bool.not_eq_true']; exact hspace)] at hs
      rw [← Option.some.inj hs] at hvpage
      cases hvpage

/-- Pages are in the section if there is a target address or the search stays in it. -/
theorem inside_of_stays (hwf : m.WellFormed t) (hn : 0 < n)
    (hspan : n * pageSize ≤ m.dscr.shape.span) (hsec : m.sections[idx]? = some sec)
    (hlast : sec.last ≤ maxVa)
    (hstays : at' = none → m.Searches sec idx none → m.AllocStays t sec n)
    (h : m.memAllocVpage n rounds t idx at' = some (t', some v)) :
    sec.beg ≤ v ∧ v + n * pageSize ≤ sec.last + 1 := by
  obtain ⟨hsearch, -, hends⟩ := ends_of_memAllocVpage hwf hn hspan hsec hlast h
  cases at' with
  | some a => exact inside_of_target hwf hn hspan hsec hlast h
  | none =>
      obtain ⟨hlost, hinside⟩ := hstays rfl hsearch
      rcases hends with hend | ⟨again, top, hend, hrun⟩
      · exact absurd hend hlost
      · refine ⟨hrun.start_le, hrun.add_eq.trans_le ?_⟩
        cases again with
        | false => exact hrun.inside rfl
        | true => exact hinside top hend

/-- All calls are sound, with no space check passed without room, iff there is a target address or
the search stays in the section. -/
theorem memAllocVpage_sound_iff (hwf : m.WellFormed t) (hn : 0 < n)
    (hspan : n * pageSize ≤ m.dscr.shape.span) (hsec : m.sections[idx]? = some sec)
    (hlast : sec.last ≤ maxVa) :
    (m.AllocSound t sec idx at' n ∧ (at' = none → m.Searches sec idx none →
        ¬ m.AllocEnds t sec false sec.beg n .lost)) ↔
      (at' = none → m.Searches sec idx none → m.AllocStays t sec n) := by
  constructor
  · rintro ⟨hsound, hlost⟩ rfl hsearch
    refine ⟨hlost rfl hsearch, fun top hend => ?_⟩
    obtain ⟨rounds, t', v, h, hrun⟩ :=
      exists_memAllocVpage none hwf hn hspan hsec hlast hsearch hend
    exact hrun.add_eq.symm.trans_le (hsound rounds t' v h).inside.2
  · intro hstays
    refine ⟨fun rounds t' v h => ?_, fun hat hsearch => (hstays hat hsearch).1⟩
    obtain ⟨-, hres, -⟩ := ends_of_memAllocVpage hwf hn hspan hsec hlast h
    exact hres.allocLaw (inside_of_stays hwf hn hspan hsec hlast hstays h)

end Mmu

def reservedPages : PtEntries := fun lvl k =>
  if lvl < 2 ∧ k = 0 then Riscv.pteSet 0x90000000#64 .table Riscv.pteHypFlags
  else if lvl = 2 ∧ k < 5 then Riscv.pteReserve 0#64
  else 0#64

def eightPageMmu : Mmu :=
  Riscv.hypMmu [⟨0, 0x7fff⟩] fun lvl k => BitVec.ofNat 64 (0xa0000000 + (2048 * lvl + k) * pageSize)

theorem reservedPages_valid {lvl k : ℕ} (h : Riscv.pteValid (reservedPages lvl k) = true) :
    lvl < 2 ∧ k = 0 := by
  rw [reservedPages] at h
  split_ifs at h with htable
  · exact htable
  · exact absurd h (by decide)
  · cases h

theorem reservedPages_table {lvl k : ℕ} (hlvl : lvl < 2) (hk : k = 0) :
    reservedPages lvl k = Riscv.pteSet 0x90000000#64 .table Riscv.pteHypFlags := by
  rw [reservedPages, if_pos ⟨hlvl, hk⟩]

theorem wellFormed_reservedPages : eightPageMmu.WellFormed reservedPages := by
  have hstops : ∀ lvl va, eightPageMmu.Stops reservedPages lvl va →
      Riscv.pteValid (eightPageMmu.pteAt reservedPages lvl va) = true → False := by
    intro lvl va h hvalid
    obtain ⟨hlvl, hk⟩ := reservedPages_valid hvalid
    have hnot := h.not_table
    rw [Mmu.tab, reservedPages_table hlvl hk] at hnot
    change Riscv.pteTable _ = false at hnot
    exact absurd hnot (by decide)
  refine ⟨fun va _ => ?_, fun lvl _ va hpath => ?_, fun lvl va h hvalid => ?_,
    fun lvl va h hvalid => ?_, fun lvl va h hvalid => ?_⟩
  · rw [← Bool.not_eq_true]
    intro htable
    have hvalid := Riscv.pteFormat.pteValid_of_pteTable _ _ htable
    exact absurd (reservedPages_valid hvalid).1 (by decide)
  · have htable := hpath lvl (Nat.lt_succ_self lvl)
    obtain ⟨hlvl, hk⟩ := reservedPages_valid (Riscv.pteFormat.pteValid_of_pteTable _ _ htable)
    rw [Mmu.pteAt, reservedPages_table hlvl hk]
    decide
  · exact (hstops lvl va h hvalid).elim
  · exact (hstops lvl va h hvalid).elim
  · exact (hstops lvl va h hvalid).elim

theorem allocStays_reservedPages : eightPageMmu.AllocStays reservedPages ⟨0, 0x7fff⟩ 3 := by
  have hrun : eightPageMmu.AllocEnds reservedPages ⟨0, 0x7fff⟩ false 0 3 (.run true 0x8000) :=
    ⟨4, by decide +kernel⟩
  refine ⟨fun h => ?_, fun top h => ?_⟩
  · cases hrun.unique h
  · cases hrun.unique h
    decide

theorem memAllocVpage_sound_iff_three_pages :
    eightPageMmu.AllocSound reservedPages ⟨0, 0x7fff⟩ 0 none 3 :=
  ((Mmu.memAllocVpage_sound_iff wellFormed_reservedPages (by decide) (by decide) rfl
    (by decide)).mpr fun _ _ => allocStays_reservedPages).1

/-- Behind the five reserved pages there is no room for four pages, but they are returned. -/
theorem memAllocVpage_leaves_section :
    eightPageMmu.WellFormed reservedPages ∧
      (∃ t', eightPageMmu.memAllocVpage 4 4 reservedPages 0 none = some (t', some 0x5000)) ∧
      ¬ eightPageMmu.AllocSound reservedPages ⟨0, 0x7fff⟩ 0 none 4 := by
  have hres : (eightPageMmu.memAllocVpage 4 4 reservedPages 0 none).map (·.2) =
      some (some 0x5000) := by decide +kernel
  obtain ⟨⟨t', v⟩, ht', hv⟩ := Option.map_eq_some_iff.mp hres
  cases hv
  refine ⟨wellFormed_reservedPages, ⟨t', ht'⟩, fun h => ?_⟩
  exact absurd (h 4 t' 0x5000 ht').inside.2 (by decide)

end BaoHypervisor
