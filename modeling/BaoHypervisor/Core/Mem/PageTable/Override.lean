import BaoHypervisor.Arch.Riscv.PageTable
import BaoHypervisor.Core.Mem.PageTable.Map

/-!
# Mapping over what is mapped

`mem_map` stops in `ERROR` when the entry it would write is valid, but it looks at the first
entry of each run only. Whether a call writes over a mapping or a table is seen from the
entries before the call: it keeps all of them iff the other entries of its runs were invalid
(`neverOverrides_iff`).
-/

namespace BaoHypervisor

namespace Mmu

variable (m : Mmu) (t : PtEntries) (va : ℕ) (base : Addr) (n : ℕ) (flags : Pte)

/-- A call never overrides: what is mapped in the range stays as it is, nothing was mapped there
if the call returns, and tables stay tables. -/
structure NeverOverrides : Prop where
  kept : ∀ x < n * pageSize, m.leafAt t (pageFloor va + x) ≠ none →
    m.leafAt (m.memMap t va base n flags).1 (pageFloor va + x) = m.leafAt t (pageFloor va + x)
  unmapped : (m.memMap t va base n flags).2 = some true →
    ∀ x < n * pageSize, m.leafAt t (pageFloor va + x) = none
  tables : ∀ lvl b, m.Path t lvl b → m.Path (m.memMap t va base n flags).1 lvl b

/-- An entry of a run was invalid and no table, or it was what is written and the call stops
later on. -/
def KeepsEntry (e : ℕ × ℕ) : Prop :=
  (m.look t (pageVa (pageFloor va) e.2)).1 ≤ e.1 ∧
    (m.leafAt t (pageVa (pageFloor va) e.2) = none ∨
      (m.mapEntries t (pageFloor va) base n 0 n).2 = false ∧
        m.leafAt t (pageVa (pageFloor va) e.2) = some (e.1, m.mapPte base flags e.1 e.2))

instance (e : ℕ × ℕ) : Decidable (m.KeepsEntry t va base n flags e) :=
  inferInstanceAs (Decidable (_ ∧ (_ ∨ _ ∧ _)))

/-- Each entry that a call would write was invalid and no table. -/
def KeepsEntries : Prop :=
  m.InSection (pageFloor va) n →
    ∀ e ∈ (m.mapEntries t (pageFloor va) base n 0 n).1, m.KeepsEntry t va base n flags e

variable {m t va base n flags}

theorem look_of_entry (hclosed : m.Closed t) {e : ℕ × ℕ} {a b : ℕ} (hlt : e.1 < m.dscr.lvls)
    (hle : (m.look t a).1 ≤ e.1) (h : m.dscr.pos e.1 b = m.dscr.pos e.1 a) :
    m.look t b = m.look t a :=
  look_of_pos_eq hclosed (pos_eq_of_le hlt hle h)

theorem keepsEntries_of_neverOverrides (hclosed : m.Closed t) (hflags : m.fmt.FlagsOk flags)
    (hspan : n * pageSize ≤ m.dscr.shape.span) (h : m.NeverOverrides t va base n flags) :
    m.KeepsEntries t va base n flags := by
  intro hsec e he
  obtain ⟨hres, hmapped⟩ := memMap_mapped base hclosed hflags hspan hsec
  obtain ⟨hlt, -, -, hend⟩ := mem_mapEntries he
  have hpages := PtDscr.lvlPages_pos hlt
  have hin : e.2 * pageSize < n * pageSize := Nat.mul_lt_mul_of_pos_right (by omega) (by decide)
  have hentry := hmapped.entry e he _ rfl
  refine ⟨?_, ?_⟩
  · -- a table there would be kept, but there is the entry
    by_contra hlook
    have hpath := h.tables (e.1 + 1) _ ((path_iff_le_look hclosed).mpr (not_le.mp hlook))
    rw [path_iff_le_look hmapped.closed, (leafAt_eq_some_iff.mp hentry).1] at hpath
    exact Nat.not_succ_le_self _ hpath
  · by_cases hleaf : m.leafAt t (pageVa (pageFloor va) e.2) = none
    · exact .inl hleaf
    · refine .inr ⟨?_, (h.kept _ hin hleaf).symm.trans hentry⟩
      by_contra hdone
      rw [Bool.not_eq_false] at hdone
      rw [if_pos hdone] at hres
      exact hleaf (h.unmapped hres _ hin)

theorem neverOverrides_of_keepsEntries (hclosed : m.Closed t) (hflags : m.fmt.FlagsOk flags)
    (hspan : n * pageSize ≤ m.dscr.shape.span) (h : m.KeepsEntries t va base n flags) :
    m.NeverOverrides t va base n flags := by
  by_cases hsec : m.InSection (pageFloor va) n
  · obtain ⟨hres, hmapped⟩ := memMap_mapped base hclosed hflags hspan hsec
    have hkeeps := h hsec
    have hlook : ∀ e ∈ (m.mapEntries t (pageFloor va) base n 0 n).1, ∀ b,
        m.dscr.pos e.1 b = m.dscr.pos e.1 (pageVa (pageFloor va) e.2) →
          m.look t b = m.look t (pageVa (pageFloor va) e.2) := fun e he b hb =>
      look_of_entry hclosed (mem_mapEntries he).1 (hkeeps e he).1 hb
    refine ⟨fun x hx hleaf => ?_, fun htrue x hx => ?_, fun lvl b hpath => ?_⟩
    · by_cases hentry : ∃ e ∈ (m.mapEntries t (pageFloor va) base n 0 n).1,
          m.dscr.pos e.1 (pageFloor va + x) = m.dscr.pos e.1 (pageVa (pageFloor va) e.2)
      · obtain ⟨e, he, hb⟩ := hentry
        rw [hmapped.entry e he _ hb]
        rw [leafAt_congr (hlook e he _ hb)] at hleaf ⊢
        exact ((hkeeps e he).2.resolve_left hleaf).2.symm
      · exact hmapped.leafAt _ fun e he hb => hentry ⟨e, he, hb⟩
    · have hdone : (m.mapEntries t (pageFloor va) base n 0 n).2 = true := by
        by_contra hdone
        rw [hres, if_neg hdone] at htrue
        cases htrue
      obtain ⟨e, he, hle, hlt⟩ := exists_mem_mapEntries hdone (Nat.zero_le (x / pageSize))
        (by rw [Nat.zero_add]; exact Nat.div_lt_of_lt_mul (by rwa [Nat.mul_comm]))
      obtain ⟨hlvl, hdvd, -, -⟩ := mem_mapEntries he
      have hb := pos_of_mem_entry hlvl hdvd ((Nat.le_div_iff_mul_le (by decide)).mp hle)
        ((Nat.div_lt_iff_lt_mul (by decide)).mp hlt)
      rw [leafAt_congr (hlook e he _ hb)]
      refine (hkeeps e he).2.resolve_right fun hstop => ?_
      rw [hdone] at hstop
      cases hstop.1
    · by_cases hentry : ∃ e ∈ (m.mapEntries t (pageFloor va) base n 0 n).1,
          m.dscr.pos e.1 b = m.dscr.pos e.1 (pageVa (pageFloor va) e.2)
      · obtain ⟨e, he, hb⟩ := hentry
        have hle := (path_iff_le_look hclosed).mp hpath
        rw [hlook e he b hb] at hle
        rw [path_iff_le_look hmapped.closed,
          (leafAt_eq_some_iff.mp (hmapped.entry e he b hb)).1]
        exact hle.trans (hkeeps e he).1
      · exact hmapped.path b (fun e he hb => hentry ⟨e, he, hb⟩) lvl hpath
  · have hsame := memMap_of_not_inSection (m := m) (t := t) base flags hsec
    refine ⟨fun x _ _ => by rw [hsame], fun htrue => ?_, fun lvl b hpath => by rwa [hsame]⟩
    rw [hsame] at htrue
    cases htrue

/-- `mem_map` overrides nothing iff the entries it goes on to write after the first one of each
run were invalid and no tables. -/
theorem neverOverrides_iff (hclosed : m.Closed t) (hflags : m.fmt.FlagsOk flags)
    (hspan : n * pageSize ≤ m.dscr.shape.span) :
    m.NeverOverrides t va base n flags ↔ m.KeepsEntries t va base n flags :=
  ⟨keepsEntries_of_neverOverrides hclosed hflags hspan,
    neverOverrides_of_keepsEntries hclosed hflags hspan⟩

end Mmu

def secondSuperpage : PtEntries := fun lvl k =>
  if lvl = 0 ∧ k = 0 then Riscv.pteSet 0x90000000#64 .table Riscv.pteHypFlags
  else if lvl = 1 ∧ k = 1 then Riscv.pteSet 0x80200000#64 .superpage Riscv.pteVmFlags
  else 0#64

/-- The address space of a VM that has the physical pages from `0xa0000000` on for its tables. -/
def someVmMmu : Mmu :=
  Riscv.vmMmu fun lvl k => BitVec.ofNat 64 (0xa0000000 + (2048 * lvl + k) * pageSize)

theorem secondSuperpage_valid {lvl k : ℕ} (h : Riscv.pteValid (secondSuperpage lvl k) = true) :
    lvl = 0 ∧ k = 0 ∨ lvl = 1 ∧ k = 1 := by
  rw [secondSuperpage] at h
  split_ifs at h with htable hleaf
  · exact .inl htable
  · exact .inr hleaf
  · cases h

/-- Tables with superpages below the first entry of the root table. -/
theorem wellFormed_of_superpages {m : Mmu} {t : PtEntries} (hlvls : 2 < m.dscr.lvls)
    (htable : m.tab t 0 0 = true) (hreserved : m.fmt.pteReserved (t 0 0) = false)
    (hterm : m.dscr.lvlTerm 1 = true)
    (hvalid : ∀ lvl k, m.fmt.pteValid (t lvl k) = true → lvl = 0 ∧ k = 0 ∨
      lvl = 1 ∧ m.fmt.ptePage (m.isLast lvl) (t lvl k) = true ∧
        m.dscr.ptLvlsize lvl ∣ (m.fmt.pteAddr (t lvl k)).toNat) :
    m.WellFormed t := by
  have hpath : ∀ lvl va, m.Path t (lvl + 1) va → lvl = 0 ∧ m.dscr.pos 0 va = 0 := by
    intro lvl va hpath
    have hat : m.fmt.pteTable (m.isLast lvl) (t lvl (m.dscr.pos lvl va)) = true :=
      hpath lvl (Nat.lt_succ_self lvl)
    rcases hvalid _ _ (m.fmt.pteValid_of_pteTable _ _ hat) with ⟨rfl, hk⟩ | ⟨-, hpage, -⟩
    · exact ⟨rfl, hk⟩
    · rw [m.fmt.pteTable_of_ptePage _ _ hpage] at hat
      cases hat
  have hleaf : ∀ lvl va, m.Stops t lvl va → m.fmt.pteValid (m.pteAt t lvl va) = true →
      lvl = 1 ∧ m.fmt.ptePage (m.isLast lvl) (m.pteAt t lvl va) = true ∧
        m.dscr.ptLvlsize lvl ∣ (m.fmt.pteAddr (m.pteAt t lvl va)).toNat := by
    intro lvl va hstops hat
    rcases hvalid _ _ hat with ⟨rfl, hk⟩ | hpage
    · have hnot := hstops.not_table
      rw [show m.dscr.shape.pos 0 va = 0 from hk, htable] at hnot
      cases hnot
    · exact hpage
  refine ⟨fun va h => ?_, fun lvl _ va h => ?_, fun lvl va h hat => (hleaf lvl va h hat).2.1,
    fun lvl va h hat => ?_, fun lvl va h hat => (hleaf lvl va h hat).2.2⟩
  · exact absurd (hpath 1 va (h.mono (Nat.le_sub_one_of_lt hlvls))).1 Nat.one_ne_zero
  · obtain ⟨rfl, hk⟩ := hpath lvl va h
    rw [Mmu.pteAt, hk]
    exact hreserved
  · obtain ⟨rfl, -, -⟩ := hleaf lvl va h hat
    exact hterm

theorem wellFormed_secondSuperpage : someVmMmu.WellFormed secondSuperpage := by
  refine wellFormed_of_superpages (by decide) (by decide) (by decide) rfl fun lvl k h => ?_
  rcases secondSuperpage_valid h with hk | ⟨rfl, rfl⟩
  · exact .inl hk
  · exact .inr (by decide)

theorem neverOverrides_iff_two_superpages :
    someVmMmu.NeverOverrides secondSuperpage 0x400000 0x80400000#64 1024 Riscv.pteVmFlags :=
  (Mmu.neverOverrides_iff wellFormed_secondSuperpage.closed trivial (by decide)).mpr
    fun _ => by decide +kernel

/-- Two superpages from the first one on go over the second one. -/
theorem memMap_overrides_superpage :
    someVmMmu.WellFormed secondSuperpage ∧
      someVmMmu.memTranslate secondSuperpage 0x200000 = some 0x80200000#64 ∧
      someVmMmu.memTranslate
        (someVmMmu.memMap secondSuperpage 0 0x80400000#64 1024 Riscv.pteVmFlags).1 0x200000 =
          some 0x80600000#64 ∧
      ¬ someVmMmu.NeverOverrides secondSuperpage 0 0x80400000#64 1024 Riscv.pteVmFlags :=
  ⟨wellFormed_secondSuperpage, by decide +kernel, by decide +kernel, fun h =>
    absurd (h.unmapped (by decide +kernel) 0x200000 (by decide)) (by decide +kernel)⟩

end BaoHypervisor
