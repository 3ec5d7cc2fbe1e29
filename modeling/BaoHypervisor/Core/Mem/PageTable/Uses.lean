import BaoHypervisor.Core.Mem.PageTable.PhysRuns
import BaoHypervisor.Core.Mem.PageTable.SplitTables
import BaoHypervisor.Core.Mem.SharedPools

/-!
# What pages are used for

The tables of an address space use a page of memory where they show it, and for each table. As long
as the pages that they use are given to them or returned by calls for them, no two calls return the
same page, and each page that a call returns has one use (`Backed.draw`).
-/

namespace BaoHypervisor

inductive PageUse
  | shown (vpage : ℕ)
  | table (lvl pos : ℕ)

namespace Mmu

variable (m : Mmu) (t : PtEntries)

/-- The page of an address, of those that the root table tells apart. -/
def vpage (va : ℕ) : ℕ := va % m.dscr.shape.span / pageSize

/-- The number of a page that is used. -/
def Uses : PageUse → ℕ → Prop
  | .shown v, p => ∃ va pa, m.vpage va = v ∧ m.memTranslate t va = some pa ∧
      pa.toNat / pageSize = p
  | .table lvl k, p => ∃ va, lvl + 1 < m.dscr.lvls ∧ m.Path t (lvl + 1) va ∧
      m.dscr.pos lvl va = k ∧ (m.fmt.pteAddr (m.pteAt t lvl va)).toNat / pageSize ≤ p ∧
      p < (m.fmt.pteAddr (m.pteAt t lvl va)).toNat / pageSize + (m.ptPages (lvl + 1)).toNat

variable {m t} {t' : PtEntries} {lvl va b p : ℕ} {pte : Pte} {u u' : PageUse}

theorem lvlPages_lt (hlvl : lvl < m.dscr.lvls) : m.dscr.lvlPages lvl < 2 ^ 64 :=
  (Nat.div_le_self _ _).trans_lt (Nat.pow_lt_pow_right (by decide) (lvlOff_lt_word hlvl))

theorem vpage_eq (hlvl : lvl < m.dscr.lvls) (va : ℕ) :
    m.vpage va =
      m.dscr.pos lvl va * m.dscr.lvlPages lvl + va % m.dscr.ptLvlsize lvl / pageSize := by
  have hsize : m.dscr.ptLvlsize lvl = m.dscr.lvlPages lvl * pageSize :=
    (PtDscr.lvlPages_mul hlvl).symm
  have hspan : m.dscr.shape.span = m.dscr.ptLvlsize lvl * m.dscr.shape.count lvl := by
    rw [Nat.mul_comm]
    exact (Radix.Shape.count_mul_size hlvl).symm
  have hpos : m.dscr.pos lvl va = va / m.dscr.ptLvlsize lvl % m.dscr.shape.count lvl := rfl
  rw [vpage, hspan, Nat.mod_mul, ← hpos, hsize, Nat.mul_right_comm,
    Nat.add_mul_div_right _ _ (by decide), Nat.add_comm, Nat.mul_comm (m.dscr.lvlPages lvl)]

/-! ## An entry is written -/

theorem memTranslate_setPte (hclosed : m.Closed t) (hlvl : lvl < m.dscr.lvls)
    (hpath : m.Path t lvl va) (htable : m.fmt.pteTable (m.isLast lvl) pte = false) (b : ℕ) :
    m.memTranslate (m.setPte t lvl va pte) b =
      if m.dscr.pos lvl b = m.dscr.pos lvl va then
        if m.fmt.pteValid pte then some (m.leafAddr (lvl, pte) b) else none
      else m.memTranslate t b := by
  have hlook := look_setPte hclosed hlvl hpath htable b
  rw [memTranslate_eq, leafAt, hlook]
  by_cases hpos : m.dscr.pos lvl b = m.dscr.pos lvl va
  · rw [if_pos hpos, if_pos hpos]
    cases m.fmt.pteValid pte with
    | true => rfl
    | false => rfl
  · rw [if_neg hpos, if_neg hpos, memTranslate_eq, leafAt]

/-- An entry that is written uses the pages that it shows. -/
theorem uses_setPte (hclosed : m.Closed t) (hlvl : lvl < m.dscr.lvls) (hpath : m.Path t lvl va)
    (htable : m.fmt.pteTable (m.isLast lvl) pte = false)
    (hdvd : m.fmt.pteValid pte = true → m.dscr.ptLvlsize lvl ∣ (m.fmt.pteAddr pte).toNat)
    (h : m.Uses (m.setPte t lvl va pte) u p) :
    m.Uses t u p ∨ m.fmt.pteValid pte = true ∧ ∃ x < m.dscr.lvlPages lvl,
      u = .shown (m.dscr.pos lvl va * m.dscr.lvlPages lvl + x) ∧
        p = (m.fmt.pteAddr pte).toNat / pageSize + x := by
  cases u with
  | shown v =>
      obtain ⟨a, pa, hv, htrans, hp⟩ := h
      rw [memTranslate_setPte hclosed hlvl hpath htable] at htrans
      split_ifs at htrans with hpos hvalid
      · have hsize := PtDscr.lvlPages_mul hlvl
        have hlt : a % m.dscr.ptLvlsize lvl < m.dscr.lvlPages lvl * pageSize := by
          rw [hsize]
          exact Nat.mod_lt _ PtDscr.ptLvlsize_pos
        have hpage : pageSize ∣ (m.fmt.pteAddr pte).toNat :=
          (PtDscr.pageSize_dvd_ptLvlsize hlvl).trans (hdvd hvalid)
        refine .inr ⟨hvalid, a % m.dscr.ptLvlsize lvl / pageSize, Nat.div_lt_of_lt_mul ?_, ?_, ?_⟩
        · rwa [Nat.mul_comm]
        · rw [← hv, vpage_eq hlvl, hpos]
        · rw [← hp, ← Option.some.inj htrans, toNat_leafAddr hlvl (hdvd hvalid),
            Nat.add_div_of_dvd_right hpage]
      · exact .inl ⟨a, pa, hv, htrans, hp⟩
  | table l k =>
      obtain ⟨a, hl, hpath', hk, hbounds⟩ := h
      have hoff := off_of_path_setPte htable hpath'
      have hold := path_of_agreeOff (agreeOff_setPte t lvl va pte) hlvl hl hoff hpath'
      have hne : ¬(l = lvl ∧ m.dscr.pos lvl a = m.dscr.pos lvl va) := by
        rintro ⟨rfl, hpos⟩
        rcases hoff with hle | hne
        · exact absurd hle (Nat.not_succ_le_self l)
        · exact hne hpos
      rw [pteAt_setPte_of_ne hne] at hbounds
      exact .inl ⟨a, hl, hold, hk, hbounds⟩

/-! ## A table is put below an entry -/

variable (m) in
/-- The page that `mem_alloc_ppages` has for a table is known. -/
def withTable (base : Addr) : Mmu := { m with newTable := fun _ _ => base }

/-- A new table uses its pages. -/
theorem uses_memAllocPt {base : Addr} (hclosed : m.Closed t) (hlvl : lvl + 1 < m.dscr.lvls)
    (hpath : m.Path t lvl va) (hvalid : m.fmt.pteValid (m.pteAt t lvl va) = false)
    (hfits : 0 < (m.ptPages (lvl + 1)).toNat → base.toNat < 2 ^ m.fmt.addrWidth)
    (h : m.Uses ((m.withTable base).memAllocPt t lvl va) u p) :
    m.Uses t u p ∨ u = .table lvl (m.dscr.pos lvl va) ∧ base.toNat / pageSize ≤ p ∧
      p < base.toNat / pageSize + (m.ptPages (lvl + 1)).toNat := by
  have hlvl' := Nat.lt_of_succ_lt hlvl
  cases u with
  | shown v =>
      obtain ⟨a, pa, hv, htrans, hp⟩ := h
      have hleaf : m.leafAt ((m.withTable base).memAllocPt t lvl va) a = m.leafAt t a :=
        leafAt_memAllocPt (m := m.withTable base) hclosed hlvl hpath hvalid a
      rw [memTranslate_eq, hleaf, ← memTranslate_eq] at htrans
      exact .inl ⟨a, pa, hv, htrans, hp⟩
  | table l k =>
      obtain ⟨a, hl, hpath', hk, hle, hlt⟩ := h
      by_cases hentry : l = lvl ∧ m.dscr.pos lvl a = m.dscr.pos lvl va
      · obtain ⟨rfl, hpos⟩ := hentry
        have hpte : m.pteAt ((m.withTable base).memAllocPt t l va) l a =
            m.fmt.pteSet base .table m.fmt.hypFlags :=
          pteAt_memAllocPt (m := m.withTable base) hpos
        have hlt' := hfits (Nat.pos_of_ne_zero fun hzero => by
          rw [hzero] at hlt
          exact absurd (hle.trans_lt hlt) (lt_irrefl _))
        have haddr : (m.fmt.pteAddr (m.fmt.pteSet base .table m.fmt.hypFlags)).toNat / pageSize =
            base.toNat / pageSize := by
          rw [m.fmt.toNat_pteAddr_pteSet, Nat.mul_div_cancel _ (by decide), Nat.mod_eq_of_lt hlt']
        rw [hpte, haddr] at hle hlt
        exact .inr ⟨by rw [← hk, hpos], hle, hlt⟩
      · rcases off_or_under_of_path_memAllocPt (m := m.withTable base) hlvl hpath' with
          hoff | ⟨hl', hpos⟩
        · have hold := path_of_agreeOff (agreeOff_memAllocPt (m := m.withTable base) hlvl t va)
            hlvl' hl hoff hpath'
          have hpte : m.pteAt ((m.withTable base).memAllocPt t lvl va) l a = m.pteAt t l a :=
            pteAt_memAllocPt_of_ne (m := m.withTable base) hlvl hentry
              (hoff.imp_left Nat.le_of_succ_le) (Nat.lt_of_succ_lt hl)
          rw [hpte] at hle hlt
          exact .inl ⟨a, hl, hold, hk, hle, hlt⟩
        · exact absurd ⟨Nat.succ.inj hl', hpos⟩ hentry

/-! ## Each page has one use -/

/-- The pages that tables use are given, to be shown, or returned by calls; those that are not given
have one use each. The calls return different pages. -/
structure Backed (m : Mmu) (given : Set ℕ) (log : List (PoolCall × Option Addr)) (t : PtEntries) :
    Prop where
  closed : m.Closed t
  held : Sound m.fmt.addrWidth log → ∀ u p, m.Uses t u p →
    (p ∈ given ∧ ∃ v, u = .shown v) ∨ ∃ e ∈ log, HasPage e p
  sole : Sound m.fmt.addrWidth log → ∀ u u' p, m.Uses t u p → m.Uses t u' p → p ∉ given → u = u'

variable {given : Set ℕ} {log log' : List (PoolCall × Option Addr)} {e : PoolCall × Option Addr}

theorem backed_emptyTables (m : Mmu) (given : Set ℕ) : m.Backed given [] emptyTables := by
  have huses : ∀ u p, ¬ m.Uses emptyTables u p := by
    intro u p h
    cases u with
    | shown v =>
        obtain ⟨a, pa, -, htrans, -⟩ := h
        rw [memTranslate_eq, leafAt_emptyTables] at htrans
        cases htrans
    | table l k =>
        obtain ⟨a, hl, hpath, -⟩ := h
        have htable : m.fmt.pteTable (m.isLast 0) 0#64 = true := hpath 0 (Nat.succ_pos l)
        rw [pteTable_of_not_valid m.fmt.pteValid_zero] at htable
        cases htable
  exact ⟨(wellFormed_emptyTables m).closed, fun _ u p h => absurd h (huses u p),
    fun _ u _ p h => absurd h (huses u p)⟩

namespace Backed

variable (h : m.Backed given log t)
include h

/-- Other calls return other pages. -/
theorem calls (log' : List (PoolCall × Option Addr)) : m.Backed given (log ++ log') t where
  closed := h.closed
  held := fun hsound u p hu =>
    (h.held (hsound.sublist (List.sublist_append_left log log')) u p hu).imp_right
      fun ⟨e, he, hp⟩ => ⟨e, List.mem_append_left _ he, hp⟩
  sole := fun hsound => h.sole (hsound.sublist (List.sublist_append_left log log'))

theorem shrink (hclosed : m.Closed t') (huses : ∀ u p, m.Uses t' u p → m.Uses t u p) :
    m.Backed given log t' where
  closed := hclosed
  held := fun hsound u p hu => h.held hsound u p (huses u p hu)
  sole := fun hsound u u' p hu hu' =>
    h.sole hsound u u' p (huses u p hu) (huses u' p hu')

/-- Pages that are given are shown. -/
theorem give (hclosed : m.Closed t')
    (huses : ∀ u p, m.Uses t' u p → m.Uses t u p ∨ p ∈ given ∧ ∃ v, u = .shown v) :
    m.Backed given log t' where
  closed := hclosed
  held := fun hsound u p hu => (huses u p hu).elim (h.held hsound u p) .inl
  sole := by
    intro hsound u u' p hu hu' hp
    rcases huses u p hu with hu | ⟨hgiven, -⟩
    · rcases huses u' p hu' with hu' | ⟨hgiven, -⟩
      · exact h.sole hsound u u' p hu hu' hp
      · exact absurd hgiven hp
    · exact absurd hgiven hp

/-- The pages of one more call are used, for one thing each. -/
theorem draw (hclosed : m.Closed t') (New : PageUse → ℕ → Prop)
    (huses : Sound m.fmt.addrWidth (log ++ [e]) →
      ∀ u p, m.Uses t' u p → m.Uses t u p ∨ HasPage e p ∧ New u p)
    (hnew : ∀ u u' p, New u p → New u' p → u = u') : m.Backed given (log ++ [e]) t' where
  closed := hclosed
  held := by
    intro hsound u p hu
    rcases huses hsound u p hu with hu | ⟨hp, -⟩
    · exact (h.calls [e]).held hsound u p hu
    · exact .inr ⟨e, List.mem_append_right _ (List.mem_singleton_self e), hp⟩
  sole := by
    intro hsound u u' p hu hu' hgiven
    have hbefore := hsound.sublist (List.sublist_append_left log [e])
    -- what the tables used before is not what the call returns
    have hother : ∀ u, m.Uses t u p → ¬ HasPage e p := by
      intro u hu hp
      rcases h.held hbefore u p hu with ⟨hin, -⟩ | ⟨e', he', hp'⟩
      · exact hgiven hin
      · exact (List.pairwise_append.mp hsound.apart).2.2 e' he' e (List.mem_singleton_self e) p
          ⟨hp', hp⟩
    rcases huses hsound u p hu with hu | ⟨hp, hnew₁⟩
    · rcases huses hsound u' p hu' with hu' | ⟨hp', -⟩
      · exact h.sole hbefore u u' p hu hu' hgiven
      · exact absurd hp' (hother u hu)
    · rcases huses hsound u' p hu' with hu' | ⟨-, hnew₂⟩
      · exact absurd hp (hother u' hu')
      · exact hnew u u' p hnew₁ hnew₂

end Backed

end Mmu

end BaoHypervisor
