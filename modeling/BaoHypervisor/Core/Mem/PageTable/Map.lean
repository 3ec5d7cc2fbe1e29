import BaoHypervisor.Core.Mem.PageTable.Entries
import BaoHypervisor.Core.Mem.AddrSpace
import Mathlib.Data.List.Find

/-!
# Mapping pages

`mem_map` for physical pages without colours. A walk goes down to the first level that has room
for a superpage or a page, which it checks for the first entry only. Then it writes the entries
of that table as long as there are pages for them. The results come with the entries as they are
at the end of the call, also for a call that stops in `ERROR`.

The entries that a call writes are known from the entries before it (`mapEntries`), and a call
does nothing else that a walk could find (`memMapLoop_spec`).
-/

namespace BaoHypervisor

namespace Mmu

variable (m : Mmu)

/-- An entry of the level fits the pages that are left and the addresses. -/
def fits (lvl left va : ℕ) (pa : Addr) : Bool :=
  decide (m.dscr.ptLvlsize lvl ≤ left * pageSize) && va % m.dscr.ptLvlsize lvl == 0 &&
    pa.toNat % m.dscr.ptLvlsize lvl == 0

def ptPteMappable (pte : Pte) (lvl left va : ℕ) (pa : Addr) : Bool :=
  !m.fmt.pteValid pte && m.fits lvl left va pa

/-- The choice of a level in `mem_map`, with the levels that are left. There is none where the
call stops: in `ERROR` at a mapping, where the walk leaves the tables, and behind the last
level. -/
def memMapLvl (left va : ℕ) (pa : Addr) : ℕ → ℕ → PtEntries → PtEntries × Option ℕ
  | 0, _, t => (t, none)
  | n + 1, lvl, t =>
      match m.ptGetPte t lvl va with
      | none => (t, none)
      | some pte =>
          if m.dscr.lvlTerm lvl then
            if m.ptPteMappable pte lvl left va pa then (t, some lvl)
            else if !m.fmt.pteValid pte then
              if m.isLast lvl then (t, none)
              else memMapLvl left va pa n (lvl + 1) (m.memAllocPt t lvl va)
            else if !m.fmt.pteTable (m.isLast lvl) pte then (t, none)
            else memMapLvl left va pa n (lvl + 1) t
          else memMapLvl left va pa n (lvl + 1) t

/-- The entries that `mem_map` writes in one table, with the entries that the table has left. -/
def memMapRun (flags : Pte) (lvl : ℕ) :
    ℕ → PtEntries → ℕ → Addr → ℕ → PtEntries × ℕ × Addr × ℕ
  | 0, t, va, pa, left => (t, va, pa, left)
  | n + 1, t, va, pa, left =>
      if 0 < left ∧ m.dscr.lvlPages lvl ≤ left then
        memMapRun flags lvl n (m.setPte t lvl va (m.fmt.pteSet pa (m.ptPageType lvl) flags))
          (va + m.dscr.ptLvlsize lvl) (pa + BitVec.ofNat 64 (m.dscr.ptLvlsize lvl))
          (left - m.dscr.lvlPages lvl)
      else (t, va, pa, left)

/-- The loop of `mem_map` over the tables. It says whether it reaches the last page. -/
def memMapLoop (flags : Pte) : ℕ → PtEntries → ℕ → Addr → ℕ → PtEntries × Bool
  | 0, t, _, _, left => (t, left == 0)
  | fuel + 1, t, va, pa, left =>
      if left = 0 then (t, true)
      else
        match m.memMapLvl left va pa m.dscr.lvls 0 t with
        | (t', none) => (t', false)
        | (t', some lvl) =>
            let n := m.dscr.ptNentries lvl - m.dscr.ptGetpteindexByVa va lvl
            let (t'', va', pa', left') := m.memMapRun flags lvl n t' va pa left
            memMapLoop flags fuel t'' va' pa' left'

/-- `mem_map`, for pages without colours from `base` on. There is no result in `ERROR`. -/
def memMap (t : PtEntries) (va : ℕ) (base : Addr) (n : ℕ) (flags : Pte) :
    PtEntries × Option Bool :=
  let vaddr := va / pageSize * pageSize
  match m.memFindSec vaddr with
  | none => (t, some false)
  | some sec =>
      if m.memFindSec ((vaddr + n * pageSize + maxVa) % 2 ^ 64) = some sec then
        let (t', done) := m.memMapLoop flags n t vaddr base n
        (t', if done then some true else none)
      else (t, some false)

/-! ## The entries that a call writes -/

def mapLvl (t : PtEntries) (left va : ℕ) (pa : Addr) : Option ℕ :=
  if (m.leafAt t va).isSome || !m.dscr.lvlTerm (m.look t va).1 then none
  else (List.range' 0 m.dscr.lvls).find? fun lvl =>
    decide ((m.look t va).1 ≤ lvl) && m.fits lvl left va pa

def runLen (lvl va left : ℕ) : ℕ :=
  min (m.dscr.ptNentries lvl - m.dscr.ptGetpteindexByVa va lvl) (left / m.dscr.lvlPages lvl)

/-- The address of the page `k` of a range. -/
abbrev pageVa (va k : ℕ) : ℕ := va + k * pageSize

/-- The entries that a call writes, by their levels and the pages they start at, and whether it
reaches the last page. Pages are counted from `va` on, of which `k` are mapped. -/
def mapEntries (t : PtEntries) (va : ℕ) (base : Addr) : ℕ → ℕ → ℕ → List (ℕ × ℕ) × Bool
  | 0, _, left => ([], left == 0)
  | fuel + 1, k, left =>
      if left = 0 then ([], true)
      else
        match m.mapLvl t left (pageVa va k) (pageAddr base k) with
        | none => ([], false)
        | some lvl =>
            let r := m.runLen lvl (pageVa va k) left
            let rest := mapEntries t va base fuel (k + r * m.dscr.lvlPages lvl)
              (left - r * m.dscr.lvlPages lvl)
            ((List.range r).map (fun j => (lvl, k + j * m.dscr.lvlPages lvl)) ++ rest.1, rest.2)

/-! ## The choice of a level -/

/-- New tables, for entries that map nothing. They are above the entry for `va`. -/
structure Grown (t t' : PtEntries) (va : ℕ) : Prop where
  closed : m.Closed t'
  leafAt : ∀ b, m.leafAt t' b = m.leafAt t b
  reserved : ∀ b, m.isReserved t' b = m.isReserved t b
  path : ∀ i b, m.Path t i b → m.Path t' i b
  path_of : ∀ i b, m.Path t' (i + 1) b → m.Path t (i + 1) b ∨ m.dscr.pos i b = m.dscr.pos i va
  term : ∀ b, m.dscr.lvlTerm (m.look t' b).1 = m.dscr.lvlTerm (m.look t b).1

variable {m} {t t' t'' : PtEntries} {lvl va n k left : ℕ} {pa base : Addr} {flags : Pte}

theorem Grown.refl {a : ℕ} (hclosed : m.Closed t) : m.Grown t t a :=
  ⟨hclosed, fun _ => rfl, fun _ => rfl, fun _ _ => id, fun _ _ => .inl, fun _ => rfl⟩

theorem Grown.trans (h : m.Grown t t' va) (h' : m.Grown t' t'' va) : m.Grown t t'' va where
  closed := h'.closed
  leafAt := fun b => (h'.leafAt b).trans (h.leafAt b)
  reserved := fun b => (h'.reserved b).trans (h.reserved b)
  path := fun i b hpath => h'.path i b (h.path i b hpath)
  path_of := fun i b hpath => (h'.path_of i b hpath).elim (h.path_of i b) .inr
  term := fun b => (h'.term b).trans (h.term b)

theorem grown_memAllocPt (hclosed : m.Closed t) (hlvl : lvl + 1 < m.dscr.lvls)
    (hpath : m.Path t lvl va) (hvalid : m.fmt.pteValid (m.pteAt t lvl va) = false)
    (hterm : m.dscr.lvlTerm lvl = true) : m.Grown t (m.memAllocPt t lvl va) va := by
  have hlvl' : lvl < m.dscr.lvls := by omega
  have hclosed' := closed_memAllocPt hclosed hlvl hpath
  have hstops : ∀ b, m.dscr.pos lvl b = m.dscr.pos lvl va →
      m.look t b = (lvl, m.pteAt t lvl va) := by
    intro b h
    have hentry := pteAt_congr_pos (t := t) h
    rw [look_of_stops hclosed (stops_of_not_valid hlvl'
      (path_congr_pos hlvl' h (Nat.le_succ lvl) hpath) (by rw [hentry, hvalid])), hentry]
  refine ⟨hclosed', leafAt_memAllocPt hclosed hlvl hpath hvalid,
    isReserved_memAllocPt hclosed hlvl hpath hvalid, fun i b h => ?_, fun i b h => ?_, fun b => ?_⟩
  · rw [path_iff_le_look hclosed'] at *
    rw [path_iff_le_look hclosed] at h
    rw [look_memAllocPt hclosed hlvl hpath]
    split_ifs with hpos
    · rw [hstops b hpos] at h
      exact h.trans (Nat.le_succ lvl)
    · exact h
  · rw [path_iff_le_look hclosed', look_memAllocPt hclosed hlvl hpath] at h
    split_ifs at h with hpos
    · exact .inr (pos_eq_of_le hlvl' (Nat.le_of_succ_le_succ h) hpos)
    · exact .inl ((path_iff_le_look hclosed).mpr h)
  · rw [look_memAllocPt hclosed hlvl hpath]
    split_ifs with hpos
    · rw [hstops b hpos, hterm, m.dscr.lvlTerm_succ lvl hterm]
    · rfl

theorem memMapLvl_of_not_path (hpath : ¬ m.Path t lvl va) :
    m.memMapLvl left va pa n lvl t = (t, none) := by
  cases n with
  | zero => rw [memMapLvl]
  | succ n => rw [memMapLvl, ptGetPte, if_neg hpath]

/-- A level is chosen as what the walk finds and the sizes say, and the tables above it are
allocated. -/
theorem memMapLvl_spec (left : ℕ) (pa : Addr) (hclosed : m.Closed t)
    (hn : lvl + n = m.dscr.lvls) (hpath : m.Path t lvl va) :
    m.Grown t (m.memMapLvl left va pa n lvl t).1 va ∧
      (m.memMapLvl left va pa n lvl t).2 =
        (if (m.leafAt t va).isSome || !m.dscr.lvlTerm (m.look t va).1 then none
          else (List.range' lvl n).find? fun l =>
            decide ((m.look t va).1 ≤ l) && m.fits l left va pa) ∧
      ∀ l, (m.memMapLvl left va pa n lvl t).2 = some l →
        m.Path (m.memMapLvl left va pa n lvl t).1 l va ∧
          m.fmt.pteValid (m.pteAt (m.memMapLvl left va pa n lvl t).1 l va) = false := by
  induction n generalizing lvl t with
  | zero =>
      rw [memMapLvl]
      refine ⟨Grown.refl hclosed, ?_, fun l hl => absurd hl (Option.some_ne_none l).symm⟩
      split_ifs
      · rfl
      · rfl
  | succ n ih =>
      have hlvl : lvl < m.dscr.lvls := by omega
      by_cases htable : m.fmt.pteTable (m.isLast lvl) (m.pteAt t lvl va) = true
      · -- the walk goes on below the table
        have hpath' : m.Path t (lvl + 1) va := Radix.path_succ_iff.mpr ⟨hpath, htable⟩
        have hvalid := m.fmt.pteValid_of_pteTable _ _ htable
        have hstep : m.memMapLvl left va pa (n + 1) lvl t =
            m.memMapLvl left va pa n (lvl + 1) t := by
          rw [memMapLvl, ptGetPte, if_pos hpath]
          simp only [ptPteMappable, hvalid, htable, Bool.not_true, Bool.false_and,
            Bool.false_eq_true, if_false, ite_self]
        have hle := (path_iff_le_look hclosed).mp hpath'
        have hskip : (decide ((m.look t va).1 ≤ lvl) && m.fits lvl left va pa) = false := by
          rw [decide_eq_false (by omega), Bool.false_and]
        rw [hstep, List.range'_succ, List.find?_cons, hskip]
        exact ih hclosed (by omega) hpath'
      · rw [Bool.not_eq_true] at htable
        have hlook := look_of_stops hclosed (stops_of_not_table hlvl hpath htable)
        have hnot : ¬ m.Path t (lvl + 1) va := by
          rw [path_iff_le_look hclosed, hlook]
          exact Nat.not_succ_le_self lvl
        cases hvalid : m.fmt.pteValid (m.pteAt t lvl va) with
        | true =>
            have hstep : m.memMapLvl left va pa (n + 1) lvl t = (t, none) := by
              rw [memMapLvl, ptGetPte, if_pos hpath]
              simp only [ptPteMappable, hvalid, htable, Bool.not_true, Bool.not_false,
                Bool.false_and, Bool.false_eq_true, if_false,
                memMapLvl_of_not_path hnot, ite_self]
            have hleaf : (m.leafAt t va).isSome = true := by rw [isSome_leafAt, hlook, hvalid]
            rw [hstep, hleaf, Bool.true_or, if_pos rfl]
            exact ⟨Grown.refl hclosed, rfl, fun l hl => absurd hl (Option.some_ne_none l).symm⟩
        | false =>
            have hleaf : (m.leafAt t va).isSome = false := by rw [isSome_leafAt, hlook, hvalid]
            cases hterm : m.dscr.lvlTerm lvl with
            | false =>
                have hstep : m.memMapLvl left va pa (n + 1) lvl t = (t, none) := by
                  rw [memMapLvl, ptGetPte, if_pos hpath]
                  simp only [hterm, Bool.false_eq_true, if_false, memMapLvl_of_not_path hnot]
                rw [hstep, hleaf, hlook, hterm]
                exact ⟨Grown.refl hclosed, rfl, fun l hl => absurd hl (Option.some_ne_none l).symm⟩
            | true =>
                rw [hleaf, hlook, hterm, List.range'_succ, List.find?_cons, decide_eq_true le_rfl,
                  Bool.true_and]
                cases hfits : m.fits lvl left va pa with
                | true =>
                    have hstep : m.memMapLvl left va pa (n + 1) lvl t = (t, some lvl) := by
                      rw [memMapLvl, ptGetPte, if_pos hpath]
                      simp only [ptPteMappable, hvalid, hterm, hfits, Bool.not_false,
                        Bool.and_self, if_true]
                    rw [hstep]
                    refine ⟨Grown.refl hclosed, rfl, fun l hl => ?_⟩
                    obtain rfl := Option.some.inj hl
                    exact ⟨hpath, hvalid⟩
                | false =>
                    by_cases hlast : lvl + 1 = m.dscr.lvls
                    · have hstep : m.memMapLvl left va pa (n + 1) lvl t = (t, none) := by
                        rw [memMapLvl, ptGetPte, if_pos hpath]
                        simp only [ptPteMappable, hvalid, hterm, hfits, isLast_eq_true hlast,
                          Bool.not_false, Bool.and_false, Bool.false_eq_true, if_false, if_true]
                      obtain rfl : n = 0 := by omega
                      rw [hstep]
                      exact ⟨Grown.refl hclosed, rfl,
                        fun l hl => absurd hl (Option.some_ne_none l).symm⟩
                    · have hlvl' : lvl + 1 < m.dscr.lvls := by omega
                      have hstep : m.memMapLvl left va pa (n + 1) lvl t =
                          m.memMapLvl left va pa n (lvl + 1) (m.memAllocPt t lvl va) := by
                        rw [memMapLvl, ptGetPte, if_pos hpath]
                        simp only [ptPteMappable, hvalid, hterm, hfits, isLast_eq_false hlvl',
                          Bool.not_false, Bool.and_false, Bool.false_eq_true, if_false, if_true]
                      have hgrown := grown_memAllocPt hclosed hlvl' hpath hvalid hterm
                      have hpath' : m.Path (m.memAllocPt t lvl va) (lvl + 1) va :=
                        path_memAllocPt hlvl' hpath rfl
                      obtain ⟨hgrown', hres, hfound⟩ := ih hgrown.closed (by omega) hpath'
                      rw [hstep]
                      refine ⟨hgrown.trans hgrown', ?_, hfound⟩
                      rw [hres, hgrown.leafAt, hleaf, hgrown.term, hlook, hterm,
                        look_memAllocPt hclosed hlvl' hpath, if_pos rfl]
                      have hfind : ((List.range' (lvl + 1) n).find? fun l =>
                          decide (lvl + 1 ≤ l) && m.fits l left va pa) =
                          (List.range' (lvl + 1) n).find? fun l =>
                            decide (lvl ≤ l) && m.fits l left va pa := by
                        refine List.find?_congr fun l hl => ?_
                        have hl := (List.mem_range'_1.mp hl).1
                        rw [decide_eq_true hl, decide_eq_true (Nat.le_of_succ_le hl)]
                      exact hfind

/-! ## A run of entries -/

theorem pageVa_add_lvlPages (hlvl : lvl < m.dscr.lvls) (va k j : ℕ) :
    pageVa va (k + j * m.dscr.lvlPages lvl) = pageVa va k + j * m.dscr.ptLvlsize lvl := by
  rw [pageVa, pageVa, Nat.add_mul, Nat.mul_assoc, PtDscr.lvlPages_mul hlvl, Nat.add_assoc]

theorem pageAddr_add_lvlPages (hlvl : lvl < m.dscr.lvls) (base : Addr) (k : ℕ) :
    pageAddr base (k + m.dscr.lvlPages lvl) =
      pageAddr base k + BitVec.ofNat 64 (m.dscr.ptLvlsize lvl) := by
  rw [pageAddr, pageAddr, Nat.add_mul, PtDscr.lvlPages_mul hlvl, BitVec.ofNat_add, BitVec.add_assoc]

/-- The word that a call writes for the page `k`. -/
abbrev mapPte (m : Mmu) (base : Addr) (flags : Pte) (lvl k : ℕ) : Pte :=
  m.fmt.pteSet (pageAddr base k) (m.ptPageType lvl) flags

theorem pteTable_mapPte (hflags : m.fmt.FlagsOk flags) (base : Addr) (lvl k : ℕ) :
    m.fmt.pteTable (m.isLast lvl) (m.mapPte base flags lvl k) = false :=
  m.fmt.pteTable_of_ptePage _ _ (m.fmt.ptePage_pteSet _ _ _ hflags)

/-- The entries of a run, one behind the other, are written and nothing else changes. -/
theorem memMapRun_spec (base : Addr) (left : ℕ) (hclosed : m.Closed t) (hlvl : lvl < m.dscr.lvls)
    (hflags : m.fmt.FlagsOk flags) (halign : m.dscr.ptLvlsize lvl ∣ pageVa va k)
    (hpath : ∀ j < n, m.Path t lvl (pageVa va k + j * m.dscr.ptLvlsize lvl))
    (hspan : n * m.dscr.ptLvlsize lvl ≤ m.dscr.shape.span) :
    ∃ r t', r = min n (left / m.dscr.lvlPages lvl) ∧
      m.memMapRun flags lvl n t (pageVa va k) (pageAddr base k) left =
        (t', pageVa va (k + r * m.dscr.lvlPages lvl),
          pageAddr base (k + r * m.dscr.lvlPages lvl), left - r * m.dscr.lvlPages lvl) ∧
      m.Closed t' ∧
      (∀ j < r, ∀ b, m.dscr.pos lvl b =
          m.dscr.pos lvl (pageVa va (k + j * m.dscr.lvlPages lvl)) →
        m.look t' b = (lvl, m.mapPte base flags lvl (k + j * m.dscr.lvlPages lvl))) ∧
      ∀ b, (∀ j < r, m.dscr.pos lvl b ≠
          m.dscr.pos lvl (pageVa va (k + j * m.dscr.lvlPages lvl))) →
        m.look t' b = m.look t b := by
  have hpages := PtDscr.lvlPages_pos hlvl
  induction n generalizing t k left with
  | zero =>
      refine ⟨0, t, by rw [Nat.zero_min], ?_, hclosed, ?_, fun _ _ => rfl⟩
      · rw [memMapRun, Nat.zero_mul, Nat.add_zero, Nat.sub_zero]
      · intro j hj
        exact absurd hj (Nat.not_lt_zero j)
  | succ n ih =>
      by_cases hleft : 0 < left ∧ m.dscr.lvlPages lvl ≤ left
      · have hpath0 : m.Path t lvl (pageVa va k) := by
          have hzero := hpath 0 (Nat.succ_pos n)
          rwa [Nat.zero_mul, Nat.add_zero] at hzero
        have htable := pteTable_mapPte hflags base lvl k
        have hlook := look_setPte hclosed hlvl hpath0 htable
        have hnext : pageVa va (k + m.dscr.lvlPages lvl) =
            pageVa va k + m.dscr.ptLvlsize lvl := by
          have hone := pageVa_add_lvlPages hlvl va k 1
          rwa [Nat.one_mul, Nat.one_mul] at hone
        have hspan' : n * m.dscr.ptLvlsize lvl + m.dscr.ptLvlsize lvl ≤ m.dscr.shape.span := by
          rwa [Nat.add_mul, Nat.one_mul] at hspan
        obtain ⟨r, t', hr, hrun, hclosed', hin, hout⟩ :=
          @ih (m.setPte t lvl (pageVa va k) (m.mapPte base flags lvl k))
            (k + m.dscr.lvlPages lvl) (left - m.dscr.lvlPages lvl)
            (closed_setPte hclosed hlvl hpath0 htable)
            (by rw [hnext]; exact Nat.dvd_add halign dvd_rfl)
            (fun j hj => by
              have hj' := hpath (j + 1) (Nat.succ_lt_succ hj)
              rw [path_iff_of_agreeOff (agreeOff_setPte t lvl _ _) hlvl le_rfl, hnext,
                Nat.add_assoc, Nat.add_comm (m.dscr.ptLvlsize lvl), ← Nat.succ_mul]
              exact hj')
            (by omega)
        have hcount : r + 1 = min (n + 1) (left / m.dscr.lvlPages lvl) := by
          have hdiv : left / m.dscr.lvlPages lvl =
              (left - m.dscr.lvlPages lvl) / m.dscr.lvlPages lvl + 1 :=
            Nat.div_eq_sub_div hpages hleft.2
          omega
        have hstep : ∀ j, k + m.dscr.lvlPages lvl + j * m.dscr.lvlPages lvl =
            k + (j + 1) * m.dscr.lvlPages lvl := by
          intro j
          rw [Nat.add_mul]
          omega
        refine ⟨r + 1, t', hcount, ?_, hclosed', ?_, ?_⟩
        · rw [memMapRun, if_pos hleft, ← hnext, ← pageAddr_add_lvlPages hlvl, hrun, hstep,
            Nat.sub_sub, Nat.add_mul r, Nat.one_mul, Nat.add_comm (m.dscr.lvlPages lvl)]
        · intro j hj b hb
          cases j with
          | zero =>
              rw [Nat.zero_mul, Nat.add_zero] at hb ⊢
              rw [hout b, hlook, if_pos hb]
              intro j hj heq
              rw [hstep, pageVa_add_lvlPages hlvl] at heq
              have hle : (j + 1) * m.dscr.ptLvlsize lvl ≤ n * m.dscr.ptLvlsize lvl :=
                Nat.mul_le_mul_right _ (by omega)
              refine Radix.Shape.pos_ne_of_le (g := m.dscr.shape) hlvl halign ?_ ?_
                (heq.symm.trans hb)
              · exact Nat.add_le_add_left (Nat.le_mul_of_pos_left _ (Nat.succ_pos j)) _
              · have hpos : 0 < m.dscr.ptLvlsize lvl := PtDscr.ptLvlsize_pos
                omega
          | succ j =>
              rw [← hstep] at hb ⊢
              exact hin j (by omega) b hb
        · intro b hb
          rw [hout b, hlook, if_neg]
          · have hzero := hb 0 (Nat.succ_pos r)
            rwa [Nat.zero_mul, Nat.add_zero] at hzero
          · intro j hj
            rw [hstep]
            exact hb (j + 1) (by omega)
      · refine ⟨0, t, ?_, ?_, hclosed, fun j hj => absurd hj (Nat.not_lt_zero j), fun _ _ => rfl⟩
        · have hdiv : left / m.dscr.lvlPages lvl = 0 := Nat.div_eq_of_lt (by omega)
          rw [hdiv, Nat.min_zero]
        · rw [memMapRun, if_neg hleft, Nat.zero_mul, Nat.add_zero, Nat.sub_zero]

/-! ## The loop over the tables -/

theorem fits_iff : m.fits lvl left va pa = true ↔
    m.dscr.ptLvlsize lvl ≤ left * pageSize ∧ m.dscr.ptLvlsize lvl ∣ va ∧
      m.dscr.ptLvlsize lvl ∣ pa.toNat := by
  rw [fits, Bool.and_eq_true, Bool.and_eq_true, decide_eq_true_eq, beq_iff_eq, beq_iff_eq,
    Nat.dvd_iff_mod_eq_zero, Nat.dvd_iff_mod_eq_zero, and_assoc]

theorem mapLvl_eq_some (h : m.mapLvl t left va pa = some lvl) :
    lvl < m.dscr.lvls ∧ m.leafAt t va = none ∧ m.dscr.lvlTerm (m.look t va).1 = true ∧
      (m.look t va).1 ≤ lvl ∧ m.fits lvl left va pa = true := by
  rw [mapLvl] at h
  split_ifs at h with hnone
  rw [Bool.or_eq_true, not_or, Bool.not_eq_true, Bool.not_eq_true, Bool.not_eq_false',
    Option.isSome_eq_false_iff, Option.isNone_iff_eq_none] at hnone
  have hfound := List.find?_some h
  have hmem := List.mem_range'_1.mp (List.mem_of_find?_eq_some h)
  rw [Bool.and_eq_true, decide_eq_true_eq] at hfound
  exact ⟨by omega, hnone.1, hnone.2, hfound⟩

/-- The pages from `k` on are as they were in the tables `t₀`. -/
structure MapInv (m : Mmu) (t₀ t : PtEntries) (va k left : ℕ) : Prop where
  closed : m.Closed t
  leafAt : ∀ x < left * pageSize, m.leafAt t (pageVa va k + x) = m.leafAt t₀ (pageVa va k + x)
  term : ∀ x < left * pageSize, m.dscr.lvlTerm (m.look t (pageVa va k + x)).1 =
    m.dscr.lvlTerm (m.look t₀ (pageVa va k + x)).1
  table : ∀ x i, i < m.dscr.lvls → m.dscr.ptLvlsize i ∣ pageVa va k + x →
    x + m.dscr.ptLvlsize i ≤ left * pageSize →
    (m.Path t (i + 1) (pageVa va k + x) ↔ m.Path t₀ (i + 1) (pageVa va k + x))

variable {t₀ : PtEntries} {fuel : ℕ}

theorem MapInv.refl (left : ℕ) (hclosed : m.Closed t₀) : m.MapInv t₀ t₀ va k left :=
  ⟨hclosed, fun _ _ => rfl, fun _ _ => rfl, fun _ _ _ _ _ => Iff.rfl⟩

/-- The level is the same as from the tables at the start. -/
theorem MapInv.mapLvl_eq (hinv : m.MapInv t₀ t va k left) (hclosed : m.Closed t₀)
    (hleft : 0 < left) :
    m.mapLvl t left (pageVa va k) pa = m.mapLvl t₀ left (pageVa va k) pa := by
  have hzero : 0 < left * pageSize := Nat.mul_pos hleft (by decide)
  have hleaf := hinv.leafAt 0 hzero
  have hterm := hinv.term 0 hzero
  rw [Nat.add_zero] at hleaf hterm
  rw [mapLvl, mapLvl, hleaf, hterm]
  congr 1
  refine List.find?_congr fun l hl => ?_
  have hl : l < m.dscr.lvls := by
    have := (List.mem_range'_1.mp hl).2
    omega
  cases hfits : m.fits l left (pageVa va k) pa with
  | false => rw [Bool.and_false, Bool.and_false]
  | true =>
      obtain ⟨hsize, hdvd, -⟩ := fits_iff.mp hfits
      have htable := hinv.table 0 l hl hdvd (by rwa [Nat.zero_add])
      simp only [Nat.add_zero, path_iff_le_look hinv.closed, path_iff_le_look hclosed] at htable
      rw [Bool.and_true, Bool.and_true, decide_eq_decide]
      omega

/-- What an entry covers is within the pages that are left, from an aligned address on. -/
theorem mem_mapEntries {e : ℕ × ℕ} (he : e ∈ (m.mapEntries t₀ va base fuel k left).1) :
    e.1 < m.dscr.lvls ∧ m.dscr.ptLvlsize e.1 ∣ pageVa va e.2 ∧ k ≤ e.2 ∧
      e.2 + m.dscr.lvlPages e.1 ≤ k + left := by
  induction fuel generalizing k left with
  | zero =>
      rw [mapEntries] at he
      cases he
  | succ fuel ih =>
      rw [mapEntries] at he
      split_ifs at he with hleft
      · cases he
      · cases hlvl : m.mapLvl t₀ left (pageVa va k) (pageAddr base k) with
        | none =>
            rw [hlvl] at he
            cases he
        | some lvl =>
            obtain ⟨hlt, -, -, -, hfits⟩ := mapLvl_eq_some hlvl
            obtain ⟨-, hdvd, -⟩ := fits_iff.mp hfits
            rw [hlvl] at he
            have hrun : m.runLen lvl (pageVa va k) left * m.dscr.lvlPages lvl ≤ left :=
              (Nat.mul_le_mul_right _ (Nat.min_le_right _ _)).trans (Nat.div_mul_le_self _ _)
            rcases List.mem_append.mp he with he | he
            · obtain ⟨j, hj, rfl⟩ := List.mem_map.mp he
              have hj := List.mem_range.mp hj
              have hmul : (j + 1) * m.dscr.lvlPages lvl ≤
                  m.runLen lvl (pageVa va k) left * m.dscr.lvlPages lvl :=
                Nat.mul_le_mul_right _ hj
              rw [Nat.add_mul, Nat.one_mul] at hmul
              refine ⟨hlt, ?_, Nat.le_add_right _ _, ?_⟩
              · rw [pageVa_add_lvlPages hlt]
                exact Nat.dvd_add hdvd (Nat.dvd_mul_left _ _)
              · change k + j * m.dscr.lvlPages lvl + m.dscr.lvlPages lvl ≤ k + left
                omega
            · obtain ⟨hlt', hdvd', hle, hend⟩ := ih he
              exact ⟨hlt', hdvd', by omega, by omega⟩

/-- Two entries for different pages are apart. -/
theorem entries_apart {e e' : ℕ × ℕ} {b : ℕ} (hlt : e.1 < m.dscr.lvls) (hlt' : e'.1 < m.dscr.lvls)
    (hdvd : m.dscr.ptLvlsize e.1 ∣ pageVa va e.2) (hdvd' : m.dscr.ptLvlsize e'.1 ∣ pageVa va e'.2)
    (hle : e.2 + m.dscr.lvlPages e.1 ≤ e'.2)
    (hspan : (e'.2 + m.dscr.lvlPages e'.1) * pageSize ≤ m.dscr.shape.span)
    (hb : m.dscr.pos e.1 b = m.dscr.pos e.1 (pageVa va e.2)) :
    m.dscr.pos e'.1 b ≠ m.dscr.pos e'.1 (pageVa va e'.2) := by
  intro hb'
  have hsize := PtDscr.lvlPages_mul hlt
  have hsize' := PtDscr.lvlPages_mul hlt'
  have hmul := Nat.mul_le_mul_right pageSize hle
  rw [Nat.add_mul, hsize] at hmul
  rw [Nat.add_mul, hsize'] at hspan
  refine Radix.Shape.not_pos_eq_and (g := m.dscr.shape) hlt hlt' hdvd hdvd' ?_ ?_ ⟨hb, hb'⟩
  · change va + e.2 * pageSize + m.dscr.ptLvlsize e.1 ≤ va + e'.2 * pageSize
    omega
  · change va + e'.2 * pageSize + m.dscr.ptLvlsize e'.1 ≤ va + e.2 * pageSize + _
    omega

/-- The entries of the list are written over the tables `t`, and walks for other addresses find
the same. -/
structure Mapped (m : Mmu) (t t' : PtEntries) (va : ℕ) (base : Addr) (flags : Pte)
    (entries : List (ℕ × ℕ)) : Prop where
  closed : m.Closed t'
  entry : ∀ e ∈ entries, ∀ b, m.dscr.pos e.1 b = m.dscr.pos e.1 (pageVa va e.2) →
    m.leafAt t' b = some (e.1, m.mapPte base flags e.1 e.2)
  leafAt : ∀ b, (∀ e ∈ entries, m.dscr.pos e.1 b ≠ m.dscr.pos e.1 (pageVa va e.2)) →
    m.leafAt t' b = m.leafAt t b
  reserved : ∀ b, (∀ e ∈ entries, m.dscr.pos e.1 b ≠ m.dscr.pos e.1 (pageVa va e.2)) →
    m.isReserved t' b = m.isReserved t b
  term : ∀ b, (∀ e ∈ entries, m.dscr.pos e.1 b ≠ m.dscr.pos e.1 (pageVa va e.2)) →
    m.dscr.lvlTerm (m.look t' b).1 = m.dscr.lvlTerm (m.look t b).1
  path : ∀ b, (∀ e ∈ entries, m.dscr.pos e.1 b ≠ m.dscr.pos e.1 (pageVa va e.2)) →
    ∀ i, m.Path t i b → m.Path t' i b

theorem Grown.mapped {a : ℕ} (h : m.Grown t t' a) : m.Mapped t t' va base flags [] where
  closed := h.closed
  entry := fun _ he => absurd he List.not_mem_nil
  leafAt := fun b _ => h.leafAt b
  reserved := fun b _ => h.reserved b
  term := fun b _ => h.term b
  path := fun b _ i => h.path i b

theorem Mapped.append {es es' : List (ℕ × ℕ)} (h : m.Mapped t t' va base flags es)
    (h' : m.Mapped t' t'' va base flags es')
    (hapart : ∀ e ∈ es, ∀ e' ∈ es', ∀ b, m.dscr.pos e.1 b = m.dscr.pos e.1 (pageVa va e.2) →
      m.dscr.pos e'.1 b ≠ m.dscr.pos e'.1 (pageVa va e'.2)) :
    m.Mapped t t'' va base flags (es ++ es') where
  closed := h'.closed
  entry := fun e he b hb => by
    rcases List.mem_append.mp he with he | he
    · rw [h'.leafAt b fun e' he' => hapart e he e' he' b hb]
      exact h.entry e he b hb
    · exact h'.entry e he b hb
  leafAt := fun b hb => by
    rw [h'.leafAt b fun e he => hb e (List.mem_append_right _ he),
      h.leafAt b fun e he => hb e (List.mem_append_left _ he)]
  reserved := fun b hb => by
    rw [h'.reserved b fun e he => hb e (List.mem_append_right _ he),
      h.reserved b fun e he => hb e (List.mem_append_left _ he)]
  term := fun b hb => by
    rw [h'.term b fun e he => hb e (List.mem_append_right _ he),
      h.term b fun e he => hb e (List.mem_append_left _ he)]
  path := fun b hb i hpath => h'.path b (fun e he => hb e (List.mem_append_right _ he)) i
    (h.path b (fun e he => hb e (List.mem_append_left _ he)) i hpath)

theorem runLen_mul_le (lvl va left : ℕ) :
    m.runLen lvl va left * m.dscr.lvlPages lvl ≤ left :=
  (Nat.mul_le_mul_right _ (Nat.min_le_right _ _)).trans (Nat.div_mul_le_self _ _)

theorem runLen_pos (hlvl : lvl < m.dscr.lvls) (hfits : m.fits lvl left va pa = true) :
    0 < m.runLen lvl va left := by
  obtain ⟨hsize, -, -⟩ := fits_iff.mp hfits
  rw [← PtDscr.lvlPages_mul hlvl] at hsize
  have hpages := Nat.le_of_mul_le_mul_right hsize (by decide)
  have hindex := Radix.Shape.index_lt (g := m.dscr.shape) hlvl va
  rw [← PtDscr.ptGetpteindexByVa_eq hlvl, ← PtDscr.ptNentries_eq hlvl] at hindex
  exact lt_min (Nat.sub_pos_of_lt hindex) (Nat.div_pos hpages (PtDscr.lvlPages_pos hlvl))

theorem pageVa_add (va k c x : ℕ) :
    pageVa va (k + c) + x = pageVa va k + (c * pageSize + x) := by
  rw [pageVa, pageVa, Nat.add_mul, Nat.add_assoc, Nat.add_assoc, Nat.add_assoc]

/-- What is behind new tables and the pages after them is as it was. -/
theorem MapInv.next (hinv : m.MapInv t₀ t va k left) (hgrown : m.Grown t t' (pageVa va k))
    (hclosed : m.Closed t'') {c : ℕ} (hc : 0 < c) (hle : c ≤ left)
    (hspan : left * pageSize ≤ m.dscr.shape.span)
    (hlook : ∀ x < (left - c) * pageSize,
      m.look t'' (pageVa va (k + c) + x) = m.look t' (pageVa va (k + c) + x)) :
    m.MapInv t₀ t'' va (k + c) (left - c) := by
  have hpages := Nat.mul_le_mul_right pageSize hle
  have hcpos : 0 < c * pageSize := Nat.mul_pos hc (by decide)
  have hsub : (left - c) * pageSize = left * pageSize - c * pageSize := Nat.sub_mul _ _ _
  have hfit : ∀ x y, x + y ≤ (left - c) * pageSize →
      c * pageSize + x + y ≤ left * pageSize := by omega
  refine ⟨hclosed, fun x hx => ?_, fun x hx => ?_, fun x i hi hdvd hend => ?_⟩
  · rw [leafAt_congr (hlook x hx), hgrown.leafAt, pageVa_add]
    exact hinv.leafAt _ (by omega)
  · rw [hlook x hx, hgrown.term, pageVa_add]
    exact hinv.term _ (by omega)
  · have hpos : 0 < m.dscr.ptLvlsize i := PtDscr.ptLvlsize_pos
    have hend' := hfit x _ hend
    have hx : x < (left - c) * pageSize := (Nat.lt_add_of_pos_right hpos).trans_le hend
    rw [path_iff_le_look hclosed, hlook x hx, ← path_iff_le_look hgrown.closed]
    rw [pageVa_add] at hdvd ⊢
    rw [← hinv.table (c * pageSize + x) i hi hdvd hend']
    refine ⟨fun h => (hgrown.path_of i _ h).resolve_right fun heq => ?_,
      hgrown.path (i + 1) (pageVa va k + (c * pageSize + x))⟩
    -- the new tables are for an address before the aligned one
    have hback : m.dscr.pos i (pageVa va k + m.dscr.shape.span) = m.dscr.pos i (pageVa va k) :=
      Radix.Shape.pos_eq_of_mod_span hi (Nat.add_mod_right _ _)
    refine Radix.Shape.pos_ne_of_le (g := m.dscr.shape) hi hdvd ?_ ?_ (hback.trans heq.symm)
    · rw [Nat.add_assoc]
      exact Nat.add_le_add_left (hend'.trans hspan) _
    · exact Nat.add_lt_add_right (Nat.lt_add_of_pos_right (Nat.add_pos_left hcpos x)) _

/-- The pages behind a run are in none of its entries. -/
theorem pos_ne_of_behind (hlvl : lvl < m.dscr.lvls)
    (hdvd : m.dscr.ptLvlsize lvl ∣ pageVa va k) (hspan : left * pageSize ≤ m.dscr.shape.span)
    {r x j : ℕ}
    (hx : x < (left - r * m.dscr.lvlPages lvl) * pageSize) (hj : j < r) :
    m.dscr.pos lvl (pageVa va (k + r * m.dscr.lvlPages lvl) + x) ≠
      m.dscr.pos lvl (pageVa va (k + j * m.dscr.lvlPages lvl)) := by
  have hmul : (j + 1) * m.dscr.ptLvlsize lvl ≤ r * m.dscr.ptLvlsize lvl :=
    Nat.mul_le_mul_right _ hj
  have hsize : r * m.dscr.ptLvlsize lvl = r * m.dscr.lvlPages lvl * pageSize := by
    rw [Nat.mul_assoc, PtDscr.lvlPages_mul hlvl]
  rw [Nat.sub_mul, ← hsize] at hx
  rw [Nat.add_mul, Nat.one_mul] at hmul
  rw [pageVa_add_lvlPages hlvl, pageVa_add_lvlPages hlvl]
  refine Radix.Shape.pos_ne_of_le (g := m.dscr.shape) hlvl
    (Nat.dvd_add hdvd (Nat.dvd_mul_left _ _)) ?_ ?_
  · change pageVa va k + j * m.dscr.ptLvlsize lvl + m.dscr.ptLvlsize lvl ≤ _
    omega
  · omega

theorem path_of_index (hlvl : lvl < m.dscr.lvls) (hdvd : m.dscr.ptLvlsize lvl ∣ va)
    (hpath : m.Path t lvl va) {j : ℕ}
    (hj : j < m.dscr.ptNentries lvl - m.dscr.ptGetpteindexByVa va lvl) :
    m.Path t lvl (va + j * m.dscr.ptLvlsize lvl) := by
  rw [PtDscr.ptNentries_eq hlvl, PtDscr.ptGetpteindexByVa_eq hlvl] at hj
  refine hpath.congr fun i hi => congrArg (m.tab t i) ?_
  exact Radix.Shape.pos_add_of_lt hlvl hi hdvd
    (Nat.mul_lt_mul_of_pos_right hj PtDscr.ptLvlsize_pos)

/-- The run of entries from the first one on. -/
theorem memMapRun_mapped (base : Addr) (hinv : m.MapInv t₀ t va k left)
    (hgrown : m.Grown t t' (pageVa va k)) (hflags : m.fmt.FlagsOk flags) (hlvl : lvl < m.dscr.lvls)
    (hfits : m.fits lvl left (pageVa va k) (pageAddr base k) = true)
    (hpath : m.Path t' lvl (pageVa va k))
    (hspan : left * pageSize ≤ m.dscr.shape.span) :
    ∃ r t'', r = m.runLen lvl (pageVa va k) left ∧
      m.memMapRun flags lvl
          (m.dscr.ptNentries lvl - m.dscr.ptGetpteindexByVa (pageVa va k) lvl) t' (pageVa va k)
          (pageAddr base k) left =
        (t'', pageVa va (k + r * m.dscr.lvlPages lvl),
          pageAddr base (k + r * m.dscr.lvlPages lvl), left - r * m.dscr.lvlPages lvl) ∧
      m.Mapped t t'' va base flags
        ((List.range r).map fun j => (lvl, k + j * m.dscr.lvlPages lvl)) ∧
      m.MapInv t₀ t'' va (k + r * m.dscr.lvlPages lvl) (left - r * m.dscr.lvlPages lvl) := by
  obtain ⟨-, hdvd, -⟩ := fits_iff.mp hfits
  have hfan := Radix.Shape.fanout_mul_size_le (g := m.dscr.shape) hlvl
  rw [← PtDscr.ptNentries_eq hlvl] at hfan
  obtain ⟨r, t'', hr, hrun, hclosed, hin, hout⟩ :=
    memMapRun_spec base left hgrown.closed hlvl hflags hdvd
      (fun _ => path_of_index hlvl hdvd hpath)
      ((Nat.mul_le_mul_right _ (Nat.sub_le _ _)).trans hfan)
  rw [← runLen] at hr
  have hpages : r * m.dscr.lvlPages lvl ≤ left := by
    rw [hr]
    exact runLen_mul_le lvl _ left
  have hrpos : 0 < r * m.dscr.lvlPages lvl := by
    rw [hr]
    exact Nat.mul_pos (runLen_pos hlvl hfits) (PtDscr.lvlPages_pos hlvl)
  have hlook : ∀ b, (∀ e ∈ (List.range r).map fun j => (lvl, k + j * m.dscr.lvlPages lvl),
      m.dscr.pos e.1 b ≠ m.dscr.pos e.1 (pageVa va e.2)) → m.look t'' b = m.look t' b :=
    fun b hb => hout b fun j hj => hb _ (List.mem_map_of_mem (List.mem_range.mpr hj))
  refine ⟨r, t'', hr, hrun, ⟨hclosed, fun e he b hb => ?_, fun b hb => ?_, fun b hb => ?_,
    fun b hb => ?_, fun b hb i hi => ?_⟩,
    hinv.next hgrown hclosed hrpos hpages hspan fun x hx => hout _ fun j hj =>
      pos_ne_of_behind hlvl hdvd hspan hx hj⟩
  · obtain ⟨j, hj, rfl⟩ := List.mem_map.mp he
    exact leafAt_eq_some_iff.mpr ⟨hin j (List.mem_range.mp hj) b hb, m.fmt.pteValid_pteSet _ _ _⟩
  · rw [leafAt_congr (hlook b hb), hgrown.leafAt]
  · rw [isReserved_congr (hlook b hb), hgrown.reserved]
  · rw [hlook b hb, hgrown.term]
  · rw [path_iff_le_look hclosed, hlook b hb, ← path_iff_le_look hgrown.closed]
    exact hgrown.path i b hi

/-- A call writes the entries that were to be expected from the tables at the start. -/
theorem memMapLoop_spec (va : ℕ) (base : Addr) (fuel : ℕ) (hclosed : m.Closed t₀)
    (hflags : m.fmt.FlagsOk flags) (hinv : m.MapInv t₀ t va k left)
    (hspan : (k + left) * pageSize ≤ m.dscr.shape.span) :
    (m.memMapLoop flags fuel t (pageVa va k) (pageAddr base k) left).2 =
        (m.mapEntries t₀ va base fuel k left).2 ∧
      m.Mapped t (m.memMapLoop flags fuel t (pageVa va k) (pageAddr base k) left).1 va base flags
        (m.mapEntries t₀ va base fuel k left).1 := by
  induction fuel generalizing t k left with
  | zero =>
      rw [memMapLoop, mapEntries]
      exact ⟨rfl, (Grown.refl (a := va) hinv.closed).mapped⟩
  | succ fuel ih =>
      rw [memMapLoop, mapEntries]
      by_cases hleft : left = 0
      · rw [if_pos hleft, if_pos hleft]
        exact ⟨rfl, (Grown.refl (a := va) hinv.closed).mapped⟩
      · rw [if_neg hleft, if_neg hleft]
        obtain ⟨hgrown, hres, hfound⟩ := memMapLvl_spec left (pageAddr base k)
          hinv.closed (Nat.zero_add _) (Radix.path_zero (pageVa va k))
        rw [← mapLvl, hinv.mapLvl_eq hclosed (Nat.pos_of_ne_zero hleft)] at hres
        obtain ⟨t', lvl', hcall⟩ : ∃ t' lvl',
            m.memMapLvl left (pageVa va k) (pageAddr base k) m.dscr.lvls 0 t = (t', lvl') :=
          ⟨_, _, rfl⟩
        rw [hcall] at hgrown hres hfound ⊢
        change lvl' = _ at hres
        cases hlvl : m.mapLvl t₀ left (pageVa va k) (pageAddr base k) with
        | none =>
            rw [hres, hlvl]
            exact ⟨rfl, hgrown.mapped⟩
        | some lvl =>
            obtain ⟨hlt, -, -, -, hfits⟩ := mapLvl_eq_some hlvl
            rw [hlvl] at hres
            obtain ⟨hpath, -⟩ := hfound lvl hres
            rw [Nat.add_mul] at hspan
            obtain ⟨r, t'', hr, hrun, hmapped, hinv'⟩ :=
              memMapRun_mapped base hinv hgrown hflags hlt hfits hpath
                (le_trans (Nat.le_add_left _ _) hspan)
            have hpages := runLen_mul_le (m := m) lvl (pageVa va k) left
            obtain ⟨hdone, hrest⟩ := ih hinv' (by
              rw [hr, Nat.add_assoc, Nat.add_sub_cancel' hpages, Nat.add_mul]
              exact hspan)
            rw [hres]
            simp only [hrun, ← hr]
            refine ⟨hdone, hmapped.append hrest ?_⟩
            intro e he e' he' b hb
            obtain ⟨j, hj, rfl⟩ := List.mem_map.mp he
            have hj := List.mem_range.mp hj
            obtain ⟨hlt', hdvd', hle', hend'⟩ := mem_mapEntries he'
            obtain ⟨-, hdvd, -⟩ := fits_iff.mp hfits
            have hmul : (j + 1) * m.dscr.lvlPages lvl ≤ r * m.dscr.lvlPages lvl :=
              Nat.mul_le_mul_right _ hj
            rw [Nat.add_mul, Nat.one_mul] at hmul
            refine entries_apart (e := (lvl, k + j * m.dscr.lvlPages lvl)) hlt hlt' ?_ hdvd' ?_
              ?_ hb
            · rw [pageVa_add_lvlPages hlt]
              exact Nat.dvd_add hdvd (Nat.dvd_mul_left _ _)
            · change k + j * m.dscr.lvlPages lvl + m.dscr.lvlPages lvl ≤ e'.2
              omega
            · rw [← Nat.add_mul] at hspan
              refine le_trans (Nat.mul_le_mul_right _ ?_) hspan
              rw [← hr] at hpages
              omega

/-- A call that reaches the last page writes an entry for every page. -/
theorem exists_mem_mapEntries (hdone : (m.mapEntries t₀ va base fuel k left).2 = true) {i : ℕ}
    (hk : k ≤ i) (hi : i < k + left) :
    ∃ e ∈ (m.mapEntries t₀ va base fuel k left).1, e.2 ≤ i ∧ i < e.2 + m.dscr.lvlPages e.1 := by
  induction fuel generalizing k left with
  | zero =>
      rw [mapEntries, beq_iff_eq] at hdone
      omega
  | succ fuel ih =>
      rw [mapEntries] at hdone ⊢
      split_ifs at hdone ⊢ with hleft
      · omega
      · cases hlvl : m.mapLvl t₀ left (pageVa va k) (pageAddr base k) with
        | none =>
            rw [hlvl] at hdone
            cases hdone
        | some lvl =>
            rw [hlvl] at hdone
            have hpages := PtDscr.lvlPages_pos (mapLvl_eq_some hlvl).1
            obtain ⟨r, hr⟩ : ∃ r, r = m.runLen lvl (pageVa va k) left := ⟨_, rfl⟩
            have hle := runLen_mul_le (m := m) lvl (pageVa va k) left
            simp only [← hr] at hdone hle ⊢
            by_cases hrun : i < k + r * m.dscr.lvlPages lvl
            · obtain ⟨j, hj⟩ : ∃ j, j = (i - k) / m.dscr.lvlPages lvl := ⟨_, rfl⟩
              have hmod := Nat.div_add_mod (i - k) (m.dscr.lvlPages lvl)
              have hlt := Nat.mod_lt (i - k) hpages
              have hjr : j < r := by
                rw [hj]
                exact Nat.div_lt_of_lt_mul (by rw [Nat.mul_comm]; omega)
              rw [← hj, Nat.mul_comm] at hmod
              refine ⟨(lvl, k + j * m.dscr.lvlPages lvl),
                List.mem_append_left _ (List.mem_map_of_mem (List.mem_range.mpr hjr)), ?_, ?_⟩
              · change k + j * m.dscr.lvlPages lvl ≤ i
                omega
              · change i < k + j * m.dscr.lvlPages lvl + m.dscr.lvlPages lvl
                omega
            · obtain ⟨e, he, hbound⟩ := ih hdone (by omega) (by omega)
              exact ⟨e, List.mem_append_right _ he, hbound⟩

theorem pos_of_mem_entry {e : ℕ × ℕ} (hlt : e.1 < m.dscr.lvls)
    (hdvd : m.dscr.ptLvlsize e.1 ∣ pageVa va e.2) {y : ℕ} (hle : e.2 * pageSize ≤ y)
    (hy : y < (e.2 + m.dscr.lvlPages e.1) * pageSize) :
    m.dscr.pos e.1 (va + y) = m.dscr.pos e.1 (pageVa va e.2) := by
  obtain ⟨z, rfl⟩ := Nat.exists_eq_add_of_le hle
  rw [Nat.add_mul, PtDscr.lvlPages_mul hlt] at hy
  rw [← Nat.add_assoc]
  exact Radix.Shape.pos_add hdvd (Nat.lt_of_add_lt_add_left hy)

/-! ## The whole call -/

/-- The range is in one section, as `mem_map` looks at it. -/
def InSection (m : Mmu) (vaddr n : ℕ) : Prop :=
  (m.memFindSec vaddr).isSome = true ∧
    m.memFindSec ((vaddr + n * pageSize + maxVa) % 2 ^ 64) = m.memFindSec vaddr

/-- The address of the page of an address, as `mem_map` takes it. -/
abbrev pageFloor (va : ℕ) : ℕ := va / pageSize * pageSize

theorem memMap_of_not_inSection (base : Addr) (flags : Pte) (h : ¬ m.InSection (pageFloor va) n) :
    m.memMap t va base n flags = (t, some false) := by
  rw [memMap]
  cases hsec : m.memFindSec (pageFloor va) with
  | none => rfl
  | some sec =>
      dsimp only
      rw [if_neg fun heq => h ⟨by rw [hsec, Option.isSome_some], heq.trans hsec.symm⟩]

theorem memMap_of_inSection (h : m.InSection (pageFloor va) n) :
    m.memMap t va base n flags =
      ((m.memMapLoop flags n t (pageFloor va) base n).1,
        if (m.memMapLoop flags n t (pageFloor va) base n).2 then some true else none) := by
  obtain ⟨hsome, hlast⟩ := h
  obtain ⟨sec, hsec⟩ := Option.isSome_iff_exists.mp hsome
  rw [memMap]
  dsimp only
  rw [hsec] at hlast ⊢
  dsimp only
  rw [if_pos hlast]

theorem memMapLoop_mapped (base : Addr) (va : ℕ) (hclosed : m.Closed t)
    (hflags : m.fmt.FlagsOk flags) (hspan : n * pageSize ≤ m.dscr.shape.span) :
    (m.memMapLoop flags n t va base n).2 = (m.mapEntries t va base n 0 n).2 ∧
      m.Mapped t (m.memMapLoop flags n t va base n).1 va base flags
        (m.mapEntries t va base n 0 n).1 := by
  have hloop := memMapLoop_spec va base n
    hclosed hflags (MapInv.refl (k := 0) n hclosed) (by rwa [Nat.zero_add])
  have hzero : pageVa va 0 = va := by rw [pageVa, Nat.zero_mul, Nat.add_zero]
  have hbase : pageAddr base 0 = base := by rw [pageAddr, Nat.zero_mul, BitVec.add_zero]
  rwa [hzero, hbase] at hloop

theorem memMap_mapped (base : Addr) (hclosed : m.Closed t) (hflags : m.fmt.FlagsOk flags)
    (hspan : n * pageSize ≤ m.dscr.shape.span) (h : m.InSection (pageFloor va) n) :
    ((m.memMap t va base n flags).2 =
        if (m.mapEntries t (pageFloor va) base n 0 n).2 then some true else none) ∧
      m.Mapped t (m.memMap t va base n flags).1 (pageFloor va) base flags
        (m.mapEntries t (pageFloor va) base n 0 n).1 := by
  obtain ⟨hdone, hmapped⟩ := memMapLoop_mapped base (pageFloor va) hclosed hflags hspan
  rw [memMap_of_inSection h, hdone]
  exact ⟨rfl, hmapped⟩

end Mmu

end BaoHypervisor
