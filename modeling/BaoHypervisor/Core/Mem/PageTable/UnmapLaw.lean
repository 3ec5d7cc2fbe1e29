import BaoHypervisor.Core.Mem.PageTable.Override
import BaoHypervisor.Core.Mem.PageTable.Unmap

/-!
# What unmapping does to translations

The pages behind the address of the walk are as they were before the call, but for tables that
stand for the superpage that the walk is in (`UnmapInv`). So whether the walk goes wrong is seen
from the tables before the call, and a call is exact iff it does not.
-/

namespace BaoHypervisor

namespace Mmu

variable {m : Mmu} {t₀ t t' : PtEntries} {top lvl lvl' va va' p n fuel : ℕ}

/-- The walk has come to `va` with a table of level `lvl` for `p`. The translations from `va` on
are those of the tables `t₀`, and so are the tables of this level and below, and those above that
are not for `p`. -/
structure UnmapInv (m : Mmu) (t₀ t : PtEntries) (top va lvl p : ℕ) : Prop where
  closed : m.Closed t
  aligned : m.LeavesAligned t
  lt : lvl < m.dscr.lvls
  le : p ≤ va
  page : pageSize ∣ va
  pageTop : pageSize ∣ top
  fits : top + m.dscr.ptLvlsize 0 ≤ 2 ^ 64
  lap : ∃ q, q * m.dscr.shape.span ≤ p ∧ top ≤ (q + 1) * m.dscr.shape.span
  path : m.Path t lvl p
  trans : ∀ b, va ≤ b → b < top → m.memTranslate t b = m.memTranslate t₀ b
  table : ∀ b i, va ≤ b → b < top → i < m.dscr.lvls →
    (lvl ≤ i ∨ m.dscr.pos i b ≠ m.dscr.pos i p) → (m.Path t (i + 1) b ↔ m.Path t₀ (i + 1) b)

theorem memTranslate_eq_none_iff : m.memTranslate t va = none ↔ m.leafAt t va = none := by
  rw [memTranslate_eq, Option.map_eq_none_iff]

namespace UnmapInv

theorem advance (h : m.UnmapInv t₀ t top va lvl p) (hle : va ≤ va') (hpage : pageSize ∣ va') :
    m.UnmapInv t₀ t top va' lvl p :=
  ⟨h.closed, h.aligned, h.lt, h.le.trans hle, hpage, h.pageTop, h.fits, h.lap, h.path,
    fun b hb => h.trans b (hle.trans hb), fun b i hb => h.table b i (hle.trans hb)⟩

/-- There is a table of a level for the address iff the tables before the call say so. -/
theorem arrive (h : m.UnmapInv t₀ t top va lvl p) (hclosed : m.Closed t₀) (hva : va < top)
    (hlvl : lvl' ≤ lvl) : m.Path t lvl' va ↔ m.Arrives t₀ lvl' p va := by
  cases lvl' with
  | zero => exact ⟨fun _ => .inl (Nat.zero_le _), fun _ => Radix.path_zero va⟩
  | succ j =>
      have hj : j < m.dscr.lvls := (Nat.lt_of_succ_le hlvl).trans h.lt
      rw [Arrives, Nat.add_sub_cancel]
      by_cases hpos : m.dscr.pos j va = m.dscr.pos j p
      · exact ⟨fun _ => .inr hpos, fun _ => path_congr_pos hj hpos le_rfl (h.path.mono hlvl)⟩
      · rw [h.table va j le_rfl hva hj (.inr hpos), path_iff_le_look hclosed]
        exact ⟨.inl, fun hor => hor.resolve_right hpos⟩

/-- The walk has a table for the address itself. -/
theorem reroot (h : m.UnmapInv t₀ t top va lvl p) (hlvl : lvl' ≤ lvl) (hpath : m.Path t lvl' va)
    (hout : ∀ b i, va ≤ b → b < top → lvl' ≤ i → i < lvl → m.dscr.pos i b ≠ m.dscr.pos i p) :
    m.UnmapInv t₀ t top va lvl' va where
  closed := h.closed
  aligned := h.aligned
  lt := hlvl.trans_lt h.lt
  le := le_rfl
  page := h.page
  pageTop := h.pageTop
  fits := h.fits
  lap := by
    obtain ⟨q, hq, htop⟩ := h.lap
    exact ⟨q, hq.trans h.le, htop⟩
  path := hpath
  trans := h.trans
  table := fun b i hb hbtop hi hor => by
    refine h.table b i hb hbtop hi ?_
    by_cases hlvli : lvl ≤ i
    · exact .inl hlvli
    · rw [not_le] at hlvli
      refine .inr ?_
      rcases hor with hle | hne
      · exact hout b i hb hbtop hle hlvli
      · intro heq
        obtain ⟨q, hq, htop⟩ := h.lap
        refine hne ?_
        rw [heq]
        exact (Radix.Shape.pos_eq_of_between hi hq h.le hb (hbtop.trans_le htop) heq).symm

theorem add_ptLvlsize_lt (h : m.UnmapInv t₀ t top va lvl p) (hva : va < top) :
    va + m.dscr.ptLvlsize lvl < 2 ^ 64 := by
  have hsize : m.dscr.ptLvlsize lvl ≤ m.dscr.ptLvlsize 0 :=
    Radix.Shape.size_le_of_le (g := m.dscr.shape) h.lt (Nat.zero_le lvl)
  have hfits := h.fits
  omega

theorem isSome_leafAt (h : m.UnmapInv t₀ t top va lvl p) (hva : va < top) :
    (m.leafAt t va).isSome = (m.leafAt t₀ va).isSome := by
  rw [← isSome_memTranslate, ← isSome_memTranslate, h.trans va le_rfl hva]

theorem path_succ_iff (h : m.UnmapInv t₀ t top va lvl va) (hclosed : m.Closed t₀)
    (hva : va < top) : m.Path t (lvl + 1) va ↔ lvl < (m.look t₀ va).1 := by
  rw [h.table va lvl le_rfl hva h.lt (.inl le_rfl), path_iff_le_look hclosed, Nat.succ_le_iff]

theorem pteTable_iff (h : m.UnmapInv t₀ t top va lvl va) (hclosed : m.Closed t₀)
    (hva : va < top) :
    m.fmt.pteTable (m.isLast lvl) (m.pteAt t lvl va) = true ↔ lvl < (m.look t₀ va).1 := by
  rw [← h.path_succ_iff hclosed hva]
  exact ⟨fun htable => Radix.path_succ_iff.mpr ⟨h.path, htable⟩,
    fun hpath => (Radix.path_succ_iff.mp hpath).2⟩

theorem look_eq (h : m.UnmapInv t₀ t top va lvl va)
    (htable : m.fmt.pteTable (m.isLast lvl) (m.pteAt t lvl va) = false) :
    m.look t va = (lvl, m.pteAt t lvl va) :=
  look_of_stops h.closed (stops_of_not_table h.lt h.path htable)

theorem descend (h : m.UnmapInv t₀ t top va lvl va) (hpath : m.Path t (lvl + 1) va) :
    m.UnmapInv t₀ t top va (lvl + 1) va where
  closed := h.closed
  aligned := h.aligned
  lt := ((path_iff_le_look h.closed).mp hpath).trans_lt (look_fst_lt h.closed va)
  le := le_rfl
  page := h.page
  pageTop := h.pageTop
  fits := h.fits
  lap := h.lap
  path := hpath
  trans := h.trans
  table := fun b i hb hbtop hi hor =>
    h.table b i hb hbtop hi (hor.imp_left (Nat.le_succ lvl).trans)

/-- The walk goes down into an entry that was expanded. -/
theorem expand (h : m.UnmapInv t₀ t top va lvl va) (hlvl : lvl + 1 < m.dscr.lvls)
    (htable : m.fmt.pteTable (m.isLast lvl) (m.pteAt t lvl va) = false) :
    m.UnmapInv t₀ (m.memExpandPte t lvl va) top va (lvl + 1) va where
  closed := closed_memExpandPte h.closed hlvl h.path htable
  aligned := leavesAligned_memExpandPte h.closed h.aligned hlvl h.path htable
  lt := hlvl
  le := le_rfl
  page := h.page
  pageTop := h.pageTop
  fits := h.fits
  lap := h.lap
  path := (stops_memExpandPte hlvl h.path htable rfl).path
  trans := fun b hb hbtop => by
    rw [memTranslate_memExpandPte h.closed h.aligned hlvl h.path htable, h.trans b hb hbtop]
  table := fun b i hb hbtop hi hor => by
    rw [← h.table b i hb hbtop hi (hor.imp_left (Nat.le_succ lvl).trans),
      path_iff_le_look (closed_memExpandPte h.closed hlvl h.path htable),
      path_iff_le_look h.closed, look_memExpandPte h.closed hlvl h.path htable]
    split_ifs with hpos
    · have hlvli : lvl + 1 ≤ i := by
        by_contra hlt
        exact hor.elim hlt fun hne => hne (pos_eq_of_le h.lt (by omega) hpos)
      rw [look_of_expandable h.closed hlvl h.path htable hpos]
      change i + 1 ≤ lvl + 1 ↔ i + 1 ≤ lvl
      omega
    · rfl

/-- The walk clears an entry and goes on behind it. -/
theorem clear (h : m.UnmapInv t₀ t top va lvl p) (hpath : m.Path t lvl va)
    (hdvd : m.dscr.ptLvlsize lvl ∣ va) :
    m.UnmapInv t₀ (m.setPte t lvl va 0#64) top (va + m.dscr.ptLvlsize lvl) lvl p := by
  have hzero : m.fmt.pteTable (m.isLast lvl) 0#64 = false :=
    pteTable_of_not_valid m.fmt.pteValid_zero _
  have hclosed := closed_setPte h.closed h.lt hpath hzero
  have hlook := look_setPte h.closed h.lt hpath hzero
  have hsame : ∀ b, va + m.dscr.ptLvlsize lvl ≤ b → b < top →
      m.look (m.setPte t lvl va 0#64) b = m.look t b := by
    intro b hb hbtop
    rw [hlook, if_neg]
    obtain ⟨q, hq, hlap⟩ := h.lap
    refine Radix.Shape.pos_ne_of_le (g := m.dscr.shape) h.lt hdvd hb ?_
    have hle := h.le
    rw [Nat.add_mul, Nat.one_mul] at hlap
    omega
  have hle := Nat.le_add_right va (m.dscr.ptLvlsize lvl)
  refine ⟨hclosed, fun b e hleaf => ?_, h.lt, h.le.trans hle,
    Nat.dvd_add h.page (PtDscr.pageSize_dvd_ptLvlsize h.lt), h.pageTop, h.fits, h.lap, ?_,
    fun b hb hbtop => ?_, fun b i hb hbtop hi hor => ?_⟩
  · obtain ⟨hlook', hvalid⟩ := leafAt_eq_some_iff.mp hleaf
    rw [hlook] at hlook'
    split_ifs at hlook'
    · rw [← hlook', m.fmt.pteValid_zero] at hvalid
      cases hvalid
    · exact h.aligned b e (leafAt_eq_some_iff.mpr ⟨hlook', hvalid⟩)
  · rw [path_iff_of_agreeOff (agreeOff_setPte t lvl va 0#64) h.lt le_rfl]
    exact h.path
  · rw [memTranslate_eq, leafAt_congr (hsame b hb hbtop), ← memTranslate_eq]
    exact h.trans b (hle.trans hb) hbtop
  · rw [path_iff_le_look hclosed, hsame b hb hbtop, ← path_iff_le_look h.closed]
    exact h.table b i (hle.trans hb) hbtop hi hor

end UnmapInv

/-! ## What stays as it is -/

/-- The translations of the addresses outside of a range are the same. -/
def FrameOff (m : Mmu) (t t' : PtEntries) (va top : ℕ) : Prop :=
  ∀ a, (∀ b, va ≤ b → b < top → a % m.dscr.shape.span ≠ b % m.dscr.shape.span) →
    m.memTranslate t' a = m.memTranslate t a

theorem FrameOff.refl (t : PtEntries) (va top : ℕ) : m.FrameOff t t va top := fun _ _ => rfl

theorem FrameOff.mono (h : m.FrameOff t t' va' top) (hva : va ≤ va') : m.FrameOff t t' va top :=
  fun a ha => h a fun b hb => ha b (hva.trans hb)

theorem FrameOff.trans {t'' : PtEntries} {top' : ℕ} (h : m.FrameOff t t' va top)
    (h' : m.FrameOff t' t'' va' top') (hva : va ≤ va') (htop : top ≤ top') :
    m.FrameOff t t'' va top' := by
  intro a ha
  rw [h' a fun b hb => ha b (hva.trans hb), h a fun b hb hbtop => ha b hb (hbtop.trans_le htop)]

theorem frameOff_clear (hclosed : m.Closed t) (hlvl : lvl < m.dscr.lvls) (hpath : m.Path t lvl va)
    (hdvd : m.dscr.ptLvlsize lvl ∣ va) :
    m.FrameOff t (m.setPte t lvl va 0#64) va (va + m.dscr.ptLvlsize lvl) := by
  intro a ha
  have hzero : m.fmt.pteTable (m.isLast lvl) 0#64 = false :=
    pteTable_of_not_valid m.fmt.pteValid_zero _
  have hlook := look_setPte hclosed hlvl hpath hzero a
  rw [if_neg] at hlook
  · rw [memTranslate_eq, leafAt_congr hlook, ← memTranslate_eq]
  · intro hpos
    obtain ⟨x, hx, hmod⟩ := (Radix.Shape.pos_eq_iff (g := m.dscr.shape) hlvl hdvd).mp hpos
    exact ha (va + x) (Nat.le_add_right _ _) (Nat.add_lt_add_left hx va) hmod

theorem memTranslate_clear (hclosed : m.Closed t) (hlvl : lvl < m.dscr.lvls)
    (hpath : m.Path t lvl va) {b : ℕ} (hpos : m.dscr.pos lvl b = m.dscr.pos lvl va) :
    m.memTranslate (m.setPte t lvl va 0#64) b = none := by
  have hzero : m.fmt.pteTable (m.isLast lvl) 0#64 = false :=
    pteTable_of_not_valid m.fmt.pteValid_zero _
  rw [memTranslate_eq_none_iff, leafAt, look_setPte hclosed hlvl hpath hzero, if_pos hpos, if_neg]
  rw [m.fmt.pteValid_zero]
  exact Bool.false_ne_true

/-! ## A run over one table -/

/-- What a run over one table does, which ends at `e` by the tables before the call. -/
structure RunSpec (m : Mmu) (t₀ t : PtEntries) (top lvl p va : ℕ) (r : PtEntries × ℕ × Option ℕ)
    (e : ℕ × Option ℕ) : Prop where
  addr : r.2.1 = e.1
  le : va ≤ e.1
  le_top : va ≤ top → e.1 ≤ top
  cleared : ∀ b, va ≤ b → b < e.1 → m.memTranslate r.1 b = none
  frame : m.FrameOff t r.1 va e.1
  inside : ∀ l, e.2 = some l →
    r.2.2 = some l ∧ (e.1 < top → m.UnmapInv t₀ r.1 top e.1 l e.1)
  behind : e.2 = none → r.2.2 = (if lvl = 0 then none else some (lvl - 1)) ∧
    m.UnmapInv t₀ r.1 top e.1 lvl p ∧ m.dscr.ptLvlsize lvl ∣ p ∧
      e.1 = p + (m.dscr.ptNentries lvl - m.dscr.ptGetpteindexByVa p lvl) * m.dscr.ptLvlsize lvl

theorem floor_lt_or_iff {size : ℕ} (top : ℕ) (hva : va + size < 2 ^ 64) :
    (va / size * size < va ∨ top < (va / size * size + size) % 2 ^ 64) ↔
      (¬ size ∣ va ∨ top < va + size) := by
  by_cases hdvd : size ∣ va
  · rw [Nat.div_mul_cancel hdvd, Nat.mod_eq_of_lt hva]
    exact or_congr_left (iff_of_false (lt_irrefl va) (not_not.mpr hdvd))
  · have hne : va / size * size ≠ va := fun heq => hdvd ⟨_, by rw [Nat.mul_comm, heq]⟩
    exact iff_of_true (.inl (lt_of_le_of_ne (Nat.div_mul_le_self va size) hne)) (.inl hdvd)

theorem memUnmapRun_spec {j : ℕ} (hclosed : m.Closed t₀)
    (h : m.UnmapInv t₀ t top (p + j * m.dscr.ptLvlsize lvl) lvl p)
    (hn : j + n = m.dscr.ptNentries lvl - m.dscr.ptGetpteindexByVa p lvl)
    (hdvd : 0 < j → m.dscr.ptLvlsize lvl ∣ p) :
    m.RunSpec t₀ t top lvl p (p + j * m.dscr.ptLvlsize lvl)
      (m.memUnmapRun top lvl n t (p + j * m.dscr.ptLvlsize lvl))
      (m.unmapRunEnd t₀ top lvl n (p + j * m.dscr.ptLvlsize lvl)) := by
  have hlvl := h.lt
  have hsize : 0 < m.dscr.ptLvlsize lvl := PtDscr.ptLvlsize_pos
  have hrest : 0 < m.dscr.ptNentries lvl - m.dscr.ptGetpteindexByVa p lvl := by
    rw [PtDscr.ptNentries_eq hlvl, PtDscr.ptGetpteindexByVa_eq hlvl]
    exact Nat.sub_pos_of_lt (Radix.Shape.index_lt hlvl p)
  induction n generalizing t j with
  | zero =>
      rw [memUnmapRun, unmapRunEnd]
      rw [Nat.add_zero] at hn
      refine ⟨rfl, le_rfl, id, fun b hb hlt => absurd hlt (Nat.not_lt.mpr hb), .refl _ _ _,
        fun l hl => absurd hl (Option.some_ne_none l).symm, fun _ => ⟨rfl, h, ?_, by rw [hn]⟩⟩
      exact hdvd (by omega)
  | succ n ih =>
      obtain ⟨va, hva⟩ : ∃ va, va = p + j * m.dscr.ptLvlsize lvl := ⟨_, rfl⟩
      have hpath : m.Path t lvl va := by
        refine h.path.congr fun i hi => congrArg (m.tab t i) ?_
        rcases Nat.eq_zero_or_pos j with rfl | hj
        · rw [hva, Nat.zero_mul, Nat.add_zero]
        · rw [hva]
          refine Radix.Shape.pos_add_of_lt hlvl hi (hdvd hj) ?_
          rw [PtDscr.ptNentries_eq hlvl, PtDscr.ptGetpteindexByVa_eq hlvl] at hn
          exact Nat.mul_lt_mul_of_pos_right (by omega) hsize
      have hroot : m.UnmapInv t₀ t top va lvl va := by
        rw [← hva] at h
        exact h.reroot le_rfl hpath fun b i _ _ hle hlt => absurd hle (Nat.not_le.mpr hlt)
      rw [← hva] at h ⊢
      have hstay : ∀ l, (va < top → m.UnmapInv t₀ t top va l va) →
          m.RunSpec t₀ t top lvl p va (t, va, some l) (va, some l) := fun l hl =>
        ⟨rfl, le_rfl, id, fun b hb hlt => absurd hlt (Nat.not_lt.mpr hb), .refl _ _ _,
          fun l' hl' => by rw [← Option.some.inj hl']; exact ⟨rfl, hl⟩,
          fun hnone => absurd hnone (Option.some_ne_none l)⟩
      by_cases htop : va < top
      · rw [memUnmapRun, if_pos htop, unmapRunEnd, if_pos htop]
        by_cases htable : lvl < (m.look t₀ va).1
        · rw [(hroot.pteTable_iff hclosed htop).mpr htable, if_pos htable]
          exact hstay lvl fun _ => hroot
        · have hnot : m.fmt.pteTable (m.isLast lvl) (m.pteAt t lvl va) = false := by
            rw [← Bool.not_eq_true, hroot.pteTable_iff hclosed htop]
            exact htable
          rw [hnot, Bool.not_false, if_pos rfl, if_neg htable]
          have hfloor := floor_lt_or_iff top (h.add_ptLvlsize_lt htop)
          by_cases hpart : ¬ m.dscr.ptLvlsize lvl ∣ va ∨ top < va + m.dscr.ptLvlsize lvl
          · -- an entry that the range covers in part is no page
            have hlast : lvl + 1 < m.dscr.lvls := by
              by_contra hge
              obtain rfl : lvl = m.dscr.lvls - 1 := by omega
              rw [PtDscr.ptLvlsize_last] at hpart
              obtain ⟨x, hx⟩ := h.page
              obtain ⟨y, hy⟩ := h.pageTop
              exact hpart.elim (fun hnd => hnd h.page) fun hlt => by
                unfold pageSize at *
                omega
            rw [if_pos (hfloor.mpr hpart), if_pos hpart]
            refine ⟨rfl, le_rfl, id, fun b hb hlt => absurd hlt (Nat.not_lt.mpr hb), fun a _ => ?_,
              fun l hl => ?_, fun hnone => absurd hnone (Option.some_ne_none _)⟩
            · exact memTranslate_memExpandPte h.closed h.aligned hlast hpath hnot a
            · rw [← Option.some.inj hl]
              exact ⟨rfl, fun _ => hroot.expand hlast hnot⟩
          · rw [if_neg (hfloor.not.mpr hpart), if_neg hpart]
            rw [not_or, not_not, not_lt] at hpart
            have hnext : va + m.dscr.ptLvlsize lvl = p + (j + 1) * m.dscr.ptLvlsize lvl := by
              rw [hva, Nat.add_mul, Nat.one_mul, Nat.add_assoc]
            have hpdvd : m.dscr.ptLvlsize lvl ∣ p := by
              rw [hva] at hpart
              exact (Nat.dvd_add_left (Nat.dvd_mul_left _ _)).mp hpart.1
            have hclear := h.clear hpath hpart.1
            rw [Nat.mod_eq_of_lt (h.add_ptLvlsize_lt htop)]
            rw [hnext] at hclear ⊢
            have hrun := ih hclear (by omega) fun _ => hpdvd
            rw [← hnext] at hrun ⊢
            refine ⟨hrun.addr, (Nat.le_add_right _ _).trans hrun.le, fun _ => hrun.le_top hpart.2,
              fun b hb hlt => ?_, ?_, hrun.inside, hrun.behind⟩
            · by_cases hbva : va + m.dscr.ptLvlsize lvl ≤ b
              · exact hrun.cleared b hbva hlt
              · rw [not_le] at hbva
                have hpos : m.dscr.pos lvl b = m.dscr.pos lvl va := by
                  obtain ⟨x, rfl⟩ := Nat.exists_eq_add_of_le hb
                  exact Radix.Shape.pos_add hpart.1 (Nat.lt_of_add_lt_add_left hbva)
                obtain ⟨q, hq, hlap⟩ := h.lap
                rw [hrun.frame b fun b' hb' hlt' => ?_]
                · exact memTranslate_clear h.closed hlvl hpath hpos
                · refine Radix.mod_ne_of_lt (hbva.trans_le hb') ?_
                  have hend := hrun.le_top hpart.2
                  have hple := h.le
                  rw [Nat.add_mul, Nat.one_mul] at hlap
                  omega
            · exact (frameOff_clear h.closed hlvl hpath hpart.1).trans hrun.frame
                (Nat.le_add_right _ _) hrun.le
      · rw [memUnmapRun, if_neg htop, unmapRunEnd, if_neg htop]
        exact hstay lvl fun hlt => absurd hlt htop

/-! ## The loop over the tables -/

/-- The loop ends, with no page from `va` on mapped. -/
def Unmaps (m : Mmu) (top fuel : ℕ) (t : PtEntries) (va : ℕ) (lvl? : Option ℕ) : Prop :=
  ∃ t', m.memUnmapLoop top fuel t va lvl? = some t' ∧
    ∀ b, va ≤ b → b < top → m.memTranslate t' b = none

def stepsLeft (m : Mmu) (top va lvl : ℕ) : ℕ :=
  (top - va) / pageSize * (m.dscr.lvls + 1) + (m.dscr.lvls - lvl)

/-- The loop from an address and a level on changes nothing outside of the range, and unmaps the
range iff the walk does not go wrong. -/
def LoopSpec (m : Mmu) (t₀ t : PtEntries) (top fuel va lvl : ℕ) : Prop :=
  (∀ t', m.memUnmapLoop top fuel t va (some lvl) = some t' → m.FrameOff t t' va top) ∧
    (m.Unmaps top fuel t va (some lvl) ↔ m.unmapOk t₀ top fuel va lvl)

theorem memUnmapLoop_of_le (hfuel : 0 < fuel) (hva : top ≤ va) (lvl? : Option ℕ) :
    m.memUnmapLoop top fuel t va lvl? = some t := by
  obtain ⟨f, rfl⟩ := Nat.exists_eq_succ_of_ne_zero hfuel.ne'
  rw [memUnmapLoop, if_neg (Nat.not_lt.mpr hva)]

theorem unmapOk_of_le (hva : top ≤ va) : m.unmapOk t₀ top fuel va lvl := by
  cases fuel with
  | zero => trivial
  | succ fuel => exact fun hlt => absurd hlt (Nat.not_lt.mpr hva)

theorem unmaps_of_le (hfuel : 0 < fuel) (hva : top ≤ va) (lvl? : Option ℕ) :
    m.Unmaps top fuel t va lvl? :=
  ⟨t, memUnmapLoop_of_le hfuel hva lvl?, fun _ hb hlt =>
    absurd (hva.trans hb) (Nat.not_le.mpr hlt)⟩

theorem loopSpec_of_le (t₀ t : PtEntries) (lvl : ℕ) (hfuel : 0 < fuel) (hva : top ≤ va) :
    m.LoopSpec t₀ t top fuel va lvl := by
  refine ⟨fun t' ht' => ?_, iff_of_true (unmaps_of_le hfuel hva _) (unmapOk_of_le hva)⟩
  rw [memUnmapLoop_of_le hfuel hva] at ht'
  rw [← Option.some.inj ht']
  exact .refl _ _ _

/-- The walk comes to an address with a level that it kept or went up to. -/
theorem loopSpec_arrive (hclosed : m.Closed t₀) (hfuel : 0 < fuel)
    (h : m.UnmapInv t₀ t top va lvl p) (hlvl : lvl' ≤ lvl)
    (hout : ∀ b i, va ≤ b → b < top → lvl' ≤ i → i < lvl → m.dscr.pos i b ≠ m.dscr.pos i p)
    (hrec : m.UnmapInv t₀ t top va lvl' va → m.LoopSpec t₀ t top fuel va lvl') :
    (∀ t', m.memUnmapLoop top fuel t va (some lvl') = some t' → m.FrameOff t t' va top) ∧
      (m.Unmaps top fuel t va (some lvl') ↔
        (va < top → m.Arrives t₀ lvl' p va) ∧ m.unmapOk t₀ top fuel va lvl') := by
  by_cases hva : va < top
  · by_cases hpath : m.Path t lvl' va
    · obtain ⟨hframe, hiff⟩ := hrec (h.reroot hlvl hpath hout)
      have harrive := (h.arrive hclosed hva hlvl).mp hpath
      exact ⟨hframe, hiff.trans ⟨fun hok => ⟨fun _ => harrive, hok⟩, fun hok => hok.2⟩⟩
    · have hnone : m.memUnmapLoop top fuel t va (some lvl') = none := by
        obtain ⟨f, rfl⟩ := Nat.exists_eq_succ_of_ne_zero hfuel.ne'
        rw [memUnmapLoop, if_pos hva, Option.bind_some, ptGetPte, if_neg hpath, Option.bind_none]
      refine ⟨fun t' ht' => ?_, iff_of_false ?_ ?_⟩
      · rw [hnone] at ht'
        cases ht'
      · rintro ⟨t', ht', -⟩
        rw [hnone] at ht'
        cases ht'
      · exact fun hok => hpath ((h.arrive hclosed hva hlvl).mpr (hok.1 hva))
  · rw [not_lt] at hva
    obtain ⟨hframe, hiff⟩ := loopSpec_of_le (m := m) t₀ t lvl' hfuel hva
    exact ⟨hframe, hiff.trans ⟨fun hok => ⟨fun hlt => absurd hlt (Nat.not_lt.mpr hva), hok⟩,
      fun hok => hok.2⟩⟩

/-- The pages that the loop has passed are unmapped at the end iff they were when it left them. -/
theorem unmaps_iff_of_frame (hlap : ∃ q, q * m.dscr.shape.span ≤ va ∧
      top ≤ (q + 1) * m.dscr.shape.span) (hle : va ≤ va') {lvl? : Option ℕ}
    (hframe : ∀ t', m.memUnmapLoop top fuel t va' lvl? = some t' → m.FrameOff t t' va' top) :
    (∃ t', m.memUnmapLoop top fuel t va' lvl? = some t' ∧
        ∀ b, va ≤ b → b < top → m.memTranslate t' b = none) ↔
      (∀ b, va ≤ b → b < va' → b < top → m.memTranslate t b = none) ∧
        m.Unmaps top fuel t va' lvl? := by
  have hsame : ∀ t', m.memUnmapLoop top fuel t va' lvl? = some t' → ∀ b, va ≤ b → b < va' →
      b < top → m.memTranslate t' b = m.memTranslate t b := by
    intro t' ht' b hb hlt hbtop
    obtain ⟨q, hq, htop⟩ := hlap
    refine hframe t' ht' b fun b' hb' hlt' => Radix.mod_ne_of_lt (hlt.trans_le hb') ?_
    rw [Nat.add_mul, Nat.one_mul] at htop
    omega
  constructor
  · rintro ⟨t', ht', hnone⟩
    refine ⟨fun b hb hlt hbtop => ?_, t', ht', fun b hb => hnone b (hle.trans hb)⟩
    rw [← hsame t' ht' b hb hlt hbtop]
    exact hnone b hb hbtop
  · rintro ⟨hpassed, t', ht', hnone⟩
    refine ⟨t', ht', fun b hb hbtop => ?_⟩
    by_cases hlt : b < va'
    · rw [hsame t' ht' b hb hlt hbtop]
      exact hpassed b hb hlt hbtop
    · exact hnone b (Nat.not_lt.mp hlt) hbtop

theorem stepsLeft_lt_of_lt (va' lvl' : ℕ) (h : m.UnmapInv t₀ t top va lvl p) (hva : va < top)
    (hle : va + pageSize ≤ va') : m.stepsLeft top va' lvl' < m.stepsLeft top va lvl := by
  obtain ⟨x, hx⟩ := h.page
  obtain ⟨y, hy⟩ := h.pageTop
  have hpage : 0 < pageSize := by decide
  have hone : pageSize ≤ top - va := by
    unfold pageSize at *
    omega
  have hdiv : (top - va) / pageSize = (top - va - pageSize) / pageSize + 1 :=
    Nat.div_eq_sub_div hpage hone
  have hle' : (top - va') / pageSize ≤ (top - va - pageSize) / pageSize :=
    Nat.div_le_div_right (by omega)
  have hmul := Nat.mul_le_mul_right (m.dscr.lvls + 1) hle'
  rw [stepsLeft, stepsLeft, hdiv, Nat.add_mul, Nat.one_mul]
  omega

theorem stepsLeft_succ_lt (hlvl : lvl < m.dscr.lvls) :
    m.stepsLeft top va (lvl + 1) < m.stepsLeft top va lvl := by
  rw [stepsLeft, stepsLeft]
  omega

theorem le_unmapRunEnd (n va : ℕ) : va ≤ (m.unmapRunEnd t₀ top lvl n va).1 := by
  induction n generalizing va with
  | zero => exact le_rfl
  | succ n ih =>
      rw [unmapRunEnd]
      split_ifs
      · exact le_rfl
      · exact le_rfl
      · exact (Nat.le_add_right _ _).trans (ih _)
      · exact le_rfl

theorem unmapRunEnd_progress (hn : 0 < n) (hva : va < top) (htable : ¬ lvl < (m.look t₀ va).1) :
    m.unmapRunEnd t₀ top lvl n va = (va, some (lvl + 1)) ∨
      va + m.dscr.ptLvlsize lvl ≤ (m.unmapRunEnd t₀ top lvl n va).1 := by
  obtain ⟨n, rfl⟩ := Nat.exists_eq_succ_of_ne_zero hn.ne'
  rw [unmapRunEnd, if_pos hva, if_neg htable]
  split_ifs
  · exact .inl rfl
  · exact .inr (le_unmapRunEnd _ _)

/-- Behind the end of a table no address is in the entry above. -/
theorem pos_ne_of_table_end (hlvl : lvl < m.dscr.lvls) (hdvd : m.dscr.ptLvlsize lvl ∣ p)
    (hlap : ∃ q, q * m.dscr.shape.span ≤ p ∧ top ≤ (q + 1) * m.dscr.shape.span)
    (hend : va = p + (m.dscr.ptNentries lvl - m.dscr.ptGetpteindexByVa p lvl) *
      m.dscr.ptLvlsize lvl) {b i : ℕ} (hb : va ≤ b) (hbtop : b < top) (hi : i < lvl)
    (hle : lvl - 1 ≤ i) : m.dscr.pos i b ≠ m.dscr.pos i p := by
  obtain ⟨l, rfl⟩ : ∃ l, lvl = l + 1 := ⟨lvl - 1, by omega⟩
  obtain rfl : i = l := by omega
  obtain ⟨q, hq, htop⟩ := hlap
  have hi' : i < m.dscr.lvls := by omega
  have hrest := Radix.Shape.add_rest (g := m.dscr.shape) hlvl hdvd
  rw [← PtDscr.ptNentries_eq hlvl, ← PtDscr.ptGetpteindexByVa_eq hlvl] at hrest
  have htable : m.dscr.ptNentries (i + 1) * m.dscr.shape.size (i + 1) = m.dscr.ptLvlsize i :=
    ptNentries_mul_ptLvlsize hlvl
  rw [htable] at hrest
  have hspan := Radix.Shape.size_dvd_span (g := m.dscr.shape) hi'
  have hstart : p / m.dscr.ptLvlsize i * m.dscr.ptLvlsize i + p % m.dscr.ptLvlsize i = p :=
    Nat.div_add_mod' _ _
  have hlow : q * m.dscr.shape.span ≤ p / m.dscr.ptLvlsize i * m.dscr.ptLvlsize i := by
    obtain ⟨c, hc⟩ := hspan
    rw [hc, Nat.mul_left_comm, Nat.mul_comm] at hq ⊢
    exact Nat.mul_le_mul_right _ ((Nat.le_div_iff_mul_le PtDscr.ptLvlsize_pos).mpr hq)
  have hpos : m.dscr.pos i p = m.dscr.pos i (p / m.dscr.ptLvlsize i * m.dscr.ptLvlsize i) := by
    have hadd := Radix.Shape.pos_add (g := m.dscr.shape) (l := i)
      (a := p / m.dscr.ptLvlsize i * m.dscr.ptLvlsize i) (Nat.dvd_mul_left _ _)
      (Nat.mod_lt p PtDscr.ptLvlsize_pos)
    exact (congrArg (m.dscr.pos i) hstart).symm.trans hadd
  rw [hpos]
  refine Radix.Shape.pos_ne_of_le (g := m.dscr.shape) hi' (Nat.dvd_mul_left _ _) ?_ ?_
  · refine le_trans (le_of_eq ?_) (hend.ge.trans hb)
    change _ = p + _ * m.dscr.shape.size (i + 1)
    rw [hrest, Nat.add_mul, Nat.one_mul]
    rfl
  · rw [Nat.add_mul, Nat.one_mul] at htop
    omega

theorem top_le_of_root_end (hdvd : m.dscr.ptLvlsize 0 ∣ p)
    (hlap : ∃ q, q * m.dscr.shape.span ≤ p ∧ top ≤ (q + 1) * m.dscr.shape.span)
    (hend : va = p + (m.dscr.ptNentries 0 - m.dscr.ptGetpteindexByVa p 0) *
      m.dscr.ptLvlsize 0) : top ≤ va := by
  obtain ⟨q, hq, htop⟩ := hlap
  have hlvl := m.dscr.lvls_pos
  have hrest := Radix.Shape.add_rest (g := m.dscr.shape) hlvl hdvd
  have hspan : m.dscr.shape.fanout 0 * m.dscr.shape.size 0 = m.dscr.shape.span :=
    Radix.Shape.count_mul_size hlvl
  rw [hspan, ← PtDscr.ptNentries_eq hlvl, ← PtDscr.ptGetpteindexByVa_eq hlvl] at hrest
  have hdiv := (Nat.le_div_iff_mul_le m.dscr.shape.span_pos).mpr hq
  have hmul := Nat.mul_le_mul_right m.dscr.shape.span (Nat.succ_le_succ hdiv)
  rw [hend]
  exact htop.trans (hmul.trans (le_of_eq hrest.symm))

/-! ## One round of the loop -/

abbrev runLeft (m : Mmu) (lvl va : ℕ) : ℕ :=
  m.dscr.ptNentries lvl - m.dscr.ptGetpteindexByVa va lvl

theorem memUnmapLoop_eq (hva : va < top) (hpath : m.Path t lvl va) :
    m.memUnmapLoop top (fuel + 1) t va (some lvl) =
      if !m.fmt.pteValid (m.pteAt t lvl va) then
        m.memUnmapLoop top fuel t ((va + m.dscr.ptLvlsize lvl) % 2 ^ 64) (some lvl)
      else if m.fmt.pteTable (m.isLast lvl) (m.pteAt t lvl va) then
        m.memUnmapLoop top fuel t va (some (lvl + 1))
      else
        m.memUnmapLoop top fuel (m.memUnmapRun top lvl (m.runLeft lvl va) t va).1
          (m.memUnmapRun top lvl (m.runLeft lvl va) t va).2.1
          (m.memUnmapRun top lvl (m.runLeft lvl va) t va).2.2 := by
  rw [memUnmapLoop, if_pos hva, Option.bind_some, ptGetPte, if_pos hpath, Option.bind_some]

theorem unmapOk_table (fuel : ℕ) (hva : va < top) (htable : lvl < (m.look t₀ va).1) :
    m.unmapOk t₀ top (fuel + 1) va lvl ↔ m.unmapOk t₀ top fuel va (lvl + 1) := by
  rw [unmapOk, if_pos htable, forall_prop_of_true hva]

theorem unmapOk_skip (hva : va < top) (htable : ¬ lvl < (m.look t₀ va).1)
    (hleaf : m.leafAt t₀ va = none) :
    m.unmapOk t₀ top (fuel + 1) va lvl ↔
      (∀ x < m.dscr.ptLvlsize lvl, va + x < top → m.leafAt t₀ (va + x) = none) ∧
        (va + m.dscr.ptLvlsize lvl < top → m.Arrives t₀ lvl va (va + m.dscr.ptLvlsize lvl)) ∧
        m.unmapOk t₀ top fuel (va + m.dscr.ptLvlsize lvl) lvl := by
  rw [unmapOk, if_neg htable, if_pos hleaf, forall_prop_of_true hva]

theorem unmapOk_inside (va' lvl' fuel : ℕ) (hva : va < top) (htable : ¬ lvl < (m.look t₀ va).1)
    (hleaf : m.leafAt t₀ va ≠ none)
    (he : m.unmapRunEnd t₀ top lvl (m.runLeft lvl va) va = (va', some lvl')) :
    m.unmapOk t₀ top (fuel + 1) va lvl ↔ m.unmapOk t₀ top fuel va' lvl' := by
  rw [unmapOk, if_neg htable, if_neg hleaf, forall_prop_of_true hva, he]

theorem unmapOk_behind (hva : va < top) (htable : ¬ lvl < (m.look t₀ va).1)
    (hleaf : m.leafAt t₀ va ≠ none)
    (he : m.unmapRunEnd t₀ top lvl (m.runLeft lvl va) va = (va', none)) :
    m.unmapOk t₀ top (fuel + 1) va lvl ↔
      (va' < top → m.Arrives t₀ (lvl - 1) va va') ∧ m.unmapOk t₀ top fuel va' (lvl - 1) := by
  rw [unmapOk, if_neg htable, if_neg hleaf, forall_prop_of_true hva, he]

theorem loopSpec_table (hclosed : m.Closed t₀) (h : m.UnmapInv t₀ t top va lvl va)
    (hva : va < top) (htable : lvl < (m.look t₀ va).1)
    (hrec : m.UnmapInv t₀ t top va (lvl + 1) va → m.LoopSpec t₀ t top fuel va (lvl + 1)) :
    m.LoopSpec t₀ t top (fuel + 1) va lvl := by
  have htab := (h.pteTable_iff hclosed hva).mpr htable
  rw [LoopSpec, Unmaps, memUnmapLoop_eq hva h.path, m.fmt.pteValid_of_pteTable _ _ htab,
    Bool.not_true, if_neg Bool.false_ne_true, if_pos htab, unmapOk_table fuel hva htable]
  exact hrec (h.descend ((h.path_succ_iff hclosed hva).mpr htable))

/-- The loop skips an invalid entry. -/
theorem loopSpec_skip (hclosed : m.Closed t₀) (hfuel : 0 < fuel)
    (h : m.UnmapInv t₀ t top va lvl va) (hva : va < top) (htable : ¬ lvl < (m.look t₀ va).1)
    (hleaf : m.leafAt t₀ va = none)
    (hrec : m.UnmapInv t₀ t top (va + m.dscr.ptLvlsize lvl) lvl (va + m.dscr.ptLvlsize lvl) →
      m.LoopSpec t₀ t top fuel (va + m.dscr.ptLvlsize lvl) lvl) :
    m.LoopSpec t₀ t top (fuel + 1) va lvl := by
  have hle := Nat.le_add_right va (m.dscr.ptLvlsize lvl)
  have hnot : m.fmt.pteTable (m.isLast lvl) (m.pteAt t lvl va) = false := by
    rw [← Bool.not_eq_true, h.pteTable_iff hclosed hva]
    exact htable
  have hvalid : m.fmt.pteValid (m.pteAt t lvl va) = false := by
    have hsome : (m.leafAt t va).isSome = m.fmt.pteValid (m.look t va).2 := Mmu.isSome_leafAt
    rw [h.isSome_leafAt hva, hleaf, h.look_eq hnot] at hsome
    exact hsome.symm
  have hnext := h.advance hle (Nat.dvd_add h.page (PtDscr.pageSize_dvd_ptLvlsize h.lt))
  obtain ⟨hframe, hiff⟩ := loopSpec_arrive hclosed hfuel hnext le_rfl
    (fun b i _ _ hlvl hlt => absurd hlvl (Nat.not_le.mpr hlt)) hrec
  rw [LoopSpec, Unmaps, memUnmapLoop_eq hva h.path, hvalid, Bool.not_false, if_pos rfl,
    Nat.mod_eq_of_lt (h.add_ptLvlsize_lt hva), unmapOk_skip hva htable hleaf]
  refine ⟨fun t' ht' => (hframe t' ht').mono hle, ?_⟩
  rw [unmaps_iff_of_frame h.lap hle hframe, hiff]
  refine and_congr_left' ⟨fun hpages x hx hxtop => ?_, fun hpages b hb hlt hbtop => ?_⟩
  · have hnone := hpages (va + x) (Nat.le_add_right va x) (Nat.add_lt_add_left hx va) hxtop
    rw [h.trans (va + x) (Nat.le_add_right va x) hxtop] at hnone
    exact memTranslate_eq_none_iff.mp hnone
  · obtain ⟨x, rfl⟩ := Nat.exists_eq_add_of_le hb
    rw [h.trans (va + x) hb hbtop, memTranslate_eq_none_iff]
    exact hpages x (Nat.lt_of_add_lt_add_left hlt) hbtop

/-- The loop goes on behind a run over one table. -/
theorem RunSpec.loop {r : PtEntries × ℕ × Option ℕ} {e : ℕ × Option ℕ} {P : Prop}
    (hrun : m.RunSpec t₀ t top lvl p va r e) (hva : va < top)
    (hlap : ∃ q, q * m.dscr.shape.span ≤ va ∧ top ≤ (q + 1) * m.dscr.shape.span)
    (hrest : (∀ t', m.memUnmapLoop top fuel r.1 e.1 r.2.2 = some t' → m.FrameOff r.1 t' e.1 top) ∧
      (m.Unmaps top fuel r.1 e.1 r.2.2 ↔ P)) :
    (∀ t', m.memUnmapLoop top fuel r.1 r.2.1 r.2.2 = some t' → m.FrameOff t t' va top) ∧
      ((∃ t', m.memUnmapLoop top fuel r.1 r.2.1 r.2.2 = some t' ∧
        ∀ b, va ≤ b → b < top → m.memTranslate t' b = none) ↔ P) := by
  rw [hrun.addr]
  refine ⟨fun t' ht' => hrun.frame.trans (hrest.1 t' ht') hrun.le (hrun.le_top hva.le), ?_⟩
  rw [unmaps_iff_of_frame hlap hrun.le hrest.1, hrest.2]
  exact and_iff_right fun b hb hlt _ => hrun.cleared b hb hlt

/-- The loop clears the entries of one table. -/
theorem loopSpec_run (hclosed : m.Closed t₀) (hfuel : 0 < fuel)
    (h : m.UnmapInv t₀ t top va lvl va) (hva : va < top) (htable : ¬ lvl < (m.look t₀ va).1)
    (hleaf : m.leafAt t₀ va ≠ none)
    (hrec : ∀ t' va' lvl', m.stepsLeft top va' lvl' < m.stepsLeft top va lvl →
      m.UnmapInv t₀ t' top va' lvl' va' → m.LoopSpec t₀ t' top fuel va' lvl') :
    m.LoopSpec t₀ t top (fuel + 1) va lvl := by
  have hnot : m.fmt.pteTable (m.isLast lvl) (m.pteAt t lvl va) = false := by
    rw [← Bool.not_eq_true, h.pteTable_iff hclosed hva]
    exact htable
  have hvalid : m.fmt.pteValid (m.pteAt t lvl va) = true := by
    have hsome : (m.leafAt t va).isSome = m.fmt.pteValid (m.look t va).2 := Mmu.isSome_leafAt
    rw [h.isSome_leafAt hva, Option.isSome_iff_ne_none.mpr hleaf, h.look_eq hnot] at hsome
    exact hsome.symm
  have hleft : 0 < m.runLeft lvl va := by
    rw [runLeft, PtDscr.ptNentries_eq h.lt, PtDscr.ptGetpteindexByVa_eq h.lt]
    exact Nat.sub_pos_of_lt (Radix.Shape.index_lt h.lt va)
  have hrun : m.RunSpec t₀ t top lvl va va (m.memUnmapRun top lvl (m.runLeft lvl va) t va)
      (m.unmapRunEnd t₀ top lvl (m.runLeft lvl va) va) := by
    have hzero : va + 0 * m.dscr.ptLvlsize lvl = va := by rw [Nat.zero_mul, Nat.add_zero]
    have hstart : m.UnmapInv t₀ t top (va + 0 * m.dscr.ptLvlsize lvl) lvl va := by rwa [hzero]
    have hspec := memUnmapRun_spec hclosed hstart (Nat.zero_add _)
      fun hpos => absurd hpos (lt_irrefl 0)
    rwa [hzero] at hspec
  have hprogress := unmapRunEnd_progress hleft hva htable
  rw [LoopSpec, Unmaps, memUnmapLoop_eq hva h.path, hvalid, hnot, Bool.not_true,
    if_neg Bool.false_ne_true, if_neg Bool.false_ne_true]
  generalize m.memUnmapRun top lvl (m.runLeft lvl va) t va = r at hrun ⊢
  obtain ⟨va', l?, he⟩ : ∃ va' l?, m.unmapRunEnd t₀ top lvl (m.runLeft lvl va) va = (va', l?) :=
    ⟨_, _, rfl⟩
  rw [he] at hrun hprogress
  refine hrun.loop hva h.lap ?_
  have hsize : pageSize ≤ m.dscr.ptLvlsize lvl :=
    Nat.le_of_dvd PtDscr.ptLvlsize_pos (PtDscr.pageSize_dvd_ptLvlsize h.lt)
  cases l? with
  | some l =>
      obtain ⟨hlvl, hinv⟩ := hrun.inside l rfl
      rw [hlvl, unmapOk_inside va' l fuel hva htable hleaf he]
      by_cases hva' : va' < top
      · refine hrec r.1 va' l ?_ (hinv hva')
        rcases hprogress with heq | hle
        · obtain ⟨rfl, rfl⟩ : va' = va ∧ l = lvl + 1 := by simpa using heq
          exact stepsLeft_succ_lt h.lt
        · exact stepsLeft_lt_of_lt _ _ h hva ((Nat.add_le_add_left hsize va).trans hle)
      · exact loopSpec_of_le _ _ _ hfuel (Nat.not_lt.mp hva')
  | none =>
      obtain ⟨hlvl, hinv, hdvd, hend⟩ := hrun.behind rfl
      have hle : va + m.dscr.ptLvlsize lvl ≤ va' := hprogress.resolve_left fun heq => by
        cases congrArg Prod.snd heq
      rw [hlvl, unmapOk_behind hva htable hleaf he]
      by_cases hroot : lvl = 0
      · subst hroot
        have htop := top_le_of_root_end hdvd h.lap hend
        rw [if_pos rfl]
        refine ⟨fun t' ht' => ?_, iff_of_true (unmaps_of_le hfuel htop _)
          ⟨fun hlt => absurd hlt (Nat.not_lt.mpr htop), unmapOk_of_le htop⟩⟩
        rw [memUnmapLoop_of_le hfuel htop] at ht'
        rw [← Option.some.inj ht']
        exact .refl _ _ _
      · rw [if_neg hroot]
        refine loopSpec_arrive hclosed hfuel hinv (Nat.sub_le lvl 1) (fun b i hb hbtop hi hlt =>
          pos_ne_of_table_end h.lt hdvd h.lap hend hb hbtop hlt hi) (hrec r.1 va' (lvl - 1) ?_)
        exact stepsLeft_lt_of_lt _ _ h hva ((Nat.add_le_add_left hsize va).trans hle)

/-- The loop from an address and a level on, by the rounds. -/
theorem memUnmapLoop_spec (hclosed : m.Closed t₀) (h : m.UnmapInv t₀ t top va lvl va)
    (hfuel : m.stepsLeft top va lvl < fuel) : m.LoopSpec t₀ t top fuel va lvl := by
  induction fuel generalizing t va lvl with
  | zero => exact absurd hfuel (Nat.not_lt_zero _)
  | succ fuel ih =>
      by_cases hva : va < top
      · have hpos : 0 < fuel := by
          have hlt := stepsLeft_lt_of_lt (va + pageSize) 0 h hva le_rfl
          omega
        have hstep : ∀ {t' va' lvl'}, m.stepsLeft top va' lvl' < m.stepsLeft top va lvl →
            m.UnmapInv t₀ t' top va' lvl' va' → m.LoopSpec t₀ t' top fuel va' lvl' :=
          fun hlt hinv => ih hinv (hlt.trans_le (Nat.le_of_lt_succ hfuel))
        by_cases htable : lvl < (m.look t₀ va).1
        · exact loopSpec_table hclosed h hva htable (hstep (stepsLeft_succ_lt h.lt))
        · by_cases hleaf : m.leafAt t₀ va = none
          · refine loopSpec_skip hclosed hpos h hva htable hleaf (hstep ?_)
            refine stepsLeft_lt_of_lt _ _ h hva (Nat.add_le_add_left ?_ va)
            exact Nat.le_of_dvd PtDscr.ptLvlsize_pos (PtDscr.pageSize_dvd_ptLvlsize h.lt)
          · exact loopSpec_run hclosed hpos h hva htable hleaf fun _ _ _ hlt => hstep hlt
      · exact loopSpec_of_le _ _ _ (Nat.succ_pos fuel) (Nat.not_lt.mp hva)

/-! ## The law -/

/-- Nothing of the range is mapped, and all other addresses translate as before. -/
structure UnmapLaw (m : Mmu) (t t' : PtEntries) (at' n : ℕ) : Prop where
  unmapped : ∀ x < n * pageSize, m.memTranslate t' (at' + x) = none
  frame : ∀ a, (∀ x < n * pageSize, a % m.dscr.shape.span ≠ (at' + x) % m.dscr.shape.span) →
    m.memTranslate t' a = m.memTranslate t a

theorem unmapLaw_iff {at' : ℕ} (hframe : m.FrameOff t t' at' (at' + n * pageSize)) :
    m.UnmapLaw t t' at' n ↔
      ∀ b, at' ≤ b → b < at' + n * pageSize → m.memTranslate t' b = none := by
  constructor
  · intro h b hb hlt
    obtain ⟨x, rfl⟩ := Nat.exists_eq_add_of_le hb
    exact h.unmapped x (Nat.lt_of_add_lt_add_left hlt)
  · intro h
    refine ⟨fun x hx => h _ (Nat.le_add_right at' x) (Nat.add_lt_add_left hx at'),
      fun a ha => hframe a fun b hb hlt => ?_⟩
    obtain ⟨x, rfl⟩ := Nat.exists_eq_add_of_le hb
    exact ha x (Nat.lt_of_add_lt_add_left hlt)

theorem unmapInv_refl {at' : ℕ} (hclosed : m.Closed t) (haligned : m.LeavesAligned t)
    (hat : pageSize ∣ at') (hlap : at' % m.dscr.shape.span + n * pageSize ≤ m.dscr.shape.span)
    (hfits : at' + n * pageSize + m.dscr.ptLvlsize 0 ≤ 2 ^ 64) :
    m.UnmapInv t t (at' + n * pageSize) at' 0 at' where
  closed := hclosed
  aligned := haligned
  lt := m.dscr.lvls_pos
  le := le_rfl
  page := hat
  pageTop := Nat.dvd_add hat (Nat.dvd_mul_left _ _)
  fits := hfits
  lap := by
    refine ⟨at' / m.dscr.shape.span, Nat.div_mul_le_self _ _, ?_⟩
    have hdiv := Nat.div_add_mod' at' m.dscr.shape.span
    rw [Nat.add_mul, Nat.one_mul]
    omega
  path := Radix.path_zero at'
  trans := fun _ _ _ => rfl
  table := fun _ _ _ _ _ _ => Iff.rfl

/-- `mem_unmap` unmaps the range and nothing else iff its walk goes wrong nowhere. -/
theorem memUnmap_law_iff {at' : ℕ} (hwf : m.WellFormed t) (hat : pageSize ∣ at')
    (hsec : (m.memFindSec at').isSome = true)
    (hlap : at' % m.dscr.shape.span + n * pageSize ≤ m.dscr.shape.span)
    (hfits : at' + n * pageSize + m.dscr.ptLvlsize 0 ≤ 2 ^ 64) :
    (∃ t', m.memUnmap t at' n = some t' ∧ m.UnmapLaw t t' at' n) ↔ m.UnmapWalkOk t at' n := by
  obtain ⟨sec, hsec⟩ := Option.isSome_iff_exists.mp hsec
  have htop : (at' + n * pageSize) % 2 ^ 64 = at' + n * pageSize := by
    refine Nat.mod_eq_of_lt (lt_of_lt_of_le ?_ hfits)
    exact Nat.lt_add_of_pos_right PtDscr.ptLvlsize_pos
  have hpages : (at' + n * pageSize - at') / pageSize = n := by
    rw [Nat.add_sub_cancel_left]
    exact Nat.mul_div_cancel n (by decide)
  have hfuel : m.stepsLeft (at' + n * pageSize) at' 0 < (n + 1) * (m.dscr.lvls + 1) := by
    rw [stepsLeft, hpages, Nat.add_mul, Nat.one_mul]
    omega
  obtain ⟨hframe, hiff⟩ := memUnmapLoop_spec hwf.closed
    (unmapInv_refl hwf.closed hwf.leavesAligned hat hlap hfits) hfuel
  rw [UnmapWalkOk, ← hiff, memUnmap, hsec, Option.bind_some, htop]
  exact exists_congr fun t' => and_congr_right fun ht' => unmapLaw_iff (hframe t' ht')

end Mmu

theorem unmapWalkOk_secondSuperpage : someVmMmu.UnmapWalkOk secondSuperpage 0x200000 3 := by
  refine (Mmu.unmapOk_table 15 (by decide) (by decide)).mpr ?_
  refine (Mmu.unmapOk_inside 0x200000 2 _ (by decide) (by decide)
    (by decide +kernel) (by decide +kernel)).mpr ?_
  refine (Mmu.unmapOk_inside 0x203000 2 _ (by decide) (by decide)
    (by decide +kernel) (by decide +kernel)).mpr ?_
  exact Mmu.unmapOk_of_le le_rfl

theorem memUnmap_law_iff_part_of_superpage :
    ∃ t', someVmMmu.memUnmap secondSuperpage 0x200000 3 = some t' ∧
      someVmMmu.UnmapLaw secondSuperpage t' 0x200000 3 :=
  (Mmu.memUnmap_law_iff wellFormed_secondSuperpage (by decide) (by decide) (by decide)
    (by decide)).mpr unmapWalkOk_secondSuperpage

/-- The walk for a page before the superpage and one of the superpage skips both. -/
theorem memUnmap_skips_superpage :
    someVmMmu.WellFormed secondSuperpage ∧ pageSize ∣ 0x1ff000 ∧
      (someVmMmu.memFindSec 0x1ff000).isSome = true ∧
      ¬ ∃ t', someVmMmu.memUnmap secondSuperpage 0x1ff000 2 = some t' ∧
        someVmMmu.UnmapLaw secondSuperpage t' 0x1ff000 2 := by
  refine ⟨wellFormed_secondSuperpage, by decide, by decide, ?_⟩
  rintro ⟨t', ht', hlaw⟩
  have hstays : (someVmMmu.memUnmap secondSuperpage 0x1ff000 2).map
      (someVmMmu.memTranslate · 0x200000) = some (some 0x80200000#64) := by decide +kernel
  have hnone := hlaw.unmapped 0x1000 (by decide)
  rw [ht', Option.map_some] at hstays
  rw [Option.some.inj hstays] at hnone
  cases hnone

end BaoHypervisor
