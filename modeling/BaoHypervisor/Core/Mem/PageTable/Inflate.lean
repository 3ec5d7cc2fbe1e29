import BaoHypervisor.Core.Mem.PageTable.MapPages

/-!
# Inflated tables

`mem_inflate_pt` goes through each level in steps of the size of its entries from the first
address of a range on. The entry of the last page is left out if both ends of the range are in
the middle of entries and the steps end in the one before it (`memInflatePt_complete_iff`).
-/

namespace BaoHypervisor

namespace Mmu

variable {m : Mmu} {t : PtEntries} {lvl va length n : ℕ}

/-! ## Levels of inflated tables -/

/-- The rounds of `mem_inflate_pt` over the entries of a level come to that of the address. -/
def Swept (m : Mmu) (va length lvl b : ℕ) : Prop :=
  ∃ k < (length + m.dscr.ptLvlsize lvl - 1) / m.dscr.ptLvlsize lvl,
    m.dscr.pos lvl b = m.dscr.pos lvl (va + k * m.dscr.ptLvlsize lvl)

instance (va length lvl b : ℕ) : Decidable (m.Swept va length lvl b) :=
  inferInstanceAs (Decidable (∃ k < _, _ = _))

/-- Walks that stop at an entry that is expanded stop one level below. -/
theorem look_fst_memExpandPte (hclosed : m.Closed t) (hlvl : lvl + 1 < m.dscr.lvls) (va b : ℕ) :
    (m.look (m.memExpandPte t lvl va) b).1 =
      if (m.look t b).1 = lvl ∧ m.dscr.pos lvl b = m.dscr.pos lvl va then lvl + 1
      else (m.look t b).1 := by
  by_cases h : lvl + 1 < m.dscr.lvls ∧ m.Stops t lvl va
  · obtain ⟨-, hstops⟩ := h
    rw [look_memExpandPte hclosed hlvl hstops.path hstops.not_table]
    by_cases hpos : m.dscr.pos lvl b = m.dscr.pos lvl va
    · rw [if_pos hpos, look_of_expandable hclosed hlvl hstops.path hstops.not_table hpos,
        if_pos ⟨rfl, hpos⟩]
    · rw [if_neg hpos, if_neg fun hand => hpos hand.2]
  · rw [memExpandPte_of_not_stops h, if_neg]
    rintro ⟨rfl, hpos⟩
    refine h ⟨hlvl, ?_⟩
    have hlook := look_of_pos_eq hclosed hpos.symm
    have hstops := stops_look hclosed va
    rwa [hlook] at hstops

theorem look_fst_inflateLvl (hclosed : m.Closed t) (hlvl : lvl + 1 < m.dscr.lvls) (n va b : ℕ) :
    (m.look (m.inflateLvl lvl n t va) b).1 =
      if (m.look t b).1 = lvl ∧
          ∃ k < n, m.dscr.pos lvl b = m.dscr.pos lvl (va + k * m.dscr.ptLvlsize lvl) then lvl + 1
      else (m.look t b).1 := by
  induction n generalizing t va with
  | zero =>
      rw [if_neg]
      · rfl
      · rintro ⟨-, k, hk, -⟩
        exact absurd hk (Nat.not_lt_zero k)
  | succ n ih =>
      have hstep := look_fst_memExpandPte hclosed hlvl va b
      have hfirst : (∃ k < n + 1,
          m.dscr.pos lvl b = m.dscr.pos lvl (va + k * m.dscr.ptLvlsize lvl)) ↔
          m.dscr.pos lvl b = m.dscr.pos lvl va ∨
            ∃ k < n, m.dscr.pos lvl b =
              m.dscr.pos lvl (va + m.dscr.ptLvlsize lvl + k * m.dscr.ptLvlsize lvl) := by
        rw [Nat.exists_lt_succ_left]
        simp only [Nat.zero_mul, Nat.add_zero, Nat.succ_mul, Nat.add_assoc,
          Nat.add_comm (m.dscr.ptLvlsize lvl)]
      rw [inflateLvl, ih (closed_memExpandPte_any hclosed lvl va), hstep]
      simp only [hfirst]
      by_cases hat : (m.look t b).1 = lvl ∧ m.dscr.pos lvl b = m.dscr.pos lvl va
      · rw [if_pos hat, if_neg fun h => absurd h.1 (Nat.succ_ne_self lvl),
          if_pos ⟨hat.1, .inl hat.2⟩]
      · rw [if_neg hat]
        by_cases hlook : (m.look t b).1 = lvl
        · have hne : m.dscr.pos lvl b ≠ m.dscr.pos lvl va := fun hpos => hat ⟨hlook, hpos⟩
          simp only [hne, false_or]
        · rw [if_neg fun h => hlook h.1, if_neg fun h => hlook h.1]

/-- The levels above `n` are inflated. -/
def inflateTo (m : Mmu) (t : PtEntries) (va length n : ℕ) : PtEntries :=
  (List.range n).foldl (fun t lvl =>
    m.inflateLvl lvl ((length + m.dscr.ptLvlsize lvl - 1) / m.dscr.ptLvlsize lvl) t va) t

theorem memInflatePt_eq_inflateTo (t : PtEntries) (va length : ℕ) :
    m.memInflatePt t va length = m.inflateTo t va length (m.dscr.lvls - 1) := rfl

theorem inflateTo_succ (t : PtEntries) (va length n : ℕ) :
    m.inflateTo t va length (n + 1) =
      m.inflateLvl n ((length + m.dscr.ptLvlsize n - 1) / m.dscr.ptLvlsize n)
        (m.inflateTo t va length n) va := by
  rw [inflateTo, List.range_succ, List.foldl_append]
  rfl

theorem closed_inflateTo (hclosed : m.Closed t) (va length n : ℕ) :
    m.Closed (m.inflateTo t va length n) := by
  induction n with
  | zero => exact hclosed
  | succ n ih =>
      rw [inflateTo_succ]
      exact closed_inflateLvl ih n _ va

/-- A walk comes below the inflated levels if at each of them its entry was come to, or was a
table before. Further below the walk comes where it came before. -/
theorem look_fst_inflateTo (hclosed : m.Closed t) (hn : n < m.dscr.lvls) (va length b : ℕ) :
    (n ≤ (m.look (m.inflateTo t va length n) b).1 ↔
        ∀ lvl < n, m.Swept va length lvl b ∨ lvl < (m.look t b).1) ∧
      ∀ i, n ≤ i → (i < (m.look (m.inflateTo t va length n) b).1 ↔ i < (m.look t b).1) := by
  induction n with
  | zero => exact ⟨⟨fun _ lvl h => absurd h (Nat.not_lt_zero lvl), fun _ => Nat.zero_le _⟩,
      fun _ _ => Iff.rfl⟩
  | succ n ih =>
      obtain ⟨hle, hbelow⟩ := ih (Nat.lt_of_succ_lt hn)
      have hstep : (m.look (m.inflateTo t va length (n + 1)) b).1 =
          if (m.look (m.inflateTo t va length n) b).1 = n ∧ m.Swept va length n b then n + 1
          else (m.look (m.inflateTo t va length n) b).1 := by
        rw [inflateTo_succ]
        exact look_fst_inflateLvl (closed_inflateTo hclosed va length n) hn _ va b
      have hforall : (∀ lvl < n + 1, m.Swept va length lvl b ∨ lvl < (m.look t b).1) ↔
          n ≤ (m.look (m.inflateTo t va length n) b).1 ∧
            (m.Swept va length n b ∨ n < (m.look (m.inflateTo t va length n) b).1) := by
        rw [Nat.forall_lt_succ_right, ← hle, hbelow n le_rfl]
      rw [hforall, hstep]
      refine ⟨?_, fun i hi => ?_⟩
      · split_ifs with hat
        · exact ⟨fun _ => ⟨hat.1.ge, .inl hat.2⟩, fun _ => le_rfl⟩
        · constructor
          · intro h
            exact ⟨Nat.le_of_succ_le h, .inr h⟩
          · rintro ⟨hge, hswept | hlt⟩
            · exact Nat.lt_of_le_of_ne hge fun heq => hat ⟨heq.symm, hswept⟩
            · exact hlt
      · rw [← hbelow i (Nat.le_of_succ_le hi)]
        split_ifs with hat
        · rw [hat.1]
          omega
        · rfl

theorem path_memInflatePt_iff (hclosed : m.Closed t) (va length b : ℕ) :
    m.Path (m.memInflatePt t va length) (m.dscr.lvls - 1) b ↔
      ∀ lvl, lvl + 1 < m.dscr.lvls → m.Swept va length lvl b ∨ m.Path t (lvl + 1) b := by
  have hlvls := m.dscr.lvls_pos
  rw [path_iff_le_look (closed_memInflatePt hclosed va length), memInflatePt_eq_inflateTo,
    (look_fst_inflateTo hclosed (Nat.sub_lt hlvls Nat.one_pos) va length b).1]
  refine forall_congr' fun lvl => ?_
  rw [path_iff_le_look hclosed, Nat.lt_sub_iff_add_lt, Nat.succ_le_iff]

/-! ## Inflated ranges -/

def Inflated (m : Mmu) (t : PtEntries) (va length : ℕ) : Prop :=
  ∀ x < length, (m.ptGetPte t (m.dscr.lvls - 1) (va + x)).isSome = true

/-- The steps of the size of a level come to the entry of the last page, which is not the second
one that is only in part of the range. -/
def StepsReachLast (m : Mmu) (va length lvl : ℕ) : Prop :=
  va % m.dscr.ptLvlsize lvl + (length - 1) % m.dscr.ptLvlsize lvl < m.dscr.ptLvlsize lvl

instance (va length lvl : ℕ) : Decidable (m.StepsReachLast va length lvl) :=
  inferInstanceAs (Decidable (_ < _))

theorem isSome_ptGetPte (t : PtEntries) (lvl va : ℕ) :
    (m.ptGetPte t lvl va).isSome = true ↔ m.Path t lvl va := by
  rw [ptGetPte]
  split_ifs with hpath
  · exact ⟨fun _ => hpath, fun _ => rfl⟩
  · exact ⟨fun h => absurd h Bool.false_ne_true, fun h => absurd h hpath⟩

theorem swept_iff (hlvl : lvl < m.dscr.lvls)
    (hinside : va / m.dscr.shape.span = (va + length - 1) / m.dscr.shape.span) {x : ℕ}
    (hx : x < length) :
    m.Swept va length lvl (va + x) ↔ (va + x) / m.dscr.ptLvlsize lvl <
      va / m.dscr.ptLvlsize lvl + (length + m.dscr.ptLvlsize lvl - 1) / m.dscr.ptLvlsize lvl := by
  have hsize : 0 < m.dscr.ptLvlsize lvl := PtDscr.ptLvlsize_pos
  have hspan := m.dscr.shape.span_pos
  have hlap : ∀ y < length, va / m.dscr.shape.span * m.dscr.shape.span ≤ va + y ∧
      va + y < (va / m.dscr.shape.span + 1) * m.dscr.shape.span := by
    intro y hy
    refine ⟨(Nat.div_mul_le_self _ _).trans (Nat.le_add_right _ _), ?_⟩
    rw [hinside]
    exact (Nat.le_sub_one_of_lt (Nat.add_lt_add_left hy va)).trans_lt
      (Nat.lt_mul_of_div_lt (Nat.lt_succ_self _) hspan)
  have hpos : ∀ k < (length + m.dscr.ptLvlsize lvl - 1) / m.dscr.ptLvlsize lvl,
      m.dscr.pos lvl (va + x) = m.dscr.pos lvl (va + k * m.dscr.ptLvlsize lvl) ↔
        (va + x) / m.dscr.ptLvlsize lvl = va / m.dscr.ptLvlsize lvl + k := by
    intro k hk
    have hmul := (Nat.le_div_iff_mul_le hsize).mp hk
    rw [Nat.succ_mul] at hmul
    have hstep := hlap (k * m.dscr.ptLvlsize lvl) (by omega)
    have hiff := Radix.Shape.pos_eq_iff_of_lap (g := m.dscr.shape) hlvl (hlap x hx).1 (hlap x hx).2
      hstep.1 hstep.2
    rw [hiff]
    change (va + x) / m.dscr.ptLvlsize lvl =
      (va + k * m.dscr.ptLvlsize lvl) / m.dscr.ptLvlsize lvl ↔ _
    rw [Nat.add_mul_div_right _ _ hsize]
  have hle : va / m.dscr.ptLvlsize lvl ≤ (va + x) / m.dscr.ptLvlsize lvl :=
    Nat.div_le_div_right (Nat.le_add_right va x)
  constructor
  · rintro ⟨k, hk, heq⟩
    rw [(hpos k hk).mp heq]
    exact Nat.add_lt_add_left hk _
  · intro hlt
    obtain ⟨k, hk⟩ := Nat.exists_eq_add_of_le hle
    rw [hk, Nat.add_lt_add_iff_left] at hlt
    exact ⟨k, hlt, (hpos k hlt).mpr hk⟩

theorem last_div_eq (hlength : 0 < length) (va lvl : ℕ) :
    (va + length - 1) / m.dscr.ptLvlsize lvl =
      va / m.dscr.ptLvlsize lvl + (length - 1) / m.dscr.ptLvlsize lvl +
        if m.StepsReachLast va length lvl then 0 else 1 := by
  rw [Nat.add_sub_assoc hlength, Nat.add_div PtDscr.ptLvlsize_pos]
  by_cases hreach : m.StepsReachLast va length lvl
  · rw [if_pos hreach, if_neg (Nat.not_le.mpr hreach)]
  · rw [if_neg hreach, if_pos (Nat.not_lt.mp hreach)]

theorem rounds_eq (hlength : 0 < length) (lvl : ℕ) :
    (length + m.dscr.ptLvlsize lvl - 1) / m.dscr.ptLvlsize lvl =
      (length - 1) / m.dscr.ptLvlsize lvl + 1 := by
  rw [Nat.sub_add_comm hlength, Nat.add_div_right _ PtDscr.ptLvlsize_pos]

/-- The entries of a level are tables after `mem_inflate_pt`, exactly if the steps of its size
come to the entry of the last page, or that was a table before. -/
theorem swept_or_path_iff (hlvl : lvl < m.dscr.lvls) (hlength : 0 < length)
    (hinside : va / m.dscr.shape.span = (va + length - 1) / m.dscr.shape.span) :
    (∀ x < length, m.Swept va length lvl (va + x) ∨ m.Path t (lvl + 1) (va + x)) ↔
      m.StepsReachLast va length lvl ∨ m.Path t (lvl + 1) (va + length - 1) := by
  have hlast := last_div_eq (m := m) hlength va lvl
  have hrounds := rounds_eq (m := m) hlength lvl
  have hend : va + (length - 1) = va + length - 1 := (Nat.add_sub_assoc hlength va).symm
  constructor
  · intro h
    refine (h (length - 1) (Nat.sub_lt hlength Nat.one_pos)).imp (fun hswept => ?_) fun hpath => ?_
    · rw [swept_iff hlvl hinside (Nat.sub_lt hlength Nat.one_pos), hend, hlast, hrounds] at hswept
      by_contra hnot
      rw [if_neg hnot] at hswept
      omega
    · rwa [hend] at hpath
  · intro h x hx
    rw [swept_iff hlvl hinside hx]
    have hle : (va + x) / m.dscr.ptLvlsize lvl ≤ (va + length - 1) / m.dscr.ptLvlsize lvl :=
      Nat.div_le_div_right (by omega)
    rcases h with hreach | hpath
    · rw [if_pos hreach] at hlast
      exact .inl (by omega)
    · refine or_iff_not_imp_left.mpr fun hnot => ?_
      have hsame : (va + x) / m.dscr.ptLvlsize lvl = (va + length - 1) / m.dscr.ptLvlsize lvl := by
        split_ifs at hlast <;> omega
      refine path_congr_pos hlvl ?_ le_rfl hpath
      exact congrArg (· % m.dscr.shape.count lvl) hsame

/-! ## Translations of inflated tables -/

theorem memExpandPte_any_keeps (hclosed : m.Closed t) (haligned : m.LeavesAligned t) (lvl va : ℕ) :
    m.LeavesAligned (m.memExpandPte t lvl va) ∧
      ∀ b, m.memTranslate (m.memExpandPte t lvl va) b = m.memTranslate t b := by
  by_cases h : lvl + 1 < m.dscr.lvls ∧ m.Stops t lvl va
  · obtain ⟨hlvl, hstops⟩ := h
    exact ⟨leavesAligned_memExpandPte hclosed haligned hlvl hstops.path hstops.not_table,
      memTranslate_memExpandPte hclosed haligned hlvl hstops.path hstops.not_table⟩
  · rw [memExpandPte_of_not_stops h]
    exact ⟨haligned, fun _ => rfl⟩

theorem inflateLvl_keeps (hclosed : m.Closed t) (haligned : m.LeavesAligned t) (lvl n va : ℕ) :
    m.LeavesAligned (m.inflateLvl lvl n t va) ∧
      ∀ b, m.memTranslate (m.inflateLvl lvl n t va) b = m.memTranslate t b := by
  induction n generalizing t va with
  | zero => exact ⟨haligned, fun _ => rfl⟩
  | succ n ih =>
      obtain ⟨haligned', hstep⟩ := memExpandPte_any_keeps hclosed haligned lvl va
      obtain ⟨hrest, htrans⟩ := ih (closed_memExpandPte_any hclosed lvl va) haligned'
        (va + m.dscr.ptLvlsize lvl)
      exact ⟨hrest, fun b => (htrans b).trans (hstep b)⟩

theorem memTranslate_memInflatePt (hclosed : m.Closed t) (haligned : m.LeavesAligned t)
    (va length b : ℕ) : m.memTranslate (m.memInflatePt t va length) b = m.memTranslate t b := by
  have hkeeps : ∀ n, m.LeavesAligned (m.inflateTo t va length n) ∧
      m.memTranslate (m.inflateTo t va length n) b = m.memTranslate t b := by
    intro n
    induction n with
    | zero => exact ⟨haligned, rfl⟩
    | succ n ih =>
        have hstep := inflateLvl_keeps (closed_inflateTo hclosed va length n) ih.1 n
          ((length + m.dscr.ptLvlsize n - 1) / m.dscr.ptLvlsize n) va
        rw [inflateTo_succ]
        exact ⟨hstep.1, (hstep.2 b).trans ih.2⟩
  exact (hkeeps _).2

/-- The addresses of a range, which do not run over the end of a word, are addresses of the root
table that it tells apart. -/
structure RangeInside (m : Mmu) (va length : ℕ) : Prop where
  pos : 0 < length
  lt_word : va + length < 2 ^ 64
  inside : va / m.dscr.shape.span = (va + length - 1) / m.dscr.shape.span

/-- `mem_inflate_pt` keeps all translations, and gives each page of the range an entry of the last
level exactly if at each level above the steps come to the entry of the last page, or the tables
for that page come below the level before. -/
theorem memInflatePt_complete_iff (hwf : m.WellFormed t) (hrange : m.RangeInside va length) :
    (m.Inflated (m.memInflatePt t va length) va length ∧
        ∀ b, m.memTranslate (m.memInflatePt t va length) b = m.memTranslate t b) ↔
      ∀ lvl, lvl + 1 < m.dscr.lvls →
        m.StepsReachLast va length lvl ∨ m.Path t (lvl + 1) (va + length - 1) := by
  have htrans := memTranslate_memInflatePt hwf.closed hwf.leavesAligned va length
  have hinflated : m.Inflated (m.memInflatePt t va length) va length ↔
      ∀ lvl, lvl + 1 < m.dscr.lvls →
        ∀ x < length, m.Swept va length lvl (va + x) ∨ m.Path t (lvl + 1) (va + x) := by
    simp only [Inflated, isSome_ptGetPte, path_memInflatePt_iff hwf.closed]
    exact ⟨fun h lvl hlvl x hx => h x hx lvl hlvl, fun h x hx lvl hlvl => h lvl hlvl x hx⟩
  rw [and_iff_left htrans, hinflated]
  refine forall_congr' fun lvl => imp_congr_right fun hlvl => ?_
  exact swept_or_path_iff (Nat.lt_of_succ_lt hlvl) hrange.pos hrange.inside

end Mmu

theorem memInflatePt_complete_iff_aligned :
    someVmMmu.Inflated (someVmMmu.memInflatePt emptyTables 0x200000 0x400000) 0x200000 0x400000 :=
  ((Mmu.memInflatePt_complete_iff (Mmu.wellFormed_emptyTables someVmMmu)
    ⟨by decide, by decide, by decide⟩).mpr fun lvl _ => .inl (by
      have hlvl : lvl = 0 ∨ lvl = 1 := by
        have hlvls : lvl + 1 < 3 := by assumption
        omega
      rcases hlvl with rfl | rfl
      · decide
      · decide)).1

/-- Of two pages on both sides of the addresses of a table the second one has no entry. -/
theorem not_inflated_two_pages :
    someVmMmu.WellFormed emptyTables ∧
      ¬ someVmMmu.Inflated (someVmMmu.memInflatePt emptyTables 0x1ff000 0x2000) 0x1ff000 0x2000 :=
  ⟨Mmu.wellFormed_emptyTables _, fun h =>
    absurd (h 0x1000 (by decide)) (by decide +kernel)⟩

end BaoHypervisor
