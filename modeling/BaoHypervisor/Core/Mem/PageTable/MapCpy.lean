import BaoHypervisor.Core.Mem.PageTable.MapPages

/-!
# Windows on other address spaces

`mem_map_cpy` shows pages of one address space in another one. It maps as many pages at once as
the source has in the entry of the first of them, or as are left. But the entry may have begun
before that page, and then the last ones of these pages are in other entries of the source.

So a window shows the pages of the source iff the physical pages behind each call follow each
other.
-/

namespace BaoHypervisor

/-- The index of `SEC_HYP_GLOBAL`. -/
def secHypGlobal : ℕ := 0

namespace Mmu

/-- The address of the page `k` from an address on. -/
abbrev cpyVa (va k : ℕ) : ℕ := (va + k * pageSize) % 2 ^ 64

section Source

variable (m : Mmu) (t : PtEntries)

/-- The walk of `mem_map_cpy` down to the entry that maps a page, with the levels that are left.
There is no level where it leaves the tables. -/
def cpyLvl (va : ℕ) : ℕ → ℕ → Option ℕ
  | 0, _ => none
  | n + 1, lvl =>
      (m.ptGetPte t lvl va).bind fun pte =>
        if m.fmt.ptePage (m.isLast lvl) pte then some lvl else cpyLvl va n (lvl + 1)

/-- `pa`, for the entry of a level. -/
def cpyAddr (lvl va : ℕ) : Addr :=
  m.fmt.pteAddr (m.pteAt t lvl va) +
    BitVec.ofNat 64 (va - va / m.dscr.ptLvlsize lvl * m.dscr.ptLvlsize lvl)

/-- `npages`, for the entry of a level and the pages that are left. -/
def cpyPages (lvl left : ℕ) : ℕ :=
  (min (m.dscr.ptLvlsize lvl) (left * pageSize) + pageSize - 1) / pageSize

/-- The pages of each call of `mem_map`, by their first one and their number. -/
def cpyChunks (vas : ℕ) : ℕ → ℕ → ℕ → List (ℕ × ℕ)
  | 0, _, _ => []
  | fuel + 1, k, left =>
      if left = 0 then []
      else
        match m.cpyLvl t (cpyVa vas k) m.dscr.lvls 0 with
        | none => []
        | some lvl =>
            let npages := m.cpyPages lvl left
            (k, npages) :: cpyChunks vas fuel (k + npages) (left - npages)

/-- The physical addresses of pages follow each other, in entries with room for some bits. -/
def PagesFollow (width va c : ℕ) : Prop :=
  ∀ i < c, m.memTranslate t (va + i * pageSize) =
    (m.memTranslate t va).map fun pa => BitVec.ofNat 64 ((pa.toNat + i * pageSize) % 2 ^ width)

end Source

variable (m : Mmu) (ms : Mmu) (ts : PtEntries)

/-- The loop of `mem_map_cpy`, after `k` pages. There is no result in `ERROR`. -/
def memMapCpyLoop (vas vad : ℕ) : ℕ → PtEntries → ℕ → ℕ → Option PtEntries
  | 0, t, _, left => if left = 0 then some t else none
  | fuel + 1, t, k, left =>
      if left = 0 then some t
      else
        (ms.cpyLvl ts (cpyVa vas k) ms.dscr.lvls 0).bind fun lvl =>
          let npages := ms.cpyPages lvl left
          let (t', res) := m.memMap t (cpyVa vad k) (ms.cpyAddr ts lvl (cpyVa vas k)) npages
            m.fmt.hypFlags
          res.bind fun _ => memMapCpyLoop vas vad fuel t' (k + npages) (left - npages)

/-- `mem_map_cpy`, with the address it returns. There is none for `INVALID_VA`. -/
def memMapCpy (rounds : ℕ) (t : PtEntries) (vas : ℕ) (at' : Option ℕ) (n : ℕ) :
    Option (PtEntries × Option ℕ) :=
  (m.memAllocVpage n rounds t secHypGlobal at').bind fun (t', vad) =>
    (m.memMapCpyLoop ms ts vas (vad.getD maxVa) n t' 0 n).map fun t'' => (t'', vad)

/-- The pages from `vad` on are those of the source from `vas` on, and all other addresses
translate as before. -/
structure Aliases (t t' : PtEntries) (vas vad n : ℕ) : Prop where
  same : ∀ i < n, m.memTranslate t' (vad + i * pageSize) = ms.memTranslate ts (vas + i * pageSize)
  frame : ∀ a, (∀ x < n * pageSize, a % m.dscr.shape.span ≠ (vad + x) % m.dscr.shape.span) →
    m.memTranslate t' a = m.memTranslate t a

/-! ## The entries of the source -/

section Source

variable {m : Mmu} {t : PtEntries} {va vas lvl n k left fuel : ℕ}

theorem look_add_mod_two_pow (hclosed : m.Closed t) (a x : ℕ) :
    m.look t (a % 2 ^ 64 + x) = m.look t (a + x) := by
  rw [← look_mod_two_pow hclosed, Nat.mod_add_mod, look_mod_two_pow hclosed]

theorem memTranslate_add_mod_two_pow (hclosed : m.Closed t) (a x : ℕ) :
    m.memTranslate t (a % 2 ^ 64 + x) = m.memTranslate t (a + x) := by
  have hword : BitVec.ofNat 64 (a % 2 ^ 64 + x) = BitVec.ofNat 64 (a + x) :=
    BitVec.eq_of_toNat_eq (by rw [BitVec.toNat_ofNat, BitVec.toNat_ofNat, Nat.mod_add_mod])
  rw [memTranslate_eq, memTranslate_eq, leafAt_congr (look_add_mod_two_pow hclosed a x)]
  refine congrArg (Option.map · _) (funext fun e => ?_)
  rw [leafAddr, leafAddr, hword]

theorem leaf_spec (hwf : m.WellFormed t) {e : ℕ × Pte} (hleaf : m.leafAt t va = some e) :
    e.1 < m.dscr.lvls ∧ (m.look t va).1 = e.1 ∧ m.pteAt t e.1 va = e.2 ∧
      m.fmt.ptePage (m.isLast e.1) e.2 = true ∧
        m.dscr.ptLvlsize e.1 ∣ (m.fmt.pteAddr e.2).toNat := by
  obtain ⟨hlook, hvalid⟩ := leafAt_eq_some_iff.mp hleaf
  have hstops := stops_look hwf.closed va
  have hlt := look_fst_lt hwf.closed va
  have hpte := look_snd (m := m) (t := t) va
  rw [hlook] at hstops hlt hpte
  have hpage := hwf.page _ va hstops
  have hdvd := hwf.aligned _ va hstops
  rw [← hpte] at hpage hdvd
  exact ⟨hlt, congrArg Prod.fst hlook, hpte.symm, hpage hvalid, hdvd hvalid⟩

/-- The walk finds the leaf of an address. -/
theorem cpyLvl_eq (hwf : m.WellFormed t) {e : ℕ × Pte} (hleaf : m.leafAt t va = some e)
    (hn : lvl + n = m.dscr.lvls) (hle : lvl ≤ e.1) : m.cpyLvl t va n lvl = some e.1 := by
  obtain ⟨hlt, hlook, hpte, hpage, -⟩ := leaf_spec hwf hleaf
  induction n generalizing lvl with
  | zero => omega
  | succ n ih =>
      have hpath : m.Path t lvl va := by
        rw [path_iff_le_look hwf.closed, hlook]
        exact hle
      rw [cpyLvl, ptGetPte, if_pos hpath, Option.bind_some]
      rcases hle.eq_or_lt with rfl | hlt'
      · rw [hpte, if_pos hpage]
      · have hnext : m.Path t (lvl + 1) va := by
          rw [path_iff_le_look hwf.closed, hlook]
          exact hlt'
        have htable : m.fmt.pteTable (m.isLast lvl) (m.pteAt t lvl va) = true :=
          (Radix.path_succ_iff.mp hnext).2
        rw [if_neg, ih (by omega) hlt']
        intro hpage'
        rw [m.fmt.pteTable_of_ptePage _ _ hpage'] at htable
        cases htable

theorem memTranslate_eq_cpyAddr (hwf : m.WellFormed t) {e : ℕ × Pte}
    (hleaf : m.leafAt t va = some e) : m.memTranslate t va = some (m.cpyAddr t e.1 va) := by
  obtain ⟨hlt, -, hpte, -, hdvd⟩ := leaf_spec hwf hleaf
  have haddr := toNat_leafAddr hlt hdvd va
  have hbound := (m.leafAddr (e.1, e.2) va).isLt
  rw [haddr] at hbound
  rw [memTranslate_eq, hleaf, Option.map_some, cpyAddr, hpte]
  refine congrArg some (BitVec.eq_of_toNat_eq ?_)
  have hrest : va - va / m.dscr.ptLvlsize e.1 * m.dscr.ptLvlsize e.1 =
      va % m.dscr.ptLvlsize e.1 := by
    have hdiv := Nat.div_add_mod' va (m.dscr.ptLvlsize e.1)
    omega
  rw [haddr, hrest, BitVec.toNat_add, BitVec.toNat_ofNat,
    Nat.mod_eq_of_lt ((Nat.le_add_left _ _).trans_lt hbound), Nat.mod_eq_of_lt hbound]

theorem pageSize_dvd_memTranslate (hwf : m.WellFormed t) (hva : pageSize ∣ va) {pa : Addr}
    (h : m.memTranslate t va = some pa) : pageSize ∣ pa.toNat := by
  rw [memTranslate_eq] at h
  obtain ⟨e, hleaf, rfl⟩ := Option.map_eq_some_iff.mp h
  obtain ⟨hlt, -, -, -, hdvd⟩ := leaf_spec hwf hleaf
  have hpage := PtDscr.pageSize_dvd_ptLvlsize hlt
  rw [toNat_leafAddr hlt hdvd va]
  exact Nat.dvd_add (hpage.trans hdvd) ((Nat.dvd_mod_iff hpage).mpr hva)

theorem cpyPages_pos (lvl : ℕ) (hleft : 0 < left) : 0 < m.cpyPages lvl left := by
  have hsize : 0 < m.dscr.ptLvlsize lvl := PtDscr.ptLvlsize_pos
  rw [cpyPages]
  unfold pageSize
  omega

theorem cpyPages_le (lvl left : ℕ) : m.cpyPages lvl left ≤ left := by
  rw [cpyPages]
  unfold pageSize
  omega

theorem mem_cpyChunks {e : ℕ × ℕ} (he : e ∈ m.cpyChunks t vas fuel k left) :
    k ≤ e.1 ∧ 0 < e.2 ∧ e.1 + e.2 ≤ k + left := by
  induction fuel generalizing k left with
  | zero => cases he
  | succ fuel ih =>
      rw [cpyChunks] at he
      by_cases hleft : left = 0
      · rw [if_pos hleft] at he
        cases he
      · rw [if_neg hleft] at he
        cases hlvl : m.cpyLvl t (cpyVa vas k) m.dscr.lvls 0 with
        | none =>
            rw [hlvl] at he
            cases he
        | some lvl =>
            rw [hlvl] at he
            have hpos := cpyPages_pos (m := m) lvl (Nat.pos_of_ne_zero hleft)
            have hle := cpyPages_le (m := m) lvl left
            rcases List.mem_cons.mp he with rfl | he
            · exact ⟨le_rfl, hpos, Nat.add_le_add_left hle k⟩
            · obtain ⟨hge, hpos', hend⟩ := ih he
              exact ⟨by omega, hpos', by omega⟩

theorem cpyLvl_cpyVa (hwf : m.WellFormed t) {e : ℕ × Pte}
    (hleaf : m.leafAt t (vas + k * pageSize) = some e) :
    m.cpyLvl t (cpyVa vas k) m.dscr.lvls 0 = some e.1 := by
  rw [← leafAt_congr (look_mod_two_pow hwf.closed (vas + k * pageSize))] at hleaf
  exact cpyLvl_eq hwf hleaf (Nat.zero_add _) (Nat.zero_le _)

/-- Each page is in one of the calls. -/
theorem exists_mem_cpyChunks (hwf : m.WellFormed t)
    (hmapped : ∀ i, k ≤ i → i < k + left → (m.leafAt t (vas + i * pageSize)).isSome = true)
    (hfuel : left ≤ fuel) {i : ℕ} (hk : k ≤ i) (hi : i < k + left) :
    ∃ e ∈ m.cpyChunks t vas fuel k left, e.1 ≤ i ∧ i < e.1 + e.2 := by
  induction fuel generalizing k left with
  | zero => omega
  | succ fuel ih =>
      obtain ⟨e, hleaf⟩ := Option.isSome_iff_exists.mp (hmapped k le_rfl (by omega))
      have hpos : 0 < m.cpyPages e.1 left := cpyPages_pos e.1 (by omega)
      have hle := cpyPages_le (m := m) e.1 left
      rw [cpyChunks, if_neg (by omega), cpyLvl_cpyVa hwf hleaf]
      dsimp only
      by_cases hfirst : i < k + m.cpyPages e.1 left
      · exact ⟨_, List.mem_cons_self, hk, hfirst⟩
      · obtain ⟨e', he', hbound⟩ := @ih (k + m.cpyPages e.1 left) (left - m.cpyPages e.1 left)
          (fun j hj hj' => hmapped j (by omega) (by omega)) (by omega) (by omega) (by omega)
        exact ⟨e', List.mem_cons_of_mem _ he', hbound⟩

end Source

/-! ## The window -/

section Window

variable {m ms : Mmu} {t t' t'' ts : PtEntries} {va vas vad n c k left fuel : ℕ} {base : Addr}
  {flags : Pte}

/-- Tables whose walks for the addresses behind a range are as before. -/
structure KeepsOff (m : Mmu) (t t' : PtEntries) (va n : ℕ) : Prop where
  closed : m.Closed t'
  leafAt : ∀ b, (∀ x < n * pageSize, b % m.dscr.shape.span ≠ (va + x) % m.dscr.shape.span) →
    m.leafAt t' b = m.leafAt t b
  term : ∀ b, (∀ x < n * pageSize, b % m.dscr.shape.span ≠ (va + x) % m.dscr.shape.span) →
    m.dscr.lvlTerm (m.look t' b).1 = m.dscr.lvlTerm (m.look t b).1

def Unmapped (m : Mmu) (t : PtEntries) (va n : ℕ) : Prop :=
  ∀ x < n * pageSize, m.leafAt t (va + x) = none ∧ m.dscr.lvlTerm (m.look t (va + x)).1 = true

/-- One call of `mem_map` does not stop. It shows its pages if they are in one section. -/
theorem memMap_window (hclosed : m.Closed t) (hflags : m.fmt.FlagsOk flags)
    (hspan : c * pageSize ≤ m.dscr.shape.span) (hva : pageSize ∣ va)
    (hbase : pageSize ∣ base.toNat) (hfree : m.Unmapped t va c) :
    ∃ t' ok, m.memMap t (va % 2 ^ 64) base c flags = (t', some ok) ∧ m.KeepsOff t t' va c ∧
      ∀ x < c * pageSize, m.memTranslate t' (va + x) =
        if m.InSection (va % 2 ^ 64) c then
          some (BitVec.ofNat 64 ((base.toNat + x) % 2 ^ m.fmt.addrWidth))
        else none := by
  have hva' : pageSize ∣ va % 2 ^ 64 := pageSize_dvd_mod_two_pow.mpr hva
  have hfloor : pageFloor (va % 2 ^ 64) = va % 2 ^ 64 := Nat.div_mul_cancel hva'
  by_cases hsec : m.InSection (va % 2 ^ 64) c
  · have hsec' : m.InSection (pageFloor (va % 2 ^ 64)) c := by rwa [hfloor]
    obtain ⟨hres, hmapped⟩ := memMap_mapped base hclosed hflags hspan hsec'
    rw [hfloor] at hres hmapped
    have hlook := look_add_mod_two_pow hclosed va
    have hpage : ∀ i < 0 + c, i * pageSize < c * pageSize := fun i hi =>
      Nat.mul_lt_mul_of_pos_right (by omega) (by decide)
    have hdone := @mapEntries_done m t (va % 2 ^ 64) 0 c c base hclosed
      (fun i hi => by rw [pageVa, hlook]; exact (hfree _ (hpage i hi)).2) hva' hbase le_rfl
      fun i hi => by rw [leafAt_congr (hlook _)]; exact (hfree _ (hpage i hi)).1
    rw [hdone, if_pos rfl] at hres
    have hmod : ∀ b, (∀ x < c * pageSize,
        b % m.dscr.shape.span ≠ (va + x) % m.dscr.shape.span) →
          ∀ x < c * pageSize, b % m.dscr.shape.span ≠ (va % 2 ^ 64 + x) % m.dscr.shape.span := by
      intro b hb x hx
      rw [Nat.add_mod, Nat.mod_mod_of_dvd _ PtDscr.span_dvd_two_pow, ← Nat.add_mod]
      exact hb x hx
    refine ⟨_, true, Prod.ext rfl hres, ⟨hmapped.closed, fun b hb => ?_, fun b hb => ?_⟩,
      fun x hx => ?_⟩
    · exact hmapped.leafAt_of_ne (hmod b hb)
    · exact hmapped.term b (pos_ne_of_mod_ne (hmod b hb))
    · rw [if_pos hsec, ← memTranslate_add_mod_two_pow hmapped.closed, hmapped.memTranslate hdone hx]
  · have hcall := memMap_of_not_inSection (m := m) (t := t) base flags (by rwa [hfloor])
    refine ⟨t, false, hcall, ⟨hclosed, fun _ _ => rfl, fun _ _ => rfl⟩, fun x hx => ?_⟩
    rw [if_neg hsec, memTranslate_eq, (hfree x hx).1, Option.map_none]

/-- What a window shows at the pages of a call. -/
def shows (m ms : Mmu) (ts : PtEntries) (vas vad : ℕ) (e : ℕ × ℕ) (x : ℕ) : Option Addr :=
  if m.InSection (cpyVa vad e.1) e.2 then
    (ms.memTranslate ts (vas + e.1 * pageSize)).map fun pa =>
      BitVec.ofNat 64 ((pa.toNat + x) % 2 ^ m.fmt.addrWidth)
  else none

theorem KeepsOff.append (h : m.KeepsOff t t' (vad + k * pageSize) c)
    (h' : m.KeepsOff t' t'' (vad + (k + c) * pageSize) (left - c)) (hle : c ≤ left) :
    m.KeepsOff t t'' (vad + k * pageSize) left := by
  have hfirst : ∀ b, (∀ x < left * pageSize,
      b % m.dscr.shape.span ≠ (vad + k * pageSize + x) % m.dscr.shape.span) →
        ∀ x < c * pageSize,
          b % m.dscr.shape.span ≠ (vad + k * pageSize + x) % m.dscr.shape.span :=
    fun b hb x hx => hb x (hx.trans_le (Nat.mul_le_mul_right _ hle))
  have hrest : ∀ b, (∀ x < left * pageSize,
      b % m.dscr.shape.span ≠ (vad + k * pageSize + x) % m.dscr.shape.span) →
        ∀ x < (left - c) * pageSize,
          b % m.dscr.shape.span ≠ (vad + (k + c) * pageSize + x) % m.dscr.shape.span := by
    intro b hb x hx
    rw [Nat.sub_mul] at hx
    rw [Nat.add_mul, ← Nat.add_assoc, Nat.add_assoc _ _ x]
    exact hb _ (by omega)
  exact ⟨h'.closed, fun b hb => (h'.leafAt b (hrest b hb)).trans (h.leafAt b (hfirst b hb)),
    fun b hb => (h'.term b (hrest b hb)).trans (h.term b (hfirst b hb))⟩

/-- The loop ends, and the window shows what its calls make it show. -/
theorem memMapCpyLoop_spec (hws : ms.WellFormed ts) (hclosed : m.Closed t)
    (hvas : pageSize ∣ vas) (hvad : pageSize ∣ vad)
    (hspan : left * pageSize ≤ m.dscr.shape.span) (hfuel : left ≤ fuel)
    (hmapped : ∀ i, k ≤ i → i < k + left → (ms.leafAt ts (vas + i * pageSize)).isSome = true)
    (hfree : m.Unmapped t (vad + k * pageSize) left) :
    ∃ t', m.memMapCpyLoop ms ts vas vad fuel t k left = some t' ∧
      m.KeepsOff t t' (vad + k * pageSize) left ∧
        ∀ e ∈ ms.cpyChunks ts vas fuel k left, ∀ x < e.2 * pageSize,
          m.memTranslate t' (vad + e.1 * pageSize + x) = m.shows ms ts vas vad e x := by
  induction fuel generalizing t k left with
  | zero =>
      obtain rfl := Nat.le_zero.mp hfuel
      exact ⟨t, rfl, ⟨hclosed, fun _ _ => rfl, fun _ _ => rfl⟩, fun e he => by cases he⟩
  | succ fuel ih =>
      by_cases hleft : left = 0
      · rw [memMapCpyLoop, cpyChunks, if_pos hleft, if_pos hleft]
        exact ⟨t, rfl, ⟨hclosed, fun _ _ => rfl, fun _ _ => rfl⟩, fun e he => by cases he⟩
      · obtain ⟨e, hleaf⟩ := Option.isSome_iff_exists.mp (hmapped k le_rfl (by omega))
        have hlvl := cpyLvl_cpyVa hws hleaf
        have hpos := cpyPages_pos (m := ms) e.1 (Nat.pos_of_ne_zero hleft)
        have hle := cpyPages_le (m := ms) e.1 left
        have htranslate : ms.memTranslate ts (vas + k * pageSize) =
            some (ms.cpyAddr ts e.1 (cpyVa vas k)) := by
          rw [← leafAt_congr (look_mod_two_pow hws.closed (vas + k * pageSize))] at hleaf
          rw [← memTranslate_eq_cpyAddr hws hleaf]
          exact (memTranslate_add_mod_two_pow hws.closed _ 0).symm
        rw [memMapCpyLoop, cpyChunks, if_neg hleft, if_neg hleft, hlvl, Option.bind_some]
        dsimp only
        obtain ⟨c, hc⟩ : ∃ c, c = ms.cpyPages e.1 left := ⟨_, rfl⟩
        rw [← hc] at hpos hle ⊢
        have hmul := Nat.mul_le_mul_right pageSize hle
        obtain ⟨t₁, ok, hcall, hkeeps, hshows⟩ := memMap_window hclosed m.fmt.hypFlags_ok
          (hmul.trans hspan) (Nat.dvd_add hvad (Nat.dvd_mul_left _ k))
          (pageSize_dvd_memTranslate hws (Nat.dvd_add hvas (Nat.dvd_mul_left _ k)) htranslate)
          fun x hx => hfree x (hx.trans_le hmul)
        rw [hcall]
        dsimp only
        rw [Option.bind_some]
        have hbehind : ∀ x < (left - c) * pageSize, ∀ y < c * pageSize,
            (vad + (k + c) * pageSize + x) % m.dscr.shape.span ≠
              (vad + k * pageSize + y) % m.dscr.shape.span := by
          intro x hx y hy
          rw [Nat.sub_mul] at hx
          rw [Nat.add_mul]
          exact (Radix.mod_ne_of_lt (by omega) (by omega)).symm
        obtain ⟨t', hloop, hkeeps', hshows'⟩ := @ih t₁ (k + c) (left - c) hkeeps.closed
          (by rw [Nat.sub_mul]; omega) (by omega)
          (fun i hi hi' => hmapped i (by omega) (by omega))
          fun x hx => by
            have hb := hbehind x hx
            rw [hkeeps.leafAt _ hb, hkeeps.term _ hb, Nat.add_mul, ← Nat.add_assoc,
              Nat.add_assoc _ _ x]
            rw [Nat.sub_mul] at hx
            exact hfree _ (by omega)
        refine ⟨t', hloop, hkeeps.append hkeeps' hle, fun e' he' x hx => ?_⟩
        rcases List.mem_cons.mp he' with rfl | he'
        · rw [shows, htranslate, Option.map_some, ← hshows x hx, memTranslate_eq, memTranslate_eq,
            hkeeps'.leafAt]
          exact fun y hy => (hbehind y hy x hx).symm
        · exact hshows' e' he' x hx

/-- A window for pages that are all mapped, at an address that was reserved: it shows them iff each
call has its range in one section and physical pages that follow each other. -/
theorem memMapCpy_aliases_iff {rounds v : ℕ} {at' : Option ℕ} {sec : VaSection} {t₁ : PtEntries}
    (hws : ms.WellFormed ts) (hwf : m.WellFormed t) (hn : 0 < n)
    (hspan : n * pageSize ≤ m.dscr.shape.span) (hsec : m.sections[secHypGlobal]? = some sec)
    (hlast : sec.last ≤ maxVa) (hvas : pageSize ∣ vas)
    (hmapped : ∀ i < n, (ms.memTranslate ts (vas + i * pageSize)).isSome = true)
    (halloc : m.memAllocVpage n rounds t secHypGlobal at' = some (t₁, some v)) :
    ∃ t', m.memMapCpy ms ts rounds t vas at' n = some (t', some v) ∧
      (m.Aliases ms ts t t' vas v n ↔ ∀ e ∈ ms.cpyChunks ts vas n 0 n,
        m.InSection (cpyVa v e.1) e.2 ∧
          ms.PagesFollow ts m.fmt.addrWidth (vas + e.1 * pageSize) e.2) := by
  obtain ⟨-, -, -, -, -, hreserves⟩ :=
    (memAllocVpage_eq_some_iff hwf.closed hwf.table hspan hn hsec hlast).mp halloc
  have hleaf : ∀ i < n, (ms.leafAt ts (vas + i * pageSize)).isSome = true := fun i hi => by
    rw [← isSome_memTranslate]
    exact hmapped i hi
  have hv : v + 0 * pageSize = v := by rw [Nat.zero_mul, Nat.add_zero]
  obtain ⟨t', hloop, hkeeps, hshows⟩ := @memMapCpyLoop_spec m ms t₁ ts vas v 0 n n hws
    hreserves.closed hvas (pageSize_dvd_memAllocVpage hwf.closed hwf.table hspan hn hsec hlast
    halloc) hspan le_rfl (fun i _ hi => hleaf i (by omega)) fun x hx => by
      rw [hv, hreserves.leafAt]
      exact ⟨(hreserves.free x hx).leafAt, hreserves.term x hx⟩
  rw [hv] at hkeeps
  have hshown : ∀ e ∈ ms.cpyChunks ts vas n 0 n, ∀ i < e.2,
      m.memTranslate t' (v + (e.1 + i) * pageSize) = m.shows ms ts vas v e (i * pageSize) := by
    intro e he i hi
    rw [← hshows e he _ (Nat.mul_lt_mul_of_pos_right hi (by decide)), Nat.add_mul, Nat.add_assoc]
  refine ⟨t', by rw [memMapCpy, halloc, Option.bind_some]; exact congrArg (Option.map _) hloop, ?_⟩
  constructor
  · intro h e he
    obtain ⟨-, hpos, hend⟩ := mem_cpyChunks he
    have hsame : ∀ i < e.2, ms.memTranslate ts (vas + (e.1 + i) * pageSize) =
        m.shows ms ts vas v e (i * pageSize) := fun i hi => by
      rw [← h.same (e.1 + i) (by omega), hshown e he i hi]
    have hin : m.InSection (cpyVa v e.1) e.2 := by
      by_contra hnot
      have hfirst := hsame 0 hpos
      rw [shows, if_neg hnot] at hfirst
      have hsome := hmapped (e.1 + 0) (by omega)
      rw [hfirst] at hsome
      cases hsome
    refine ⟨hin, fun i hi => ?_⟩
    rw [Nat.add_assoc, ← Nat.add_mul, hsame i hi, shows, if_pos hin]
  · intro h
    refine ⟨fun i hi => ?_, fun a ha => ?_⟩
    · obtain ⟨e, he, hge, hlt⟩ := @exists_mem_cpyChunks ms ts vas 0 n n hws
        (fun j _ hj => hleaf j (by omega)) le_rfl i (Nat.zero_le i) (by omega)
      obtain ⟨hin, hfollow⟩ := h e he
      obtain ⟨j, rfl⟩ := Nat.exists_eq_add_of_le hge
      have hj : j < e.2 := by omega
      rw [hshown e he j hj, shows, if_pos hin, Nat.add_mul, ← Nat.add_assoc, hfollow j hj]
    · rw [memTranslate_eq, memTranslate_eq, hkeeps.leafAt a ha, hreserves.leafAt]

end Window

end Mmu

/-- The tables of a VM with two superpages one behind the other, of different memory. -/
def apartSuperpages : PtEntries := fun lvl k =>
  if lvl = 0 ∧ k = 0 then Riscv.pteSet 0x90000000#64 .table Riscv.pteHypFlags
  else if lvl = 1 ∧ k = 1 then Riscv.pteSet 0x80200000#64 .superpage Riscv.pteVmFlags
  else if lvl = 1 ∧ k = 2 then Riscv.pteSet 0x80800000#64 .superpage Riscv.pteVmFlags
  else 0#64

theorem wellFormed_apartSuperpages : someVmMmu.WellFormed apartSuperpages := by
  refine wellFormed_of_superpages (by decide) (by decide) (by decide) rfl fun lvl k h => ?_
  rw [apartSuperpages] at h
  split_ifs at h with hroot hfirst hsecond
  · exact .inl hroot
  · obtain ⟨rfl, rfl⟩ := hfirst
    exact .inr (by decide)
  · obtain ⟨rfl, rfl⟩ := hsecond
    exact .inr (by decide)
  · cases h

def windowMmu : Mmu :=
  Riscv.hypMmu [⟨0x100000, 0x10ffff⟩]
    fun lvl k => BitVec.ofNat 64 (0xb0000000 + (2048 * lvl + k) * pageSize)

theorem memMapCpy_aliases_iff_one_superpage :
    ∃ t', windowMmu.memMapCpy someVmMmu apartSuperpages 6 emptyTables 0x201000 none 2 =
        some (t', some 0x100000) ∧
      windowMmu.Aliases someVmMmu apartSuperpages emptyTables t' 0x201000 0x100000 2 := by
  have halloc : (windowMmu.memAllocVpage 2 6 emptyTables secHypGlobal none).map Prod.snd =
      some (some 0x100000) := by decide +kernel
  obtain ⟨⟨t₁, address⟩, halloc, rfl⟩ := Option.map_eq_some_iff.mp halloc
  have hvas : pageSize ∣ 0x201000 := by decide
  obtain ⟨t', hcall, hiff⟩ := Mmu.memMapCpy_aliases_iff wellFormed_apartSuperpages
    (Mmu.wellFormed_emptyTables _) (by decide) (by decide) rfl (by decide) hvas
    (by decide +kernel) halloc
  refine ⟨t', hcall, hiff.mpr fun e he => ?_⟩
  rw [show someVmMmu.cpyChunks apartSuperpages 0x201000 2 0 2 = [(0, 2)] by decide +kernel] at he
  rw [List.mem_singleton.mp he]
  exact ⟨by decide +kernel, by unfold Mmu.PagesFollow; decide +kernel⟩

/-- A window on the last page of a superpage and the first one of the next shows the memory behind
the former. -/
theorem not_aliases_two_superpages :
    someVmMmu.WellFormed apartSuperpages ∧ windowMmu.WellFormed emptyTables ∧
      someVmMmu.memTranslate apartSuperpages 0x3ff000 = some 0x803ff000#64 ∧
      someVmMmu.memTranslate apartSuperpages 0x400000 = some 0x80800000#64 ∧
      ∃ t', windowMmu.memMapCpy someVmMmu apartSuperpages 6 emptyTables 0x3ff000 none 2 =
          some (t', some 0x100000) ∧
        windowMmu.memTranslate t' 0x101000 = some 0x80400000#64 ∧
        ¬ windowMmu.Aliases someVmMmu apartSuperpages emptyTables t' 0x3ff000 0x100000 2 := by
  have hcall : (windowMmu.memMapCpy someVmMmu apartSuperpages 6 emptyTables 0x3ff000 none 2).map
      (fun r => (r.2, windowMmu.memTranslate r.1 0x101000)) =
        some (some 0x100000, some 0x80400000#64) := by decide +kernel
  obtain ⟨⟨t', address⟩, hcall, heq⟩ := Option.map_eq_some_iff.mp hcall
  rw [Prod.mk.injEq] at heq
  obtain ⟨rfl, hshown⟩ := heq
  have hsource : someVmMmu.memTranslate apartSuperpages 0x400000 = some 0x80800000#64 := by
    decide +kernel
  refine ⟨wellFormed_apartSuperpages, Mmu.wellFormed_emptyTables _, by decide +kernel, hsource, t',
    hcall, hshown, fun h => ?_⟩
  have hsame := h.same 1 (by decide)
  rw [show 0x100000 + 1 * pageSize = 0x101000 from rfl, hshown,
    show 0x3ff000 + 1 * pageSize = 0x400000 from rfl, hsource] at hsame
  exact absurd hsame (by decide)

end BaoHypervisor
