import BaoHypervisor.Core.Mem.PageTable.AllocSound
import BaoHypervisor.Core.Mem.PageTable.Expand
import BaoHypervisor.Core.Mem.Pools

/-!
# Mapping any pages

`mem_map` for any pages: those it is given, with or without colours, and those that it allocates
when it is given none. Pages without colours are allocated entry by entry, and a superpage for
which no pool has memory is split.

Whatever pages it maps, a call that returns has mapped its range, and other addresses find the
leaf that they found before (`Backs`).
-/

namespace BaoHypervisor

namespace Mmu

variable (m : Mmu) (c : Coloring) (colors : ColorMap)

/-- The loop of `mem_inflate_pt` over the entries of one level. -/
def inflateLvl (lvl : ℕ) : ℕ → PtEntries → ℕ → PtEntries
  | 0, t, _ => t
  | k + 1, t, va => inflateLvl lvl k (m.memExpandPte t lvl va) (va + m.dscr.ptLvlsize lvl)

def memInflatePt (t : PtEntries) (va length : ℕ) : PtEntries :=
  (List.range (m.dscr.lvls - 1)).foldl (fun t lvl =>
    m.inflateLvl lvl ((length + m.dscr.ptLvlsize lvl - 1) / m.dscr.ptLvlsize lvl) t va) t

/-- The loop of `mem_map` over coloured pages. It says whether it finds an entry for each. -/
def memMapClrLoop (ppages : PPages) (flags : Pte) :
    ℕ → PtEntries → ℕ → ℕ → PtEntries × Bool
  | 0, t, _, _ => (t, true)
  | k + 1, t, va, index =>
      match m.ptGetPte t (m.dscr.lvls - 1) va with
      | none => (t, false)
      | some _ =>
          let index' := c.ppNextClr ppages.base index ppages.colors
          memMapClrLoop ppages flags k
            (m.setPte t (m.dscr.lvls - 1) va
              (m.fmt.pteSet (pageAddr ppages.base index') .page flags))
            (va + pageSize) (index' + 1)

/-- The entries of one table that `mem_map` writes with pages it allocates, with the entries that
the table has left. There is no result in `ERROR`. -/
def memMapFreshRun (flags : Pte) (lvl : ℕ) :
    ℕ → PtEntries → List PagePool → ℕ → ℕ → Option (PtEntries × List PagePool × ℕ × ℕ)
  | 0, t, pools, va, left => some (t, pools, va, left)
  | n + 1, t, pools, va, left =>
      if 0 < left ∧ m.dscr.lvlPages lvl ≤ left then
        let size := BitVec.ofNat 64 (m.dscr.lvlPages lvl)
        let temp := memAllocPpages c colors size true pools
        if temp.1.numPages < size then
          if m.isLast lvl then none
          else if m.fmt.pteValid (m.pteAt t lvl va) then some (t, temp.2, va, left)
          else some (m.memAllocPt t lvl va, temp.2, va, left)
        else
          memMapFreshRun flags lvl n
            (m.setPte t lvl va (m.fmt.pteSet temp.1.base (m.ptPageType lvl) flags)) temp.2
            (va + m.dscr.ptLvlsize lvl) (left - m.dscr.lvlPages lvl)
      else some (t, pools, va, left)

/-- The loop of `mem_map` over the tables, for pages it allocates. A round may end without a page,
so the loop has rounds of its own; there is no result in `ERROR` or after them. -/
def memMapFreshLoop (flags : Pte) :
    ℕ → PtEntries → List PagePool → ℕ → ℕ → Option (PtEntries × List PagePool)
  | 0, _, _, _, _ => none
  | rounds + 1, t, pools, va, left =>
      if left = 0 then some (t, pools)
      else
        match m.memMapLvl left va 0#64 m.dscr.lvls 0 t with
        | (_, none) => none
        | (t', some lvl) =>
            (m.memMapFreshRun c colors flags lvl
              (m.dscr.ptNentries lvl - m.dscr.ptGetpteindexByVa va lvl) t' pools va left).bind
              fun (t'', pools', va', left') =>
                memMapFreshLoop flags rounds t'' pools' va' left'

/-- The branches of `mem_map` for pages that it is given. -/
def memMapGiven (t : PtEntries) (va : ℕ) (ppages : PPages) (n : ℕ) (flags : Pte) :
    PtEntries × Bool :=
  if !c.allClrs ppages.colors then
    m.memMapClrLoop c ppages flags ppages.numPages.toNat (m.memInflatePt t va (n * pageSize)) va 0
  else m.memMapLoop flags n t va ppages.base n

instance (vaddr n : ℕ) : Decidable (m.InSection vaddr n) := inferInstanceAs (Decidable (_ ∧ _))

/-- `mem_map` in an address space with the colours `colors`. There is no page for `NULL`, and no
result where the call stops. -/
def memMapPages (rounds : ℕ) (t : PtEntries) (pools : List PagePool) (va : ℕ)
    (page : Option PPages) (n : ℕ) (flags : Pte) : Option (PtEntries × List PagePool × Bool) :=
  let vaddr := pageFloor va
  if m.InSection vaddr n then
    match page with
    | some ppages =>
        let (t', done) := m.memMapGiven c t vaddr ppages n flags
        if done then some (t', pools, true) else none
    | none =>
        if c.allClrs colors then
          (m.memMapFreshLoop c colors flags rounds t pools vaddr n).map
            fun (t', pools') => (t', pools', true)
        else
          let temp := memAllocPpages c colors (BitVec.ofNat 64 n) false pools
          if temp.1.numPages.toNat < n then none
          else
            let (t', done) := m.memMapGiven c t vaddr temp.1 n flags
            if done then some (t', temp.2, true) else none
  else some (t, pools, false)

/-- `mem_alloc_map`, with the address it returns. -/
def memAllocMap (rounds : ℕ) (t : PtEntries) (pools : List PagePool) (sectionIdx : ℕ)
    (page : Option PPages) (at' : Option ℕ) (n : ℕ) (flags : Pte) :
    Option (PtEntries × List PagePool × Option ℕ) :=
  (m.memAllocVpage n rounds t sectionIdx at').bind fun (t', address) =>
    match address with
    | none => some (t', pools, none)
    | some va =>
        (m.memMapPages c colors rounds t' pools va page n flags).map
          fun (t'', pools', _) => (t'', pools', some va)

/-! ## What a call leaves behind -/

/-- The pages from `va` on are those from `base` on, as far as entries have room for their
addresses, in aligned entries. -/
structure ShowsFrom (m : Mmu) (t : PtEntries) (va : ℕ) (base : Addr) (n : ℕ) : Prop where
  translate : ∀ x < n * pageSize,
    m.memTranslate t (va + x) = some (BitVec.ofNat 64 ((base.toNat + x) % 2 ^ m.fmt.addrWidth))
  aligned : ∀ x < n * pageSize, ∀ e, m.leafAt t (va + x) = some e →
    m.dscr.ptLvlsize e.1 ∣ (m.fmt.pteAddr e.2).toNat

/-- The pages from `va` on are mapped in the tables `t'`, and other addresses find the leaf and the
mark that they found in the tables `t`. -/
structure Backs (m : Mmu) (t t' : PtEntries) (va n : ℕ) : Prop where
  closed : m.Closed t'
  unmarked : m.Unmarked t'
  backed : ∀ x < n * pageSize, (m.leafAt t' (va + x)).isSome = true
  page : ∀ x < n * pageSize, ∀ e, m.leafAt t' (va + x) = some e →
    pageSize ∣ (m.fmt.pteAddr e.2).toNat
  frame : ∀ b, (∀ x < n * pageSize, b % m.dscr.shape.span ≠ (va + x) % m.dscr.shape.span) →
    m.leafAt t' b = m.leafAt t b
  reserved : ∀ b, (∀ x < n * pageSize, b % m.dscr.shape.span ≠ (va + x) % m.dscr.shape.span) →
    m.isReserved t' b = m.isReserved t b

variable {m c colors} {t t' t'' : PtEntries} {pools pools' : List PagePool}
  {lvl va va' n k left left' rounds : ℕ} {base : Addr} {pte flags : Pte} {ppages : PPages}

theorem ShowsFrom.translate_of_le (h : m.ShowsFrom t va base n)
    (hroom : base.toNat + n * pageSize ≤ 2 ^ m.fmt.addrWidth) {x : ℕ} (hx : x < n * pageSize) :
    m.memTranslate t (va + x) = some (base + BitVec.ofNat 64 x) := by
  rw [h.translate x hx, Nat.mod_eq_of_lt (by omega), BitVec.ofNat_add, BitVec.ofNat_toNat,
    BitVec.setWidth_eq]

theorem Backs.of_leafAt (hclosed : m.Closed t') (hmark : m.Unmarked t')
    (hleaf : ∀ b, m.leafAt t' b = m.leafAt t b)
    (hres : ∀ b, m.isReserved t' b = m.isReserved t b) (va : ℕ) : m.Backs t t' va 0 :=
  ⟨hclosed, hmark, fun x hx => absurd hx (by rw [Nat.zero_mul]; exact Nat.not_lt_zero x),
    fun x hx => absurd hx (by rw [Nat.zero_mul]; exact Nat.not_lt_zero x), fun b _ => hleaf b,
    fun b _ => hres b⟩

/-- One range behind the other. -/
theorem Backs.append (h : m.Backs t t' va n) (h' : m.Backs t' t'' (va + n * pageSize) k)
    (hspan : (n + k) * pageSize ≤ m.dscr.shape.span) : m.Backs t t'' va (n + k) := by
  rw [Nat.add_mul] at hspan
  have hfirst : ∀ x < n * pageSize, m.leafAt t'' (va + x) = m.leafAt t' (va + x) := fun x hx =>
    h'.frame _ fun y hy => Radix.mod_ne_of_lt (by omega) (by omega)
  have hoff : ∀ {b}, (∀ x < (n + k) * pageSize,
      b % m.dscr.shape.span ≠ (va + x) % m.dscr.shape.span) →
      (∀ x < n * pageSize, b % m.dscr.shape.span ≠ (va + x) % m.dscr.shape.span) ∧
        ∀ y < k * pageSize,
          b % m.dscr.shape.span ≠ (va + n * pageSize + y) % m.dscr.shape.span := by
    intro b hb
    rw [Nat.add_mul] at hb
    refine ⟨fun x hx => hb x (hx.trans_le (Nat.le_add_right _ _)), fun y hy => ?_⟩
    rw [Nat.add_assoc]
    exact hb _ (Nat.add_lt_add_left hy _)
  refine ⟨h'.closed, h'.unmarked, fun x hx => ?_, fun x hx => ?_, fun b hb => ?_, fun b hb => ?_⟩
  · rw [Nat.add_mul] at hx
    by_cases hlt : x < n * pageSize
    · rw [hfirst x hlt]
      exact h.backed x hlt
    · obtain ⟨y, rfl⟩ := Nat.exists_eq_add_of_le (Nat.not_lt.mp hlt)
      rw [← Nat.add_assoc]
      exact h'.backed y (Nat.lt_of_add_lt_add_left hx)
  · rw [Nat.add_mul] at hx
    by_cases hlt : x < n * pageSize
    · rw [hfirst x hlt]
      exact h.page x hlt
    · obtain ⟨y, rfl⟩ := Nat.exists_eq_add_of_le (Nat.not_lt.mp hlt)
      rw [← Nat.add_assoc]
      exact h'.page y (Nat.lt_of_add_lt_add_left hx)
  · rw [h'.frame b (hoff hb).2, h.frame b (hoff hb).1]
  · rw [h'.reserved b (hoff hb).2, h.reserved b (hoff hb).1]

theorem Backs.of_leafAt_trans (h : m.Backs t' t'' va n)
    (hleaf : ∀ b, m.leafAt t' b = m.leafAt t b)
    (hres : ∀ b, (∀ x < n * pageSize, b % m.dscr.shape.span ≠ (va + x) % m.dscr.shape.span) →
      m.isReserved t' b = m.isReserved t b) : m.Backs t t'' va n :=
  ⟨h.closed, h.unmarked, h.backed, h.page, fun b hb => (h.frame b hb).trans (hleaf b),
    fun b hb => (h.reserved b hb).trans (hres b hb)⟩

/-- An entry that is written backs its pages. -/
theorem backs_setPte (hclosed : m.Closed t) (hmark : m.Unmarked t) (hlvl : lvl < m.dscr.lvls)
    (hpath : m.Path t lvl va) (hdvd : m.dscr.ptLvlsize lvl ∣ va)
    (htable : m.fmt.pteTable (m.isLast lvl) pte = false) (hvalid : m.fmt.pteValid pte = true)
    (hpage : pageSize ∣ (m.fmt.pteAddr pte).toNat) :
    m.Backs t (m.setPte t lvl va pte) va (m.dscr.lvlPages lvl) := by
  have hlook := look_setPte hclosed hlvl hpath htable
  have hat : ∀ x < m.dscr.lvlPages lvl * pageSize,
      m.look (m.setPte t lvl va pte) (va + x) = (lvl, pte) := by
    intro x hx
    rw [PtDscr.lvlPages_mul hlvl] at hx
    rw [hlook, if_pos (Radix.Shape.pos_add hdvd hx)]
  have hother : ∀ b, (∀ x < m.dscr.lvlPages lvl * pageSize,
      b % m.dscr.shape.span ≠ (va + x) % m.dscr.shape.span) →
      m.look (m.setPte t lvl va pte) b = m.look t b := by
    intro b hb
    rw [hlook, if_neg]
    intro hpos
    obtain ⟨x, hx, hmod⟩ := (Radix.Shape.pos_eq_iff (g := m.dscr.shape) hlvl hdvd).mp hpos
    exact hb x (by rwa [PtDscr.lvlPages_mul hlvl]) hmod
  refine ⟨closed_setPte hclosed hlvl hpath htable, hmark.setPte htable, fun x hx => ?_,
    fun x hx e he => ?_, fun b hb => leafAt_congr (hother b hb),
    fun b hb => isReserved_congr (hother b hb)⟩
  · rw [isSome_leafAt, hat x hx, hvalid]
  · obtain ⟨hlook', -⟩ := leafAt_eq_some_iff.mp he
    rw [← hlook', hat x hx]
    exact hpage

/-! ## Pages that are allocated -/

theorem unmarked_memMapLvl (hmark : m.Unmarked t) (hn : lvl + n = m.dscr.lvls) (left va : ℕ)
    (pa : Addr) : m.Unmarked (m.memMapLvl left va pa n lvl t).1 := by
  induction n generalizing lvl t with
  | zero =>
      rw [memMapLvl]
      exact hmark
  | succ n ih =>
      rw [memMapLvl]
      cases m.ptGetPte t lvl va with
      | none => exact hmark
      | some pte =>
          dsimp only
          have hnext : m.Unmarked (m.memMapLvl left va pa n (lvl + 1) t).1 := ih hmark (by omega)
          split_ifs with _ _ _ hlast
          · exact hmark
          · exact hmark
          · rw [isLast, beq_iff_eq] at hlast
            exact ih (hmark.memAllocPt (by omega)) (by omega)
          · exact hmark
          · exact hnext
          · exact hnext

theorem path_next (hlvl : lvl < m.dscr.lvls) {pte : Pte}
    (hpath : ∀ j < n + 1, m.Path t lvl (va + j * m.dscr.ptLvlsize lvl)) :
    ∀ j < n, m.Path (m.setPte t lvl va pte) lvl
      (va + m.dscr.ptLvlsize lvl + j * m.dscr.ptLvlsize lvl) := by
  intro j hj
  rw [path_iff_of_agreeOff (agreeOff_setPte t lvl va pte) hlvl le_rfl]
  have hstep := hpath (j + 1) (Nat.succ_lt_succ hj)
  rwa [Nat.succ_mul, Nat.add_comm (j * _), ← Nat.add_assoc] at hstep

theorem path_first (hpath : ∀ j < n + 1, m.Path t lvl (va + j * m.dscr.ptLvlsize lvl)) :
    m.Path t lvl va := by
  simpa using hpath 0 (Nat.succ_pos n)

/-- The entries of a run back the pages that it comes past. -/
theorem memMapFreshRun_backs (hclosed : m.Closed t) (hmark : m.Unmarked t)
    (hlvl : lvl < m.dscr.lvls) (hflags : m.fmt.FlagsOk flags) (hdvd : m.dscr.ptLvlsize lvl ∣ va)
    (hpath : ∀ j < n, m.Path t lvl (va + j * m.dscr.ptLvlsize lvl))
    (hspan : left * pageSize ≤ m.dscr.shape.span)
    (h : m.memMapFreshRun c colors flags lvl n t pools va left = some (t', pools', va', left')) :
    ∃ k, k + left' = left ∧ va' = va + k * pageSize ∧ m.Backs t t' va k := by
  have hstop : m.Backs t t va 0 := Backs.of_leafAt hclosed hmark (fun _ => rfl) (fun _ => rfl) va
  have hhere : va = va + 0 * pageSize := by rw [Nat.zero_mul, Nat.add_zero]
  induction n generalizing t pools va left with
  | zero =>
      cases h
      exact ⟨0, Nat.zero_add _, hhere, hstop⟩
  | succ n ih =>
      rw [memMapFreshRun] at h
      dsimp only at h
      have hpath0 := path_first hpath
      split_ifs at h with hleft hfew hlast hvalid
      · cases h
        exact ⟨0, Nat.zero_add _, hhere, hstop⟩
      · -- the entry is split for lack of a superpage
        rw [isLast, beq_iff_eq] at hlast
        rw [Bool.not_eq_true] at hvalid
        have hlvl' : lvl + 1 < m.dscr.lvls := by omega
        cases h
        exact ⟨0, Nat.zero_add _, hhere, Backs.of_leafAt (closed_memAllocPt hclosed hlvl' hpath0)
          (hmark.memAllocPt hlvl') (leafAt_memAllocPt hclosed hlvl' hpath0 hvalid)
          (isReserved_memAllocPt hclosed hlvl' hpath0 hvalid) _⟩
      · obtain ⟨word, hword⟩ : ∃ word, word = m.fmt.pteSet
            (memAllocPpages c colors (BitVec.ofNat 64 (m.dscr.lvlPages lvl)) true pools).1.base
            (m.ptPageType lvl) flags := ⟨_, rfl⟩
        have htable : m.fmt.pteTable (m.isLast lvl) word = false := by
          rw [hword]
          exact m.fmt.pteTable_of_ptePage _ _ (m.fmt.ptePage_pteSet _ _ _ hflags)
        have hvalid : m.fmt.pteValid word = true := by
          rw [hword]
          exact m.fmt.pteValid_pteSet _ _ _
        have hpage : pageSize ∣ (m.fmt.pteAddr word).toNat := by
          rw [hword, m.fmt.toNat_pteAddr_pteSet]
          exact Nat.dvd_mul_left _ _
        have hfirst := backs_setPte hclosed hmark hlvl hpath0 hdvd htable hvalid hpage
        have hsize := PtDscr.lvlPages_mul hlvl
        rw [← hword] at h
        obtain ⟨k, hk, hva, hrest⟩ := ih hfirst.closed hfirst.unmarked
          (Nat.dvd_add hdvd dvd_rfl) (path_next hlvl hpath)
          ((Nat.mul_le_mul_right _ (Nat.sub_le _ _)).trans hspan) h
          (Backs.of_leafAt hfirst.closed hfirst.unmarked (fun _ => rfl) (fun _ => rfl) _)
          (by rw [Nat.zero_mul, Nat.add_zero])
        rw [← hsize] at hva hrest
        refine ⟨m.dscr.lvlPages lvl + k, by omega, ?_, hfirst.append hrest ?_⟩
        · rw [hva, Nat.add_mul, Nat.add_assoc]
        · exact (Nat.mul_le_mul_right _ (by omega)).trans hspan
      · cases h
        exact ⟨0, Nat.zero_add _, hhere, hstop⟩

/-- A call that allocates its pages backs them all. -/
theorem memMapFreshLoop_backs (hclosed : m.Closed t) (hmark : m.Unmarked t)
    (hflags : m.fmt.FlagsOk flags) (hspan : left * pageSize ≤ m.dscr.shape.span)
    (h : m.memMapFreshLoop c colors flags rounds t pools va left = some (t', pools')) :
    m.Backs t t' va left := by
  induction rounds generalizing t pools va left with
  | zero => cases h
  | succ rounds ih =>
      rw [memMapFreshLoop] at h
      by_cases hleft : left = 0
      · rw [if_pos hleft] at h
        cases h
        rw [hleft]
        exact Backs.of_leafAt hclosed hmark (fun _ => rfl) (fun _ => rfl) va
      · rw [if_neg hleft] at h
        obtain ⟨hgrown, hres, hfound⟩ := memMapLvl_spec left 0#64
          hclosed (Nat.zero_add _) (Radix.path_zero va)
        rw [← mapLvl] at hres
        have hmark' := unmarked_memMapLvl hmark (Nat.zero_add _) left va 0#64
        obtain ⟨t₁, lvl', hcall⟩ : ∃ t₁ lvl',
            m.memMapLvl left va 0#64 m.dscr.lvls 0 t = (t₁, lvl') := ⟨_, _, rfl⟩
        rw [hcall] at h hgrown hres hfound hmark'
        cases lvl' with
        | none => cases h
        | some lvl =>
            obtain ⟨hlvl, -, -, -, hfits⟩ := mapLvl_eq_some hres.symm
            obtain ⟨-, hdvd, -⟩ := fits_iff.mp hfits
            obtain ⟨hpath, -⟩ := hfound lvl rfl
            obtain ⟨⟨t₂, pools₂, va₂, left₂⟩, hrun, hrest⟩ := Option.bind_eq_some_iff.mp h
            obtain ⟨k, hk, hva, hbacks⟩ := memMapFreshRun_backs hgrown.closed hmark' hlvl hflags
              hdvd (fun _ => path_of_index hlvl hdvd hpath) hspan hrun
            have hle := Nat.mul_le_mul_right pageSize (Nat.le_of_add_left_le hk.le)
            have htail := ih hbacks.closed hbacks.unmarked (hle.trans hspan) hrest
            rw [hva] at htail
            rw [← hk] at hspan ⊢
            exact (hbacks.of_leafAt_trans hgrown.leafAt fun b _ => hgrown.reserved b).append htail
              hspan

/-! ## Pages that are given -/

theorem unmarked_memMapRun (hmark : m.Unmarked t) (hflags : m.fmt.FlagsOk flags) (lvl n va : ℕ)
    (pa : Addr) (left : ℕ) : m.Unmarked (m.memMapRun flags lvl n t va pa left).1 := by
  induction n generalizing t va pa left with
  | zero => exact hmark
  | succ n ih =>
      rw [memMapRun]
      split_ifs
      · refine ih (hmark.setPte ?_) _ _ _
        exact m.fmt.pteTable_of_ptePage _ _ (m.fmt.ptePage_pteSet _ _ _ hflags)
      · exact hmark

theorem unmarked_memMapLoop (hmark : m.Unmarked t) (hflags : m.fmt.FlagsOk flags) (fuel va : ℕ)
    (pa : Addr) (left : ℕ) : m.Unmarked (m.memMapLoop flags fuel t va pa left).1 := by
  induction fuel generalizing t va pa left with
  | zero => exact hmark
  | succ fuel ih =>
      rw [memMapLoop]
      split_ifs
      · exact hmark
      · have hlvl := unmarked_memMapLvl hmark (Nat.zero_add _) left va pa
        obtain ⟨t₁, lvl', hcall⟩ : ∃ t₁ lvl',
            m.memMapLvl left va pa m.dscr.lvls 0 t = (t₁, lvl') := ⟨_, _, rfl⟩
        rw [hcall] at hlvl ⊢
        cases lvl' with
        | none => exact hlvl
        | some lvl => exact ih (unmarked_memMapRun hlvl hflags lvl _ va pa left) _ _ _

theorem Mapped.backs (hmark : m.Unmarked t') (hdone : (m.mapEntries t va base n 0 n).2 = true)
    (h : m.Mapped t t' va base flags (m.mapEntries t va base n 0 n).1) :
    m.Backs t t' va n := by
  refine ⟨h.closed, hmark, fun x hx => ?_, fun x hx e he => ?_, fun b hb => h.leafAt_of_ne hb,
    fun b hb => h.reserved b (pos_ne_of_mod_ne hb)⟩
  · obtain ⟨e, -, -, -, hleaf⟩ := h.exists_entry hdone hx
    rw [hleaf, Option.isSome_some]
  · have hlvl : e.1 < m.dscr.lvls := by
      rw [← (leafAt_eq_some_iff.mp he).1]
      exact look_fst_lt h.closed _
    exact (PtDscr.pageSize_dvd_ptLvlsize hlvl).trans (h.dvd_leaf hdone hx he)

theorem closed_memExpandPte_any (hclosed : m.Closed t) (lvl va : ℕ) :
    m.Closed (m.memExpandPte t lvl va) := by
  by_cases h : lvl + 1 < m.dscr.lvls ∧ m.Stops t lvl va
  · obtain ⟨hlvl, hstops⟩ := h
    exact closed_memExpandPte hclosed hlvl hstops.path hstops.not_table
  · rwa [memExpandPte_of_not_stops h]

theorem closed_inflateLvl (hclosed : m.Closed t) (lvl k va : ℕ) :
    m.Closed (m.inflateLvl lvl k t va) := by
  induction k generalizing t va with
  | zero => exact hclosed
  | succ k ih => exact ih (closed_memExpandPte_any hclosed lvl va) _

theorem closed_memInflatePt (hclosed : m.Closed t) (va length : ℕ) :
    m.Closed (m.memInflatePt t va length) := by
  rw [memInflatePt]
  induction List.range (m.dscr.lvls - 1) generalizing t with
  | nil => exact hclosed
  | cons lvl lvls ih => exact ih (closed_inflateLvl hclosed lvl _ va)

/-- Coloured pages are mapped one by one, and nothing that is mapped goes. -/
theorem memMapClrLoop_maps (hclosed : m.Closed t) (hflags : m.fmt.FlagsOk flags)
    (hva : pageSize ∣ va) {index : ℕ}
    (h : m.memMapClrLoop c ppages flags k t va index = (t', true)) :
    (∀ x < k * pageSize, (m.leafAt t' (va + x)).isSome = true) ∧
      ∀ b, (m.leafAt t b).isSome = true → (m.leafAt t' b).isSome = true := by
  induction k generalizing t va index with
  | zero =>
      cases h
      exact ⟨fun x hx => absurd hx (by rw [Nat.zero_mul]; exact Nat.not_lt_zero x), fun _ => id⟩
  | succ k ih =>
      rw [memMapClrLoop, ptGetPte] at h
      by_cases hpath : m.Path t (m.dscr.lvls - 1) va
      swap
      · rw [if_neg hpath] at h
        cases h
      · rw [if_pos hpath] at h
        have hlvls := m.dscr.lvls_pos
        have hlvl : m.dscr.lvls - 1 < m.dscr.lvls := Nat.sub_lt hlvls Nat.one_pos
        have hlast : m.isLast (m.dscr.lvls - 1) = true := isLast_eq_true (Nat.sub_add_cancel hlvls)
        obtain ⟨word, hword⟩ : ∃ word, word = m.fmt.pteSet
            (pageAddr ppages.base (c.ppNextClr ppages.base index ppages.colors)) .page flags :=
          ⟨_, rfl⟩
        have hpage : m.fmt.ptePage (m.isLast (m.dscr.lvls - 1)) word = true := by
          rw [hword, hlast]
          exact m.fmt.ptePage_pteSet true _ _ hflags
        have htable := m.fmt.pteTable_of_ptePage _ _ hpage
        have hvalid : m.fmt.pteValid word = true := by
          rw [hword]
          exact m.fmt.pteValid_pteSet _ _ _
        have hlook := look_setPte hclosed hlvl hpath htable
        have hdvd : m.dscr.ptLvlsize (m.dscr.lvls - 1) ∣ va := by rwa [PtDscr.ptLvlsize_last]
        dsimp only at h
        rw [← hword] at h
        obtain ⟨hrest, hkeep⟩ :=
          ih (closed_setPte hclosed hlvl hpath htable) (Nat.dvd_add hva dvd_rfl) h
        refine ⟨fun x hx => ?_, fun b hb => hkeep b ?_⟩
        · by_cases hx' : x < pageSize
          · refine hkeep _ ?_
            rw [isSome_leafAt, hlook, if_pos, hvalid]
            exact Radix.Shape.pos_add hdvd (by
              change x < m.dscr.ptLvlsize (m.dscr.lvls - 1)
              rwa [PtDscr.ptLvlsize_last])
          · obtain ⟨y, rfl⟩ := Nat.exists_eq_add_of_le (Nat.not_lt.mp hx')
            rw [← Nat.add_assoc]
            refine hrest y ?_
            rw [Nat.add_mul, Nat.one_mul] at hx
            omega
        · rw [isSome_leafAt] at hb ⊢
          rw [hlook]
          split_ifs
          · exact hvalid
          · exact hb

theorem memMapGiven_backs (hclosed : m.Closed t) (hmark : m.Unmarked t)
    (hflags : m.fmt.FlagsOk flags) (hspan : n * pageSize ≤ m.dscr.shape.span)
    (hclr : c.allClrs ppages.colors = true)
    (h : m.memMapGiven c t va ppages n flags = (t', true)) :
    m.Backs t t' va n ∧ m.ShowsFrom t' va ppages.base n := by
  rw [memMapGiven, hclr, Bool.not_true, if_neg Bool.false_ne_true] at h
  obtain ⟨hdone, hmapped⟩ := memMapLoop_mapped ppages.base va hclosed hflags hspan
  have hmark' := unmarked_memMapLoop hmark hflags n va ppages.base n
  rw [h] at hdone hmapped hmark'
  exact ⟨hmapped.backs hmark' hdone.symm, fun x hx => hmapped.memTranslate hdone.symm hx,
    fun x hx e he => hmapped.dvd_leaf hdone.symm hx he⟩

/-- A call that is given pages and returns has mapped all pages of a range in one section, whatever
colours they have. -/
theorem memMapPages_maps {ok : Bool} (hclosed : m.Closed t) (hmark : m.Unmarked t)
    (hflags : m.fmt.FlagsOk flags) (hva : pageSize ∣ va)
    (hspan : n * pageSize ≤ m.dscr.shape.span) (hin : m.InSection va n)
    (hnum : ppages.numPages.toNat = n)
    (h : m.memMapPages c colors rounds t pools va (some ppages) n flags = some (t', pools', ok)) :
    ∀ x < n * pageSize, (m.leafAt t' (va + x)).isSome = true := by
  have hfloor : pageFloor va = va := Nat.div_mul_cancel hva
  rw [memMapPages, hfloor] at h
  dsimp only at h
  rw [if_pos hin] at h
  obtain ⟨t₁, done, hgiven⟩ : ∃ t₁ done, m.memMapGiven c t va ppages n flags = (t₁, done) :=
    ⟨_, _, rfl⟩
  rw [hgiven] at h
  cases done with
  | false => cases h
  | true =>
      cases h
      intro x hx
      cases hclr : c.allClrs ppages.colors with
      | true =>
          exact (memMapGiven_backs hclosed hmark hflags hspan hclr hgiven).1.backed x hx
      | false =>
          rw [memMapGiven, hclr, Bool.not_false, if_pos rfl, hnum] at hgiven
          exact (memMapClrLoop_maps (closed_memInflatePt hclosed va _) hflags hva hgiven).1 x hx

/-! ## Pages of an address space with one section -/

theorem memAllocVpage_zero {idx : ℕ} {at' res : Option ℕ}
    (h : m.memAllocVpage 0 rounds t idx at' = some (t', res)) : t' = t ∧ res = none := by
  rw [memAllocVpage] at h
  obtain ⟨sec, -, h⟩ := Option.bind_eq_some_iff.mp h
  dsimp only at h
  split_ifs at h
  · cases h
    exact ⟨rfl, rfl⟩
  · cases h
    exact ⟨rfl, rfl⟩
  · obtain ⟨s, hs, hmark⟩ := Option.bind_eq_some_iff.mp h
    cases rounds with
    | zero => cases hs
    | succ rounds =>
        cases hs
        cases hmark
        exact ⟨rfl, rfl⟩

theorem memFindSec_of_all (hsec : m.sections = [⟨0, maxVa⟩]) {a : ℕ} (ha : a < 2 ^ 64) :
    m.memFindSec a = some 0 := by
  rw [memFindSec, hsec, List.findIdx?_cons, decide_eq_true (Nat.zero_le a),
    decide_eq_true (Nat.le_sub_one_of_lt ha), Bool.and_self, if_pos rfl]

theorem inSection_of_all (hsec : m.sections = [⟨0, maxVa⟩]) (hva : va < 2 ^ 64) (n : ℕ) :
    m.InSection va n := by
  rw [InSection, memFindSec_of_all hsec hva,
    memFindSec_of_all hsec (Nat.mod_lt _ (Nat.two_pow_pos 64))]
  exact ⟨rfl, rfl⟩

/-- What is mapped stays mapped. -/
structure Keeps (m : Mmu) (t t' : PtEntries) : Prop where
  closed : m.Closed t'
  unmarked : m.Unmarked t'
  leafAt : ∀ b e, m.leafAt t b = some e → m.leafAt t' b = some e

theorem Keeps.trans (h : m.Keeps t t') (h' : m.Keeps t' t'') : m.Keeps t t'' :=
  ⟨h'.closed, h'.unmarked, fun b e he => h'.leafAt b e (h.leafAt b e he)⟩

/-- Pages that mapped nothing are mapped. -/
theorem Backs.keeps (h : m.Backs t t' va n) (hclosed : m.Closed t)
    (hfree : ∀ x < n * pageSize, m.leafAt t (va + x) = none) : m.Keeps t t' where
  closed := h.closed
  unmarked := h.unmarked
  leafAt := fun b e he => by
    rw [h.frame b fun x hx heq => ?_, he]
    rw [leafAt_of_mod_span hclosed heq, hfree x hx] at he
    cases he

theorem Keeps.leafAt_eq (h : m.Keeps t t') {b : ℕ} (hb : (m.leafAt t b).isSome = true) :
    m.leafAt t' b = m.leafAt t b := by
  obtain ⟨e, he⟩ := Option.isSome_iff_exists.mp hb
  rw [he]
  exact h.leafAt b e he

theorem ShowsFrom.keeps (h : m.ShowsFrom t va base n) (hkeeps : m.Keeps t t') :
    m.ShowsFrom t' va base n := by
  have hleaf : ∀ x < n * pageSize, m.leafAt t' (va + x) = m.leafAt t (va + x) := fun x hx =>
    hkeeps.leafAt_eq (by rw [← isSome_memTranslate, h.translate x hx, Option.isSome_some])
  refine ⟨fun x hx => ?_, fun x hx e he => ?_⟩
  · rw [memTranslate_eq, hleaf x hx, ← memTranslate_eq]
    exact h.translate x hx
  · exact h.aligned x hx e ((hleaf x hx).symm.trans he)

/-- A call of `mem_alloc_map` at an address of an address space without colours that returns the
address, or is for no pages: its pages mapped nothing and are backed now, those it is given one
behind the other. -/
theorem memAllocMap_backs {a : ℕ} {page : Option PPages} {res : Option ℕ}
    (hsec : m.sections = [⟨0, maxVa⟩]) (hclosed : m.Closed t) (hmark : m.Unmarked t)
    (hflags : m.fmt.FlagsOk flags) (hspan : n * pageSize ≤ m.dscr.shape.span)
    (hclr : c.allClrs colors = true) (hpage : ∀ p, page = some p → c.allClrs p.colors = true)
    (hres : n ≠ 0 → res.isSome = true)
    (h : m.memAllocMap c colors rounds t pools 0 page (some a) n flags = some (t', pools', res)) :
    (∀ x < n * pageSize, m.leafAt t (a + x) = none) ∧ m.Backs t t' a n ∧
      ∀ p, page = some p → m.ShowsFrom t' a p.base n := by
  obtain ⟨⟨t₁, address⟩, halloc, hmap⟩ := Option.bind_eq_some_iff.mp h
  rcases Nat.eq_zero_or_pos n with rfl | hn
  · obtain ⟨rfl, rfl⟩ := memAllocVpage_zero halloc
    cases hmap
    rw [Nat.zero_mul]
    exact ⟨fun x hx => absurd hx (Nat.not_lt_zero x),
      Backs.of_leafAt hclosed hmark (fun _ => rfl) (fun _ => rfl) a,
      fun _ _ => ⟨fun x hx => absurd hx (by rw [Nat.zero_mul]; exact Nat.not_lt_zero x),
        fun x hx => absurd hx (by rw [Nat.zero_mul]; exact Nat.not_lt_zero x)⟩⟩
  have hsec0 : m.sections[0]? = some ⟨0, maxVa⟩ := by rw [hsec]; rfl
  cases address with
  | none =>
      cases hmap
      cases hres hn.ne'
  | some v =>
      obtain ⟨hsearch, -, -, -, -, hreserves⟩ :=
        (memAllocVpage_eq_some_iff hclosed hmark hspan hn hsec0 le_rfl).mp halloc
      have hmark' := unmarked_memAllocVpage hclosed hmark hspan hn hsec0 le_rfl halloc
      obtain rfl := hreserves.target a rfl
      have hfloor : pageFloor v = v := Nat.div_mul_cancel hsearch.2.2
      obtain ⟨⟨t₂, pools₂, ok⟩, hpages, heq⟩ := Option.map_eq_some_iff.mp hmap
      cases heq
      have hin := inSection_of_all hsec hreserves.lt n
      refine ⟨fun x hx => (hreserves.free x hx).leafAt, ?_⟩
      cases page with
      | none =>
          rw [memMapPages, hfloor] at hpages
          dsimp only at hpages
          rw [if_pos hin, if_pos hclr] at hpages
          obtain ⟨⟨t₃, pools₃⟩, hloop, heq⟩ := Option.map_eq_some_iff.mp hpages
          cases heq
          have hbacks := memMapFreshLoop_backs hreserves.closed hmark' hflags hspan hloop
          exact ⟨hbacks.of_leafAt_trans hreserves.leafAt hreserves.frame, fun p hp => by cases hp⟩
      | some p =>
          rw [memMapPages, hfloor] at hpages
          dsimp only at hpages
          rw [if_pos hin] at hpages
          obtain ⟨t₃, done, hgiven⟩ : ∃ t₃ done,
              m.memMapGiven c t₁ v p n flags = (t₃, done) := ⟨_, _, rfl⟩
          rw [hgiven] at hpages
          cases done with
          | false => cases hpages
          | true =>
              cases hpages
              obtain ⟨hbacks, hmaps⟩ := memMapGiven_backs hreserves.closed hmark' hflags hspan
                (hpage p rfl) hgiven
              refine ⟨hbacks.of_leafAt_trans hreserves.leafAt hreserves.frame, fun p' hp' => ?_⟩
              cases hp'
              exact hmaps

/-- A call of `mem_alloc_map` that returns an address at a target returns the target, the start of a
page. -/
theorem target_of_memAllocMap {a v : ℕ} {page : Option PPages} (hsec : m.sections = [⟨0, maxVa⟩])
    (hclosed : m.Closed t) (hmark : m.Unmarked t) (hspan : n * pageSize ≤ m.dscr.shape.span)
    (hn : 0 < n)
    (h : m.memAllocMap c colors rounds t pools 0 page (some a) n flags =
      some (t', pools', some v)) : v = a ∧ pageSize ∣ a := by
  obtain ⟨⟨t₁, address⟩, halloc, hmap⟩ := Option.bind_eq_some_iff.mp h
  have hsec0 : m.sections[0]? = some ⟨0, maxVa⟩ := by rw [hsec]; rfl
  cases address with
  | none => cases hmap
  | some v' =>
      obtain ⟨_, -, heq⟩ := Option.map_eq_some_iff.mp hmap
      cases heq
      obtain ⟨hsearch, -, -, -, -, hreserves⟩ :=
        (memAllocVpage_eq_some_iff hclosed hmark hspan hn hsec0 le_rfl).mp halloc
      exact ⟨hreserves.target a rfl, hsearch.2.2⟩

theorem sameLeaves_memAllocMap {a : ℕ} {page : Option PPages} (hsec : m.sections = [⟨0, maxVa⟩])
    (hclosed : m.Closed t) (hmark : m.Unmarked t) (hspan : n * pageSize ≤ m.dscr.shape.span)
    (hn : n ≠ 0)
    (h : m.memAllocMap c colors rounds t pools 0 page (some a) n flags = some (t', pools', none)) :
    m.SameLeaves t t' := by
  obtain ⟨⟨t₁, address⟩, halloc, hmap⟩ := Option.bind_eq_some_iff.mp h
  have hsec0 : m.sections[0]? = some ⟨0, maxVa⟩ := by rw [hsec]; rfl
  cases address with
  | none =>
      cases hmap
      exact sameLeaves_memAllocVpage hclosed hmark hspan (Nat.pos_of_ne_zero hn) hsec0 le_rfl halloc
  | some v =>
      obtain ⟨_, -, heq⟩ := Option.map_eq_some_iff.mp hmap
      cases heq

theorem keeps_memAllocMap {a : ℕ} {page : Option PPages} {res : Option ℕ}
    (hsec : m.sections = [⟨0, maxVa⟩]) (hclosed : m.Closed t) (hmark : m.Unmarked t)
    (hflags : m.fmt.FlagsOk flags) (hspan : n * pageSize ≤ m.dscr.shape.span)
    (hclr : c.allClrs colors = true) (hpage : ∀ p, page = some p → c.allClrs p.colors = true)
    (h : m.memAllocMap c colors rounds t pools 0 page (some a) n flags = some (t', pools', res)) :
    m.Keeps t t' := by
  by_cases hres : n ≠ 0 → res.isSome = true
  · obtain ⟨hfree, hbacks, -⟩ :=
      memAllocMap_backs hsec hclosed hmark hflags hspan hclr hpage hres h
    exact hbacks.keeps hclosed hfree
  · rw [Classical.not_imp, Bool.not_eq_true, Option.isSome_eq_false_iff,
      Option.isNone_iff_eq_none] at hres
    obtain ⟨hn, rfl⟩ := hres
    have hsame := sameLeaves_memAllocMap hsec hclosed hmark hspan hn h
    exact ⟨hsame.closed, hsame.unmarked, fun b e he => (hsame.leafAt b).trans he⟩

end Mmu

end BaoHypervisor
