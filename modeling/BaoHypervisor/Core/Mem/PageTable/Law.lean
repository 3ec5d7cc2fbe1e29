import BaoHypervisor.Core.Mem.PageTable.Override
import Mathlib.Data.Nat.Bitwise

/-!
# What a mapping does to translations

For a range in which nothing is mapped, `mem_map` ends with all pages of the range mapped to the
pages from `base` on, with the flags, and with all other translations as they were, whatever
levels its walk chose (`memMap_law`).
-/

namespace BaoHypervisor

namespace Mmu

variable {m : Mmu} {t t' : PtEntries} {lvl va n k left fuel : ℕ} {base : Addr} {flags : Pte}

/-! ## Translations -/

def leafAddr (m : Mmu) (e : ℕ × Pte) (va : ℕ) : Addr :=
  let mask : Addr := BitVec.ofNat 64 (m.dscr.ptLvlsize e.1) - 1#64
  m.fmt.pteAddr e.2 &&& ~~~mask ||| BitVec.ofNat 64 va &&& mask

theorem memTranslate_eq (t : PtEntries) (va : ℕ) :
    m.memTranslate t va = (m.leafAt t va).map fun e => m.leafAddr e va := by
  change (if m.fmt.pteValid (m.look t va).2 then some (m.leafAddr (m.look t va) va) else none) = _
  rw [leafAt]
  split_ifs
  · rfl
  · rfl

theorem isSome_memTranslate (t : PtEntries) (va : ℕ) :
    (m.memTranslate t va).isSome = (m.leafAt t va).isSome := by
  rw [memTranslate_eq, Option.isSome_map]

theorem leafAt_of_mod_span (hclosed : m.Closed t) {a b : ℕ}
    (h : b % m.dscr.shape.span = a % m.dscr.shape.span) : m.leafAt t b = m.leafAt t a :=
  leafAt_congr (look_of_pos_eq hclosed
    (Radix.Shape.pos_eq_of_mod_span (look_fst_lt hclosed a) h))

/-- A translation is an address that entries have room for. -/
theorem toNat_lt_of_memTranslate (hclosed : m.Closed t) {pa : Addr}
    (h : m.memTranslate t va = some pa) : pa.toNat < 2 ^ m.fmt.addrWidth := by
  rw [memTranslate_eq] at h
  obtain ⟨e, hleaf, rfl⟩ := Option.map_eq_some_iff.mp h
  have hlvl : e.1 < m.dscr.lvls := by
    rw [← (leafAt_eq_some_iff.mp hleaf).1]
    exact look_fst_lt hclosed va
  have hsize : m.dscr.ptLvlsize e.1 ≤ 2 ^ m.fmt.addrWidth :=
    (Radix.Shape.size_le_of_le (g := m.dscr.shape) hlvl (Nat.zero_le _)).trans
      (Nat.pow_le_pow_right (by decide) m.lvlOff_le)
  have hpos : 0 < m.dscr.ptLvlsize e.1 := PtDscr.ptLvlsize_pos
  have hwidth : 2 ^ m.fmt.addrWidth < 2 ^ 64 :=
    Nat.pow_lt_pow_right (by decide) m.fmt.addrWidth_lt
  rw [leafAddr, BitVec.toNat_or, BitVec.toNat_and, BitVec.toNat_and]
  refine Nat.or_lt_two_pow (Nat.and_le_left.trans_lt (m.fmt.toNat_pteAddr_lt _))
    (Nat.and_le_right.trans_lt ?_)
  rw [BitVec.toNat_sub, BitVec.toNat_ofNat, BitVec.toNat_ofNat,
    Nat.mod_eq_of_lt (hsize.trans_lt hwidth)]
  omega

/-- Without a carry the offset is added to the address. -/
theorem toNat_or_mask {off : ℕ} (hoff : off < 64) {a : Addr} (ha : 2 ^ off ∣ a.toNat) (v : ℕ) :
    (a &&& ~~~(BitVec.ofNat 64 (2 ^ off) - 1#64) |||
      BitVec.ofNat 64 v &&& (BitVec.ofNat 64 (2 ^ off) - 1#64)).toNat = a.toNat + v % 2 ^ off := by
  obtain ⟨mask, hmask⟩ : ∃ mask, mask = BitVec.ofNat 64 (2 ^ off) - 1#64 := ⟨_, rfl⟩
  rw [← hmask]
  have hpow : 2 ^ off < 2 ^ 64 := Nat.pow_lt_pow_right (by decide) hoff
  have hpos := Nat.two_pow_pos off
  have htoNat : mask.toNat = 2 ^ off - 1 := by
    rw [hmask, BitVec.toNat_sub, BitVec.toNat_ofNat, BitVec.toNat_ofNat, Nat.mod_eq_of_lt hpow]
    omega
  have hbit : ∀ i, mask.getLsbD i = decide (i < off) := by
    intro i
    rw [BitVec.getLsbD, htoNat, Nat.testBit_two_pow_sub_one]
  obtain ⟨q, hq⟩ := ha
  have hhigh : a &&& ~~~mask = a := by
    refine BitVec.eq_of_getLsbD_eq fun i hi => ?_
    have hai : a.getLsbD i = (decide (i ≥ off) && q.testBit (i - off)) := by
      rw [BitVec.getLsbD, hq, Nat.testBit_two_pow_mul]
    rw [BitVec.getLsbD_and, BitVec.getLsbD_not, hbit, hai, decide_eq_true hi]
    by_cases hlow : i < off
    · simp [hlow, Nat.not_le.mpr hlow]
    · simp [hlow]
  have hlow : (BitVec.ofNat 64 v &&& mask).toNat = v % 2 ^ off := by
    rw [BitVec.toNat_and, htoNat, Nat.and_two_pow_sub_one_eq_mod, BitVec.toNat_ofNat,
      Nat.mod_mod_of_dvd _ (Nat.pow_dvd_pow 2 hoff.le)]
  rw [hhigh, BitVec.toNat_or, hlow, hq, Nat.two_pow_add_eq_or_of_lt (Nat.mod_lt v hpos)]

theorem lvlOff_lt_word (hlvl : lvl < m.dscr.lvls) : m.dscr.lvlOff lvl < 64 := by
  have hle := Radix.Shape.size_le_of_le (g := m.dscr.shape) hlvl (Nat.zero_le lvl)
  exact ((Nat.pow_le_pow_iff_right (by decide)).mp hle).trans_lt
    (m.lvlOff_le.trans_lt m.fmt.addrWidth_lt)

theorem toNat_leafAddr (hlvl : lvl < m.dscr.lvls) {pte : Pte}
    (hdvd : m.dscr.ptLvlsize lvl ∣ (m.fmt.pteAddr pte).toNat) (va : ℕ) :
    (m.leafAddr (lvl, pte) va).toNat = (m.fmt.pteAddr pte).toNat + va % m.dscr.ptLvlsize lvl :=
  toNat_or_mask (lvlOff_lt_word hlvl) hdvd va

/-! ## A range in which nothing is mapped -/

theorem pageSize_dvd_toNat_pageAddr (hbase : pageSize ∣ base.toNat) (k : ℕ) :
    pageSize ∣ (pageAddr base k).toNat := by
  have hword : pageSize ∣ 2 ^ 64 := by decide
  rw [pageAddr, BitVec.toNat_add, BitVec.toNat_ofNat]
  rw [Nat.dvd_mod_iff hword]
  refine Nat.dvd_add hbase ?_
  rw [Nat.dvd_mod_iff hword]
  exact Nat.dvd_mul_left _ _

theorem fits_last (hleft : 0 < left) (hva : pageSize ∣ va) {pa : Addr}
    (hpa : pageSize ∣ pa.toNat) : m.fits (m.dscr.lvls - 1) left va pa = true := by
  rw [fits_iff, PtDscr.ptLvlsize_last]
  exact ⟨Nat.le_mul_of_pos_left _ hleft, hva, hpa⟩

/-- Where nothing is mapped and all levels have pages, a call reaches the last page. -/
theorem mapEntries_done (base : Addr) (hclosed : m.Closed t)
    (hterm : ∀ i < k + left, m.dscr.lvlTerm (m.look t (pageVa va i)).1 = true)
    (hva : pageSize ∣ va) (hbase : pageSize ∣ base.toNat) (hfuel : left ≤ fuel)
    (hfree : ∀ i < k + left, m.leafAt t (pageVa va i) = none) :
    (m.mapEntries t va base fuel k left).2 = true := by
  induction fuel generalizing k left with
  | zero =>
      rw [mapEntries, beq_iff_eq]
      exact Nat.le_zero.mp hfuel
  | succ fuel ih =>
      rw [mapEntries]
      by_cases hleft : left = 0
      · rw [if_pos hleft]
      · rw [if_neg hleft]
        cases hlvl : m.mapLvl t left (pageVa va k) (pageAddr base k) with
        | none =>
            rw [mapLvl, hfree k (by omega), hterm k (by omega), Option.isSome_none, Bool.not_true,
              Bool.or_false, if_neg Bool.false_ne_true, List.find?_eq_none] at hlvl
            have hlvls := m.dscr.lvls_pos
            have hlast := hlvl (m.dscr.lvls - 1) (List.mem_range'_1.mpr (by omega))
            have hle := look_fst_lt hclosed (pageVa va k)
            rw [decide_eq_true (by omega), Bool.true_and] at hlast
            exact absurd (fits_last (Nat.pos_of_ne_zero hleft)
              (Nat.dvd_add hva (Nat.dvd_mul_left _ _)) (pageSize_dvd_toNat_pageAddr hbase k)) hlast
        | some lvl =>
            have hfits := (mapLvl_eq_some hlvl).2.2.2.2
            have hlt := (mapLvl_eq_some hlvl).1
            have hpos := Nat.mul_pos (runLen_pos hlt hfits) (PtDscr.lvlPages_pos hlt)
            have hle := runLen_mul_le (m := m) lvl (pageVa va k) left
            exact ih (fun i hi => hterm i (by omega)) (by omega) fun i hi => hfree i (by omega)

theorem ptLvlsize_dvd_addrWidth (hlvl : lvl < m.dscr.lvls) :
    m.dscr.ptLvlsize lvl ∣ 2 ^ m.fmt.addrWidth :=
  (Radix.Shape.size_dvd_of_le (g := m.dscr.shape) hlvl (Nat.zero_le _)).trans
    (Nat.pow_dvd_pow 2 m.lvlOff_le)

/-- The pages of an entry are aligned to its level. -/
theorem dvd_of_mem_mapEntries {e : ℕ × ℕ} (he : e ∈ (m.mapEntries t va base fuel k left).1) :
    m.dscr.ptLvlsize e.1 ∣ base.toNat + e.2 * pageSize := by
  induction fuel generalizing k left with
  | zero =>
      rw [mapEntries] at he
      cases he
  | succ fuel ih =>
      rw [mapEntries] at he
      split_ifs at he with hleft
      · cases he
      · cases hlvl : m.mapLvl t left (pageVa va k) (pageAddr base k) with
        | none =>
            rw [hlvl] at he
            cases he
        | some lvl =>
            obtain ⟨hlt, -, -, -, hfits⟩ := mapLvl_eq_some hlvl
            obtain ⟨-, -, hdvd⟩ := fits_iff.mp hfits
            have hword : m.dscr.ptLvlsize lvl ∣ 2 ^ 64 :=
              (ptLvlsize_dvd_addrWidth hlt).trans (Nat.pow_dvd_pow 2 m.fmt.addrWidth_lt.le)
            rw [pageAddr, BitVec.toNat_add, BitVec.toNat_ofNat, Nat.add_mod_mod,
              Nat.dvd_mod_iff hword] at hdvd
            rw [hlvl] at he
            rcases List.mem_append.mp he with he | he
            · obtain ⟨j, -, rfl⟩ := List.mem_map.mp he
              change m.dscr.ptLvlsize lvl ∣ base.toNat + (k + j * m.dscr.lvlPages lvl) * pageSize
              rw [Nat.add_mul, Nat.mul_assoc, PtDscr.lvlPages_mul hlt, ← Nat.add_assoc]
              exact Nat.dvd_add hdvd (Nat.dvd_mul_left _ _)
            · exact ih he

/-- The pages from `va` on are mapped to those from `base` on with the flags, and all other
addresses translate as before. -/
structure MapLaw (m : Mmu) (t t' : PtEntries) (va : ℕ) (base : Addr) (n : ℕ) (flags : Pte) :
    Prop where
  maps : ∀ x < n * pageSize, m.memTranslate t' (va + x) = some (base + BitVec.ofNat 64 x)
  flags : ∀ x < n * pageSize, ∃ e, m.leafAt t' (va + x) = some e ∧
    e.2 &&& m.fmt.flagsMsk = (m.fmt.typeBits (m.ptPageType e.1) ||| flags) &&& m.fmt.flagsMsk
  frame : ∀ a, (∀ x < n * pageSize, a % m.dscr.shape.span ≠ (va + x) % m.dscr.shape.span) →
    m.memTranslate t' a = m.memTranslate t a

theorem ptPageType_ne_table (lvl : ℕ) : m.ptPageType lvl ≠ .table := by
  rw [ptPageType]
  split_ifs
  · exact PteType.noConfusion
  · exact PteType.noConfusion

theorem Mapped.exists_entry (hdone : (m.mapEntries t va base n 0 n).2 = true)
    (h : m.Mapped t t' va base flags (m.mapEntries t va base n 0 n).1) {x : ℕ}
    (hx : x < n * pageSize) :
    ∃ e ∈ (m.mapEntries t va base n 0 n).1, e.2 * pageSize ≤ x ∧
      x < (e.2 + m.dscr.lvlPages e.1) * pageSize ∧
        m.leafAt t' (va + x) = some (e.1, m.mapPte base flags e.1 e.2) := by
  obtain ⟨e, he, hle, hlt⟩ := exists_mem_mapEntries hdone (Nat.zero_le (x / pageSize))
    (by rw [Nat.zero_add]; exact Nat.div_lt_of_lt_mul (by rwa [Nat.mul_comm]))
  obtain ⟨hlvl, hdvd, -, -⟩ := mem_mapEntries he
  have hle := (Nat.le_div_iff_mul_le (by decide)).mp hle
  have hlt := (Nat.div_lt_iff_lt_mul (by decide)).mp hlt
  exact ⟨e, he, hle, hlt, h.entry e he _ (pos_of_mem_entry hlvl hdvd hle hlt)⟩

theorem pos_ne_of_mod_ne {a : ℕ}
    (ha : ∀ x < n * pageSize, a % m.dscr.shape.span ≠ (va + x) % m.dscr.shape.span) :
    ∀ e ∈ (m.mapEntries t va base n 0 n).1, m.dscr.pos e.1 a ≠ m.dscr.pos e.1 (pageVa va e.2) := by
  intro e he hpos
  obtain ⟨hlvl, hdvd, -, hend⟩ := mem_mapEntries he
  obtain ⟨y, hy, hmod⟩ := (Radix.Shape.pos_eq_iff (g := m.dscr.shape) hlvl hdvd).mp hpos
  change y < m.dscr.ptLvlsize e.1 at hy
  rw [Nat.zero_add] at hend
  have hmul := Nat.mul_le_mul_right pageSize hend
  rw [Nat.add_mul, PtDscr.lvlPages_mul hlvl] at hmul
  refine ha (e.2 * pageSize + y) (by omega) ?_
  rw [← Nat.add_assoc]
  exact hmod

theorem Mapped.leafAt_of_ne (h : m.Mapped t t' va base flags (m.mapEntries t va base n 0 n).1)
    {a : ℕ} (ha : ∀ x < n * pageSize, a % m.dscr.shape.span ≠ (va + x) % m.dscr.shape.span) :
    m.leafAt t' a = m.leafAt t a :=
  h.leafAt a (pos_ne_of_mod_ne ha)

theorem add_mod_of_dvd {a s w y : ℕ} (hs : s ∣ w) (ha : s ∣ a) (hy : y < s) :
    (a + y) % w = a % w + y := by
  obtain ⟨b, rfl⟩ := ha
  obtain ⟨c, rfl⟩ := hs
  rw [Nat.mod_mul, Nat.mul_add_mod, Nat.mod_eq_of_lt hy, Nat.mul_add_div (Nat.zero_lt_of_lt hy),
    Nat.div_eq_of_lt hy, Nat.add_zero, Nat.mul_mod_mul_left, Nat.add_comm]

theorem toNat_pteAddr_of_mem (flags : Pte) {e : ℕ × ℕ}
    (he : e ∈ (m.mapEntries t va base fuel k left).1) :
    (m.fmt.pteAddr (m.mapPte base flags e.1 e.2)).toNat =
        (base.toNat + e.2 * pageSize) % 2 ^ m.fmt.addrWidth ∧
      m.dscr.ptLvlsize e.1 ∣ (base.toNat + e.2 * pageSize) % 2 ^ m.fmt.addrWidth := by
  have hlvl := (mem_mapEntries he).1
  have haligned : m.dscr.ptLvlsize e.1 ∣ (base.toNat + e.2 * pageSize) % 2 ^ m.fmt.addrWidth :=
    (Nat.dvd_mod_iff (ptLvlsize_dvd_addrWidth hlvl)).mpr (dvd_of_mem_mapEntries he)
  refine ⟨?_, haligned⟩
  rw [m.fmt.toNat_pteAddr_pteSet, pageAddr, BitVec.toNat_add, BitVec.toNat_ofNat,
    Nat.add_mod_mod, Nat.mod_mod_of_dvd _ (Nat.pow_dvd_pow 2 m.fmt.addrWidth_lt.le)]
  exact Nat.div_mul_cancel ((PtDscr.pageSize_dvd_ptLvlsize hlvl).trans haligned)

theorem Mapped.dvd_leaf (hdone : (m.mapEntries t va base n 0 n).2 = true)
    (h : m.Mapped t t' va base flags (m.mapEntries t va base n 0 n).1) {x : ℕ}
    (hx : x < n * pageSize) {e : ℕ × Pte} (hleaf : m.leafAt t' (va + x) = some e) :
    m.dscr.ptLvlsize e.1 ∣ (m.fmt.pteAddr e.2).toNat := by
  obtain ⟨e', he', -, -, hleaf'⟩ := h.exists_entry hdone hx
  rw [hleaf'] at hleaf
  cases hleaf
  obtain ⟨haddr, hdvd⟩ := toNat_pteAddr_of_mem flags he'
  rw [haddr]
  exact hdvd

/-- The pages of a call that reaches the last page, as far as entries have room for their
addresses. -/
theorem Mapped.memTranslate (hdone : (m.mapEntries t va base n 0 n).2 = true)
    (h : m.Mapped t t' va base flags (m.mapEntries t va base n 0 n).1) {x : ℕ}
    (hx : x < n * pageSize) :
    m.memTranslate t' (va + x) =
      some (BitVec.ofNat 64 ((base.toNat + x) % 2 ^ m.fmt.addrWidth)) := by
  obtain ⟨e, he, hle, hlt, hleaf⟩ := h.exists_entry hdone hx
  obtain ⟨hlvl, hdvd, -, -⟩ := mem_mapEntries he
  obtain ⟨haddr, haligned⟩ := toNat_pteAddr_of_mem flags he
  have hwidth : 2 ^ m.fmt.addrWidth ∣ 2 ^ 64 := Nat.pow_dvd_pow 2 m.fmt.addrWidth_lt.le
  obtain ⟨y, rfl⟩ := Nat.exists_eq_add_of_le hle
  rw [Nat.add_mul, PtDscr.lvlPages_mul hlvl, Nat.add_lt_add_iff_left] at hlt
  have hoffset : (va + (e.2 * pageSize + y)) % m.dscr.ptLvlsize e.1 = y := by
    rw [← Nat.add_assoc, Nat.add_mod, Nat.mod_eq_zero_of_dvd hdvd, Nat.zero_add, Nat.mod_mod,
      Nat.mod_eq_of_lt hlt]
  rw [memTranslate_eq, hleaf, Option.map_some]
  refine congrArg some (BitVec.eq_of_toNat_eq ?_)
  rw [toNat_leafAddr hlvl (by rw [haddr]; exact haligned), haddr, hoffset, BitVec.toNat_ofNat,
    ← Nat.add_assoc, Nat.mod_eq_of_lt ((Nat.mod_lt _ (Nat.two_pow_pos _)).trans_le
      (Nat.le_of_dvd (Nat.two_pow_pos 64) hwidth)),
    add_mod_of_dvd (ptLvlsize_dvd_addrWidth hlvl) (dvd_of_mem_mapEntries he) hlt]

theorem Mapped.mapLaw (hphys : base.toNat + n * pageSize ≤ 2 ^ m.fmt.addrWidth)
    (hdone : (m.mapEntries t va base n 0 n).2 = true)
    (h : m.Mapped t t' va base flags (m.mapEntries t va base n 0 n).1) :
    m.MapLaw t t' va base n flags := by
  refine ⟨fun x hx => ?_, fun x hx => ?_, fun a ha => ?_⟩
  · rw [h.memTranslate hdone hx, Nat.mod_eq_of_lt (by omega), BitVec.ofNat_add, BitVec.ofNat_toNat,
      BitVec.setWidth_eq]
  · obtain ⟨e, -, -, -, hleaf⟩ := h.exists_entry hdone hx
    exact ⟨_, hleaf, m.fmt.flags_pteSet _ _ _ (ptPageType_ne_table e.1)⟩
  · rw [memTranslate_eq, memTranslate_eq, h.leafAt_of_ne ha]

/-- `mem_map` of a range in which nothing is mapped, for any format whose levels all have pages:
it does not stop, and a call that finds the range in one section maps it. -/
theorem memMap_law (hclosed : m.Closed t) (hterm : ∀ l, m.dscr.lvlTerm l = true)
    (hflags : m.fmt.FlagsOk flags) (hspan : n * pageSize ≤ m.dscr.shape.span)
    (hva : pageSize ∣ va) (hfree : ∀ x < n * pageSize, m.leafAt t (va + x) = none)
    (hbase : pageSize ∣ base.toNat) (hphys : base.toNat + n * pageSize ≤ 2 ^ m.fmt.addrWidth) :
    (m.memMap t va base n flags).2 ≠ none ∧
      ((m.memMap t va base n flags).2 = some true →
        m.MapLaw t (m.memMap t va base n flags).1 va base n flags) := by
  have hfloor : pageFloor va = va := Nat.div_mul_cancel hva
  by_cases hsec : m.InSection (pageFloor va) n
  · obtain ⟨hres, hmapped⟩ := memMap_mapped base hclosed hflags hspan hsec
    rw [hfloor] at hres hmapped
    have hdone := @mapEntries_done m t va 0 n n base hclosed (fun _ _ => hterm _)
      hva hbase le_rfl fun i hi => hfree _ (Nat.mul_lt_mul_of_pos_right (by omega) (by decide))
    rw [hdone, if_pos rfl] at hres
    refine ⟨by rw [hres]; exact Option.some_ne_none _, fun _ => ?_⟩
    exact hmapped.mapLaw hphys hdone
  · rw [memMap_of_not_inSection base flags hsec]
    exact ⟨Option.some_ne_none _, fun h => absurd (Option.some.inj h) Bool.false_ne_true⟩

/-- On RISC-V, the pages of a range in which nothing is mapped are mapped to the pages from `base`
on, as long as entries have room for their addresses. -/
theorem memMap_maps_pages (hfmt : m.fmt = Riscv.pteFormat)
    (hdscr : m.dscr = Riscv.sv39PtDscr ∨ m.dscr = Riscv.sv39x4PtDscr) (hclosed : m.Closed t)
    (hspan : n * pageSize ≤ m.dscr.shape.span) (hva : pageSize ∣ va)
    (hfree : ∀ x < n * pageSize, m.leafAt t (va + x) = none) (hbase : pageSize ∣ base.toNat)
    (hphys : base.toNat + n * pageSize ≤ 2 ^ 56) (flags : Pte) :
    (m.memMap t va base n flags).2 ≠ none ∧
      ((m.memMap t va base n flags).2 = some true →
        m.MapLaw t (m.memMap t va base n flags).1 va base n flags) := by
  have hterm : ∀ l, m.dscr.lvlTerm l = true := by
    intro l
    rcases hdscr with h | h
    · rw [h]
      rfl
    · rw [h]
      rfl
  have hflags : m.fmt.FlagsOk flags := by
    rw [hfmt]
    trivial
  have hwidth : m.fmt.addrWidth = 56 := by
    rw [hfmt]
    rfl
  exact memMap_law hclosed hterm hflags hspan hva hfree hbase (by rwa [hwidth])

end Mmu

theorem memMap_maps_pages_superpage_and_page :
    (someVmMmu.memMap emptyTables 0x200000 0x80200000#64 513 Riscv.pteVmFlags).2 ≠ none ∧
      ((someVmMmu.memMap emptyTables 0x200000 0x80200000#64 513 Riscv.pteVmFlags).2 = some true →
        someVmMmu.MapLaw emptyTables
          (someVmMmu.memMap emptyTables 0x200000 0x80200000#64 513 Riscv.pteVmFlags).1
          0x200000 0x80200000#64 513 Riscv.pteVmFlags) :=
  Mmu.memMap_maps_pages rfl (.inr rfl) (Mmu.wellFormed_emptyTables _).closed (by decide) (by decide)
    (fun _ _ => Mmu.leafAt_emptyTables _ _) (by decide) (by decide) Riscv.pteVmFlags

/-- The entry of a page behind the last one that fits in an entry shows another one. -/
theorem memMap_wraps_page_number :
    someVmMmu.WellFormed emptyTables ∧ (∀ va, someVmMmu.leafAt emptyTables va = none) ∧
      pageSize ∣ (0xfffffffffff000#64).toNat ∧ (0xfffffffffff000#64).toNat < 2 ^ 56 ∧
      (someVmMmu.memMap emptyTables 0 0xfffffffffff000#64 2 Riscv.pteVmFlags).2 = some true ∧
      someVmMmu.memTranslate
        (someVmMmu.memMap emptyTables 0 0xfffffffffff000#64 2 Riscv.pteVmFlags).1 pageSize ≠
          some (pageAddr 0xfffffffffff000#64 1) :=
  ⟨Mmu.wellFormed_emptyTables _, Mmu.leafAt_emptyTables _, by decide, by decide,
    by decide +kernel, by decide +kernel⟩

end BaoHypervisor
