import BaoHypervisor.Arch.Armv8.PageTable
import BaoHypervisor.Core.Mem.PageTable.Phys

/-!
# The recursive mapping of Armv8-A

The root table of a CPU has an entry for itself, and one for the root table of another address space
that the CPU works on. A walk of the MMU through these entries stops short of the tables it goes
through otherwise, so that they appear as pages. `pt_get_pte` puts together the virtual address at
which the entry of a level is found, and the MMU translates it to where the entry lies
(`memTranslate_ptGetPte`).
-/

namespace BaoHypervisor

namespace Armv8

def pteMask (off len : ℕ) : Addr := (((1#64 <<< (len - 1)) <<< 1) - 1#64) <<< off

def Paged (d : PtDscr) : Prop :=
  ∀ lvl < d.lvls, d.lvlOff lvl = 12 + 9 * (d.lvls - 1 - lvl)

/-- `struct page_table`, with its architecture's part. -/
structure PageTable where
  dscr : PtDscr
  recMask : Pte
  recInd : SizeT
  paged : Paged dscr
  lvls_le : dscr.lvls ≤ 4

/-- The page tables as those of an address space. -/
def PageTable.mmu (pt : PageTable) (asType : AsType) : Mmu where
  fmt := pteFormat
  dscr := pt.dscr
  asType := asType
  sections := []
  newTable := fun _ _ => 0#64
  lvlOff_le := by
    have hle := pt.lvls_le
    rw [pt.paged 0 pt.dscr.lvls_pos]
    exact (by omega : 12 + 9 * (pt.dscr.lvls - 1 - 0) ≤ 48)

/-- The entry and the indices that `pt_set_recursive` sets, for a root table at `pa`. -/
def ptSetRecursive (mem : PtMem) (cpuRoot : ℕ) (index : SizeT) (pa : Addr) : PtMem :=
  Function.update mem (cpuRoot + 8 * index.toNat) (pteSet pa .table pteHypFlags)

/-- The mask that `pt_set_recursive` puts together, `rec_mask`. -/
def recMask (dscr : PtDscr) (cpuRecInd : SizeT) : Pte :=
  (List.range dscr.lvls).foldl (fun mask i => mask ||| cpuRecInd <<< dscr.lvlOff i) 0#64

/-- `pt_get_pte`, on a CPU with the table `cpu`. -/
def ptGetPte (cpu pt : PageTable) (lvl : ℕ) (va : Addr) : Addr :=
  let recIndOff := cpu.dscr.lvlOff (cpu.dscr.lvls - lvl - 1)
  let recIndLen := cpu.dscr.lvlWdt (cpu.dscr.lvls - lvl - 1)
  let recIndMask := pteMask recIndOff (recIndLen - recIndOff)
  cpu.recMask &&& ~~~pteMask 0 recIndLen ||| pt.recInd <<< recIndOff &&& recIndMask |||
    (va >>> pt.dscr.lvlOff lvl) * 8#64 &&& pteMask 0 recIndOff

/-! ## Bits -/

theorem getLsbD_pteMask {off len i : ℕ} (hpos : 0 < len) (hlen : len ≤ 64) (hi : i < 64) :
    (pteMask off len).getLsbD i = decide (off ≤ i ∧ i < off + len) := by
  have hones : ((1#64 <<< (len - 1)) <<< 1) - 1#64 = BitVec.ofNat 64 (2 ^ len - 1) := by
    have hpow : 2 ^ len ≤ 2 ^ 64 := Nat.pow_le_pow_right (by decide) hlen
    have hshift : (1#64 <<< (len - 1)) <<< 1 = BitVec.ofNat 64 (2 ^ len) := by
      apply BitVec.eq_of_toNat_eq
      rw [← BitVec.shiftLeft_add, Nat.sub_add_cancel hpos, BitVec.toNat_shiftLeft, Nat.shiftLeft_eq]
      simp
    have htwo := Nat.two_pow_pos len
    apply BitVec.eq_of_toNat_eq
    rw [hshift, BitVec.toNat_sub]
    simp only [BitVec.toNat_ofNat]
    omega
  rw [pteMask, hones, BitVec.getLsbD_shiftLeft, BitVec.getLsbD_ofNat, Nat.testBit_two_pow_sub_one]
  by_cases hlow : i < off
  · simp [hlow]
  · have hsub : i - off < 64 := by omega
    have hiff : i - off < len ↔ i < off + len := by omega
    simp [hlow, hi, hsub, hiff, Nat.le_of_not_lt hlow]

/-- The bits of the mask of the indices are the indices, where the levels have them. -/
theorem getLsbD_recMask {dscr : PtDscr} {cpuRecInd : SizeT} {i : ℕ} (hi : i < 64) :
    (recMask dscr cpuRecInd).getLsbD i = true ↔
      ∃ lvl < dscr.lvls, dscr.lvlOff lvl ≤ i ∧ cpuRecInd.getLsbD (i - dscr.lvlOff lvl) = true := by
  have hfold : ∀ (l : List ℕ) (x : Pte),
      (l.foldl (fun mask i => mask ||| cpuRecInd <<< dscr.lvlOff i) x).getLsbD i = true ↔
        x.getLsbD i = true ∨ ∃ lvl ∈ l, dscr.lvlOff lvl ≤ i ∧
          cpuRecInd.getLsbD (i - dscr.lvlOff lvl) = true := by
    intro l
    induction l with
    | nil => simp
    | cons lvl l ih =>
        intro x
        rw [List.foldl_cons, ih, BitVec.getLsbD_or, BitVec.getLsbD_shiftLeft]
        simp only [hi, decide_true, Bool.true_and, Bool.or_eq_true, Bool.and_eq_true,
          Bool.not_eq_true', decide_eq_false_iff_not, Nat.not_lt, or_assoc,
          List.exists_mem_cons_iff]
  rw [recMask, hfold]
  simp

/-- The bits of the address: the CPU's index, over that of the table, over those of the address. -/
theorem getLsbD_ptGetPte {cpu pt : PageTable} {lvl off len i : ℕ} {va : Addr} (hi : i < 64)
    (hoff : cpu.dscr.lvlOff (cpu.dscr.lvls - lvl - 1) = off)
    (hlen : cpu.dscr.lvlWdt (cpu.dscr.lvls - lvl - 1) = len) (hpos : 0 < off) (hlt : off < len)
    (hle : len ≤ 64) :
    (ptGetPte cpu pt lvl va).getLsbD i =
      if len ≤ i then cpu.recMask.getLsbD i
      else if off ≤ i then pt.recInd.getLsbD (i - off)
      else !decide (i < 3) && va.getLsbD (pt.dscr.lvlOff lvl + (i - 3)) := by
  have hmul : (va >>> pt.dscr.lvlOff lvl) * 8#64 = va >>> pt.dscr.lvlOff lvl <<< 3 :=
    (BitVec.shiftLeft_eq_mul_twoPow _ 3).symm
  rw [ptGetPte, hoff, hlen, hmul]
  simp only [BitVec.getLsbD_or, BitVec.getLsbD_and, BitVec.getLsbD_not, BitVec.getLsbD_shiftLeft,
    BitVec.getLsbD_ushiftRight, hi, decide_true, Bool.true_and,
    getLsbD_pteMask (Nat.sub_pos_of_lt hlt) ((Nat.sub_le _ _).trans hle) hi,
    getLsbD_pteMask (hpos.trans hlt) hle hi, getLsbD_pteMask hpos (hlt.le.trans hle) hi]
  by_cases hhigh : len ≤ i
  · have h1 : ¬ i < len := by omega
    have h2 : ¬ i < off := by omega
    have h3 : ¬ i < off + (len - off) := by omega
    simp [hhigh, h1, h2, h3]
  · by_cases hmid : off ≤ i
    · have h1 : i < len := by omega
      have h2 : ¬ i < off := by omega
      have h3 : i < off + (len - off) := by omega
      simp [hhigh, hmid, h1, h2, h3]
    · have h1 : i < len := by omega
      have h2 : i < off := by omega
      simp [hhigh, hmid, h1, h2]

/-- An index of an address by its bits. -/
theorem index_eq {d : PtDscr} {lvl x : ℕ} {va : Addr} (hlvl : lvl < d.lvls)
    (hx : x < d.ptNentries lvl)
    (hbits : ∀ i, d.lvlOff lvl ≤ i → i < d.lvlWdt lvl →
      va.getLsbD i = x.testBit (i - d.lvlOff lvl)) :
    d.ptGetpteindexByVa va.toNat lvl = x := by
  have hlt := d.lvlOff_lt lvl hlvl
  have hentries : d.ptNentries lvl = 2 ^ (d.lvlWdt lvl - d.lvlOff lvl) :=
    Nat.pow_div hlt.le Nat.two_pos
  rw [hentries] at hx
  refine Nat.eq_of_testBit_eq fun i => ?_
  rw [PtDscr.ptGetpteindexByVa, PtDscr.ptLvlsize, hentries, Nat.testBit_mod_two_pow,
    ← Nat.shiftRight_eq_div_pow, Nat.testBit_shiftRight]
  by_cases hi : i < d.lvlWdt lvl - d.lvlOff lvl
  · have hbit := hbits (d.lvlOff lvl + i) (Nat.le_add_right _ _) (by omega)
    rw [Nat.add_sub_cancel_left] at hbit
    simpa [hi, BitVec.testBit_toNat] using hbit
  · have hpow : 2 ^ (d.lvlWdt lvl - d.lvlOff lvl) ≤ 2 ^ i :=
      Nat.pow_le_pow_right Nat.two_pos (Nat.le_of_not_lt hi)
    simp [hi, Nat.testBit_lt_two_pow (hx.trans_le hpow)]

/-! ## Indices of the address -/

/-- The address is one that the root table tells apart, and the entry for it is in the first page of
the root table. -/
structure InRootPage (d : PtDscr) (va : Addr) : Prop where
  lt_span : va.toNat < 2 ^ d.lvlWdt 0
  lt_page : va.toNat < 2 ^ (d.lvlOff 0 + 9)

section Indices

variable {d : PtDscr} {cpu pt : PageTable} {lvl i j : ℕ} {va : Addr}

theorem Paged.lvlWdt_succ (h : Paged d) (hlvl : lvl + 1 < d.lvls) :
    d.lvlWdt (lvl + 1) = d.lvlOff (lvl + 1) + 9 := by
  rw [d.lvlWdt_succ lvl hlvl, h lvl (by omega), h (lvl + 1) hlvl]
  omega

theorem Paged.lvlWdt_le (h : Paged d) (hroot : d.lvlWdt 0 ≤ d.lvlOff 0 + 9) (hlvl : lvl < d.lvls) :
    d.lvlWdt lvl ≤ d.lvlOff lvl + 9 := by
  cases lvl with
  | zero => exact hroot
  | succ lvl => exact (h.lvlWdt_succ hlvl).le

theorem Paged.lvlWdt_le_width (h : Paged d) (hlvl : lvl < d.lvls) : d.lvlWdt lvl ≤ 64 := by
  have hwdt0 := d.lvlWdt_le
  have hlt0 := d.lvlOff_lt 0 d.lvls_pos
  rw [h 0 d.lvls_pos] at hlt0
  cases lvl with
  | zero => exact hwdt0
  | succ lvl =>
      rw [h.lvlWdt_succ hlvl, h (lvl + 1) hlvl]
      omega

theorem Paged.ptNentries_succ (h : Paged d) (hlvl : lvl + 1 < d.lvls) :
    d.ptNentries (lvl + 1) = 2 ^ 9 := by
  rw [PtDscr.ptNentries, h.lvlWdt_succ hlvl, Nat.pow_add, Nat.mul_div_cancel_left _
    (Nat.two_pow_pos _)]

theorem Paged.lt_ptNentries (h : Paged d) (hroot : d.lvlWdt 0 ≤ d.lvlOff 0 + 9) {ind : ℕ}
    (hind : ind < d.ptNentries 0) (hlvl : lvl < d.lvls) :
    ind < 2 ^ 9 ∧ ind < d.ptNentries lvl := by
  have hlt := d.lvlOff_lt 0 d.lvls_pos
  have hle : d.ptNentries 0 ≤ 2 ^ 9 := by
    rw [PtDscr.ptNentries, Nat.pow_div hlt.le Nat.two_pos]
    exact Nat.pow_le_pow_right Nat.two_pos (by omega)
  refine ⟨hind.trans_le hle, ?_⟩
  cases lvl with
  | zero => exact hind
  | succ lvl => exact h.ptNentries_succ hlvl ▸ hind.trans_le hle

/-- The index of a level is the field of nine bits. -/
theorem index_eq_field (h : Paged d) (hlvl : lvl < d.lvls) (hva : InRootPage d va) :
    d.ptGetpteindexByVa va.toNat lvl = va.toNat / 2 ^ d.lvlOff lvl % 2 ^ 9 := by
  cases lvl with
  | zero =>
      have hspan : va.toNat / 2 ^ d.lvlOff 0 < d.ptNentries 0 := by
        have hlt := d.lvlOff_lt 0 hlvl
        rw [PtDscr.ptNentries, Nat.pow_div hlt.le Nat.two_pos]
        refine Nat.div_lt_of_lt_mul ?_
        rw [← Nat.pow_add, Nat.add_sub_cancel' hlt.le]
        exact hva.lt_span
      have hpage : va.toNat / 2 ^ d.lvlOff 0 < 2 ^ 9 := by
        refine Nat.div_lt_of_lt_mul ?_
        rw [← Nat.pow_add]
        exact hva.lt_page
      rw [PtDscr.ptGetpteindexByVa, PtDscr.ptLvlsize, Nat.mod_eq_of_lt hspan,
        Nat.mod_eq_of_lt hpage]
  | succ lvl => rw [PtDscr.ptGetpteindexByVa, h.ptNentries_succ hlvl, PtDscr.ptLvlsize]

theorem testBit_index (h : Paged d) (hlvl : lvl < d.lvls) (hva : InRootPage d va) (b : ℕ) :
    (d.ptGetpteindexByVa va.toNat lvl).testBit b =
      (decide (b < 9) && va.getLsbD (d.lvlOff lvl + b)) := by
  rw [index_eq_field h hlvl hva, Nat.testBit_mod_two_pow, ← Nat.shiftRight_eq_div_pow,
    Nat.testBit_shiftRight, BitVec.testBit_toNat]

variable (hcpu : Paged cpu.dscr)
include hcpu

theorem getLsbD_ptGetPte_paged (hlvl : lvl + j + 1 = cpu.dscr.lvls) (hi : i < 64) :
    (ptGetPte cpu pt lvl va).getLsbD i =
      if cpu.dscr.lvlWdt j ≤ i then cpu.recMask.getLsbD i
      else if 12 + 9 * lvl ≤ i then pt.recInd.getLsbD (i - (12 + 9 * lvl))
      else !decide (i < 3) && va.getLsbD (pt.dscr.lvlOff lvl + (i - 3)) := by
  have hj : cpu.dscr.lvls - lvl - 1 = j := by omega
  have hlt := cpu.dscr.lvlOff_lt j (by omega)
  have hoff : cpu.dscr.lvlOff j = 12 + 9 * lvl := by
    rw [hcpu j (by omega)]
    omega
  exact getLsbD_ptGetPte hi (by rw [hj, hoff]) (by rw [hj]) (by omega) (by omega)
    (hcpu.lvlWdt_le_width (by omega))

variable (hroot : cpu.dscr.lvlWdt 0 ≤ cpu.dscr.lvlOff 0 + 9)
include hroot

/-- The levels that the walk stops short of: as many as the address has below its level. -/
theorem index_cpu (hmask : cpu.recMask = recMask cpu.dscr cpu.recInd)
    (hind : cpu.recInd.toNat < cpu.dscr.ptNentries 0) (hj : j + lvl + 1 < cpu.dscr.lvls) :
    cpu.dscr.ptGetpteindexByVa (ptGetPte cpu pt lvl va).toNat j = cpu.recInd.toNat := by
  have hjlt : j < cpu.dscr.lvls := by omega
  obtain ⟨hnine, hentries⟩ := hcpu.lt_ptNentries hroot hind hjlt
  have hoff := hcpu j hjlt
  have hwdt := hcpu.lvlWdt_le hroot hjlt
  refine index_eq hjlt hentries fun k hk hkwdt => ?_
  have hk64 := hkwdt.trans_le (hcpu.lvlWdt_le_width hjlt)
  obtain ⟨c, hc⟩ : ∃ c, lvl + c + 1 = cpu.dscr.lvls := ⟨cpu.dscr.lvls - lvl - 1, by omega⟩
  have hcwdt : cpu.dscr.lvlWdt c ≤ k := by
    have hcle : cpu.dscr.lvlWdt c ≤ cpu.dscr.lvlOff c + 9 := hcpu.lvlWdt_le hroot (by omega)
    rw [hcpu c (by omega)] at hcle
    omega
  rw [getLsbD_ptGetPte_paged hcpu hc hk64, if_pos hcwdt, hmask, BitVec.testBit_toNat,
    Bool.eq_iff_iff, getLsbD_recMask hk64]
  constructor
  · rintro ⟨l, hl, hlk, hbit⟩
    have hbound : k - cpu.dscr.lvlOff l < 9 := by
      by_contra hge
      have hpow : 2 ^ 9 ≤ 2 ^ (k - cpu.dscr.lvlOff l) :=
        Nat.pow_le_pow_right Nat.two_pos (Nat.le_of_not_lt hge)
      rw [← BitVec.testBit_toNat, Nat.testBit_lt_two_pow (hnine.trans_le hpow)] at hbit
      cases hbit
    have hlj : l = j := by
      rw [hcpu l hl] at hlk hbound
      omega
    rwa [hlj] at hbit
  · exact fun hbit => ⟨j, hjlt, hk, hbit⟩

theorem index_pt (hind : pt.recInd.toNat < cpu.dscr.ptNentries 0)
    (hj : lvl + j + 1 = cpu.dscr.lvls) :
    cpu.dscr.ptGetpteindexByVa (ptGetPte cpu pt lvl va).toNat j = pt.recInd.toNat := by
  have hjlt : j < cpu.dscr.lvls := by omega
  obtain ⟨-, hentries⟩ := hcpu.lt_ptNentries hroot hind hjlt
  have hoff : cpu.dscr.lvlOff j = 12 + 9 * lvl := by
    rw [hcpu j hjlt]
    omega
  refine index_eq hjlt hentries fun k hk hkwdt => ?_
  have hk64 := hkwdt.trans_le (hcpu.lvlWdt_le_width hjlt)
  rw [getLsbD_ptGetPte_paged hcpu hj hk64, if_neg (Nat.not_le_of_lt hkwdt), ← hoff, if_pos hk,
    BitVec.testBit_toNat]

omit hroot

/-- The levels below are those of the table that the address is looked up in. -/
theorem index_va (hpt : Paged pt.dscr) (hva : InRootPage pt.dscr va) (hi : i < lvl)
    (hlvl : lvl < pt.dscr.lvls) (hle : lvl < cpu.dscr.lvls) (hj : j + lvl = cpu.dscr.lvls + i) :
    cpu.dscr.ptGetpteindexByVa (ptGetPte cpu pt lvl va).toNat j =
      pt.dscr.ptGetpteindexByVa va.toNat i := by
  have hjlt : j < cpu.dscr.lvls := by omega
  have hoff := hcpu j hjlt
  obtain ⟨j, rfl⟩ := Nat.exists_eq_add_one_of_ne_zero (n := j) (by omega)
  have hwdt := hcpu.lvlWdt_succ hjlt
  have hipt : i < pt.dscr.lvls := hi.trans hlvl
  have hindex : pt.dscr.ptGetpteindexByVa va.toNat i < cpu.dscr.ptNentries (j + 1) := by
    rw [hcpu.ptNentries_succ hjlt, index_eq_field hpt hipt hva]
    exact Nat.mod_lt _ (Nat.two_pow_pos 9)
  refine index_eq hjlt hindex fun k hk hkwdt => ?_
  have hk64 := hkwdt.trans_le (hcpu.lvlWdt_le_width hjlt)
  obtain ⟨c, hc⟩ : ∃ c, lvl + c + 1 = cpu.dscr.lvls := ⟨cpu.dscr.lvls - lvl - 1, by omega⟩
  have hcwdt : ¬ cpu.dscr.lvlWdt c ≤ k := by
    have hclt := cpu.dscr.lvlOff_lt c (by omega)
    rw [hcpu c (by omega)] at hclt
    omega
  have hlow : ¬ 12 + 9 * lvl ≤ k := by omega
  have hplace : pt.dscr.lvlOff lvl + (k - 3) =
      pt.dscr.lvlOff i + (k - cpu.dscr.lvlOff (j + 1)) := by
    rw [hpt lvl hlvl, hpt i hipt, hoff]
    omega
  have hfield : k - cpu.dscr.lvlOff (j + 1) < 9 := by omega
  have hthree : ¬ k < 3 := by omega
  rw [getLsbD_ptGetPte_paged hcpu hc hk64, if_neg hcwdt, if_neg hlow, testBit_index hpt hipt hva,
    hplace]
  simp [hfield, hthree]

theorem offset_va (hpt : Paged pt.dscr) (hva : InRootPage pt.dscr va) (hlvl : lvl < pt.dscr.lvls)
    (hle : lvl < cpu.dscr.lvls) :
    (ptGetPte cpu pt lvl va).toNat % pageSize = 8 * pt.dscr.ptGetpteindexByVa va.toNat lvl := by
  obtain ⟨c, hc⟩ : ∃ c, lvl + c + 1 = cpu.dscr.lvls := ⟨cpu.dscr.lvls - lvl - 1, by omega⟩
  have hpage : pageSize = 2 ^ 12 := rfl
  have height : 8 = 2 ^ 3 := rfl
  refine Nat.eq_of_testBit_eq fun k => ?_
  rw [hpage, height, Nat.testBit_mod_two_pow, Nat.mul_comm, ← Nat.shiftLeft_eq,
    Nat.testBit_shiftLeft, BitVec.testBit_toNat, testBit_index hpt hlvl hva]
  by_cases hk : k < 12
  · have hclt := cpu.dscr.lvlOff_lt c (by omega)
    rw [hcpu c (by omega)] at hclt
    have hcwdt : ¬ cpu.dscr.lvlWdt c ≤ k := by omega
    have hlow : ¬ 12 + 9 * lvl ≤ k := by omega
    have hfield : k - 3 < 9 := by omega
    rw [getLsbD_ptGetPte_paged hcpu hc (by omega), if_neg hcwdt, if_neg hlow]
    by_cases hthree : k < 3
    · simp [hk, hfield, hthree, Nat.not_le_of_lt hthree]
    · simp [hk, hfield, hthree, Nat.le_of_not_lt hthree]
  · have hfield : ¬ k - 3 < 9 := by omega
    simp [hk, hfield]

end Indices

/-! ## The walk -/

section Walk

variable {cpu pt : PageTable} {asType : AsType} {mem : PtMem} {cpuRoot root lvl i j : ℕ} {va : Addr}

/-- The address of a root table: a page that entries have room for. -/
structure RootPage (root : ℕ) : Prop where
  dvd : pageSize ∣ root
  lt : root < 2 ^ 48

/-- The root table of the CPU, at `cpuRoot`, has the entries for itself and for the root table of
the other table. -/
structure Linked (cpu pt : PageTable) (mem : PtMem) (cpuRoot root : ℕ) : Prop where
  rootWdt : cpu.dscr.lvlWdt 0 ≤ cpu.dscr.lvlOff 0 + 9
  mask : cpu.recMask = recMask cpu.dscr cpu.recInd
  cpuInd : cpu.recInd.toNat < cpu.dscr.ptNentries 0
  ptInd : pt.recInd.toNat < cpu.dscr.ptNentries 0
  cpuPage : RootPage cpuRoot
  page : RootPage root
  self : mem (cpuRoot + 8 * cpu.recInd.toNat) =
    pteSet (BitVec.ofNat 64 cpuRoot) .table pteHypFlags
  other : mem (cpuRoot + 8 * pt.recInd.toNat) = pteSet (BitVec.ofNat 64 root) .table pteHypFlags

theorem closed_mmu (pt : PageTable) (asType : AsType) (t : PtEntries) :
    (pt.mmu asType).Closed t := by
  intro a _
  have hlast : (pt.mmu asType).isLast ((pt.mmu asType).dscr.shape.depth - 1) = true :=
    Mmu.isLast_eq_true (Nat.sub_add_cancel pt.dscr.lvls_pos)
  rw [Mmu.tab, hlast]
  rfl

theorem toNat_pteAddr_pteSet_root (h : RootPage root) :
    (pteAddr (pteSet (BitVec.ofNat 64 root) .table pteHypFlags)).toNat = root := by
  have hroot : (BitVec.ofNat 64 root).toNat = root := by
    rw [BitVec.toNat_ofNat, Nat.mod_eq_of_lt (h.lt.trans (by decide))]
  have haddr := pteFormat.toNat_pteAddr_pteSet (BitVec.ofNat 64 root) .table pteHypFlags
  have hwidth : pteFormat.addrWidth = 48 := rfl
  rw [hroot, hwidth, Nat.mod_eq_of_lt h.lt, Nat.div_mul_cancel h.dvd] at haddr
  exact haddr

theorem pageSize_dvd_pteAddr (pte : Pte) : pageSize ∣ (pteAddr pte).toNat := by
  rw [pteAddr, toNat_and_addrMsk (k := 36) (by decide)]
  exact Nat.dvd_mul_left _ _

def walkPte (cpu pt : PageTable) (mem : PtMem) (cpuRoot lvl : ℕ) (va : Addr) (j : ℕ) : Pte :=
  (cpu.mmu .hyp).pteAt ((cpu.mmu .hyp).memTables mem cpuRoot) j (ptGetPte cpu pt lvl va).toNat

theorem walkPte_eq (hj : j < cpu.dscr.lvls) :
    walkPte cpu pt mem cpuRoot lvl va j =
      mem ((cpu.mmu .hyp).tableAddr mem cpuRoot j (ptGetPte cpu pt lvl va).toNat +
        8 * cpu.dscr.ptGetpteindexByVa (ptGetPte cpu pt lvl va).toNat j) :=
  Mmu.pteAt_memTables (m := cpu.mmu .hyp) hj

theorem tableAddr_succ :
    (cpu.mmu .hyp).tableAddr mem cpuRoot (j + 1) (ptGetPte cpu pt lvl va).toNat =
      (pteAddr (walkPte cpu pt mem cpuRoot lvl va j)).toNat := rfl

theorem Linked.tableAddr_cpu (h : Linked cpu pt mem cpuRoot root)
    (hj : j + lvl + 1 ≤ cpu.dscr.lvls) :
    (cpu.mmu .hyp).tableAddr mem cpuRoot j (ptGetPte cpu pt lvl va).toNat = cpuRoot := by
  induction j with
  | zero => rfl
  | succ j ih =>
      rw [tableAddr_succ, walkPte_eq (by omega), ih (by omega),
        index_cpu cpu.paged h.rootWdt h.mask h.cpuInd (by omega), h.self,
        toNat_pteAddr_pteSet_root h.cpuPage]

theorem Linked.walkPte_cpu (h : Linked cpu pt mem cpuRoot root) (hj : j + lvl + 1 < cpu.dscr.lvls) :
    walkPte cpu pt mem cpuRoot lvl va j =
      pteSet (BitVec.ofNat 64 cpuRoot) .table pteHypFlags := by
  rw [walkPte_eq (by omega), h.tableAddr_cpu (by omega),
    index_cpu cpu.paged h.rootWdt h.mask h.cpuInd hj, h.self]

theorem Linked.walkPte_pt (h : Linked cpu pt mem cpuRoot root) (hj : lvl + j + 1 = cpu.dscr.lvls) :
    walkPte cpu pt mem cpuRoot lvl va j = pteSet (BitVec.ofNat 64 root) .table pteHypFlags := by
  rw [walkPte_eq (by omega), h.tableAddr_cpu (by omega),
    index_pt cpu.paged h.rootWdt h.ptInd hj, h.other]

theorem pteAt_pt (hi : i < pt.dscr.lvls) :
    (pt.mmu asType).pteAt ((pt.mmu asType).memTables mem root) i va.toNat =
      mem ((pt.mmu asType).tableAddr mem root i va.toNat +
        8 * pt.dscr.ptGetpteindexByVa va.toNat i) :=
  Mmu.pteAt_memTables (m := pt.mmu asType) hi

/-- Below it the walk goes through the tables that the address is looked up in. -/
theorem Linked.tableAddr_va (h : Linked cpu pt mem cpuRoot root) (asType : AsType)
    (hva : InRootPage pt.dscr va) (hi : i ≤ lvl) (hlvl : lvl < pt.dscr.lvls)
    (hle : lvl < cpu.dscr.lvls)
    (hj : j + lvl = cpu.dscr.lvls + i) :
    (cpu.mmu .hyp).tableAddr mem cpuRoot j (ptGetPte cpu pt lvl va).toNat =
      (pt.mmu asType).tableAddr mem root i va.toNat := by
  obtain ⟨j, rfl⟩ := Nat.exists_eq_add_one_of_ne_zero (n := j) (by omega)
  induction i generalizing j with
  | zero =>
      rw [tableAddr_succ, h.walkPte_pt (by omega), toNat_pteAddr_pteSet_root h.page]
      rfl
  | succ i ih =>
      obtain ⟨j, rfl⟩ := Nat.exists_eq_add_one_of_ne_zero (n := j) (by omega)
      rw [tableAddr_succ, walkPte_eq (by omega), ih (by omega) j (by omega),
        index_va cpu.paged pt.paged hva hi hlvl hle (by omega), Mmu.tableAddr, pteAt_pt (by omega)]
      rfl

theorem Linked.walkPte_va (h : Linked cpu pt mem cpuRoot root) (asType : AsType)
    (hva : InRootPage pt.dscr va) (hi : i < lvl) (hlvl : lvl < pt.dscr.lvls)
    (hle : lvl < cpu.dscr.lvls)
    (hj : j + lvl = cpu.dscr.lvls + i) :
    walkPte cpu pt mem cpuRoot lvl va j =
      (pt.mmu asType).pteAt ((pt.mmu asType).memTables mem root) i va.toNat := by
  rw [walkPte_eq (by omega), h.tableAddr_va asType hva hi.le hlvl hle hj,
    index_va cpu.paged pt.paged hva hi hlvl hle hj, pteAt_pt (hi.trans hlvl)]

theorem Linked.tableAddr_last (h : Linked cpu pt mem cpuRoot root) (hva : InRootPage pt.dscr va)
    (hlvl : lvl < pt.dscr.lvls) (hle : lvl < cpu.dscr.lvls) :
    (pteAddr (walkPte cpu pt mem cpuRoot lvl va (cpu.dscr.lvls - 1))).toNat =
      (pt.mmu asType).tableAddr mem root lvl va.toNat := by
  rw [← tableAddr_succ, h.tableAddr_va asType hva le_rfl hlvl hle (by omega)]

/-- An entry of the walk is one that `pt_set_recursive` has set, or one above the level that is
looked for. -/
theorem Linked.pteTable_walkPte (h : Linked cpu pt mem cpuRoot root) (hva : InRootPage pt.dscr va)
    (hlvl : lvl < pt.dscr.lvls) (hle : lvl < cpu.dscr.lvls) (hj : j < cpu.dscr.lvls)
    (hpath : (pt.mmu asType).Path ((pt.mmu asType).memTables mem root) lvl va.toNat) :
    pteTable false (walkPte cpu pt mem cpuRoot lvl va j) = true := by
  rcases Nat.lt_trichotomy (j + lvl + 1) cpu.dscr.lvls with hlt | heq | hgt
  · rw [h.walkPte_cpu hlt]
    exact pteFormat.pteTable_pteSet _
  · rw [h.walkPte_pt (by omega)]
    exact pteFormat.pteTable_pteSet _
  · obtain ⟨i, hi⟩ : ∃ i, j + lvl = cpu.dscr.lvls + i := ⟨j + lvl - cpu.dscr.lvls, by omega⟩
    rw [h.walkPte_va asType hva (by omega) hlvl hle hi]
    have htable := hpath i (by omega)
    rw [Mmu.tab, Mmu.isLast_eq_false (show i + 1 < (pt.mmu asType).dscr.lvls by
      exact (by omega : i + 1 < pt.dscr.lvls))] at htable
    exact htable

theorem Linked.translate_ptGetPte (h : Linked cpu pt mem cpuRoot root) (hva : InRootPage pt.dscr va)
    (hlvl : lvl < pt.dscr.lvls) (hle : lvl < cpu.dscr.lvls)
    (hpath : (pt.mmu asType).Path ((pt.mmu asType).memTables mem root) lvl va.toNat) :
    ((cpu.mmu .hyp).memTranslate ((cpu.mmu .hyp).memTables mem cpuRoot)
      (ptGetPte cpu pt lvl va).toNat).map BitVec.toNat =
        some ((pt.mmu asType).entryAddr mem root lvl (pt.dscr.pos lvl va.toNat)) := by
  have htable : ∀ j < cpu.dscr.lvls, pteTable false (walkPte cpu pt mem cpuRoot lvl va j) = true :=
    fun j hj => h.pteTable_walkPte hva hlvl hle hj hpath
  have hcpuPath : (cpu.mmu .hyp).Path ((cpu.mmu .hyp).memTables mem cpuRoot)
      ((cpu.mmu .hyp).dscr.lvls - 1) (ptGetPte cpu pt lvl va).toNat := by
    intro j hj
    have hlt : j + 1 < (cpu.mmu .hyp).dscr.lvls := by omega
    rw [Mmu.tab, Mmu.isLast_eq_false hlt]
    exact htable j (by exact Nat.lt_of_succ_lt hlt)
  rw [Mmu.memTranslate_of_path (closed_mmu cpu .hyp _) hcpuPath
    (pteFormat.pteValid_of_pteTable false _ (htable _ (Nat.sub_lt cpu.dscr.lvls_pos Nat.one_pos)))
    (pageSize_dvd_pteAddr _), offset_va cpu.paged pt.paged hva hlvl hle]
  have hentry : (pt.mmu asType).entryAddr mem root lvl (pt.dscr.pos lvl va.toNat) =
      (pt.mmu asType).tableAddr mem root lvl va.toNat +
        8 * pt.dscr.ptGetpteindexByVa va.toNat lvl :=
    Mmu.entryAddr_pos (m := pt.mmu asType) hlvl
  rw [hentry, ← h.tableAddr_last hva hlvl hle]
  rfl

end Walk

/-! ## The tables of the code -/

def threeLvlOff (lvl : ℕ) : ℕ := if lvl = 0 then 30 else if lvl = 1 then 21 else 12

def threeLvlWdt (width lvl : ℕ) : ℕ := if lvl = 0 then width else if lvl = 1 then 30 else 21

theorem threeLvls_pos : 0 < 3 := Nat.succ_pos 2

theorem threeLvlOff_last : threeLvlOff (3 - 1) = 12 := rfl

theorem threeLvlWdt_succ (width lvl : ℕ) (h : lvl + 1 < 3) :
    threeLvlWdt width (lvl + 1) = threeLvlOff lvl := by
  obtain rfl | rfl : lvl = 0 ∨ lvl = 1 := by omega
  · rfl
  · rfl

theorem threeLvlOff_lt {width : ℕ} (hlt : 30 < width) (lvl : ℕ) (h : lvl < 3) :
    threeLvlOff lvl < threeLvlWdt width lvl := by
  obtain rfl | rfl | rfl : lvl = 0 ∨ lvl = 1 ∨ lvl = 2 := by omega
  · exact hlt
  · exact Nat.lt_of_sub_eq_succ rfl
  · exact Nat.lt_of_sub_eq_succ rfl

/-- The descriptors with three levels. -/
def threeLevels (width : ℕ) (hlt : 30 < width) (hle : width ≤ 64) : PtDscr where
  lvls := 3
  lvlOff := threeLvlOff
  lvlWdt := threeLvlWdt width
  lvlTerm := fun _ => true
  lvls_pos := threeLvls_pos
  lvlOff_last := threeLvlOff_last
  lvlWdt_succ := threeLvlWdt_succ width
  lvlOff_lt := threeLvlOff_lt hlt
  lvlWdt_le := hle
  lvlTerm_last := rfl
  lvlTerm_succ := fun _ _ => rfl

inductive SubArch
  | aarch64
  | aarch32
deriving DecidableEq, Repr

def parangeTable (parange : Fin 6) : ℕ := [32, 36, 40, 42, 44, 48].get parange

/-- `hyp_pt_dscr`, that is `armv8_pt_dscr`. -/
def hypPtDscr : SubArch → PtDscr
  | .aarch64 => armv8PtDscr
  | .aarch32 => threeLevels 32 (by decide) (by decide)

/-- `vm_pt_dscr`, that is `armv8_pt_s2_dscr` as `vmm_arch_init_tcr` leaves it. A smaller range of
physical addresses takes the first level away. -/
def vmPtDscr (parange : Fin 6) : SubArch → PtDscr
  | .aarch64 =>
      if parangeTable parange < 44 then
        threeLevels (parangeTable parange) (by revert parange; decide) (by revert parange; decide)
      else armv8PtDscr
  | .aarch32 => threeLevels 39 (by decide) (by decide)

theorem paged_threeLevels {width : ℕ} (hlt : 30 < width) (hle : width ≤ 64) :
    Paged (threeLevels width hlt hle) := by
  intro lvl hlvl
  obtain rfl | rfl | rfl : lvl = 0 ∨ lvl = 1 ∨ lvl = 2 := by
    have h3 : lvl < 3 := hlvl
    omega
  · rfl
  · rfl
  · rfl

theorem paged_armv8PtDscr : Paged armv8PtDscr := by
  intro lvl hlvl
  obtain rfl | rfl | rfl | rfl : lvl = 0 ∨ lvl = 1 ∨ lvl = 2 ∨ lvl = 3 := by
    have h4 : lvl < 4 := hlvl
    omega
  · rfl
  · rfl
  · rfl
  · rfl

theorem paged_hypPtDscr (sub : SubArch) : Paged (hypPtDscr sub) ∧ (hypPtDscr sub).lvls ≤ 4 := by
  cases sub with
  | aarch64 => exact ⟨paged_armv8PtDscr, le_rfl⟩
  | aarch32 => exact ⟨paged_threeLevels (by decide) (by decide), Nat.le_succ 3⟩

theorem paged_vmPtDscr (parange : Fin 6) (sub : SubArch) :
    Paged (vmPtDscr parange sub) ∧ (vmPtDscr parange sub).lvls ≤ (hypPtDscr sub).lvls := by
  cases sub with
  | aarch64 =>
      rw [vmPtDscr]
      split
      · exact ⟨paged_threeLevels _ _, Nat.le_succ 3⟩
      · exact ⟨paged_armv8PtDscr, le_rfl⟩
  | aarch32 => exact ⟨paged_threeLevels (by decide) (by decide), le_rfl⟩

def ptCpuRecInd (sub : SubArch) : SizeT := BitVec.ofNat 64 ((hypPtDscr sub).ptNentries 0 - 1)

def ptVmRecInd (sub : SubArch) : SizeT := BitVec.ofNat 64 ((hypPtDscr sub).ptNentries 0 - 2)

/-- The index that `as_arch_init` takes. -/
def asRecInd (sub : SubArch) : AsType → SizeT
  | .hypCpy | .vm => ptVmRecInd sub
  | .hyp => ptCpuRecInd sub

/-- The page table of an address space after `as_arch_init`. -/
def asPageTable (sub : SubArch) (parange : Fin 6) (asType : AsType) : PageTable where
  dscr := if asType = .vm then vmPtDscr parange sub else hypPtDscr sub
  recMask := recMask (if asType = .vm then vmPtDscr parange sub else hypPtDscr sub)
    (ptCpuRecInd sub)
  recInd := asRecInd sub asType
  paged := by
    split
    · exact (paged_vmPtDscr parange sub).1
    · exact (paged_hypPtDscr sub).1
  lvls_le := by
    split
    · exact (paged_vmPtDscr parange sub).2.trans (paged_hypPtDscr sub).2
    · exact (paged_hypPtDscr sub).2

/-- `as_arch_init`: the entry in the root table of the CPU. -/
def asArchInit (sub : SubArch) (mem : PtMem) (cpuRoot : ℕ) (asType : AsType) (root : ℕ) : PtMem :=
  ptSetRecursive mem cpuRoot (asRecInd sub asType) (BitVec.ofNat 64 root)

theorem asRecInd_lt (sub : SubArch) (asType : AsType) :
    (asRecInd sub asType).toNat < (hypPtDscr sub).ptNentries 0 := by
  cases sub <;> cases asType <;> decide +kernel

/-- On a CPU with the entries that `as_arch_init` has set, the address that `pt_get_pte` makes up is
translated to where the entry is: the one of the level for the address, in the tables of the address
space in memory. -/
theorem memTranslate_ptGetPte (sub : SubArch) (parange : Fin 6) (asType : AsType) {mem : PtMem}
    {cpuRoot root lvl : ℕ} {va : Addr} (hcpuPage : RootPage cpuRoot) (hpage : RootPage root)
    (hself : mem (cpuRoot + 8 * (asRecInd sub .hyp).toNat) =
      pteSet (BitVec.ofNat 64 cpuRoot) .table pteHypFlags)
    (hother : mem (cpuRoot + 8 * (asRecInd sub asType).toNat) =
      pteSet (BitVec.ofNat 64 root) .table pteHypFlags)
    (hva : InRootPage (asPageTable sub parange asType).dscr va)
    (hlvl : lvl < (asPageTable sub parange asType).dscr.lvls)
    (hpath : ((asPageTable sub parange asType).mmu asType).Path
      (((asPageTable sub parange asType).mmu asType).memTables mem root) lvl va.toNat) :
    let cpu := asPageTable sub parange .hyp
    let pt := asPageTable sub parange asType
    ((cpu.mmu .hyp).memTranslate ((cpu.mmu .hyp).memTables mem cpuRoot)
      (ptGetPte cpu pt lvl va).toNat).map BitVec.toNat =
        some ((pt.mmu asType).entryAddr mem root lvl (pt.dscr.pos lvl va.toNat)) := by
  have hlinked : Linked (asPageTable sub parange .hyp) (asPageTable sub parange asType) mem
      cpuRoot root :=
    { rootWdt := by cases sub <;> exact Nat.le_of_sub_eq_zero rfl
      mask := rfl
      cpuInd := asRecInd_lt sub .hyp
      ptInd := asRecInd_lt sub asType
      cpuPage := hcpuPage
      page := hpage
      self := hself
      other := hother }
  have hle : (asPageTable sub parange asType).dscr.lvls ≤
      (asPageTable sub parange .hyp).dscr.lvls := by
    cases asType with
    | hyp | hypCpy => exact le_rfl
    | vm => exact (paged_vmPtDscr parange sub).2
  exact hlinked.translate_ptGetPte hva hlvl (hlvl.trans_le hle) hpath

/-- The root tables of a CPU and of a VM with physical addresses of 40 bits, and a table below the
first entry of the latter. -/
def vmTables : PtMem :=
  asArchInit .aarch64 (asArchInit .aarch64
    (Function.update (fun _ => 0#64) 0x80010000 (pteSet 0x80020000#64 .table pteHypFlags))
    0x80000000 .hyp 0x80000000) 0x80000000 .vm 0x80010000

theorem memTranslate_ptGetPte_vmTables :
    (((asPageTable .aarch64 2 .hyp).mmu .hyp).memTranslate
      (((asPageTable .aarch64 2 .hyp).mmu .hyp).memTables vmTables 0x80000000)
      (ptGetPte (asPageTable .aarch64 2 .hyp) (asPageTable .aarch64 2 .vm) 1 0x600000#64).toNat).map
        BitVec.toNat =
      some (((asPageTable .aarch64 2 .vm).mmu .vm).entryAddr vmTables 0x80010000 1
        ((asPageTable .aarch64 2 .vm).dscr.pos 1 (0x600000#64 : Addr).toNat)) :=
  memTranslate_ptGetPte .aarch64 2 .vm ⟨by decide, by decide⟩ ⟨by decide, by decide⟩
    (by decide +kernel) (by decide +kernel) ⟨by decide +kernel, by decide +kernel⟩
    (by decide +kernel) (by decide +kernel)

end Armv8

end BaoHypervisor
