import BaoHypervisor.Core.Mem.PageTable
import BaoHypervisor.Theory.BitField

/-!
# Armv8-A page tables

An entry holds the address of a page in bits 12 to 47 and its type in the two low bits; the
software bits are 55 to 58. The words of a table and of a page are of the same type, so the
level tells them apart: entries of the last level are pages. The root tables of both stages
have no superpages.
-/

namespace BaoHypervisor

namespace Armv8

def pteAddrMsk : BitVec 64 := 0x0000fffffffff000#64

def pteFlagsMsk : Pte := ~~~pteAddrMsk

def pteTypeMsk : Pte := 0x3#64

def pteRswMsk : Pte := 0x0780000000000000#64

def pteRswRsrv : Pte := 0x0180000000000000#64

/-- `PTE_TABLE`, `PTE_PAGE` and `PTE_SUPERPAGE`. -/
def pteTypeBits : PteType → Pte
  | .table => 0x3#64
  | .page => 0x3#64
  | .superpage => 0x1#64

def pteHypFlags : Pte := 0x744#64

def pteVmFlags : Pte := 0x4fc#64

def pteVmDevFlags : Pte := 0x4cc#64

def pteSet (addr : Addr) (type : PteType) (flags : Pte) : Pte :=
  addr &&& pteAddrMsk ||| (pteTypeBits type ||| flags) &&& pteFlagsMsk

def pteAddr (pte : Pte) : Addr := pte &&& pteAddrMsk

def pteValid (pte : Pte) : Bool := pte &&& 0x1#64 != 0#64

def pteTable (last : Bool) (pte : Pte) : Bool :=
  if last then false else pte &&& pteTypeMsk == pteTypeBits .table

/-- `pte_page`, at a level that has pages. -/
def ptePage (last : Bool) (pte : Pte) : Bool :=
  if last then pte &&& pteTypeMsk == pteTypeBits .page
  else pte &&& pteTypeMsk == pteTypeBits .superpage

/-- `pte_set_rsw`, for `PTE_RSW_RSRV`. -/
def pteReserve (pte : Pte) : Pte := pte &&& ~~~pteRswMsk ||| pteRswRsrv &&& pteRswMsk

/-- `pte_check_rsw`, for `PTE_RSW_RSRV`. -/
def pteReserved (pte : Pte) : Bool := pte &&& pteRswMsk == pteRswRsrv &&& pteRswMsk

/-! ## Entries by their type and software bits -/

def rsw (pte : Pte) : BitVec 4 := pte.extractLsb' 55 4

theorem pteValid_eq (pte : Pte) : pteValid pte = (pte.setWidth 2 &&& 0x1#2 != 0#2) := by
  rw [pteValid, BitField.and_eq_setWidth (k := 2) rfl]
  exact congrArg not (BitField.setWidth_beq (by decide) _ 0x0#2)

theorem and_pteTypeMsk (pte : Pte) : pte &&& pteTypeMsk = (pte.setWidth 2).setWidth 64 := by
  have hlow : ∀ w : BitVec 2, (w &&& pteTypeMsk.setWidth 2) = w := by decide
  rw [pteTypeMsk, BitField.and_eq_setWidth (k := 2) rfl]
  exact congrArg _ (hlow _)

theorem pteTable_eq (pte : Pte) : pteTable false pte = (pte.setWidth 2 == 0x3#2) := by
  rw [pteTable, if_neg Bool.false_ne_true, and_pteTypeMsk]
  exact BitField.setWidth_beq (by decide) _ 0x3#2

theorem ptePage_eq (last : Bool) (pte : Pte) :
    ptePage last pte = (pte.setWidth 2 == if last then 0x3#2 else 0x1#2) := by
  rw [ptePage, and_pteTypeMsk]
  cases last with
  | true => exact BitField.setWidth_beq (by decide) _ 0x3#2
  | false => exact BitField.setWidth_beq (by decide) _ 0x1#2

theorem getLsbD_pteRswMsk (i : ℕ) (hi : i < 64) :
    pteRswMsk.getLsbD i = decide (55 ≤ i ∧ i < 59) := by
  have hmsk : ∀ i : Fin 64, pteRswMsk.getLsbD i = decide (55 ≤ i.val ∧ i.val < 59) := by decide
  exact hmsk ⟨i, hi⟩

theorem rsw_and_pteRswMsk (pte : Pte) : rsw (pte &&& pteRswMsk) = rsw pte := by
  have hmsk : rsw pteRswMsk = BitVec.allOnes 4 := by decide
  rw [rsw, BitVec.extractLsb'_and]
  rw [rsw] at hmsk
  rw [hmsk, BitVec.and_allOnes, rsw]

theorem pteReserved_eq (pte : Pte) : pteReserved pte = (rsw pte == 0x3#4) := by
  have hback : ∀ w : BitVec 64, w &&& pteRswMsk = (rsw w).setWidth 64 <<< 55 := by
    intro w
    refine BitVec.eq_of_getLsbD_eq fun i hi => ?_
    rw [BitVec.getLsbD_and, getLsbD_pteRswMsk i hi, BitVec.getLsbD_shiftLeft,
      BitVec.getLsbD_setWidth, rsw, BitVec.getLsbD_extractLsb']
    by_cases hlow : i < 55
    · simp [hlow]
    · have hadd : 55 + (i - 55) = i := by omega
      have hlt : (i - 55 < 4) = (i < 59) := by
        rw [eq_iff_iff]
        omega
      have hwidth : i - 55 < 64 := by omega
      simp [hlow, hi, hadd, hlt, hwidth, Nat.not_lt.mp hlow, Bool.and_comm]
  have hrsrv : ∀ w : BitVec 4, (w.setWidth 64 <<< 55 == pteRswRsrv &&& pteRswMsk) = (w == 0x3#4) :=
    by decide
  rw [pteReserved, hback, hrsrv]

theorem rsw_pteReserve (pte : Pte) : rsw (pteReserve pte) = 0x3#4 := by
  have hnot : rsw (~~~pteRswMsk) = 0#4 := by decide
  have hrsrv : rsw (pteRswRsrv &&& pteRswMsk) = 0x3#4 := by decide
  rw [rsw] at hnot hrsrv
  rw [pteReserve, rsw, BitVec.extractLsb'_or, BitVec.extractLsb'_and, hnot, hrsrv, BitVec.and_zero,
    BitVec.zero_or]

theorem setWidth_pteReserve (pte : Pte) : (pteReserve pte).setWidth 2 = pte.setWidth 2 := by
  have hnot : (~~~pteRswMsk).setWidth 2 = BitVec.allOnes 2 := by decide
  have hrsrv : (pteRswRsrv &&& pteRswMsk).setWidth 2 = 0#2 := by decide
  rw [pteReserve, BitVec.setWidth_or, BitVec.setWidth_and, hnot, hrsrv, BitVec.and_allOnes,
    BitVec.or_zero]

theorem setWidth_pteSet (addr : Addr) (type : PteType) (flags : Pte) :
    (pteSet addr type flags).setWidth 2 = (pteTypeBits type).setWidth 2 ||| flags.setWidth 2 := by
  have haddr : pteAddrMsk.setWidth 2 = 0#2 := by decide
  have hflags : pteFlagsMsk.setWidth 2 = BitVec.allOnes 2 := by decide
  rw [pteSet, BitVec.setWidth_or, BitVec.setWidth_and, BitVec.setWidth_and, BitVec.setWidth_or,
    haddr, hflags, BitVec.and_zero, BitVec.zero_or, BitVec.and_allOnes]

theorem rsw_pteSet (addr : Addr) (type : PteType) (flags : Pte) :
    rsw (pteSet addr type flags) = rsw flags := by
  have haddr : rsw pteAddrMsk = 0#4 := by decide
  have hflags : rsw pteFlagsMsk = BitVec.allOnes 4 := by decide
  have htype : rsw (pteTypeBits type) = 0#4 := by cases type <;> decide
  rw [rsw] at haddr hflags htype
  rw [pteSet, rsw, BitVec.extractLsb'_or, BitVec.extractLsb'_and, BitVec.extractLsb'_and,
    BitVec.extractLsb'_or, haddr, hflags, htype, BitVec.and_zero, BitVec.zero_or, BitVec.zero_or,
    BitVec.and_allOnes, rsw]

theorem pteAddr_pteSet (addr : Addr) (type : PteType) (flags : Pte) :
    pteAddr (pteSet addr type flags) = addr &&& pteAddrMsk := by
  have hflags : pteFlagsMsk &&& pteAddrMsk = 0#64 := by decide
  have hdistrib : ∀ a b c : BitVec 64, (a ||| b) &&& c = a &&& c ||| b &&& c := by
    intro a b c
    refine BitVec.eq_of_getLsbD_eq fun i _ => ?_
    simp only [BitVec.getLsbD_and, BitVec.getLsbD_or, Bool.and_or_distrib_right]
  rw [pteAddr, pteSet, hdistrib, BitVec.and_assoc, BitVec.and_self, BitVec.and_assoc, hflags,
    BitVec.and_zero, BitVec.or_zero]

theorem flags_pteSet (addr : Addr) (type : PteType) (flags : Pte) :
    pteSet addr type flags &&& pteFlagsMsk = (pteTypeBits type ||| flags) &&& pteFlagsMsk := by
  have hflags : pteAddrMsk &&& pteFlagsMsk = 0#64 := by decide
  refine BitVec.eq_of_getLsbD_eq fun i _ => ?_
  have hbit : (pteAddrMsk.getLsbD i && pteFlagsMsk.getLsbD i) = false := by
    rw [← BitVec.getLsbD_and, hflags, BitVec.getLsbD_zero]
  rw [pteSet, BitVec.getLsbD_and, BitVec.getLsbD_or, BitVec.getLsbD_and, BitVec.getLsbD_and,
    Bool.and_or_distrib_right, Bool.and_assoc, Bool.and_assoc, hbit,
    Bool.and_false, Bool.false_or, Bool.and_self]

/-- The words of `arch/page_table.h`. -/
def pteFormat : PteFormat where
  addrWidth := 48
  typeBits := pteTypeBits
  flagsMsk := pteFlagsMsk
  rswMsk := pteRswMsk
  hypFlags := pteHypFlags
  vmFlags := pteVmFlags
  FlagsOk := fun flags => flags.setWidth 2 &&& 0x2#2 = 0#2 ∧ rsw flags = 0#4
  pteSet := pteSet
  pteAddr := pteAddr
  pteValid := pteValid
  pteTable := pteTable
  ptePage := ptePage
  pteReserve := pteReserve
  pteReserved := pteReserved
  addrWidth_lt := by omega
  hypFlags_ok := by decide
  vmFlags_ok := by decide
  toNat_pteAddr_pteSet := fun addr type flags => by
    rw [pteAddr_pteSet, toNat_and_addrMsk (k := 36) (by decide)]
  toNat_pteAddr_lt := fun pte => by
    rw [pteAddr, toNat_and_addrMsk (k := 36) (by decide)]
    exact (Nat.div_mul_le_self _ _).trans_lt (Nat.mod_lt _ (Nat.two_pow_pos 48))
  flags_pteSet := fun addr type flags _ => flags_pteSet addr type flags
  pteValid_pteSet := fun addr type flags => by
    have hlow : ∀ w : BitVec 2, ((0x3#2 ||| w) &&& 0x1#2 != 0#2) = true ∧
        ((0x1#2 ||| w) &&& 0x1#2 != 0#2) = true := by decide
    rw [pteValid_eq, setWidth_pteSet]
    cases type with
    | table => exact (hlow _).1
    | page => exact (hlow _).1
    | superpage => exact (hlow _).2
  pteTable_pteSet := fun addr => by
    rw [pteTable_eq, setWidth_pteSet]
    rfl
  ptePage_pteSet := fun last addr flags h => by
    have hlow : ∀ w : BitVec 2, w &&& 0x2#2 = 0#2 →
        (0x3#2 ||| w == 0x3#2) = true ∧ (0x1#2 ||| w == 0x1#2) = true := by decide
    rw [ptePage_eq, setWidth_pteSet]
    cases last with
    | true => exact (hlow _ h.1).1
    | false => exact (hlow _ h.1).2
  pteReserved_pteSet := fun addr type flags h => by
    rw [pteReserved_eq, rsw_pteSet, h.2]
    rfl
  pteTable_of_ptePage := fun last pte h => by
    cases last with
    | true => rfl
    | false =>
        have hlow : ∀ w : BitVec 2, (w == 0x1#2) = true → (w == 0x3#2) = false := by decide
        rw [ptePage_eq] at h
        rw [pteTable_eq, hlow _ h]
  pteValid_of_pteTable := fun last pte h => by
    cases last with
    | true => exact absurd h Bool.false_ne_true
    | false =>
        have hlow : ∀ w : BitVec 2, (w == 0x3#2) = true → (w &&& 0x1#2 != 0#2) = true := by decide
        rw [pteTable_eq] at h
        rw [pteValid_eq, hlow _ h]
  pteValid_pteReserve := fun pte => by
    rw [pteValid_eq, pteValid_eq, setWidth_pteReserve]
  pteReserved_pteReserve := fun pte => by
    rw [pteReserved_eq, rsw_pteReserve]
    rfl
  pteValid_rsw := fun pte => by
    have hmsk : pteRswMsk.setWidth 2 = 0#2 := by decide
    rw [pteValid_eq, BitVec.setWidth_and, hmsk, BitVec.and_zero]
    rfl
  pteReserved_rsw := fun pte => by
    rw [pteReserved_eq, pteReserved_eq, rsw_and_pteRswMsk]
  pteValid_zero := by decide
  pteReserved_zero := by decide

/-- `armv8_pt_dscr`, and `armv8_pt_s2_dscr` before the physical address range changes it. -/
def armv8PtDscr : PtDscr where
  lvls := 4
  lvlOff := fun lvl => if lvl = 0 then 39 else if lvl = 1 then 30 else if lvl = 2 then 21 else 12
  lvlWdt := fun lvl => if lvl = 0 then 48 else if lvl = 1 then 39 else if lvl = 2 then 30 else 21
  lvlTerm := fun lvl => lvl != 0
  lvls_pos := by omega
  lvlOff_last := by rfl
  lvlWdt_succ := fun lvl h => by
    obtain rfl | rfl | rfl : lvl = 0 ∨ lvl = 1 ∨ lvl = 2 := by omega
    · rfl
    · rfl
    · rfl
  lvlOff_lt := fun lvl h => by
    split_ifs <;> exact Nat.le_of_ble_eq_true rfl
  lvlWdt_le := Nat.le_of_ble_eq_true rfl
  lvlTerm_last := by rfl
  lvlTerm_succ := fun _ _ => bne_iff_ne.mpr (Nat.succ_ne_zero _)

/-- An address space of a VM, with `vm_secs`. -/
def vmMmu (newTable : ℕ → ℕ → Addr) : Mmu where
  fmt := pteFormat
  dscr := armv8PtDscr
  asType := .vm
  sections := [⟨0, maxVa⟩]
  newTable := newTable
  lvlOff_le := Nat.le_of_ble_eq_true rfl

end Armv8

end BaoHypervisor
