import BaoHypervisor.Core.Mem.PageTable
import BaoHypervisor.Theory.BitField

/-!
# Sv39 page tables

The words of RISC-V entries hold the page number in bits 10 to 53 and the flags in the low
byte, with two software bits in between. A valid entry that is not readable, writable or
executable points to a table, at any level. The hypervisor uses Sv39 tables and a VM the
Sv39x4 tables with two more bits of addresses.
-/

namespace BaoHypervisor

namespace Riscv

def pteAddrMsk : BitVec 64 := 0x00fffffffffff000#64

def pteFlagsMsk : Pte := 0xff#64

/-- `PTE_RSW_MSK`, and `PTE_RSW_RSRV`. -/
def pteRswMsk : Pte := 0x300#64

/-- `PTE_TABLE`, `PTE_PAGE` and `PTE_SUPERPAGE`. -/
def pteTypeBits : PteType → Pte
  | .table => 0x1#64
  | .page => 0xf#64
  | .superpage => 0xf#64

def pteHypFlags : Pte := 0xe0#64

def pteHypDevFlags : Pte := pteHypFlags

def pteVmFlags : Pte := 0xd0#64

def pteSet (addr : Addr) (type : PteType) (flags : Pte) : Pte :=
  (addr &&& pteAddrMsk) >>> 2 |||
    (if type = .table then pteTypeBits type else pteTypeBits type ||| flags) &&& pteFlagsMsk

def pteAddr (pte : Pte) : Addr := pte <<< 2 &&& pteAddrMsk

def pteValid (pte : Pte) : Bool := pte &&& 0x1#64 != 0#64

def pteTable (pte : Pte) : Bool := pte &&& 0xf#64 == 0x1#64

def ptePage (pte : Pte) : Bool := pte &&& 0x1#64 != 0#64 && pte &&& 0xe#64 != 0#64

/-- `pte_set_rsw`, for `PTE_RSW_RSRV`. -/
def pteReserve (pte : Pte) : Pte := pte &&& ~~~pteRswMsk ||| pteRswMsk

/-- `pte_check_rsw`, for `PTE_RSW_RSRV`. -/
def pteReserved (pte : Pte) : Bool := pte &&& pteRswMsk == pteRswMsk

/-! ## Entries by their low bits -/

theorem pteValid_eq (pte : Pte) : pteValid pte = (pte.setWidth 10 &&& 0x1#10 != 0#10) := by
  rw [pteValid, BitField.and_eq_setWidth (k := 10) rfl]
  exact congrArg not (BitField.setWidth_beq (by decide) _ 0x0#10)

theorem pteTable_eq (pte : Pte) : pteTable pte = (pte.setWidth 10 &&& 0xf#10 == 0x1#10) := by
  rw [pteTable, BitField.and_eq_setWidth (k := 10) rfl]
  exact BitField.setWidth_beq (by decide) _ 0x1#10

theorem ptePage_eq (pte : Pte) :
    ptePage pte = (pte.setWidth 10 &&& 0x1#10 != 0#10 && pte.setWidth 10 &&& 0xe#10 != 0#10) := by
  have hbits : (pte &&& 0xe#64 != 0#64) = (pte.setWidth 10 &&& 0xe#10 != 0#10) := by
    rw [BitField.and_eq_setWidth (k := 10) rfl]
    exact congrArg not (BitField.setWidth_beq (by decide) _ 0x0#10)
  rw [← pteValid_eq, ← hbits]
  rfl

theorem pteReserved_eq (pte : Pte) :
    pteReserved pte = (pte.setWidth 10 &&& 0x300#10 == 0x300#10) := by
  rw [pteReserved, pteRswMsk, BitField.and_eq_setWidth (k := 10) rfl]
  exact BitField.setWidth_beq (by decide) _ 0x300#10

theorem setWidth_pteReserve (pte : Pte) :
    (pteReserve pte).setWidth 10 = pte.setWidth 10 ||| 0x300#10 := by
  have hlow : ∀ w : BitVec 10, w &&& 0x0ff#10 ||| 0x300#10 = w ||| 0x300#10 := by decide +kernel
  rw [pteReserve, BitVec.setWidth_or, BitVec.setWidth_and, ← hlow]
  rfl

theorem setWidth_pteSet (addr : Addr) (type : PteType) (flags : Pte) :
    (pteSet addr type flags).setWidth 10 =
      (if type = .table then 0x1#10 else 0xf#10 ||| flags.setWidth 10) &&& 0xff#10 := by
  have hmsk : ∀ i : Fin 10, pteAddrMsk.getLsbD (2 + i.val) = false := by decide
  have haddr : ((addr &&& pteAddrMsk) >>> 2).setWidth 10 = 0#10 := by
    refine BitVec.eq_of_getLsbD_eq fun i hi => ?_
    rw [BitVec.getLsbD_setWidth, BitVec.getLsbD_ushiftRight, BitVec.getLsbD_and, hmsk ⟨i, hi⟩]
    simp
  rw [pteSet, BitVec.setWidth_or, haddr, BitVec.zero_or, BitVec.setWidth_and]
  cases type with
  | table => rfl
  | page => rw [if_neg (by decide), if_neg (by decide), BitVec.setWidth_or]; rfl
  | superpage => rw [if_neg (by decide), if_neg (by decide), BitVec.setWidth_or]; rfl

theorem pteAddr_pteSet (addr : Addr) (type : PteType) (flags : Pte) :
    pteAddr (pteSet addr type flags) = addr &&& pteAddrMsk := by
  have hmsk : ∀ i : Fin 64, pteAddrMsk.getLsbD i = (decide (12 ≤ i.val) && decide (i.val < 56)) :=
    by decide
  have hflags : ∀ i : Fin 64, 8 ≤ i.val → pteFlagsMsk.getLsbD i = false := by decide
  refine BitVec.eq_of_getLsbD_eq fun i hi => ?_
  rw [pteAddr, pteSet, BitVec.getLsbD_and, BitVec.getLsbD_shiftLeft, BitVec.getLsbD_or,
    BitVec.getLsbD_and, BitVec.getLsbD_ushiftRight, BitVec.getLsbD_and, BitVec.getLsbD_and,
    hmsk ⟨i, hi⟩]
  by_cases hpage : 12 ≤ i
  · have hshift : 2 + (i - 2) = i := by omega
    have htwo : ¬ i < 2 := by omega
    rw [hflags ⟨i - 2, by omega⟩ (by simp only; omega), hshift, hmsk ⟨i, hi⟩]
    simp [hpage, hi, htwo]
  · simp [hpage]

theorem flags_pteSet (addr : Addr) {type : PteType} (flags : Pte) (h : type ≠ .table) :
    pteSet addr type flags &&& pteFlagsMsk = (pteTypeBits type ||| flags) &&& pteFlagsMsk := by
  have hlow : ∀ w : BitVec 10,
      (0xf#10 ||| w) &&& 0xff#10 &&& 0xff#10 = (0xf#10 ||| w) &&& 0xff#10 := by
    decide +kernel
  have hbits : (pteTypeBits type).setWidth 10 = 0xf#10 := by
    cases type with
    | table => exact absurd rfl h
    | page => rfl
    | superpage => rfl
  rw [pteFlagsMsk, BitField.and_eq_setWidth (w := 64) (k := 10) rfl,
    BitField.and_eq_setWidth (w := 64) (k := 10) rfl, setWidth_pteSet, if_neg h,
    BitVec.setWidth_or, hbits]
  exact congrArg _ (hlow _)

/-- The words of `arch/page_table.h`. -/
def pteFormat : PteFormat where
  addrWidth := 56
  typeBits := pteTypeBits
  flagsMsk := pteFlagsMsk
  rswMsk := pteRswMsk
  hypFlags := pteHypFlags
  vmFlags := pteVmFlags
  FlagsOk := fun _ => True
  pteSet := pteSet
  pteAddr := pteAddr
  pteValid := pteValid
  pteTable := fun _ => pteTable
  ptePage := fun _ => ptePage
  pteReserve := pteReserve
  pteReserved := pteReserved
  addrWidth_lt := by omega
  hypFlags_ok := trivial
  vmFlags_ok := trivial
  toNat_pteAddr_pteSet := fun addr type flags => by
    rw [pteAddr_pteSet, toNat_and_addrMsk (k := 44) (by decide)]
  toNat_pteAddr_lt := fun pte => by
    rw [pteAddr, toNat_and_addrMsk (k := 44) (by decide)]
    exact (Nat.div_mul_le_self _ _).trans_lt (Nat.mod_lt _ (Nat.two_pow_pos 56))
  flags_pteSet := fun addr _ flags h => flags_pteSet addr flags h
  pteValid_pteSet := fun addr type flags => by
    have hlow : ∀ w : BitVec 10, ((0xf#10 ||| w) &&& 0xff#10 &&& 0x1#10 != 0#10) = true := by
      decide +kernel
    rw [pteValid_eq, setWidth_pteSet]
    split_ifs
    · rfl
    · exact hlow _
  pteTable_pteSet := fun addr => by
    rw [pteTable_eq, setWidth_pteSet]
    rfl
  ptePage_pteSet := fun last addr flags _ => by
    have hlow : ∀ w : BitVec 10, ((0xf#10 ||| w) &&& 0xff#10 &&& 0x1#10 != 0#10 &&
        (0xf#10 ||| w) &&& 0xff#10 &&& 0xe#10 != 0#10) = true := by decide +kernel
    rw [ptePage_eq, setWidth_pteSet, if_neg (by cases last <;> decide), hlow]
  pteReserved_pteSet := fun addr type flags _ => by
    have hlow : ∀ w : BitVec 10, (w &&& 0xff#10 &&& 0x300#10 == 0x300#10) = false := by
      decide +kernel
    rw [pteReserved_eq, setWidth_pteSet, hlow]
  pteTable_of_ptePage := fun _ pte h => by
    have hlow : ∀ w : BitVec 10, (w &&& 0x1#10 != 0#10 && w &&& 0xe#10 != 0#10) = true →
        (w &&& 0xf#10 == 0x1#10) = false := by decide +kernel
    rw [ptePage_eq] at h
    rw [pteTable_eq, hlow _ h]
  pteValid_of_pteTable := fun _ pte h => by
    have hlow : ∀ w : BitVec 10, (w &&& 0xf#10 == 0x1#10) = true →
        (w &&& 0x1#10 != 0#10) = true := by decide +kernel
    rw [pteTable_eq] at h
    rw [pteValid_eq, hlow _ h]
  pteValid_pteReserve := fun pte => by
    have hlow : ∀ w : BitVec 10,
        ((w ||| 0x300#10) &&& 0x1#10 != 0#10) = (w &&& 0x1#10 != 0#10) := by
      decide +kernel
    rw [pteValid_eq, pteValid_eq, setWidth_pteReserve, hlow]
  pteReserved_pteReserve := fun pte => by
    have hlow : ∀ w : BitVec 10, ((w ||| 0x300#10) &&& 0x300#10 == 0x300#10) = true := by
      decide +kernel
    rw [pteReserved_eq, setWidth_pteReserve, hlow]
  pteValid_rsw := fun pte => by
    have hlow : ∀ w : BitVec 10, (w &&& 0x300#10 &&& 0x1#10 != 0#10) = false := by
      decide +kernel
    rw [pteValid_eq, BitVec.setWidth_and]
    exact hlow _
  pteReserved_rsw := fun pte => by
    have hlow : ∀ w : BitVec 10, (w &&& 0x300#10 &&& 0x300#10 == 0x300#10) =
        (w &&& 0x300#10 == 0x300#10) := by decide +kernel
    rw [pteReserved_eq, pteReserved_eq, BitVec.setWidth_and]
    exact hlow _
  pteValid_zero := by decide
  pteReserved_zero := by decide

def sv39PtDscr : PtDscr where
  lvls := 3
  lvlOff := fun lvl => if lvl = 0 then 30 else if lvl = 1 then 21 else 12
  lvlWdt := fun lvl => if lvl = 0 then 39 else if lvl = 1 then 30 else 21
  lvlTerm := fun _ => true
  lvls_pos := Nat.succ_pos 2
  lvlOff_last := rfl
  lvlWdt_succ := fun lvl h => by
    obtain rfl | rfl : lvl = 0 ∨ lvl = 1 := by omega
    · rfl
    · rfl
  lvlOff_lt := fun lvl h => by
    split_ifs <;> exact Nat.le_of_ble_eq_true rfl
  lvlWdt_le := Nat.le_of_ble_eq_true rfl
  lvlTerm_last := rfl
  lvlTerm_succ := fun _ _ => rfl

def sv39x4PtDscr : PtDscr where
  lvls := 3
  lvlOff := fun lvl => if lvl = 0 then 30 else if lvl = 1 then 21 else 12
  lvlWdt := fun lvl => if lvl = 0 then 41 else if lvl = 1 then 30 else 21
  lvlTerm := fun _ => true
  lvls_pos := Nat.succ_pos 2
  lvlOff_last := rfl
  lvlWdt_succ := fun lvl h => by
    obtain rfl | rfl : lvl = 0 ∨ lvl = 1 := by omega
    · rfl
    · rfl
  lvlOff_lt := fun lvl h => by
    split_ifs <;> exact Nat.le_of_ble_eq_true rfl
  lvlWdt_le := Nat.le_of_ble_eq_true rfl
  lvlTerm_last := rfl
  lvlTerm_succ := fun _ _ => rfl

/-- An address space of the hypervisor. -/
def hypMmu (sections : List VaSection) (newTable : ℕ → ℕ → Addr) : Mmu where
  fmt := pteFormat
  dscr := sv39PtDscr
  asType := .hyp
  sections := sections
  newTable := newTable
  lvlOff_le := by change 30 ≤ 56; omega

/-- An address space of a VM, with `vm_secs`. -/
def vmMmu (newTable : ℕ → ℕ → Addr) : Mmu where
  fmt := pteFormat
  dscr := sv39x4PtDscr
  asType := .vm
  sections := [⟨0, maxVa⟩]
  newTable := newTable
  lvlOff_le := by change 30 ≤ 56; omega

end Riscv

end BaoHypervisor
