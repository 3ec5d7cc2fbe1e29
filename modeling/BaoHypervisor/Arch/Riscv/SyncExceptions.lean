import BaoHypervisor.Lib.Util
import BaoHypervisor.Theory.BitField

/-!
# Loads and stores that fault on emulated memory

`guest_page_fault_handler` decodes the load or store of the guest. Where `htinst` holds the
transformed instruction, this is the full form of it with the size of the original in bit 1;
where it is 0, the handler reads the instruction from the memory of the guest, and decodes
the compressed forms by a table of their own. That table has the loads and stores of words
only.
-/

namespace BaoHypervisor

/-- The fields of `struct emul_access` that `ins_ldst_decode` sets. -/
structure LdstAccess where
  width : ℕ
  regWidth : ℕ
  write : Bool
  reg : ℕ
  signExt : Bool
deriving DecidableEq, Repr

def reglen : ℕ := 8

section Macros

variable (ins : BitVec 64)

def insCompressed : Bool := ins &&& 3#64 != 3#64
def insSize : ℕ := if ins &&& 3#64 = 3#64 then 4 else 2
def insOpcode : BitVec 64 := ins &&& 0x7f#64
def insFunct3 : BitVec 64 := ins >>> 12 &&& 0x7#64
def insRd : BitVec 64 := ins >>> 7 &&& 0x1f#64
def insRs2 : BitVec 64 := ins >>> 20 &&& 0x1f#64
def insCOpcode : BitVec 64 := ins &&& 0xe003#64
def insCRdRs2 : BitVec 64 := ins >>> 2 &&& 0x7#64
def tinstInsSize : ℕ := if ins &&& 0x2#64 = 0#64 then 2 else 4

end Macros

def matchLoad : BitVec 64 := 0x03#64
def matchStore : BitVec 64 := 0x23#64
def matchCLoad : BitVec 64 := 0x4000#64
def matchCStore : BitVec 64 := 0xc000#64

def insLdstDecode (ins : BitVec 64) : Option LdstAccess :=
  if insCompressed ins then
    if insCOpcode ins ≠ matchCLoad ∧ insCOpcode ins ≠ matchCStore then none
    else
      some
        { width := 4
          regWidth := reglen
          write := insCOpcode ins == matchCStore
          reg := (insCRdRs2 ins).toNat + 8
          signExt := true }
  else if insOpcode ins ≠ matchLoad ∧ insOpcode ins ≠ matchStore then none
  else
    let funct3 := insFunct3 ins
    let write := insOpcode ins == matchStore
    some
      { width :=
          if funct3 &&& 3#64 = 0#64 then 1
          else if funct3 &&& 3#64 = 1#64 then 2
          else if funct3 &&& 3#64 = 2#64 then 4
          else 8
        regWidth := reglen
        write := write
        reg := if write then (insRs2 ins).toNat else (insRd ins).toNat
        signExt := funct3 &&& 0x4#64 == 0#64 }

def isPseudoIns (ins : BitVec 32) : Bool := ins == 0x3020#32 || ins == 0x3000#32

/-- `read_ins`, where `hlvxhu` gives the half words of the memory of the guest: `none` for
an odd address. -/
def readIns (hlvxhu : Addr → BitVec 16) (insAddr : Addr) : Option (BitVec 32) :=
  if insAddr &&& 1#64 ≠ 0#64 then none
  else
    let ins := (hlvxhu insAddr).setWidth 32
    if ins &&& 3#32 = 3#32 then
      some (ins ||| (hlvxhu (insAddr + 2#64)).setWidth 32 <<< 16)
    else some ins

/-- What `guest_page_fault_handler` finds out about the instruction: the access that it
hands to the handler of the address and the size it returns. -/
def guestPageFaultDecode (htinst : BitVec 64) (hlvxhu : Addr → BitVec 16) (sepc : Addr) :
    Option (LdstAccess × ℕ) :=
  if htinst = 0#64 then
    (readIns hlvxhu sepc).bind fun ins =>
      (insLdstDecode (ins.setWidth 64)).map fun emul => (emul, insSize (ins.setWidth 64))
  else if isPseudoIns (htinst.setWidth 32) then none
  else (insLdstDecode (htinst ||| 0b10#64)).map fun emul => (emul, tinstInsSize htinst)

/-! ## Instructions -/

inductive LoadOp
  | lb
  | lh
  | lw
  | ld
  | lbu
  | lhu
  | lwu
deriving DecidableEq, Repr

inductive StoreOp
  | sb
  | sh
  | sw
  | sd
deriving DecidableEq, Repr

def LoadOp.funct3 : LoadOp → BitVec 3
  | .lb => 0#3
  | .lh => 1#3
  | .lw => 2#3
  | .ld => 3#3
  | .lbu => 4#3
  | .lhu => 5#3
  | .lwu => 6#3

def StoreOp.funct3 : StoreOp → BitVec 3
  | .sb => 0#3
  | .sh => 1#3
  | .sw => 2#3
  | .sd => 3#3

/-- The integer loads and stores. A compressed one is of a word or of a double word, its
registers are the eight from `x8` on, and its offset is in two parts, in the order of the
encoding. -/
inductive LdstIns
  | load (op : LoadOp) (rd rs1 : BitVec 5) (imm : BitVec 12)
  | store (op : StoreOp) (rs1 rs2 : BitVec 5) (imm : BitVec 12)
  | cLoad (double : Bool) (rd rs1 : BitVec 3) (uimmHi : BitVec 3) (uimmLo : BitVec 2)
  | cStore (double : Bool) (rs1 rs2 : BitVec 3) (uimmHi : BitVec 3) (uimmLo : BitVec 2)
deriving DecidableEq, Repr

namespace LdstIns

def insWord (hi : BitVec 12) (rs1 : BitVec 5) (funct3 : BitVec 3) (rd : BitVec 5)
    (opcode : BitVec 7) : BitVec 32 :=
  hi ++ rs1 ++ funct3 ++ rd ++ opcode

def loadWord (imm : BitVec 12) (rs1 : BitVec 5) (op : LoadOp) (rd : BitVec 5)
    (opcode : BitVec 7) : BitVec 32 :=
  insWord imm rs1 op.funct3 rd opcode

def storeWord (immHi : BitVec 7) (rs2 rs1 : BitVec 5) (op : StoreOp) (immLo : BitVec 5)
    (opcode : BitVec 7) : BitVec 32 :=
  insWord (immHi ++ rs2) rs1 op.funct3 immLo opcode

def compressedHalf (funct3 uimmHi rs1 : BitVec 3) (uimmLo : BitVec 2) (reg : BitVec 3) :
    BitVec 16 :=
  funct3 ++ uimmHi ++ rs1 ++ uimmLo ++ reg ++ 0#2

def cLoadOp (double : Bool) : LoadOp := if double then .ld else .lw

def cStoreOp (double : Bool) : StoreOp := if double then .sd else .sw

def cReg (reg : BitVec 3) : BitVec 5 := 1#2 ++ reg

/-- The instruction stands in the memory of the guest at an even address. -/
def StandsAt (hlvxhu : Addr → BitVec 16) (addr : Addr) (i : LdstIns) : Prop :=
  addr &&& 1#64 = 0#64 ∧
    match i with
    | .load op rd rs1 imm =>
        hlvxhu (addr + 2#64) ++ hlvxhu addr = loadWord imm rs1 op rd 0x03#7
    | .store op rs1 rs2 imm =>
        hlvxhu (addr + 2#64) ++ hlvxhu addr =
          storeWord (imm.extractLsb' 5 7) rs2 rs1 op (imm.extractLsb' 0 5) 0x23#7
    | .cLoad double rd rs1 uimmHi uimmLo =>
        hlvxhu addr = compressedHalf (if double then 3#3 else 2#3) uimmHi rs1 uimmLo rd
    | .cStore double rs1 rs2 uimmHi uimmLo =>
        hlvxhu addr = compressedHalf (if double then 7#3 else 6#3) uimmHi rs1 uimmLo rs2

/-- The transformed instruction that the hypervisor extension puts into `htinst`: the full
form without its offset, with the offset of the faulting address in place of the base
register, and bit 1 clear if the original was compressed. -/
def transformed (i : LdstIns) (addrOffset : BitVec 5) : BitVec 64 :=
  match i with
  | .load op rd _ _ => (loadWord 0#12 addrOffset op rd 0x03#7).setWidth 64
  | .store op _ rs2 _ => (storeWord 0#7 rs2 addrOffset op 0#5 0x23#7).setWidth 64
  | .cLoad double rd _ _ _ =>
      (loadWord 0#12 addrOffset (cLoadOp double) (cReg rd) 0x01#7).setWidth 64
  | .cStore double _ rs2 _ _ =>
      (storeWord 0#7 (cReg rs2) addrOffset (cStoreOp double) 0#5 0x21#7).setWidth 64

def CompressedDouble : LdstIns → Prop
  | .cLoad double .. | .cStore double .. => double = true
  | .load .. | .store .. => False

instance : (i : LdstIns) → Decidable i.CompressedDouble
  | .cLoad .. | .cStore .. => inferInstanceAs (Decidable (_ = true))
  | .load .. | .store .. => inferInstanceAs (Decidable False)

def loadAccess (op : LoadOp) (rd : BitVec 5) : LdstAccess where
  width :=
    match op with
    | .lb | .lbu => 1
    | .lh | .lhu => 2
    | .lw | .lwu => 4
    | .ld => 8
  regWidth := reglen
  write := false
  reg := rd.toNat
  signExt :=
    match op with
    | .lb | .lh | .lw | .ld => true
    | .lbu | .lhu | .lwu => false

def storeAccess (op : StoreOp) (rs2 : BitVec 5) : LdstAccess where
  width :=
    match op with
    | .sb => 1
    | .sh => 2
    | .sw => 4
    | .sd => 8
  regWidth := reglen
  write := true
  reg := rs2.toNat
  signExt := true

def access : LdstIns → LdstAccess
  | .load op rd _ _ => loadAccess op rd
  | .store op _ rs2 _ => storeAccess op rs2
  | .cLoad double rd _ _ _ => loadAccess (cLoadOp double) (cReg rd)
  | .cStore double _ rs2 _ _ => storeAccess (cStoreOp double) (cReg rs2)

def size : LdstIns → ℕ
  | .load .. | .store .. => 4
  | .cLoad .. | .cStore .. => 2

/-! ## Full instructions -/

section InsWord

variable {hi : BitVec 12} {rs1 rd : BitVec 5} {funct3 : BitVec 3} {opcode : BitVec 7}

theorem toNat_insWord :
    ((insWord hi rs1 funct3 rd opcode).setWidth 64).toNat =
      (((hi.toNat * 2 ^ 5 + rs1.toNat) * 2 ^ 3 + funct3.toNat) * 2 ^ 5 + rd.toNat) * 2 ^ 7 +
        opcode.toNat := by
  rw [BitVec.toNat_setWidth_of_le (by decide), insWord, BitField.toNat_append,
    BitField.toNat_append, BitField.toNat_append, BitField.toNat_append]

theorem insOpcode_insWord :
    insOpcode ((insWord hi rs1 funct3 rd opcode).setWidth 64) = opcode.setWidth 64 := by
  refine BitVec.eq_of_toNat_eq ((BitField.toNat_and_mask _ (by decide : 7 ≤ 64)).trans ?_)
  rw [toNat_insWord, BitVec.toNat_setWidth_of_le (by decide)]
  omega

theorem insFunct3_insWord :
    insFunct3 ((insWord hi rs1 funct3 rd opcode).setWidth 64) = funct3.setWidth 64 := by
  refine BitVec.eq_of_toNat_eq
    ((BitField.toNat_shift_and_mask _ 12 (by decide : 3 ≤ 64)).trans ?_)
  rw [toNat_insWord, BitVec.toNat_setWidth_of_le (by decide)]
  omega

theorem toNat_insRd_insWord :
    (insRd ((insWord hi rs1 funct3 rd opcode).setWidth 64)).toNat = rd.toNat := by
  refine (BitField.toNat_shift_and_mask _ 7 (by decide : 5 ≤ 64)).trans ?_
  rw [toNat_insWord]
  omega

theorem toNat_insRs2_insWord :
    (insRs2 ((insWord hi rs1 funct3 rd opcode).setWidth 64)).toNat = hi.toNat % 2 ^ 5 := by
  refine (BitField.toNat_shift_and_mask _ 20 (by decide : 5 ≤ 64)).trans ?_
  rw [toNat_insWord]
  omega

theorem insWord_and_three :
    (insWord hi rs1 funct3 rd opcode).setWidth 64 &&& 3#64 = (opcode &&& 3#7).setWidth 64 := by
  refine BitVec.eq_of_toNat_eq ((BitField.toNat_and_mask _ (by decide : 2 ≤ 64)).trans ?_)
  rw [toNat_insWord, BitVec.toNat_setWidth_of_le (by decide)]
  refine Eq.trans ?_ (BitField.toNat_and_mask opcode (by decide : 2 ≤ 7)).symm
  omega

theorem insLdstDecode_loadWord (op : LoadOp) :
    insLdstDecode ((loadWord hi rs1 op rd 0x03#7).setWidth 64) = some (loadAccess op rd) := by
  rw [insLdstDecode, loadWord, insCompressed, insWord_and_three, insOpcode_insWord,
    insFunct3_insWord, toNat_insRd_insWord, if_neg (by decide), if_neg (by decide)]
  cases op <;> rfl

theorem insLdstDecode_storeWord (op : StoreOp) (immHi : BitVec 7) (rs2 : BitVec 5) :
    insLdstDecode ((storeWord immHi rs2 rs1 op rd 0x23#7).setWidth 64) =
      some (storeAccess op rs2) := by
  have hrs2 : (immHi ++ rs2).toNat % 2 ^ 5 = rs2.toNat := by
    rw [BitField.toNat_append]
    omega
  rw [insLdstDecode, storeWord, insCompressed, insWord_and_three, insOpcode_insWord,
    insFunct3_insWord, toNat_insRs2_insWord, hrs2, if_neg (by decide), if_neg (by decide)]
  cases op <;> rfl

theorem insWord_or_two :
    (insWord hi rs1 funct3 rd opcode).setWidth 64 ||| 0b10#64 =
      (insWord hi rs1 funct3 rd (opcode ||| 0b10#7)).setWidth 64 := by
  have hbit : ((insWord hi rs1 funct3 rd opcode).setWidth 64).getLsbD 1 = opcode.getLsbD 1 := by
    rw [BitVec.getLsbD_setWidth, insWord, BitVec.getLsbD_append]
    rfl
  refine BitVec.eq_of_toNat_eq ((BitField.toNat_or_bit _ (by decide : 1 < 64)).trans ?_)
  rw [toNat_insWord, toNat_insWord, hbit, Nat.add_assoc]
  exact congrArg _ (BitField.toNat_or_bit opcode (by decide : 1 < 7)).symm

theorem tinstInsSize_insWord :
    tinstInsSize ((insWord hi rs1 funct3 rd opcode).setWidth 64) =
      tinstInsSize ((opcode &&& 3#7).setWidth 64) := by
  have hand : ∀ x : BitVec 64, tinstInsSize x = tinstInsSize (x &&& 3#64) := fun x => by
    rw [tinstInsSize, tinstInsSize, BitVec.and_assoc]
    rfl
  rw [hand, insWord_and_three]

/-- An instruction with one of its two low bits set is no pseudoinstruction. -/
theorem guestPageFaultDecode_insWord (hlow : opcode &&& 3#7 ≠ 0#7)
    (hlvxhu : Addr → BitVec 16) (sepc : Addr) :
    guestPageFaultDecode ((insWord hi rs1 funct3 rd opcode).setWidth 64) hlvxhu sepc =
      (insLdstDecode ((insWord hi rs1 funct3 rd (opcode ||| 0b10#7)).setWidth 64)).map fun emul =>
        (emul, tinstInsSize ((opcode &&& 3#7).setWidth 64)) := by
  have hne : ∀ x : BitVec 64, x &&& 3#64 = 0#64 →
      (insWord hi rs1 funct3 rd opcode).setWidth 64 ≠ x := by
    intro x hx heq
    have hthree := @insWord_and_three hi rs1 rd funct3 opcode
    rw [heq, hx] at hthree
    refine hlow (BitVec.eq_of_toNat_eq ?_)
    have htoNat := congrArg BitVec.toNat hthree
    rw [BitVec.toNat_setWidth_of_le (by decide)] at htoNat
    exact htoNat.symm
  have hpseudo : isPseudoIns (((insWord hi rs1 funct3 rd opcode).setWidth 64).setWidth 32) =
      false := by
    rw [isPseudoIns, Bool.or_eq_false_iff, beq_eq_false_iff_ne, beq_eq_false_iff_ne]
    have hback : ∀ y : BitVec 32, ((insWord hi rs1 funct3 rd opcode).setWidth 64).setWidth 32 =
        y → (insWord hi rs1 funct3 rd opcode).setWidth 64 = y.setWidth 64 := by
      intro y hy
      rw [BitVec.setWidth_setWidth_of_le _ (by decide : 32 ≤ 64), BitVec.setWidth_eq] at hy
      rw [hy]
    exact ⟨fun h => hne _ (by decide) (hback _ h), fun h => hne _ (by decide) (hback _ h)⟩
  rw [guestPageFaultDecode, if_neg (hne _ rfl), hpseudo, if_neg Bool.false_ne_true,
    insWord_or_two, tinstInsSize_insWord]

end InsWord

/-- A transformed instruction is decoded as what it is. -/
theorem guestPageFaultDecode_transformed (i : LdstIns) (addrOffset : BitVec 5)
    (hlvxhu : Addr → BitVec 16) (sepc : Addr) :
    guestPageFaultDecode (i.transformed addrOffset) hlvxhu sepc = some (i.access, i.size) := by
  cases i with
  | load op rd rs1 imm =>
      rw [transformed, loadWord, guestPageFaultDecode_insWord (by decide)]
      exact congrArg (Option.map _) (insLdstDecode_loadWord op)
  | store op rs1 rs2 imm =>
      rw [transformed, storeWord, guestPageFaultDecode_insWord (by decide)]
      exact congrArg (Option.map _) (insLdstDecode_storeWord op 0#7 rs2)
  | cLoad double rd rs1 uimmHi uimmLo =>
      rw [transformed, loadWord, guestPageFaultDecode_insWord (by decide)]
      exact congrArg (Option.map _) (insLdstDecode_loadWord (cLoadOp double))
  | cStore double rs1 rs2 uimmHi uimmLo =>
      rw [transformed, storeWord, guestPageFaultDecode_insWord (by decide)]
      exact congrArg (Option.map _) (insLdstDecode_storeWord (cStoreOp double) 0#7 (cReg rs2))

/-! ## Instructions in memory -/

section Memory

variable {hlvxhu : Addr → BitVec 16} {sepc : Addr}

/-- A full instruction is read in two halves. -/
theorem readIns_word {word : BitVec 32} (heven : sepc &&& 1#64 = 0#64)
    (hword : hlvxhu (sepc + 2#64) ++ hlvxhu sepc = word) (hlow : word &&& 3#32 = 3#32) :
    readIns hlvxhu sepc = some word := by
  have hparts : (hlvxhu sepc).setWidth 32 ||| (hlvxhu (sepc + 2#64)).setWidth 32 <<< 16 = word := by
    rw [← hword]
    refine BitVec.eq_of_getLsbD_eq fun i hi => ?_
    rw [BitVec.getLsbD_or, BitVec.getLsbD_setWidth, BitVec.getLsbD_shiftLeft,
      BitVec.getLsbD_setWidth, BitVec.getLsbD_append]
    by_cases h16 : i < 16
    · simp [h16, hi]
    · have hsub : i - 16 < 32 := by omega
      have hout : (hlvxhu sepc).getLsbD i = false := BitVec.getLsbD_of_ge _ _ (by omega)
      simp [h16, hi, hsub, hout]
  have hfirst : (hlvxhu sepc).setWidth 32 &&& 3#32 = 3#32 := by
    refine Eq.trans (BitVec.eq_of_toNat_eq ?_) hlow
    refine (BitField.toNat_and_mask _ (by decide : 2 ≤ 32)).trans ?_
    refine Eq.trans ?_ (BitField.toNat_and_mask _ (by decide : 2 ≤ 32)).symm
    rw [← hword, BitField.toNat_append, BitVec.toNat_setWidth_of_le (by decide)]
    omega
  rw [readIns, if_neg (not_not.mpr heven)]
  dsimp only
  rw [if_pos hfirst, hparts]

theorem readIns_half {half : BitVec 16} (heven : sepc &&& 1#64 = 0#64)
    (hhalf : hlvxhu sepc = half) (hlow : half &&& 3#16 = 0#16) :
    readIns hlvxhu sepc = some (half.setWidth 32) := by
  have hfirst : half.setWidth 32 &&& 3#32 ≠ 3#32 := by
    intro heq
    have hthree := congrArg (BitVec.setWidth 16) heq
    rw [BitVec.setWidth_and, BitVec.setWidth_setWidth_of_le _ (by decide : 16 ≤ 32),
      BitVec.setWidth_eq] at hthree
    exact absurd (hlow.symm.trans hthree) (by decide)
  rw [readIns, if_neg (not_not.mpr heven), hhalf]
  dsimp only
  rw [if_neg hfirst]

end Memory

section Compressed

variable {funct3 uimmHi rs1 reg : BitVec 3} {uimmLo : BitVec 2}

theorem insCOpcode_compressedHalf :
    insCOpcode ((compressedHalf funct3 uimmHi rs1 uimmLo reg).setWidth 64) =
      (funct3 ++ 0#13).setWidth 64 := by
  have hmask : (0xe003#64 : BitVec 64) =
      (7#3 ++ 0#3 ++ 0#3 ++ 0#2 ++ 0#3 ++ 3#2 : BitVec 16).setWidth 64 := by decide
  have hzero : (funct3 ++ 0#13 : BitVec 16) =
      funct3 ++ 0#3 ++ 0#3 ++ 0#2 ++ 0#3 ++ 0#2 := by
    refine BitVec.eq_of_toNat_eq ?_
    simp only [BitField.toNat_append, BitVec.toNat_ofNat]
    omega
  have hall : funct3 &&& 7#3 = funct3 := BitVec.and_allOnes
  rw [insCOpcode, hmask, ← BitVec.setWidth_and, compressedHalf, hzero]
  rw [BitVec.and_append, BitVec.and_append, BitVec.and_append, BitVec.and_append,
    BitVec.and_append, BitVec.and_zero, BitVec.and_zero, BitVec.and_zero, BitVec.and_zero,
    BitVec.zero_and, hall]

theorem toNat_insCRdRs2_compressedHalf :
    (insCRdRs2 ((compressedHalf funct3 uimmHi rs1 uimmLo reg).setWidth 64)).toNat =
      reg.toNat := by
  refine (BitField.toNat_shift_and_mask _ 2 (by decide : 3 ≤ 64)).trans ?_
  rw [BitVec.toNat_setWidth_of_le (by decide), compressedHalf]
  simp only [BitField.toNat_append]
  rw [BitVec.toNat_ofNat]
  omega

theorem compressedHalf_and_three :
    compressedHalf funct3 uimmHi rs1 uimmLo reg &&& 3#16 = 0#16 := by
  refine BitVec.eq_of_toNat_eq ((BitField.toNat_and_mask _ (by decide : 2 ≤ 16)).trans ?_)
  rw [compressedHalf]
  simp only [BitField.toNat_append]
  rw [BitVec.toNat_ofNat, BitVec.toNat_ofNat]
  omega

end Compressed

section Raw

variable {hlvxhu : Addr → BitVec 16} {sepc : Addr}

theorem guestPageFaultDecode_word {hi : BitVec 12} {rs1 rd : BitVec 5} {funct3 : BitVec 3}
    {opcode : BitVec 7} (heven : sepc &&& 1#64 = 0#64)
    (hword : hlvxhu (sepc + 2#64) ++ hlvxhu sepc = insWord hi rs1 funct3 rd opcode)
    (hlow : opcode &&& 3#7 = 3#7) :
    guestPageFaultDecode 0#64 hlvxhu sepc =
      (insLdstDecode ((insWord hi rs1 funct3 rd opcode).setWidth 64)).map fun emul =>
        (emul, 4) := by
  have hthree : insWord hi rs1 funct3 rd opcode &&& 3#32 = 3#32 := by
    have h := congrArg (BitVec.setWidth 32) (@insWord_and_three hi rs1 rd funct3 opcode)
    rw [BitVec.setWidth_and, BitVec.setWidth_setWidth_of_le _ (by decide : 32 ≤ 64),
      BitVec.setWidth_eq, hlow] at h
    exact h
  rw [guestPageFaultDecode, if_pos rfl, readIns_word heven hword hthree, Option.bind_some,
    insSize, insWord_and_three, hlow]
  rfl

theorem toNat_cReg (reg : BitVec 3) : (cReg reg).toNat = reg.toNat + 8 := by
  rw [cReg, BitField.toNat_append, BitVec.toNat_ofNat]
  omega

/-- A compressed instruction that is read from memory is decoded if it is of a word. -/
theorem guestPageFaultDecode_half {funct3 uimmHi rs1 reg : BitVec 3} {uimmLo : BitVec 2}
    (heven : sepc &&& 1#64 = 0#64)
    (hhalf : hlvxhu sepc = compressedHalf funct3 uimmHi rs1 uimmLo reg) :
    guestPageFaultDecode 0#64 hlvxhu sepc =
      if funct3 = 2#3 ∨ funct3 = 6#3 then
        some
          ({ width := 4
             regWidth := reglen
             write := funct3 == 6#3
             reg := reg.toNat + 8
             signExt := true }, 2)
      else none := by
  have hthree : (compressedHalf funct3 uimmHi rs1 uimmLo reg).setWidth 64 &&& 3#64 = 0#64 := by
    have h := congrArg (BitVec.setWidth 64)
      (@compressedHalf_and_three funct3 uimmHi rs1 reg uimmLo)
    rwa [BitVec.setWidth_and] at h
  have hother : ∀ f : BitVec 3,
      ((f ++ 0#13).setWidth 64 ≠ matchCLoad ∧ (f ++ 0#13).setWidth 64 ≠ matchCStore) ↔
        ¬ (f = 2#3 ∨ f = 6#3) := by decide
  have hstore : ∀ f : BitVec 3,
      ((f ++ 0#13).setWidth 64 == matchCStore) = (f == 6#3) := by decide
  rw [guestPageFaultDecode, if_pos rfl, readIns_half heven hhalf compressedHalf_and_three,
    Option.bind_some, BitVec.setWidth_setWidth (by decide : ¬ (32 < 16 ∧ 32 < 64)), insLdstDecode,
    insCompressed, insSize, hthree, if_pos (by decide : (0#64 != 3#64) = true),
    if_neg (by decide : ¬ 0#64 = 3#64), insCOpcode_compressedHalf,
    toNat_insCRdRs2_compressedHalf, hstore]
  by_cases hword : funct3 = 2#3 ∨ funct3 = 6#3
  · rw [if_pos hword, if_neg (fun h => (hother funct3).mp h hword)]
    rfl
  · rw [if_neg hword, if_pos ((hother funct3).mpr hword)]
    rfl

/-- An instruction in memory is decoded as what it is, unless it is a compressed one of
double words. -/
theorem guestPageFaultDecode_standsAt {i : LdstIns} (h : i.StandsAt hlvxhu sepc) :
    guestPageFaultDecode 0#64 hlvxhu sepc =
      if i.CompressedDouble then none else some (i.access, i.size) := by
  obtain ⟨heven, hins⟩ := h
  cases i with
  | load op rd rs1 imm =>
      rw [guestPageFaultDecode_word heven hins (by decide),
        if_neg (show ¬ (load op rd rs1 imm).CompressedDouble from id)]
      exact congrArg (Option.map _) (insLdstDecode_loadWord op)
  | store op rs1 rs2 imm =>
      rw [guestPageFaultDecode_word heven hins (by decide),
        if_neg (show ¬ (store op rs1 rs2 imm).CompressedDouble from id)]
      exact congrArg (Option.map _) (insLdstDecode_storeWord op (imm.extractLsb' 5 7) rs2)
  | cLoad double rd rs1 uimmHi uimmLo =>
      rw [guestPageFaultDecode_half heven hins, ← toNat_cReg]
      cases double <;> rfl
  | cStore double rs1 rs2 uimmHi uimmLo =>
      rw [guestPageFaultDecode_half heven hins, ← toNat_cReg]
      cases double <;> rfl

end Raw

/-- Every load or store that stands in the memory of the guest is decoded from there as its
transformed instruction is, and with success, if and only if it is no compressed one of
double words. -/
theorem guestPageFaultDecode_agrees_iff (i : LdstIns) (addrOffset : BitVec 5)
    (hlvxhu : Addr → BitVec 16) (sepc : Addr) (h : i.StandsAt hlvxhu sepc) :
    (∃ decoded, guestPageFaultDecode 0#64 hlvxhu sepc = some decoded ∧
      guestPageFaultDecode (i.transformed addrOffset) hlvxhu sepc = some decoded) ↔
      ¬ i.CompressedDouble := by
  rw [guestPageFaultDecode_transformed, guestPageFaultDecode_standsAt h]
  by_cases hdouble : i.CompressedDouble
  · rw [if_pos hdouble]
    refine iff_of_false ?_ (not_not.mpr hdouble)
    rintro ⟨_, hnone, -⟩
    cases hnone
  · rw [if_neg hdouble]
    exact iff_of_true ⟨_, rfl, rfl⟩ hdouble

/-- Half words of memory that hold `c.lw a0, 0(a1)` and then `c.ld a0, 0(a1)`. -/
def compressedLoads : Addr → BitVec 16 := fun a =>
  if a = 0x80200000#64 then 0x4188#16 else 0x6188#16

theorem guestPageFaultDecode_agrees_cLw :
    ∃ decoded, guestPageFaultDecode 0#64 compressedLoads 0x80200000#64 = some decoded ∧
      guestPageFaultDecode ((cLoad false 2#3 3#3 0#3 0#2).transformed 0#5) compressedLoads
        0x80200000#64 = some decoded :=
  (guestPageFaultDecode_agrees_iff (cLoad false 2#3 3#3 0#3 0#2) 0#5 compressedLoads
    0x80200000#64 ⟨by decide, by decide⟩).mpr (by decide)

/-- `c.ld` cannot be decoded from memory. -/
theorem guestPageFaultDecode_cLd :
    let ins := cLoad true 2#3 3#3 0#3 0#2
    let raw := guestPageFaultDecode 0#64 compressedLoads 0x80200002#64
    let transformed := guestPageFaultDecode (ins.transformed 0#5) compressedLoads 0x80200002#64
    ins.StandsAt compressedLoads 0x80200002#64 ∧
      transformed =
        some ({ width := 8, regWidth := 8, write := false, reg := 10, signExt := true }, 2) ∧
        ¬ ∃ decoded, raw = some decoded ∧ transformed = some decoded := by
  intro ins raw transformed
  have hraw : raw = none := by decide
  refine ⟨⟨by decide, by decide⟩, by decide, ?_⟩
  rintro ⟨decoded, hsome, -⟩
  exact Option.some_ne_none decoded (hsome.symm.trans hraw)

end LdstIns

end BaoHypervisor
