import BaoHypervisor.Arch.Riscv.Vplic.Emul
import BaoHypervisor.Theory.BitField

/-!
# The register map of the vPLIC

`struct plic_global_hw` lays out the priorities, the pending bits and the enable bits of each
context. `vplic_global_emul_handler` tells the three apart by two bits of the address, so the
enable bits of a context are found there only as long as the contexts do not reach the third
page behind the first enable bit: from the context 64 on their words are taken for priorities
and pending bits again.
-/

namespace BaoHypervisor

open Bitmap

/-- The registers of `struct plic_global_hw`. -/
inductive PlicReg
  | prio (i : ℕ)
  | pend (w : ℕ)
  | enbl (vcntxt w : ℕ)
deriving DecidableEq, Repr

/-- `offsetof` in `struct plic_global_hw`, whose registers have four bytes. -/
def PlicReg.offset : PlicReg → ℕ
  | .prio i => 4 * i
  | .pend w => 4 * plicMaxInterrupts + 4 * w
  | .enbl vcntxt w =>
      4 * plicMaxInterrupts + 4 * plicMaxInterrupts + 4 * (plicMaxInterrupts / 32) * vcntxt + 4 * w

theorem Bitmap.ext_get {map map' : Bitmap} (h : ∀ i, bitmapGet map i = bitmapGet map' i) :
    map = map' := by
  funext w
  refine BitVec.eq_of_getLsbD_eq fun j hj => ?_
  have hbit := h (granuleLen * w + j)
  have hdiv : (granuleLen * w + j) / granuleLen = w := by
    rw [Nat.mul_add_div (by decide), Nat.div_eq_of_lt hj, Nat.add_zero]
  have hmod : (granuleLen * w + j) % granuleLen = j := by
    rw [Nat.mul_add_mod, Nat.mod_eq_of_lt hj]
  rwa [bitmapGet_eq_getLsbD, bitmapGet_eq_getLsbD, hdiv, hmod] at hbit

namespace Vplic

/-- The word of the vPLIC that a register shows. -/
def word (v : Vplic) : PlicReg → BitVec 32
  | .prio i => v.prio i
  | .pend w => v.pend w
  | .enbl vcntxt w => v.enbl vcntxt w

/-- The vPLIC after a word was written. The pending bits are read only. -/
def setWord (v : Vplic) (val : BitVec 32) : PlicReg → Vplic
  | .prio i => { v with prio := Function.update v.prio i val }
  | .pend _ => v
  | .enbl vcntxt w =>
      { v with
        enbl := Function.update v.enbl vcntxt (Function.update (v.enbl vcntxt) w val) }

/-- Every load from the place of the register reads its word and changes nothing, and every
store there sets that word alone. -/
def WordAt (platCpuNum : ℕ) (base : BitVec 64) (v : Vplic) (reg : PlicReg) : Prop :=
  ∀ (regs : ArchRegs) (acc : EmulAccess), acc.width = 4 →
    acc.addr = base + BitVec.ofNat 64 reg.offset →
    ∃ ops, vplicGlobalEmulHandler platCpuNum regs v acc =
        some (ops, if acc.write then none else some ((v.word reg).setWidth 64)) ∧
      Run.exec (op platCpuNum) v ops =
        if acc.write then v.setWord ((vcpuReadreg regs acc.reg).setWidth 32) reg else v

/-- The registers of all sources and of all supervisor contexts of the VM are where
`struct plic_global_hw` has them, and their bits are those of the sources. -/
structure RegisterMap (platCpuNum : ℕ) (base : BitVec 64) (v : Vplic) : Prop where
  prio : ∀ i, 0 < i → i < plicMaxInterrupts →
    v.WordAt platCpuNum base (.prio i) ∧ v.word (.prio i) = v.vplicGetPrio i
  pend : ∀ i, 0 < i → i < plicMaxInterrupts →
    v.WordAt platCpuNum base (.pend (i / 32)) ∧
      (v.word (.pend (i / 32))).getLsbD (i % 32) = v.vplicGetPend i
  enbl : ∀ vcntxt < v.cntxtNum, plicSupervisor vcntxt = true →
    ∀ i, 0 < i → i < plicMaxInterrupts →
      v.WordAt platCpuNum base (.enbl vcntxt (i / 32)) ∧
        (v.word (.enbl vcntxt (i / 32))).getLsbD (i % 32) = v.vplicGetEnbl i vcntxt

/-! ## Words and bits -/

theorem getLsbD_packBits (f : ℕ → Bool) (j : ℕ) :
    (packBits f).getLsbD j = (decide (j < 32) && f j) := by
  have hloop : ∀ n ≤ 32, ((List.range n).foldl
      (fun val i => if f i then val ||| (1#64 <<< i) else val) 0#64).getLsbD j =
        (decide (j < n) && f j) := by
    intro n hn
    induction n with
    | zero => simp
    | succ n ih =>
        rw [List.range_succ, List.foldl_append, List.foldl_cons, List.foldl_nil]
        have hbit : (1#64 <<< n).getLsbD j = decide (j = n) := by
          rw [← BitVec.twoPow_eq, BitVec.getLsbD_twoPow, decide_eq_true (by omega : n < 64),
            Bool.true_and]
          exact decide_eq_decide.mpr eq_comm
        by_cases hj : j = n
        · subst hj
          cases hf : f j with
          | true => simp [BitVec.getLsbD_or, hbit]
          | false => simp [ih (by omega), hf]
        · have hlt : j < n + 1 ↔ j < n := by omega
          rw [decide_eq_decide.mpr hlt, ← ih (by omega)]
          split
          · rw [BitVec.getLsbD_or, hbit, decide_eq_false hj, Bool.or_false]
          · rfl
  exact hloop 32 le_rfl

theorem packBits_eq {f : ℕ → Bool} {map : Bitmap} {w : ℕ}
    (h : ∀ i < 32, f i = bitmapGet map (w * 32 + i)) : packBits f = (map w).setWidth 64 := by
  refine BitVec.eq_of_getLsbD_eq fun j hj => ?_
  rw [getLsbD_packBits, BitVec.getLsbD_setWidth, decide_eq_true hj, Bool.true_and]
  by_cases hlt : j < 32
  · have hdiv : (w * 32 + j) / granuleLen = w := by
      unfold granuleLen
      omega
    have hmod : (w * 32 + j) % granuleLen = j := by
      unfold granuleLen
      omega
    rw [decide_eq_true hlt, Bool.true_and, h j hlt, bitmapGet_eq_getLsbD, hdiv, hmod]
  · rw [decide_eq_false hlt, Bool.false_and, BitVec.getLsbD_of_ge _ _ (not_lt.mp hlt)]

variable {platCpuNum : ℕ} {v : Vplic} {vcntxt : ℕ}

theorem op_setPrio (platCpuNum : ℕ) (v : Vplic) (id : ℕ) (prio : BitVec 32) :
    op platCpuNum v (.access (.setPrio id prio)) = (v.vplicSetPrio id prio).1 := rfl

theorem vplicSetPrio_eq {id : ℕ} (hid : id ≤ plicMaxInterrupts) (prio : BitVec 32) :
    (v.vplicSetPrio id prio).1 = { v with prio := Function.update v.prio id prio } := by
  rw [vplicSetPrio]
  by_cases hsame : v.vplicGetPrio id = prio
  · rw [if_neg fun h => h.2 hsame]
    rw [vplicGetPrio, if_pos hid] at hsame
    rw [← hsame, Function.update_eq_self]
  · rw [if_pos ⟨hid, hsame⟩]

theorem exec_reads {f : ℕ → VplicOp} (hf : ∀ i, op platCpuNum v (f i) = v) (ids : List ℕ) :
    Run.exec (op platCpuNum) v (ids.map f) = v := by
  induction ids with
  | nil => rfl
  | cons i ids ih => rw [List.map_cons, Run.exec_cons, hf i, ih]

/-- Setting the enables of a word one by one writes the word. -/
theorem exec_setEnbl {w : ℕ} (hw : w < plicMaxInterrupts / 32)
    (hvalid : v.vcntxtValid vcntxt = true) (val : BitVec 64) :
    Run.exec (op platCpuNum) v ((List.range 32).map fun i =>
        .access (.setEnbl vcntxt (w * 32 + i) (val.getLsbD i))) =
      v.setWord (val.setWidth 32) (.enbl vcntxt w) := by
  have hloop : ∀ n ≤ 32, ∃ map, Run.exec (op platCpuNum) v ((List.range n).map fun i =>
      .access (.setEnbl vcntxt (w * 32 + i) (val.getLsbD i))) =
        { v with enbl := Function.update v.enbl vcntxt map } ∧
      ∀ i, bitmapGet map i =
        if w * 32 ≤ i ∧ i < w * 32 + n then val.getLsbD (i - w * 32)
        else bitmapGet (v.enbl vcntxt) i := by
    intro n hn
    induction n with
    | zero =>
        refine ⟨v.enbl vcntxt, by rw [Function.update_eq_self]; rfl, fun i => ?_⟩
        rw [if_neg (by omega)]
    | succ n ih =>
        obtain ⟨map, heq, hmap⟩ := ih (by omega)
        rw [List.range_succ, List.map_append, Run.exec_append, heq]
        have hstep : Run.exec (op platCpuNum)
            { v with enbl := Function.update v.enbl vcntxt map }
            ([n].map fun i => .access (.setEnbl vcntxt (w * 32 + i) (val.getLsbD i))) =
            (vplicSetEnbl { v with enbl := Function.update v.enbl vcntxt map } vcntxt
              (w * 32 + n) (val.getLsbD n)).1 := if_pos hvalid
        obtain ⟨map', heq', hother, hset⟩ := vplicSetEnbl_frame
          { v with enbl := Function.update v.enbl vcntxt map } vcntxt (w * 32 + n)
          (val.getLsbD n)
        rw [hstep]
        refine ⟨map', ?_, fun i => ?_⟩
        · rw [heq']
          dsimp only
          rw [Function.update_idem]
        · by_cases hi : i = w * 32 + n
          · subst hi
            rw [if_pos (by omega), Nat.add_sub_cancel_left]
            refine hset ?_
            unfold plicMaxInterrupts at *
            omega
          · rw [hother i hi]
            dsimp only
            rw [Function.update_self, hmap]
            refine if_congr ?_ rfl rfl
            omega
  obtain ⟨map, heq, hmap⟩ := hloop 32 le_rfl
  rw [heq, setWord]
  have hword : map = Function.update (v.enbl vcntxt) w (val.setWidth 32) := by
    refine ext_get fun i => ?_
    rw [hmap, bitmapGet_update]
    have hiff : (w * 32 ≤ i ∧ i < w * 32 + 32) ↔ i / granuleLen = w := by
      unfold granuleLen
      omega
    by_cases hi : i / granuleLen = w
    · have hmod : i - w * 32 = i % granuleLen := by
        unfold granuleLen at *
        omega
      rw [if_pos (hiff.mpr hi), if_pos hi, hmod, BitVec.getLsbD_setWidth,
        decide_eq_true (Nat.mod_lt _ (by decide)), Bool.true_and]
    · rw [if_neg fun h => hi (hiff.mp h), if_neg hi]
  rw [hword]

/-! ## Addresses -/

section Addresses

variable {base addr : BitVec 64} {off : ℕ}

/-- The fields of an address in the first 2 MiB behind an aligned base are those of the
offset. -/
theorem toNat_field_of_base (hbase : base.toNat % 2 ^ 21 = 0) (hoff : off < 2 ^ 21)
    (haddr : addr = base + BitVec.ofNat 64 off) (i : ℕ) {k : ℕ} (hk : i + k ≤ 21) :
    (addr >>> i &&& BitVec.ofNat 64 (2 ^ k - 1)).toNat = off / 2 ^ i % 2 ^ k := by
  have hlt := base.isLt
  have hsum : addr.toNat = base.toNat + off := by
    rw [haddr, BitVec.toNat_add, BitVec.toNat_ofNat]
    omega
  obtain ⟨b, hb⟩ := Nat.dvd_of_mod_eq_zero hbase
  have hpow : 2 ^ 21 * b = 2 ^ i * (2 ^ k * (2 ^ (21 - i - k) * b)) := by
    rw [← mul_assoc, ← mul_assoc, ← pow_add, ← pow_add,
      show i + k + (21 - i - k) = 21 by omega]
  rw [BitField.toNat_shift_and_mask _ _ (by omega), hsum, hb, hpow,
    Nat.mul_add_div (Nat.two_pow_pos i), Nat.mul_add_mod]

theorem toNat_mask_of_base (hbase : base.toNat % 2 ^ 21 = 0) (hoff : off < 2 ^ 21)
    (haddr : addr = base + BitVec.ofNat 64 off) {k : ℕ} (hk : k ≤ 21) :
    (addr &&& BitVec.ofNat 64 (2 ^ k - 1)).toNat = off % 2 ^ k := by
  have hfield := toNat_field_of_base hbase hoff haddr 0 (k := k) (by omega)
  rwa [BitVec.ushiftRight_zero, pow_zero, Nat.div_one] at hfield

theorem toNat_enbl_of_base (hbase : base.toNat % 2 ^ 21 = 0) (hoff : 0x2000 + off < 2 ^ 21)
    (haddr : addr = base + BitVec.ofNat 64 (0x2000 + off)) :
    ((addr - 0x2000#64) &&& 0x1fffff#64).toNat = off := by
  have hsub : addr - 0x2000#64 = base + BitVec.ofNat 64 off := by
    rw [haddr, BitVec.ofNat_add]
    bv_omega
  have hmask := toNat_mask_of_base hbase (by omega) hsub (k := 21) le_rfl
  rw [Nat.mod_eq_of_lt (by omega)] at hmask
  exact hmask

theorem aligned_of_base (hbase : base.toNat % 2 ^ 21 = 0) (hoff : off < 2 ^ 21)
    (haddr : addr = base + BitVec.ofNat 64 off) (hfour : 4 ∣ off) : addr &&& 3#64 = 0#64 := by
  refine BitVec.eq_of_toNat_eq ?_
  have hmask := toNat_mask_of_base hbase hoff haddr (k := 2) (by omega)
  exact hmask.trans (Nat.mod_eq_zero_of_dvd hfour)

theorem page_of_base (hbase : base.toNat % 2 ^ 21 = 0) (hoff : off < 2 ^ 21)
    (haddr : addr = base + BitVec.ofNat 64 off) :
    ((addr >>> 12) &&& 3#64).toNat = off / 2 ^ 12 % 2 ^ 2 :=
  toNat_field_of_base hbase hoff haddr 12 (k := 2) (by omega)

theorem accepted_of_base {acc : EmulAccess} (hbase : base.toNat % 2 ^ 21 = 0)
    (hoff : off < 2 ^ 21) (haddr : acc.addr = base + BitVec.ofNat 64 off) (hfour : 4 ∣ off)
    (hwidth : acc.width = 4) : ¬ (acc.width ≠ 4 ∨ acc.addr &&& 3#64 ≠ 0#64) :=
  not_or.mpr ⟨not_not_intro hwidth, not_not_intro (aligned_of_base hbase hoff haddr hfour)⟩

end Addresses

/-! ## The registers -/

section Registers

variable {base : BitVec 64}

theorem vplicGetPend_eq {i : ℕ} (hi : i < plicMaxInterrupts) :
    v.vplicGetPend i = bitmapGet v.pend i := by
  rw [vplicGetPend, decide_eq_true hi.le, Bool.true_and]

theorem vplicGetEnbl_eq {i : ℕ} (hi : i < plicMaxInterrupts) :
    v.vplicGetEnbl i vcntxt = bitmapGet (v.enbl vcntxt) i := by
  rw [vplicGetEnbl, decide_eq_true hi.le, Bool.true_and]

theorem handler_prio {regs : ArchRegs} {acc : EmulAccess} {off : ℕ}
    (hbase : base.toNat % 2 ^ 21 = 0) (hoff : off < 2 ^ 21)
    (haddr : acc.addr = base + BitVec.ofNat 64 off) (hfour : 4 ∣ off) (hwidth : acc.width = 4)
    (hpage : off / 2 ^ 12 % 2 ^ 2 = 0) :
    vplicGlobalEmulHandler platCpuNum regs v acc = some (vplicEmulPrioAccess regs v acc) := by
  rw [vplicGlobalEmulHandler, if_neg (accepted_of_base hbase hoff haddr hfour hwidth),
    page_of_base hbase hoff haddr, hpage]
  rfl

theorem handler_pend {regs : ArchRegs} {acc : EmulAccess} {off : ℕ}
    (hbase : base.toNat % 2 ^ 21 = 0) (hoff : off < 2 ^ 21)
    (haddr : acc.addr = base + BitVec.ofNat 64 off) (hfour : 4 ∣ off) (hwidth : acc.width = 4)
    (hpage : off / 2 ^ 12 % 2 ^ 2 = 1) :
    vplicGlobalEmulHandler platCpuNum regs v acc = some (vplicEmulPendAccess v acc) := by
  rw [vplicGlobalEmulHandler, if_neg (accepted_of_base hbase hoff haddr hfour hwidth),
    page_of_base hbase hoff haddr, hpage]
  rfl

theorem handler_enbl {regs : ArchRegs} {acc : EmulAccess} {off page : ℕ}
    (hbase : base.toNat % 2 ^ 21 = 0) (hoff : off < 2 ^ 21)
    (haddr : acc.addr = base + BitVec.ofNat 64 off) (hfour : 4 ∣ off) (hwidth : acc.width = 4)
    (hpage : off / 2 ^ 12 % 2 ^ 2 = page + 2) :
    vplicGlobalEmulHandler platCpuNum regs v acc =
      some (vplicEmulEnblAccess platCpuNum regs v acc) := by
  rw [vplicGlobalEmulHandler, if_neg (accepted_of_base hbase hoff haddr hfour hwidth),
    page_of_base hbase hoff haddr, hpage]
  rfl

theorem wordAt_prio (hbase : base.toNat % 2 ^ 21 = 0) {i : ℕ} (hi : i < plicMaxInterrupts) :
    v.WordAt platCpuNum base (.prio i) := by
  intro regs acc hwidth haddr
  have hoff : PlicReg.offset (.prio i) = 4 * i := rfl
  rw [hoff] at haddr
  have hi' : i < 1024 := hi
  have hint := toNat_mask_of_base hbase (by omega) haddr (k := 12) (by omega)
  have hid : (acc.addr &&& 0xfff#64).toNat / 4 = i := by
    rw [show 0xfff#64 = BitVec.ofNat 64 (2 ^ 12 - 1) from rfl, hint]
    omega
  rw [handler_prio hbase (by omega) haddr (Nat.dvd_mul_right 4 i) hwidth (by omega),
    vplicEmulPrioAccess, hid]
  by_cases hwrite : acc.write = true
  · rw [if_pos hwrite, if_pos hwrite, if_pos hwrite]
    refine ⟨_, rfl, ?_⟩
    rw [Run.exec_cons, Run.exec_nil, op_setPrio, vplicSetPrio_eq hi.le, setWord]
  · rw [if_neg hwrite, if_neg hwrite, if_neg hwrite]
    refine ⟨[.getPrio i], ?_, rfl⟩
    rw [vplicGetPrio, if_pos hi.le, word]

theorem wordAt_pend (hbase : base.toNat % 2 ^ 21 = 0) {w : ℕ} (hw : w < plicMaxInterrupts / 32) :
    v.WordAt platCpuNum base (.pend w) := by
  intro regs acc hwidth haddr
  have hoff : PlicReg.offset (.pend w) = 4 * (1024 + w) := by
    rw [PlicReg.offset]
    ring
  rw [hoff] at haddr
  have hw' : w < 32 := hw
  have hint := toNat_mask_of_base hbase (by omega) haddr (k := 12) (by omega)
  have hid : (acc.addr &&& 0xfff#64).toNat / 4 = w := by
    rw [show 0xfff#64 = BitVec.ofNat 64 (2 ^ 12 - 1) from rfl, hint]
    omega
  rw [handler_pend hbase (by omega) haddr (Nat.dvd_mul_right 4 _) hwidth (by omega),
    vplicEmulPendAccess, hid]
  by_cases hwrite : acc.write = true
  · rw [if_pos hwrite, if_pos hwrite, if_pos hwrite]
    exact ⟨[], rfl, rfl⟩
  · rw [if_neg hwrite, if_neg hwrite, if_neg hwrite]
    refine ⟨(List.range 32).map fun i => .getPend (w * 32 + i), ?_, exec_reads (fun _ => rfl) _⟩
    have hbit : ∀ j < 32, v.vplicGetPend (w * 32 + j) = bitmapGet v.pend (w * 32 + j) :=
      fun j hj => vplicGetPend_eq (show w * 32 + j < 1024 by omega)
    dsimp only
    rw [packBits_eq hbit, word]

/-- The words of a context that the handler takes for enables. -/
theorem wordAt_enbl (hbase : base.toNat % 2 ^ 21 = 0)
    (hnum : v.cntxtNum ≤ plicPlatCntxtNum platCpuNum) (hvalid : v.vcntxtValid vcntxt = true)
    (hlt : vcntxt < 64) {w : ℕ} (hw : w < plicMaxInterrupts / 32) :
    v.WordAt platCpuNum base (.enbl vcntxt w) := by
  intro regs acc hwidth haddr
  have hoff : PlicReg.offset (.enbl vcntxt w) = 0x2000 + 4 * (32 * vcntxt + w) := by
    rw [PlicReg.offset]
    ring
  rw [hoff] at haddr
  have hw' : w < 32 := hw
  have hcntxt : ((acc.addr - 0x2000#64) &&& 0x1fffff#64).toNat / 4 / (plicMaxInterrupts / 32) =
      vcntxt := by
    rw [toNat_enbl_of_base hbase (by omega) haddr]
    unfold plicMaxInterrupts
    omega
  have hint := toNat_mask_of_base hbase (by omega) haddr (k := 7) (by omega)
  have hid : (acc.addr &&& 0x7f#64).toNat / 4 = w := by
    rw [show 0x7f#64 = BitVec.ofNat 64 (2 ^ 7 - 1) from rfl, hint]
    omega
  obtain ⟨page, hpage⟩ : ∃ page, (0x2000 + 4 * (32 * vcntxt + w)) / 2 ^ 12 % 2 ^ 2 = page + 2 :=
    ⟨(0x2000 + 4 * (32 * vcntxt + w)) / 2 ^ 12 % 2 ^ 2 - 2, by omega⟩
  rw [handler_enbl hbase (by omega) haddr (by omega) hwidth hpage, vplicEmulEnblAccess, hcntxt,
    hid, vplicVcntxtValid_eq hnum, hvalid, if_pos rfl, if_pos rfl]
  by_cases hwrite : acc.write = true
  · rw [if_pos hwrite, if_pos hwrite, if_pos hwrite]
    exact ⟨_, rfl, exec_setEnbl hw hvalid _⟩
  · rw [if_neg hwrite, if_neg hwrite, if_neg hwrite]
    refine ⟨(List.range 32).map fun i => .getEnbl vcntxt (w * 32 + i), ?_,
      exec_reads (fun _ => rfl) _⟩
    have hbit : ∀ j < 32, (true && v.vplicGetEnbl (w * 32 + j) vcntxt) =
        bitmapGet (v.enbl vcntxt) (w * 32 + j) :=
      fun j hj => vplicGetEnbl_eq (show w * 32 + j < 1024 by omega)
    rw [packBits_eq hbit, word]

/-- A store to the first enables of the context 65 sets a priority. -/
theorem not_wordAt_enbl (hbase : base.toNat % 2 ^ 21 = 0) :
    ¬ v.WordAt platCpuNum base (.enbl 65 0) := by
  intro h
  have hoff : PlicReg.offset (.enbl 65 0) = 0x4080 := by norm_num [PlicReg.offset]
  obtain ⟨regs, hregs⟩ : ∃ regs : ArchRegs,
      (vcpuReadreg regs 1).setWidth 32 = ~~~ v.enbl 65 0 := by
    refine ⟨{ (default : ArchRegs) with x := fun _ => (~~~ v.enbl 65 0).setWidth 64 }, ?_⟩
    rw [vcpuReadreg, dif_pos (by decide)]
    exact BitVec.setWidth_setWidth_of_le _ (by decide)
  obtain ⟨acc, haddr, hwrite, hwidth, hreg⟩ : ∃ acc : EmulAccess,
      acc.addr = base + BitVec.ofNat 64 0x4080 ∧ acc.write = true ∧ acc.width = 4 ∧ acc.reg = 1 :=
    ⟨⟨base + BitVec.ofNat 64 0x4080, true, 4, 1⟩, rfl, rfl, rfl, rfl⟩
  obtain ⟨ops, hops, hexec⟩ := h regs acc hwidth (by rw [haddr, hoff])
  rw [handler_prio hbase (by omega) haddr (by omega) hwidth (by omega), vplicEmulPrioAccess,
    if_pos hwrite, if_pos hwrite] at hops
  obtain ⟨rfl, -⟩ := Prod.mk.inj (Option.some.inj hops)
  rw [if_pos hwrite, Run.exec_cons, Run.exec_nil, op_setPrio, hreg, hregs, setWord] at hexec
  have henbl : ∀ (id : ℕ) (prio : BitVec 32), (v.vplicSetPrio id prio).1.enbl = v.enbl := by
    intro id prio
    rw [vplicSetPrio]
    split_ifs <;> rfl
  have hword := congrArg (fun v : Vplic => (v.enbl 65 0).getLsbD 0) hexec
  dsimp only at hword
  rw [henbl, Function.update_self, Function.update_self, BitVec.getLsbD_not] at hword
  simp at hword

/-- The registers are where the layout has them if and only if the VM has at most 32 vCPUs. -/
theorem registerMap_iff (hbase : base.toNat % 2 ^ 21 = 0) {cpuNum : ℕ}
    (hnum : v.cntxtNum = cpuNum * 2) (hcpu : cpuNum ≤ platCpuNum) :
    v.RegisterMap platCpuNum base ↔ cpuNum ≤ 32 := by
  constructor
  · intro h
    by_contra hlt
    exact not_wordAt_enbl hbase (h.enbl 65 (by omega) (by decide) 1 (by decide) (by decide)).1
  · intro hle
    have hplat : v.cntxtNum ≤ plicPlatCntxtNum platCpuNum := by
      rw [plicPlatCntxtNum]
      omega
    have hword : ∀ i, i < plicMaxInterrupts → i / 32 < plicMaxInterrupts / 32 :=
      fun i hi => Nat.div_lt_div_of_lt_of_dvd (by decide) hi
    refine ⟨fun i _ hi => ⟨wordAt_prio hbase hi, ?_⟩,
      fun i _ hi => ⟨wordAt_pend hbase (hword i hi), ?_⟩,
      fun vcntxt hlt hsuper i _ hi => ⟨wordAt_enbl hbase hplat ?_ (by omega) (hword i hi), ?_⟩⟩
    · rw [vplicGetPrio, if_pos hi.le, word]
    · rw [vplicGetPend_eq hi, bitmapGet_eq_getLsbD, word]
    · rw [vcntxtValid, decide_eq_true hlt, hsuper, Bool.true_and]
    · rw [vplicGetEnbl_eq hi, bitmapGet_eq_getLsbD, word]

end Registers

/-- A VM of four vCPUs with its vPLIC at `0xc000000`. -/
theorem registerMap_iff_four :
    (boot 4 .low 0#64 fun _ => 0#32).RegisterMap 4 0xc000000#64 :=
  (registerMap_iff (by decide) rfl le_rfl).mpr (by decide)

/-- The enables of the last vCPUs of a VM of 64 are not where the layout has them. -/
theorem not_registerMap_sixtyFour :
    ¬ (boot 64 .low 0#64 fun _ => 0#32).RegisterMap 64 0xc000000#64 := by
  intro h
  exact not_wordAt_enbl (by decide) (h.enbl 65 (by decide) (by decide) 1 (by decide) (by decide)).1

end Vplic

end BaoHypervisor
