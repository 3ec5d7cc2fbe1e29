import BaoHypervisor.Arch.Riscv.Vplic.Index
import Mathlib.Data.List.Nodup

/-!
# Emulation of the registers of the vPLIC

The handlers decode a load or store of the guest into operations on the vPLIC,
and say what a load reads. The address alone picks the register: its page the kind
of register or the context, and its low bits the interrupt.
-/

namespace BaoHypervisor

/-- The fields of `struct emul_access` that the handlers read. -/
structure EmulAccess where
  addr : BitVec 64
  write : Bool
  width : ℕ
  reg : ℕ
deriving DecidableEq, Repr

/-- What a handler asks of the vPLIC. -/
inductive VplicOp
  | getPrio (id : ℕ)
  | getPend (id : ℕ)
  | getEnbl (vcntxt id : ℕ)
  | getThreshold (vcntxt : ℕ)
  | access (a : Vplic.Access)
deriving DecidableEq, Repr

namespace Vplic

/-- `vplic_vcntxt_valid`, which asks the platform for the mode of the context. -/
def vplicVcntxtValid (platCpuNum : ℕ) (v : Vplic) (vcntxt : ℕ) : Bool :=
  decide (vcntxt < v.cntxtNum) &&
    decide ((plicPlatIdToCntxt platCpuNum vcntxt).mode ≠ .privM)

/-- A word with the bits that `f` sets. -/
def packBits (f : ℕ → Bool) : BitVec 64 :=
  (List.range 32).foldl (fun val i => if f i then val ||| (1#64 <<< i) else val) 0#64

section Handlers

variable (platCpuNum : ℕ) (regs : ArchRegs) (v : Vplic) (acc : EmulAccess)

/-! Each handler gives the operations it asks for, in order, and the value it writes
to the register of the access, if any. -/

def vplicEmulPrioAccess : List VplicOp × Option (BitVec 64) :=
  let intId := (acc.addr &&& 0xfff#64).toNat / 4
  if acc.write then
    ([.access (.setPrio intId ((vcpuReadreg regs acc.reg).setWidth 32))], none)
  else ([.getPrio intId], some ((v.vplicGetPrio intId).setWidth 64))

def vplicEmulPendAccess : List VplicOp × Option (BitVec 64) :=
  if acc.write then ([], none)
  else
    let firstInt := (acc.addr &&& 0xfff#64).toNat / 4 * 32
    ((List.range 32).map fun i => .getPend (firstInt + i),
      some (packBits fun i => v.vplicGetPend (firstInt + i)))

def vplicEmulEnblAccess : List VplicOp × Option (BitVec 64) :=
  let vcntxt := ((acc.addr - 0x2000#64) &&& 0x1fffff#64).toNat / 4 / (plicMaxInterrupts / 32)
  let firstInt := (acc.addr &&& 0x7f#64).toNat / 4 * 32
  let valid := v.vplicVcntxtValid platCpuNum vcntxt
  if acc.write then
    (if valid then
        (List.range 32).map fun i =>
          .access (.setEnbl vcntxt (firstInt + i) ((vcpuReadreg regs acc.reg).getLsbD i))
      else [],
      none)
  else
    (if valid then (List.range 32).map fun i => .getEnbl vcntxt (firstInt + i) else [],
      some (packBits fun i => valid && v.vplicGetEnbl (firstInt + i) vcntxt))

/-- `none` when the handler refuses the access. -/
def vplicGlobalEmulHandler : Option (List VplicOp × Option (BitVec 64)) :=
  if acc.width ≠ 4 ∨ acc.addr &&& 3#64 ≠ 0#64 then none
  else
    match ((acc.addr >>> 12) &&& 3#64).toNat with
    | 0 => some (vplicEmulPrioAccess regs v acc)
    | 1 => some (vplicEmulPendAccess v acc)
    | _ => some (vplicEmulEnblAccess platCpuNum regs v acc)

def vplicHartEmulHandler (now : BitVec 64) : Option (List VplicOp × Option (BitVec 64)) :=
  if 4 < acc.width ∨ acc.addr &&& 3#64 ≠ 0#64 then none
  else
    let vcntxt := (((acc.addr - 0x200000#64) >>> 12) &&& 0x3ff#64).toNat
    if v.vplicVcntxtValid platCpuNum vcntxt then
      let val := (vcpuReadreg regs acc.reg).setWidth 32
      match (acc.addr &&& 0xf#64).toNat with
      | 0 =>
          if acc.write then some ([.access (.setThreshold vcntxt val)], none)
          else some ([.getThreshold vcntxt], some ((v.threshold vcntxt).setWidth 64))
      | 4 =>
          if acc.write then some ([.access (.complete vcntxt val.toNat)], none)
          else
            some ([.access (.claim vcntxt now)],
              some (BitVec.ofNat 64 (v.vplicClaim vcntxt now).2.1))
      | _ => some ([], none)
    else some ([], if acc.write then none else some 0#64)

end Handlers

def op (platCpuNum : ℕ) (v : Vplic) : VplicOp → Vplic
  | .access a => v.guestAccess platCpuNum a
  | _ => v

/-- The indices that an operation uses, on a CPU that has the lines `own`. -/
def opIndices (platCpuNum : ℕ) (own : ℕ → Bool) (v : Vplic) : VplicOp → List VplicIndex
  | .getPrio id => getPrioIndices id
  | .getPend id => getPendIndices id
  | .getEnbl vcntxt id => getEnblIndices vcntxt id
  | .getThreshold vcntxt => [.threshold vcntxt]
  | .access (.setPrio id prio) => v.setPrioIndices own id prio
  | .access (.setEnbl vcntxt id set) => v.setEnblIndices own vcntxt id set
  | .access (.setThreshold vcntxt threshold) => v.setThresholdIndices own vcntxt threshold
  | .access (.claim vcntxt now) => v.claimIndices own vcntxt now
  | .access (.complete vcntxt id) => v.completeIndices platCpuNum own vcntxt id
  | .access (.plicInject id _) => [.buckets id]
  | .access (.inject vcpuId id now) => v.injectIndices own vcpuId id now

/-- The indices that a handler uses. A handler that refuses the access uses none. -/
def handlerIndices (platCpuNum : ℕ) (own : ℕ → Bool) (v : Vplic)
    (result : Option (List VplicOp × Option (BitVec 64))) : List VplicIndex :=
  match result with
  | some (ops, _) => Run.emitted (op platCpuNum) (opIndices platCpuNum own) v ops
  | none => []

/-- A guest access to the registers, or the injection of an interrupt. -/
inductive VplicCall
  | global (regs : ArchRegs) (acc : EmulAccess)
  | hart (regs : ArchRegs) (acc : EmulAccess) (now : BitVec 64)
  | inject (vcpuId id : ℕ) (now : BitVec 64)

def callIndices (platCpuNum : ℕ) (own : ℕ → Bool) (v : Vplic) : VplicCall → List VplicIndex
  | .global regs acc =>
      v.handlerIndices platCpuNum own (vplicGlobalEmulHandler platCpuNum regs v acc)
  | .hart regs acc now =>
      v.handlerIndices platCpuNum own (vplicHartEmulHandler platCpuNum regs v acc now)
  | .inject vcpuId id now => v.injectIndices own vcpuId id now

/-- The access or injection brings no line of its own CPU up to date, and names no
interrupt at the end of the arrays. -/
def StaysInside (platCpuNum : ℕ) (own : ℕ → Bool) (v : Vplic) : VplicCall → Prop
  | .global regs acc =>
      let val := vcpuReadreg regs acc.reg
      acc.width = 4 → acc.addr &&& 3#64 = 0#64 →
        match ((acc.addr >>> 12) &&& 3#64).toNat with
        | 0 =>
            let intId := (acc.addr &&& 0xfff#64).toNat / 4
            acc.write = true →
              v.vplicGetPrio intId = val.setWidth 32 ∨ v.vplicGetHw intId = true ∨
                ∀ i < v.cntxtNum, plicSupervisor i = true → v.vplicGetEnbl intId i = true →
                  own i = false
        | 1 => acc.write = false → (acc.addr &&& 0xfff#64).toNat / 4 ≠ 32
        | _ =>
            let vcntxt :=
              ((acc.addr - 0x2000#64) &&& 0x1fffff#64).toNat / 4 / (plicMaxInterrupts / 32)
            let firstInt := (acc.addr &&& 0x7f#64).toNat / 4 * 32
            acc.write = true → v.vplicVcntxtValid platCpuNum vcntxt = true →
              ∀ i < 32, v.vplicGetEnbl (firstInt + i) vcntxt = val.getLsbD i ∨
                v.vplicGetHw (firstInt + i) = true ∨ own vcntxt = false
  | .hart regs acc _ =>
      let vcntxt := (((acc.addr - 0x200000#64) >>> 12) &&& 0x3ff#64).toNat
      acc.width ≤ 4 → acc.addr &&& 3#64 = 0#64 → v.vplicVcntxtValid platCpuNum vcntxt = true →
        match (acc.addr &&& 0xf#64).toNat with
        | 0 => acc.write = true → own vcntxt = false
        | 4 =>
            acc.write = true ∧ own vcntxt = false ∧
              ((vcpuReadreg regs acc.reg).setWidth 32).toNat < plicMaxInterrupts
        | _ => True
  | .inject vcpuId id now =>
      0 < id ∧ id ≤ plicMaxInterrupts →
        id < plicMaxInterrupts ∧
          (v.vplicGetPend id = false → (v.source id).LetsThrough now →
            if v.vplicGetHw id then own (vcpuId * 2 + 1) = false
            else
              ∀ i < v.cntxtNum, plicSupervisor i = true → v.vplicGetEnbl id i = true →
                v.threshold i < v.vplicGetPrio id → own i = false)

section InBounds

variable {platCpuNum : ℕ} {own : ℕ → Bool} {v : Vplic}

theorem vplicVcntxtValid_eq (hcntxt : v.cntxtNum ≤ plicPlatCntxtNum platCpuNum) (vcntxt : ℕ) :
    v.vplicVcntxtValid platCpuNum vcntxt = v.vcntxtValid vcntxt := by
  rw [vplicVcntxtValid, vcntxtValid]
  by_cases hlt : vcntxt < v.cntxtNum
  · rw [mode_plicPlatIdToCntxt (hlt.trans_le hcntxt)]
    cases plicSupervisor vcntxt <;> rfl
  · rw [decide_eq_false hlt, Bool.false_and, Bool.false_and]

theorem inBounds_handler_iff {ops : List VplicOp} {read : Option (BitVec 64)} :
    InBounds platCpuNum (v.handlerIndices platCpuNum own (some (ops, read))) ↔
      Run.Along (op platCpuNum)
        (fun v o => InBounds platCpuNum (v.opIndices platCpuNum own o)) v ops :=
  Run.forall_mem_emitted

theorem inBounds_handler_single_iff {o : VplicOp} {read : Option (BitVec 64)} :
    InBounds platCpuNum (v.handlerIndices platCpuNum own (some ([o], read))) ↔
      InBounds platCpuNum (v.opIndices platCpuNum own o) := by
  rw [inBounds_handler_iff, Run.along_cons]
  exact and_iff_left trivial

theorem toNat_and_le (a m : BitVec 64) : (a &&& m).toNat ≤ m.toNat := by
  rw [BitVec.toNat_and]
  exact Nat.and_le_right

theorem along_op_map {f : ℕ → VplicOp} {ids : List ℕ}
    (hf : ∀ i, op platCpuNum v (f i) = v) {P : Vplic → VplicOp → Prop} :
    Run.Along (op platCpuNum) P v (ids.map f) ↔ ∀ i ∈ ids, P v (f i) := by
  induction ids with
  | nil => simp
  | cons i ids ih => rw [List.map_cons, Run.along_cons, hf i, ih, List.forall_mem_cons]

/-- Setting the enables of distinct sources one by one, each of which is judged by the
enables before the first one. -/
theorem along_setEnbl_iff {vcntxt : ℕ} (hvalid : v.vcntxtValid vcntxt = true)
    (hvcntxt : vcntxt < plicPlatCntxtNum platCpuNum) {f : ℕ → ℕ} (hf : Function.Injective f)
    {set : ℕ → Bool} {ids : List ℕ} (hids : ids.Nodup)
    (hlt : ∀ i ∈ ids, f i < plicMaxInterrupts) :
    Run.Along (op platCpuNum) (fun v o => InBounds platCpuNum (v.opIndices platCpuNum own o)) v
        (ids.map fun i => .access (.setEnbl vcntxt (f i) (set i))) ↔
      ∀ i ∈ ids, v.vplicGetEnbl (f i) vcntxt = set i ∨ v.vplicGetHw (f i) = true ∨
        own vcntxt = false := by
  induction ids generalizing v with
  | nil => simp
  | cons i ids ih =>
      obtain ⟨hi, hids⟩ := List.nodup_cons.mp hids
      obtain ⟨hilt, hlt⟩ := List.forall_mem_cons.mp hlt
      have hstep : op platCpuNum v (.access (.setEnbl vcntxt (f i) (set i))) =
          (v.vplicSetEnbl vcntxt (f i) (set i)).1 := if_pos hvalid
      obtain ⟨map, heq, hother, -⟩ := vplicSetEnbl_frame v vcntxt (f i) (set i)
      rw [List.map_cons, Run.along_cons, List.forall_mem_cons, hstep, heq,
        ih (v := { v with enbl := Function.update v.enbl vcntxt map }) hvalid hids hlt]
      refine and_congr (inBounds_setEnbl_iff hvcntxt hilt (set i)) ?_
      refine forall_congr' fun j => forall_congr' fun hj => ?_
      have hne : f j ≠ f i := fun h => hi (hf h ▸ hj)
      rw [vplicGetEnbl, vplicGetEnbl, vplicGetHw, vplicGetHw]
      dsimp only
      rw [Function.update_self, hother (f j) hne]

theorem inBounds_prioAccess_iff (hcntxt : v.cntxtNum ≤ plicPlatCntxtNum platCpuNum)
    (regs : ArchRegs) (acc : EmulAccess) :
    InBounds platCpuNum
        (v.handlerIndices platCpuNum own (some (vplicEmulPrioAccess regs v acc))) ↔
      (acc.write = true →
        v.vplicGetPrio ((acc.addr &&& 0xfff#64).toNat / 4) =
            (vcpuReadreg regs acc.reg).setWidth 32 ∨
          v.vplicGetHw ((acc.addr &&& 0xfff#64).toNat / 4) = true ∨
            ∀ i < v.cntxtNum, plicSupervisor i = true →
              v.vplicGetEnbl ((acc.addr &&& 0xfff#64).toNat / 4) i = true → own i = false) := by
  have hid : (acc.addr &&& 0xfff#64).toNat / 4 < plicMaxInterrupts := by
    have hle : (acc.addr &&& 0xfff#64).toNat ≤ 0xfff := toNat_and_le acc.addr 0xfff#64
    unfold plicMaxInterrupts
    omega
  rw [vplicEmulPrioAccess]
  by_cases hwrite : acc.write = true
  · rw [if_pos hwrite, forall_prop_of_true hwrite, inBounds_handler_single_iff, opIndices]
    exact inBounds_setPrio_iff hcntxt hid _
  · rw [if_neg hwrite, inBounds_handler_single_iff, opIndices, getPrioIndices,
      inBounds_guarded hid.le]
    exact iff_of_true hid fun h => absurd h hwrite

/-- Of the registers that are read, the 33rd one begins at the end of the arrays. -/
theorem inBounds_pendAccess_iff (acc : EmulAccess) :
    InBounds platCpuNum (v.handlerIndices platCpuNum own (some (vplicEmulPendAccess v acc))) ↔
      (acc.write = false → (acc.addr &&& 0xfff#64).toNat / 4 ≠ 32) := by
  rw [vplicEmulPendAccess]
  by_cases hwrite : acc.write = true
  · rw [if_pos hwrite]
    exact iff_of_true inBounds_nil fun h => absurd (hwrite.symm.trans h) (by decide)
  · rw [if_neg hwrite, forall_prop_of_true (Bool.eq_false_iff.mpr hwrite),
      inBounds_handler_iff, along_op_map fun _ => rfl]
    generalize (acc.addr &&& 0xfff#64).toNat / 4 = reg
    constructor
    · intro hall hreg
      have hbit := hall 0 (List.mem_range.mpr (by decide))
      rw [hreg, opIndices, getPendIndices, inBounds_guarded le_rfl] at hbit
      exact hbit.false
    · intro hreg i hi
      rw [opIndices, getPendIndices, guarded]
      split_ifs with hle
      · have hlt : reg * 32 + i < plicMaxInterrupts := by
          rw [List.mem_range] at hi
          unfold plicMaxInterrupts at hle ⊢
          omega
        exact inBounds_cons.mpr ⟨hlt, inBounds_nil⟩
      · exact inBounds_nil

theorem inBounds_enblAccess_iff (hcntxt : v.cntxtNum ≤ plicPlatCntxtNum platCpuNum)
    (regs : ArchRegs) (acc : EmulAccess) {vcntxt firstInt : ℕ}
    (hvcntxt : ((acc.addr - 0x2000#64) &&& 0x1fffff#64).toNat / 4 / (plicMaxInterrupts / 32) =
      vcntxt)
    (hfirst : (acc.addr &&& 0x7f#64).toNat / 4 * 32 = firstInt) :
    InBounds platCpuNum
        (v.handlerIndices platCpuNum own (some (vplicEmulEnblAccess platCpuNum regs v acc))) ↔
      (acc.write = true → v.vplicVcntxtValid platCpuNum vcntxt = true →
        ∀ i < 32,
          v.vplicGetEnbl (firstInt + i) vcntxt = (vcpuReadreg regs acc.reg).getLsbD i ∨
            v.vplicGetHw (firstInt + i) = true ∨ own vcntxt = false) := by
  have hend : firstInt + 32 ≤ plicMaxInterrupts := by
    have hle : (acc.addr &&& 0x7f#64).toNat ≤ 0x7f := toNat_and_le acc.addr 0x7f#64
    unfold plicMaxInterrupts
    omega
  have hlt : ∀ i ∈ List.range 32, firstInt + i < plicMaxInterrupts := fun i hi =>
    (Nat.add_lt_add_left (List.mem_range.mp hi) firstInt).trans_le hend
  rw [vplicEmulEnblAccess, hvcntxt, hfirst, vplicVcntxtValid_eq hcntxt]
  by_cases hvalid : v.vcntxtValid vcntxt = true
  · have hlt' : vcntxt < plicPlatCntxtNum platCpuNum := by
      rw [vcntxtValid, Bool.and_eq_true, decide_eq_true_iff] at hvalid
      exact hvalid.1.trans_le hcntxt
    rw [forall_prop_of_true hvalid, if_pos hvalid, if_pos hvalid]
    by_cases hwrite : acc.write = true
    · rw [if_pos hwrite, forall_prop_of_true hwrite, inBounds_handler_iff,
        along_setEnbl_iff hvalid hlt' (add_right_injective firstInt) List.nodup_range hlt]
      simp only [List.mem_range]
    · rw [if_neg hwrite, inBounds_handler_iff, along_op_map fun _ => rfl]
      refine iff_of_true (fun i hi => ?_) fun h => absurd h hwrite
      rw [opIndices, getEnblIndices, inBounds_guarded (hlt i hi).le]
      exact ⟨hlt', hlt i hi⟩
  · rw [if_neg hvalid, if_neg hvalid]
    refine iff_of_true ?_ fun _ h => absurd h hvalid
    split_ifs <;> exact inBounds_nil

theorem inBounds_global_iff (hcntxt : v.cntxtNum ≤ plicPlatCntxtNum platCpuNum)
    (regs : ArchRegs) (acc : EmulAccess) :
    InBounds platCpuNum (v.callIndices platCpuNum own (.global regs acc)) ↔
      v.StaysInside platCpuNum own (.global regs acc) := by
  rw [callIndices, vplicGlobalEmulHandler, StaysInside]
  dsimp only
  by_cases haccepted : acc.width ≠ 4 ∨ acc.addr &&& 3#64 ≠ 0#64
  · rw [if_pos haccepted]
    refine iff_of_true inBounds_nil fun hwidth haligned => ?_
    exact absurd haccepted (not_or.mpr ⟨not_not_intro hwidth, not_not_intro haligned⟩)
  · obtain ⟨hwidth, haligned⟩ := not_or.mp haccepted
    rw [if_neg haccepted, forall_prop_of_true (not_not.mp hwidth),
      forall_prop_of_true (not_not.mp haligned)]
    split
    · exact inBounds_prioAccess_iff hcntxt regs acc
    · exact inBounds_pendAccess_iff acc
    · exact inBounds_enblAccess_iff hcntxt regs acc rfl rfl

theorem inBounds_hart_iff (hcntxt : v.cntxtNum ≤ plicPlatCntxtNum platCpuNum)
    (regs : ArchRegs) (acc : EmulAccess) (now : BitVec 64) :
    InBounds platCpuNum (v.callIndices platCpuNum own (.hart regs acc now)) ↔
      v.StaysInside platCpuNum own (.hart regs acc now) := by
  rw [callIndices, vplicHartEmulHandler, StaysInside]
  dsimp only
  by_cases haccepted : 4 < acc.width ∨ acc.addr &&& 3#64 ≠ 0#64
  · rw [if_pos haccepted]
    refine iff_of_true inBounds_nil fun hwidth haligned => ?_
    exact absurd haccepted (not_or.mpr ⟨hwidth.not_gt, not_not_intro haligned⟩)
  · obtain ⟨hwidth, haligned⟩ := not_or.mp haccepted
    rw [if_neg haccepted, forall_prop_of_true (not_lt.mp hwidth),
      forall_prop_of_true (not_not.mp haligned)]
    generalize (((acc.addr - 0x200000#64) >>> 12) &&& 0x3ff#64).toNat = vcntxt
    rw [vplicVcntxtValid_eq hcntxt]
    by_cases hvalid : v.vcntxtValid vcntxt = true
    · have hvcntxt : vcntxt < plicPlatCntxtNum platCpuNum := by
        rw [vcntxtValid, Bool.and_eq_true, decide_eq_true_iff] at hvalid
        exact hvalid.1.trans_le hcntxt
      rw [if_pos hvalid, forall_prop_of_true hvalid]
      split
      · by_cases hwrite : acc.write = true
        · rw [if_pos hwrite, forall_prop_of_true hwrite, inBounds_handler_single_iff, opIndices]
          exact inBounds_setThreshold_iff hvcntxt _
        · rw [if_neg hwrite, inBounds_handler_single_iff, opIndices]
          exact iff_of_true (inBounds_cons.mpr ⟨hvcntxt, inBounds_nil⟩)
            fun h => absurd h hwrite
      · by_cases hwrite : acc.write = true
        · rw [if_pos hwrite, and_iff_right hwrite, inBounds_handler_single_iff, opIndices,
            inBounds_complete_iff, and_comm]
        · rw [if_neg hwrite, inBounds_handler_single_iff, opIndices]
          exact iff_of_false (not_inBounds_claim vcntxt now) fun h => hwrite h.1
      · exact iff_of_true inBounds_nil trivial
    · rw [if_neg hvalid]
      exact iff_of_true inBounds_nil fun h => absurd h hvalid

/-- An access or injection uses only indices inside the arrays exactly when it brings
no line of its own CPU up to date and names no interrupt at the end of the arrays. The
VM has no more contexts than the platform. -/
theorem inBounds_callIndices_iff (platCpuNum : ℕ) (vm : Vm) (cpu : ℕ) (v : Vplic)
    (hcntxt : v.cntxtNum ≤ plicPlatCntxtNum platCpuNum) (call : VplicCall) :
    InBounds platCpuNum (v.callIndices platCpuNum (ownsLine platCpuNum vm cpu) call) ↔
      v.StaysInside platCpuNum (ownsLine platCpuNum vm cpu) call := by
  cases call with
  | global regs acc => exact inBounds_global_iff hcntxt regs acc
  | hart regs acc now => exact inBounds_hart_iff hcntxt regs acc now
  | inject vcpuId id now => exact inBounds_inject_iff hcntxt vcpuId id now

end InBounds

def twoCpus : Vm := { (default : Vm) with cpus := 3#64 }

/-- Source 5 is injected on the first of four CPUs. -/
theorem inBounds_callIndices_iff_inject :
    InBounds 4 ((boot 2 .low 0#64 fun _ => 0#32).callIndices 4 (ownsLine 4 twoCpus 0)
        (.inject 0 5 0#64)) ↔
      (boot 2 .low 0#64 fun _ => 0#32).StaysInside 4 (ownsLine 4 twoCpus 0)
        (.inject 0 5 0#64) :=
  inBounds_callIndices_iff 4 twoCpus 0 (boot 2 .low 0#64 fun _ => 0#32) (by decide) _

/-- The first hart reads its claim register at `0xc201004`. -/
theorem not_inBounds_claimRead :
    ¬ InBounds 4 ((boot 2 .low 0#64 fun _ => 0#32).callIndices 4 (ownsLine 4 twoCpus 0)
      (.hart default { addr := 0xc201004#64, write := false, width := 4, reg := 10 } 0#64)) := by
  rw [inBounds_hart_iff (by decide), StaysInside]
  intro h
  exact absurd (h (by decide) (by decide) (by decide)).1 (by decide)

end Vplic

end BaoHypervisor
