import BaoHypervisor.Arch.Riscv.Sbi.Hsm

/-!
# What a started hart begins with

A start address and a second value travel from the registers of the caller through the
hart state of the target into its registers, when the target handles the message. Nothing
changes the hart state on the way. The second value passes through an `unsigned`, so only
its low half arrives.
-/

namespace BaoHypervisor

namespace HsmState

theorem StartsWith.iff_eq {vcpu : Vcpu} {startAddr : Addr} {priv : BitVec 64}
    (h : StartsWith vcpu startAddr priv) (priv' : BitVec 64) :
    StartsWith vcpu startAddr priv' ↔ priv' = priv := by
  constructor
  · intro h'
    have hregs := (h'.regs regA1).symm.trans (h.regs regA1)
    rwa [if_neg (by decide), if_pos rfl, if_neg (by decide), if_pos rfl] at hregs
  · rintro rfl
    exact h

theorem eq_setWidth_iff (v : BitVec 64) :
    v = (v.setWidth 32).setWidth 64 ↔ v.toNat < 2 ^ 32 := by
  rw [BitVec.toNat_inj.symm, BitVec.toNat_setWidth, BitVec.toNat_setWidth]
  have hlt := Nat.mod_lt v.toNat (Nat.two_pow_pos 32)
  rw [Nat.mod_eq_of_lt (hlt.trans (by decide))]
  constructor
  · intro heq
    rw [heq]
    exact hlt
  · intro h
    exact (Nat.mod_eq_of_lt h).symm

/-- In a VM that has as many CPUs as it is configured with, the target of a start that was
accepted in some run begins, when it has handled the message in any continuation of the
run, at the start address with its id and the second value of the call in its argument
registers and zero in all others, if and only if the second value is below `2 ^ 32`. -/
theorem hartStart_args_iff (vm : Vm) (hnum : vm.config.cpuNum = vm.cpuSet.card)
    (sbiMsgId : BitVec 32) (as bs : List HsmAct) (caller : ℕ) (regs : ArchRegs) (cpu : ℕ)
    (haccepted : ((after vm sbiMsgId as).sbiHsmStartHandler vm sbiMsgId caller regs).2 =
      .success) :
    let id := (vcpuReadreg regs (argReg 0)).toNat
    let s := Run.exec (step vm sbiMsgId) (after vm sbiMsgId as) (.hartStart caller regs :: bs)
    let s' := s.step vm sbiMsgId (.deliver cpu)
    s.delivered id = (after vm sbiMsgId as).delivered id →
      s'.delivered id = s.delivered id + 1 →
        ((s'.vcpus id).id = id ∧
            StartsWith (s'.vcpus id) (vcpuReadreg regs (argReg 1))
              (vcpuReadreg regs (argReg 2)) ↔
          (vcpuReadreg regs (argReg 2)).toNat < 2 ^ 32) := by
  intro id s s' hwaits hhandles
  have hinv : ∀ v < vm.config.cpuNum, Coherent vm (after vm sbiMsgId as) v :=
    coherent_exec hnum (fun v hv => coherent_boot (hnum ▸ hv)) as
  rcases sbiHsmStartHandler_cases vm sbiMsgId (after vm sbiMsgId as) caller regs with
    ⟨hlt, -, heq⟩ | ⟨herror, -⟩
  swap
  · exact absurd haccepted herror
  have hid : (s'.vcpus id).id = id :=
    (coherent_step hnum (@coherent_exec vm sbiMsgId _ hnum hinv (.hartStart caller regs :: bs))
      (.deliver cpu) id hlt).id_eq
  have hs : s = Run.exec (step vm sbiMsgId) ((after vm sbiMsgId as).startPending sbiMsgId id
      (vcpuReadreg regs (argReg 1)) ((vcpuReadreg regs (argReg 2)).setWidth 32)) bs := by
    change Run.exec (step vm sbiMsgId) ((after vm sbiMsgId as).step vm sbiMsgId
      (.hartStart caller regs)) bs = _
    rw [step, heq]
  have hs' : s' = s.deliver vm cpu := rfl
  rw [hwaits, hs'] at hhandles
  rw [hs] at hwaits hhandles
  have hstarts := (startsWith_of_handled _ _ bs cpu hwaits hhandles).2
  rw [← hs, ← hs'] at hstarts
  rw [and_iff_right hid, hstarts.iff_eq, eq_setWidth_iff]

def startArgRegs (startAddr : Addr) (priv : BitVec 64) : ArchRegs :=
  { startRegs startAddr with
    x := Function.update (startRegs startAddr).x ⟨11, Nat.le_of_ble_eq_true rfl⟩ priv }

theorem hartStart_args_small :
    StartsWith
      ((Run.exec (step Vm.threeCpus 7#32) (after Vm.threeCpus 7#32 [])
        [.hartStart 0 (startArgRegs 0x80200000#64 0x82000000#64), .deliver 3]).vcpus 1)
      0x80200000#64 0x82000000#64 :=
  ((hartStart_args_iff Vm.threeCpus (by decide) 7#32 [] [] 0
    (startArgRegs 0x80200000#64 0x82000000#64) 3 (by decide) (by decide) (by decide)).mpr
    (by decide)).2

/-- A second value of `2 ^ 32` arrives as 0. -/
theorem hartStart_args_truncated :
    let regs := startArgRegs 0x80200000#64 0x100000000#64
    let s := Run.exec (step Vm.threeCpus 7#32) (after Vm.threeCpus 7#32 [])
      [.hartStart 0 regs, .deliver 3]
    ((after Vm.threeCpus 7#32 []).sbiHsmStartHandler Vm.threeCpus 7#32 0 regs).2 = .success ∧
      s.delivered 1 = 1 ∧ (s.vcpus 1).regs.x regA1 = 0#64 ∧
        ¬ StartsWith (s.vcpus 1) (vcpuReadreg regs (argReg 1)) (vcpuReadreg regs (argReg 2)) := by
  intro regs s
  have hregs : (s.vcpus 1).regs.x regA1 = 0#64 := by decide
  refine ⟨by decide, by decide, hregs, fun h => ?_⟩
  have hpriv := (h.regs regA1).symm.trans hregs
  rw [if_neg (by decide), if_pos rfl] at hpriv
  exact absurd hpriv (by decide)

end HsmState

end BaoHypervisor
