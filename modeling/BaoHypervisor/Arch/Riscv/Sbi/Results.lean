import BaoHypervisor.Arch.Riscv.Sbi.Hsm
import BaoHypervisor.Arch.Riscv.Sbi.Timer
import BaoHypervisor.Core.Hypercall

/-!
# What an SBI call returns

The handlers return a `struct sbiret`, and `sbi_vs_handler` writes its two fields to the
registers `a0` and `a1` of the guest. Some handlers fill only one field of a local that
is not initialised, so the other register gets what the stack of the hypervisor held.
The first contents of these locals are arguments here.
-/

namespace BaoHypervisor

structure SbiRet where
  error : BitVec 64
  value : BitVec 64
deriving DecidableEq, Repr, Inhabited

def SbiError.code : SbiError → BitVec 64
  | .success => 0#64
  | .failure => -1#64
  | .notSupported => -2#64
  | .invalidParam => -3#64
  | .denied => -4#64
  | .invalidAddress => -5#64
  | .alreadyAvailable => -6#64

def SbiRet.ofError (error : SbiError) : SbiRet := { error := error.code, value := 0#64 }

def SbiState.code : SbiState → BitVec 64
  | .started => 0#64
  | .stopped => 1#64
  | .startPending => 2#64
  | .stopPending => 3#64

/-- What the locals `ret` of the handlers hold before they are written to. -/
structure SbiLocals where
  vs : SbiRet
  rfence : SbiRet
  hsmStart : SbiRet
  hsmStatus : SbiRet
  hsm : SbiRet
  bao : SbiRet
deriving Inhabited

/-- Locals that all hold the same. -/
def SbiLocals.all (ret : SbiRet) : SbiLocals := ⟨ret, ret, ret, ret, ret, ret⟩

/-- What an SBI call finds around it: the VM and the calling vCPU, the harts of the VM, the
timer of the CPU, the state of the hypercalls and the answers of the firmware. -/
structure SbiEnv where
  vm : Vm
  sbiMsgId : BitVec 32
  caller : ℕ
  harts : HsmState
  timer : TimerCpu
  hypEnv : HypEnv
  hyp : HypState
  vmId : ℕ
  firmware : RemoteFence → SbiRet

/-- The extensions that `sbi_vs_handler` has a case for. -/
inductive SbiExt
  | base
  | time
  | ipi
  | rfnc
  | hsm
  | bao
deriving DecidableEq, Repr

/-- `SBI_EXTID_*`. -/
def SbiExt.extid : SbiExt → BitVec 64
  | .base => 0x10#64
  | .time => 0x54494D45#64
  | .ipi => 0x735049#64
  | .rfnc => 0x52464E43#64
  | .hsm => 0x48534D#64
  | .bao => 0x08000ba0#64

def SbiExt.ofExtid (extid : BitVec 64) : Option SbiExt :=
  [base, time, ipi, rfnc, hsm, bao].find? fun ext => extid = ext.extid

def extTable : List (BitVec 64) :=
  [SbiExt.base.extid, SbiExt.time.extid, SbiExt.ipi.extid, SbiExt.rfnc.extid, SbiExt.hsm.extid]

/-- `vcpu_writereg`, which no register has the number of if that is out of range. -/
def vcpuWritereg (regs : ArchRegs) (reg : ℕ) (val : BitVec 64) : ArchRegs :=
  { regs with x := fun i => if (i : ℕ) + 1 = reg then val else regs.x i }

theorem vcpuReadreg_writereg (regs : ArchRegs) {reg reg' : ℕ} (val : BitVec 64)
    (h : 0 < reg' ∧ reg' ≤ 31) :
    vcpuReadreg (vcpuWritereg regs reg val) reg' =
      if reg' = reg then val else vcpuReadreg regs reg' := by
  rw [vcpuReadreg, vcpuReadreg, dif_pos h, dif_pos h, vcpuWritereg]
  dsimp only
  rw [Nat.sub_add_cancel h.1]

namespace SbiEnv

section Handlers

variable (env : SbiEnv) (locals : SbiLocals) (fid : BitVec 64) (regs : ArchRegs)

def sbiBaseHandler (fid : BitVec 64) (regs : ArchRegs) : SbiRet :=
  let extid := vcpuReadreg regs (argReg 0)
  { error := SbiError.success.code
    value :=
      if fid = 0#64 then 2#64
      else if fid = 3#64 then
        extTable.foldl (fun value ext => if ext = extid then extid else value) 0#64
      else 0#64 }

def sbiTimeHandler : SbiRet := .ofError (env.timer.sbiTimeHandler fid regs).1

def sbiIpiHandler : SbiRet := .ofError (BaoHypervisor.sbiIpiHandler env.vm fid regs env.sbiMsgId).2

def sbiRfenceHandler : SbiRet :=
  match BaoHypervisor.sbiRfenceHandler env.vm fid regs with
  | .ok fence => env.firmware fence
  | .error .invalidParam => .ofError .invalidParam
  | .error error => { locals.rfence with error := error.code }

def sbiHsmStartHandler : SbiRet :=
  { locals.hsmStart with
    error := (env.harts.sbiHsmStartHandler env.vm env.sbiMsgId env.caller regs).2.code }

def sbiHsmStatusHandler : SbiRet :=
  match env.vm.vmGetVcpu (vcpuReadreg regs (argReg 0)) with
  | some vhart =>
      { error := SbiError.success.code
        value := (env.harts.vcpus vhart).sbiCtx.state.code }
  | none => { locals.hsmStatus with error := SbiError.invalidParam.code }

def sbiHsmHandler : SbiRet :=
  if fid = 0#64 then env.sbiHsmStartHandler locals regs
  else if fid = 2#64 then env.sbiHsmStatusHandler locals regs
  else { locals.hsm with error := SbiError.notSupported.code }

def hypercallRet : Option ℤ :=
  (env.hyp.hypercall env.hypEnv env.vmId env.timer.healthRdtime fid (vcpuReadreg regs (argReg 0))
    (vcpuReadreg regs (argReg 1)) (vcpuReadreg regs (argReg 2))).ret

def sbiBaoHandler : Option SbiRet :=
  (env.hypercallRet fid regs).map fun ret => { locals.bao with error := BitVec.ofInt 64 ret }

/-- The `switch` of `sbi_vs_handler`: `none` if the call stops the CPU. -/
def sbiDispatch (ext : Option SbiExt) : Option SbiRet :=
  match ext with
  | some .base => some (sbiBaseHandler fid regs)
  | some .time => some (env.sbiTimeHandler fid regs)
  | some .ipi => some (env.sbiIpiHandler fid regs)
  | some .rfnc => some (env.sbiRfenceHandler locals fid regs)
  | some .hsm => some (env.sbiHsmHandler locals fid regs)
  | some .bao => env.sbiBaoHandler locals fid regs
  | none => some { locals.vs with value := SbiError.notSupported.code }

/-- `sbi_vs_handler`: the registers of the guest after the call. -/
def sbiVsHandler : Option ArchRegs :=
  let extid := vcpuReadreg regs (argReg 7)
  let fid := vcpuReadreg regs (argReg 6)
  (env.sbiDispatch locals fid regs (SbiExt.ofExtid extid)).map fun ret =>
    vcpuWritereg (vcpuWritereg regs (argReg 0) ret.error) (argReg 1) ret.value

end Handlers

/-- The functions that the handlers have a case for. -/
def Supports (fid : BitVec 64) : Option SbiExt → Prop
  | some .base => fid = 0#64 ∨ fid = 3#64
  | some .time | some .ipi => fid = 0#64
  | some .rfnc => fid = 0#64 ∨ fid = 1#64 ∨ fid = 2#64
  | some .hsm => fid = 0#64 ∨ fid = 2#64
  | some .bao => fid = 1#64 ∨ fid = 2#64 ∨ fid = 3#64 ∨ fid = 4#64
  | none => False

/-- The calls that are answered in full: a function of the base or the fence extension with
a case, any timer or IPI call, the status of a hart that there is, and a hypercall that
stops the CPU. -/
def Answers (env : SbiEnv) (fid : BitVec 64) (regs : ArchRegs) : Option SbiExt → Prop
  | some .base => fid = 0#64 ∨ fid = 3#64
  | some .time | some .ipi => True
  | some .rfnc => fid = 0#64 ∨ fid = 1#64 ∨ fid = 2#64
  | some .hsm =>
      fid = 2#64 ∧ (vcpuReadreg regs (argReg 0)).toNat < env.vm.config.cpuNum
  | some .bao => env.hypercallRet fid regs = none
  | none => False

/-! ## Two runs -/

/-- The result does not depend on the locals, and an unsupported function is answered as
such. -/
def Clean (supported : Prop) (result : SbiLocals → Option SbiRet) : Prop :=
  (∀ locals locals', result locals = result locals') ∧
    (¬ supported → ∀ locals ret, result locals = some ret →
      ret.error = SbiError.notSupported.code)

section Clean

variable {supported : Prop} {env : SbiEnv} {regs : ArchRegs} {fid : BitVec 64}

theorem clean_const_iff (ret : SbiRet) :
    Clean supported (fun _ => some ret) ↔
      supported ∨ ret.error = SbiError.notSupported.code := by
  constructor
  · intro h
    by_contra hnone
    rw [not_or] at hnone
    exact hnone.2 (h.2 hnone.1 default ret rfl)
  · intro h
    refine ⟨fun _ _ => rfl, fun hnot locals ret' hret => ?_⟩
    rw [← Option.some.inj hret]
    exact h.resolve_left hnot

theorem clean_none : Clean supported (fun _ => none) :=
  ⟨fun _ _ => rfl, fun _ _ _ hret => by cases hret⟩

theorem not_clean_of_value {result : SbiLocals → Option SbiRet}
    (h : ∀ ret, (result (SbiLocals.all ret)).map SbiRet.value = some ret.value) :
    ¬ Clean supported result := by
  intro hclean
  have hzero := h { error := 0#64, value := 0#64 }
  have hone := h { error := 0#64, value := 1#64 }
  rw [hclean.1 _ (SbiLocals.all { error := 0#64, value := 1#64 }), hone] at hzero
  exact absurd (Option.some.inj hzero) (by decide)

theorem not_clean_of_error {result : SbiLocals → Option SbiRet}
    (h : ∀ ret, (result (SbiLocals.all ret)).map SbiRet.error = some ret.error) :
    ¬ Clean supported result := by
  intro hclean
  have hzero := h { error := 0#64, value := 0#64 }
  have hone := h { error := 1#64, value := 0#64 }
  rw [hclean.1 _ (SbiLocals.all { error := 1#64, value := 0#64 }), hone] at hzero
  exact absurd (Option.some.inj hzero) (by decide)

theorem clean_base_iff :
    Clean (fid = 0#64 ∨ fid = 3#64) (fun _ => some (sbiBaseHandler fid regs)) ↔
      fid = 0#64 ∨ fid = 3#64 := by
  rw [clean_const_iff]
  exact or_iff_left fun h : SbiError.success.code = _ => absurd h (by decide)

theorem clean_time : Clean (fid = 0#64) (fun _ => some (env.sbiTimeHandler fid regs)) := by
  rw [clean_const_iff, sbiTimeHandler, TimerCpu.sbiTimeHandler]
  by_cases hfid : fid = sbiSetTimerFid
  · exact .inl hfid
  · rw [if_pos hfid]
    exact .inr rfl

theorem clean_ipi : Clean (fid = 0#64) (fun _ => some (env.sbiIpiHandler fid regs)) := by
  rw [clean_const_iff, sbiIpiHandler, BaoHypervisor.sbiIpiHandler]
  by_cases hfid : fid = 0#64
  · exact .inl hfid
  · rw [if_pos hfid]
    exact .inr rfl

theorem sbiRfenceHandler_cases (vm : Vm) (fid : BitVec 64) (regs : ArchRegs) :
    BaoHypervisor.sbiRfenceHandler vm fid regs = .error .invalidParam ∨
      ((∃ fence, BaoHypervisor.sbiRfenceHandler vm fid regs = .ok fence) ∧
        (fid = 0#64 ∨ fid = 1#64 ∨ fid = 2#64)) ∨
      (BaoHypervisor.sbiRfenceHandler vm fid regs = .error .notSupported ∧
        ¬ (fid = 0#64 ∨ fid = 1#64 ∨ fid = 2#64)) := by
  rw [BaoHypervisor.sbiRfenceHandler]
  dsimp only
  split_ifs with hmask hfence hvvma hasid
  · exact .inl rfl
  · exact .inr (.inl ⟨⟨_, rfl⟩, .inl hfence⟩)
  · exact .inr (.inl ⟨⟨_, rfl⟩, .inr (.inl hvvma)⟩)
  · exact .inr (.inl ⟨⟨_, rfl⟩, .inr (.inr hasid)⟩)
  · exact .inr (.inr ⟨rfl, by simp only [hfence, hvvma, hasid, or_self, not_false_eq_true]⟩)

theorem clean_rfence_iff :
    Clean (fid = 0#64 ∨ fid = 1#64 ∨ fid = 2#64)
        (fun locals => some (env.sbiRfenceHandler locals fid regs)) ↔
      fid = 0#64 ∨ fid = 1#64 ∨ fid = 2#64 := by
  simp only [sbiRfenceHandler]
  rcases sbiRfenceHandler_cases env.vm fid regs with heq | ⟨⟨fence, heq⟩, hfid⟩ | ⟨heq, hfid⟩
  · rw [heq]
    dsimp only
    rw [clean_const_iff]
    exact or_iff_left fun h : SbiError.invalidParam.code = _ => absurd h (by decide)
  · rw [heq]
    dsimp only
    rw [clean_const_iff]
    exact or_iff_left_of_imp fun _ => hfid
  · rw [heq]
    exact iff_of_false (not_clean_of_value fun ret => rfl) hfid

theorem clean_hsm_iff :
    Clean (fid = 0#64 ∨ fid = 2#64) (fun locals => some (env.sbiHsmHandler locals fid regs)) ↔
      fid = 2#64 ∧ (vcpuReadreg regs (argReg 0)).toNat < env.vm.config.cpuNum := by
  by_cases hstart : fid = 0#64
  · subst hstart
    exact iff_of_false (not_clean_of_value fun ret => rfl) fun h => absurd h.1 (by decide)
  by_cases hstatus : fid = 2#64
  · subst hstatus
    rw [and_iff_right rfl]
    simp only [sbiHsmHandler, if_neg (by decide : ¬ (2#64 : BitVec 64) = 0#64), if_pos,
      sbiHsmStatusHandler, Vm.vmGetVcpu]
    by_cases hlt : (vcpuReadreg regs (argReg 0)).toNat < env.vm.config.cpuNum
    · rw [if_pos hlt]
      dsimp only
      rw [clean_const_iff]
      exact iff_of_true (.inl (by simp)) hlt
    · rw [if_neg hlt]
      exact iff_of_false (not_clean_of_value fun ret => rfl) hlt
  · simp only [sbiHsmHandler, if_neg hstart, if_neg hstatus]
    exact iff_of_false (not_clean_of_value fun ret => rfl) fun h => hstatus h.1

theorem clean_bao_iff :
    Clean supported (fun locals => env.sbiBaoHandler locals fid regs) ↔
      env.hypercallRet fid regs = none := by
  simp only [sbiBaoHandler]
  cases env.hypercallRet fid regs with
  | none => exact iff_of_true clean_none rfl
  | some ret =>
      exact iff_of_false (not_clean_of_value fun ret => rfl) (Option.some_ne_none ret)

theorem clean_sbiDispatch_iff (env : SbiEnv) (fid : BitVec 64) (regs : ArchRegs)
    (ext : Option SbiExt) :
    Clean (Supports fid ext) (fun locals => env.sbiDispatch locals fid regs ext) ↔
      env.Answers fid regs ext := by
  cases ext with
  | none => exact iff_of_false (not_clean_of_error fun ret => rfl) id
  | some ext =>
      cases ext with
      | base => exact clean_base_iff
      | time => exact iff_of_true clean_time trivial
      | ipi => exact iff_of_true clean_ipi trivial
      | rfnc => exact clean_rfence_iff
      | hsm => exact clean_hsm_iff
      | bao => exact clean_bao_iff

theorem sbiVsHandler_eq_some_iff {locals : SbiLocals} {regs' : ArchRegs} :
    env.sbiVsHandler locals regs = some regs' ↔
      ∃ ret, env.sbiDispatch locals (vcpuReadreg regs (argReg 6)) regs
          (SbiExt.ofExtid (vcpuReadreg regs (argReg 7))) = some ret ∧
        vcpuWritereg (vcpuWritereg regs (argReg 0) ret.error) (argReg 1) ret.value = regs' :=
  Option.map_eq_some_iff

theorem vcpuReadreg_result (regs : ArchRegs) (ret : SbiRet) :
    let regs' := vcpuWritereg (vcpuWritereg regs (argReg 0) ret.error) (argReg 1) ret.value
    vcpuReadreg regs' (argReg 0) = ret.error ∧ vcpuReadreg regs' (argReg 1) = ret.value := by
  intro regs'
  refine ⟨?_, ?_⟩
  · rw [vcpuReadreg_writereg _ _ (by decide), if_neg (by decide),
      vcpuReadreg_writereg _ _ (by decide), if_pos rfl]
  · rw [vcpuReadreg_writereg _ _ (by decide), if_pos rfl]

end Clean

/-- For every extension, function and registers of the guest: what `sbi_vs_handler` writes
to the registers is the same whatever its locals held before, and an unsupported call
leaves `SBI_ERR_NOT_SUPPORTED` in `a0`, if and only if the call is answered in full. -/
theorem sbiVsHandler_clean_iff (env : SbiEnv) (regs : ArchRegs) :
    let fid := vcpuReadreg regs (argReg 6)
    let ext := SbiExt.ofExtid (vcpuReadreg regs (argReg 7))
    ((∀ locals locals', env.sbiVsHandler locals regs = env.sbiVsHandler locals' regs) ∧
      (¬ Supports fid ext → ∀ locals regs', env.sbiVsHandler locals regs = some regs' →
        vcpuReadreg regs' (argReg 0) = SbiError.notSupported.code)) ↔
      env.Answers fid regs ext := by
  intro fid ext
  rw [← clean_sbiDispatch_iff]
  refine and_congr (forall_congr' fun locals => forall_congr' fun locals' => ?_)
    (forall_congr' fun _ => forall_congr' fun locals => ?_)
  · constructor
    · intro heq
      refine Option.map_injective (fun ret ret' hret => ?_) heq
      obtain ⟨herror, hvalue⟩ := vcpuReadreg_result regs ret
      obtain ⟨herror', hvalue'⟩ := vcpuReadreg_result regs ret'
      rw [hret] at herror hvalue
      cases ret
      cases ret'
      exact congrArg₂ SbiRet.mk (herror.symm.trans herror') (hvalue.symm.trans hvalue')
    · intro heq
      rw [sbiVsHandler, sbiVsHandler]
      exact congrArg _ heq
  · constructor
    · intro h ret hret
      rw [← (vcpuReadreg_result regs ret).1]
      exact h _ (sbiVsHandler_eq_some_iff.mpr ⟨ret, hret, rfl⟩)
    · intro h regs' hregs'
      obtain ⟨ret, hret, rfl⟩ := sbiVsHandler_eq_some_iff.mp hregs'
      rw [(vcpuReadreg_result regs ret).1]
      exact h ret hret

/-- The first vCPU of a VM with three CPUs, after boot. -/
def threeCpus : SbiEnv where
  vm := Vm.threeCpus
  sbiMsgId := 7#32
  caller := 0
  harts := HsmState.boot Vm.threeCpus
  timer := TimerCpu.booted
  hypEnv := HypState.noIommu
  hyp := HypState.twoVms
  vmId := 0
  firmware := fun _ => .ofError .success

def ecallRegs (extid fid : BitVec 64) : ArchRegs :=
  vcpuWritereg (vcpuWritereg default (argReg 7) extid) (argReg 6) fid

/-- The guest asks for the system reset extension, which is not supported: `a0` gets what
the stack held, be it `SBI_SUCCESS` or an address. -/
theorem sbiVsHandler_leaks :
    let regs := ecallRegs 0x53525354#64 0#64
    let a0 := fun locals => (threeCpus.sbiVsHandler locals regs).map (vcpuReadreg · (argReg 0))
    a0 (.all { error := 0#64, value := 0#64 }) = some 0#64 ∧
      a0 (.all { error := 0x80200000#64, value := 0#64 }) = some 0x80200000#64 ∧
        ¬ (∀ locals locals',
            threeCpus.sbiVsHandler locals regs = threeCpus.sbiVsHandler locals' regs) ∧
          ¬ (¬ Supports 0#64 (SbiExt.ofExtid 0x53525354#64) →
            ∀ locals regs', threeCpus.sbiVsHandler locals regs = some regs' →
              vcpuReadreg regs' (argReg 0) = SbiError.notSupported.code) := by
  intro regs a0
  have hzero : a0 (.all { error := 0#64, value := 0#64 }) = some 0#64 := by decide
  have haddr : a0 (.all { error := 0x80200000#64, value := 0#64 }) = some 0x80200000#64 := by
    decide
  refine ⟨hzero, haddr, fun h => ?_, fun h => ?_⟩
  · have heq := congrArg (Option.map (vcpuReadreg · (argReg 0)))
      (h (.all { error := 0#64, value := 0#64 }) (.all { error := 0x80200000#64, value := 0#64 }))
    exact absurd (hzero.symm.trans (heq.trans haddr)) (by decide)
  · obtain ⟨regs', hregs', hread⟩ := Option.map_eq_some_iff.mp hzero
    have hext : SbiExt.ofExtid 0x53525354#64 = none := by decide
    exact absurd (hread.symm.trans (h (by rw [hext]; exact id) _ _ hregs')) (by decide)

end SbiEnv

end BaoHypervisor
