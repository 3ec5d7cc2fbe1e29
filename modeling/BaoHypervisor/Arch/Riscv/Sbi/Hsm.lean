import BaoHypervisor.Arch.Riscv.Sbi
import BaoHypervisor.Theory.Run

/-!
# Starting harts

A guest starts a stopped hart by a call that stores the start address in the vCPU, under
its lock, and sends a message to its CPU. The CPU resets the vCPU when it handles the
message. A vCPU is in `START_PENDING` exactly while this message is in the queue of its
CPU, so each accepted call is followed by one reset.
-/

namespace BaoHypervisor

/-- The vCPUs of a VM by their ids, and the SBI messages for each CPU. The last three
fields record the start addresses of the calls that were accepted for each vCPU, the
`HART_START` messages that it has handled and the addresses it was reset to by them. -/
structure HsmState where
  vcpus : ℕ → Vcpu
  msgs : ℕ → List CpuMsg
  accepted : ℕ → List Addr
  delivered : ℕ → ℕ
  resets : ℕ → List Addr

/-- A vCPU calls `hart_start` or `send_ipi` with the registers, or a CPU handles its next
SBI message. -/
inductive HsmAct
  | hartStart (caller : ℕ) (regs : ArchRegs)
  | sendIpi (regs : ArchRegs)
  | deliver (cpu : ℕ)

/-- `vm_get_vcpu`, where the index in the array of the VM stands for the pointer. -/
def Vm.vmGetVcpu (vm : Vm) (vcpuid : CpuId) : Option ℕ :=
  if vcpuid.toNat < vm.config.cpuNum then some vcpuid.toNat else none

def hipVssip : BitVec 64 := 1#64 <<< 2

/-- `sbi_msg_handler` on the CPU of the vCPU, with the entries that it calls `vcpu_arch_reset`
with. -/
def sbiMsgHandlerCalls (event : BitVec 32) (vcpu : Vcpu) : Vcpu × List Addr :=
  if event = SbiMsgEvent.sendIpi.code then
    ({ vcpu with csrs := { vcpu.csrs with hvip := vcpu.csrs.hvip ||| hipVssip } }, [])
  else if event = SbiMsgEvent.hartStart.code then
    match vcpu.sbiCtx.state with
    | .startPending =>
        let priv := vcpu.sbiCtx.priv
        let entry := vcpu.sbiCtx.startAddr
        let vcpu := vcpuArchReset entry vcpu
        ({ vcpu with
            regs := { vcpu.regs with x := Function.update vcpu.regs.x regA1 (priv.setWidth 64) }
            sbiCtx := { vcpu.sbiCtx with state := .started } },
          [entry])
    | _ => (vcpu, [])
  else (vcpu, [])

def sbiMsgHandler (event : BitVec 32) (vcpu : Vcpu) : Vcpu := (sbiMsgHandlerCalls event vcpu).1

def sbiMsgResets (event : BitVec 32) (vcpu : Vcpu) : List Addr := (sbiMsgHandlerCalls event vcpu).2

section MsgHandler

variable {event : BitVec 32} {vcpu : Vcpu}

theorem sbiMsgHandlerCalls_of_pending (h : vcpu.sbiCtx.state = .startPending) :
    sbiMsgHandlerCalls SbiMsgEvent.hartStart.code vcpu =
      ({ vcpuArchReset vcpu.sbiCtx.startAddr vcpu with
          regs := { (vcpuArchReset vcpu.sbiCtx.startAddr vcpu).regs with
            x := Function.update (vcpuArchReset vcpu.sbiCtx.startAddr vcpu).regs.x regA1
              (vcpu.sbiCtx.priv.setWidth 64) }
          sbiCtx := { vcpu.sbiCtx with state := .started } },
        [vcpu.sbiCtx.startAddr]) := by
  rw [sbiMsgHandlerCalls, if_neg (by decide), if_pos rfl, h]
  rfl

theorem sbiMsgHandlerCalls_of_not_pending (h : vcpu.sbiCtx.state ≠ .startPending) :
    sbiMsgHandlerCalls SbiMsgEvent.hartStart.code vcpu = (vcpu, []) := by
  rw [sbiMsgHandlerCalls, if_neg (by decide), if_pos rfl]
  cases hstate : vcpu.sbiCtx.state with
  | startPending => exact absurd hstate h
  | _ => rfl

theorem sbiMsgHandlerCalls_of_ne (h : event ≠ SbiMsgEvent.hartStart.code) :
    sbiMsgHandlerCalls event vcpu =
      ({ vcpu with csrs := { vcpu.csrs with hvip :=
        if event = SbiMsgEvent.sendIpi.code then vcpu.csrs.hvip ||| hipVssip
        else vcpu.csrs.hvip } }, []) := by
  rw [sbiMsgHandlerCalls, if_neg h]
  split_ifs <;> rfl

variable (event vcpu)

@[simp] theorem sbiMsgHandler_id : (sbiMsgHandler event vcpu).id = vcpu.id := by
  rw [sbiMsgHandler, sbiMsgHandlerCalls]
  split_ifs
  · rfl
  · cases vcpu.sbiCtx.state <;> rfl
  · rfl

@[simp] theorem sbiMsgHandler_physId : (sbiMsgHandler event vcpu).physId = vcpu.physId := by
  rw [sbiMsgHandler, sbiMsgHandlerCalls]
  split_ifs
  · rfl
  · cases vcpu.sbiCtx.state <;> rfl
  · rfl

variable {event vcpu}

theorem sbiMsgHandler_of_pending (h : vcpu.sbiCtx.state = .startPending) :
    (sbiMsgHandler SbiMsgEvent.hartStart.code vcpu).sbiCtx.state = .started ∧
      sbiMsgResets SbiMsgEvent.hartStart.code vcpu = [vcpu.sbiCtx.startAddr] := by
  rw [sbiMsgHandler, sbiMsgResets, sbiMsgHandlerCalls_of_pending h]
  exact ⟨rfl, rfl⟩

theorem sbiMsgHandler_of_not_pending (vcpu : Vcpu) (h : vcpu.sbiCtx.state ≠ .startPending) :
    sbiMsgHandler SbiMsgEvent.hartStart.code vcpu = vcpu ∧
      sbiMsgResets SbiMsgEvent.hartStart.code vcpu = [] := by
  rw [sbiMsgHandler, sbiMsgResets, sbiMsgHandlerCalls_of_not_pending h]
  exact ⟨rfl, rfl⟩

theorem sbiMsgHandler_of_ne (vcpu : Vcpu) (h : event ≠ SbiMsgEvent.hartStart.code) :
    (sbiMsgHandler event vcpu).sbiCtx = vcpu.sbiCtx ∧ sbiMsgResets event vcpu = [] := by
  rw [sbiMsgHandler, sbiMsgResets, sbiMsgHandlerCalls_of_ne h]
  exact ⟨rfl, rfl⟩

end MsgHandler

namespace HsmState

def boot (vm : Vm) : HsmState where
  vcpus := fun id => vm.vmVcpuInit (vm.translateToPcpuid (BitVec.ofNat 64 id)).toNat
  msgs := fun _ => []
  accepted := fun _ => []
  delivered := fun _ => 0
  resets := fun _ => []

section Step

variable (vm : Vm) (sbiMsgId : BitVec 32) (s : HsmState)

/-- What `sbi_hsm_start_handler` does to a stopped vCPU. -/
def startPending (id : ℕ) (startAddr : Addr) (priv : BitVec 32) : HsmState :=
  let vcpu := s.vcpus id
  let msg : CpuMsg :=
    { handler := sbiMsgId, event := SbiMsgEvent.hartStart.code, data := 0xdeadbeef#64 }
  { s with
    vcpus := Function.update s.vcpus id
      { vcpu with
        sbiCtx := { state := .startPending, startAddr := startAddr, priv := priv } }
    msgs := Function.update s.msgs vcpu.physId (s.msgs vcpu.physId ++ [msg])
    accepted := Function.update s.accepted id (s.accepted id ++ [startAddr]) }

/-- `sbi_hsm_start_handler` on the registers of the calling vCPU. -/
def sbiHsmStartHandler (caller : ℕ) (regs : ArchRegs) : HsmState × SbiError :=
  let vhartId := vcpuReadreg regs (argReg 0)
  if vhartId.toNat = (s.vcpus caller).id then (s, .alreadyAvailable)
  else
    match vm.vmGetVcpu vhartId with
    | none => (s, .invalidParam)
    | some id =>
        match (s.vcpus id).sbiCtx.state with
        | .started => (s, .alreadyAvailable)
        | .stopped =>
            let startAddr := vcpuReadreg regs (argReg 1)
            let priv := (vcpuReadreg regs (argReg 2)).setWidth 32
            (s.startPending sbiMsgId id startAddr priv, .success)
        | _ => (s, .failure)

/-- `sbi_ipi_handler` on the registers of the calling vCPU. -/
def sendIpi (regs : ArchRegs) : HsmState :=
  let sent := (sbiIpiHandler vm 0#64 regs sbiMsgId).1
  { s with
    msgs := fun cpu => s.msgs cpu ++ (sent.filter fun m => m.1.toNat = cpu).map Prod.snd }

def handleMsg (id : ℕ) (msg : CpuMsg) : HsmState :=
  { s with
    vcpus := Function.update s.vcpus id (sbiMsgHandler msg.event (s.vcpus id))
    delivered := Function.update s.delivered id
      (if msg.event = SbiMsgEvent.hartStart.code then s.delivered id + 1 else s.delivered id)
    resets := Function.update s.resets id
      (s.resets id ++ sbiMsgResets msg.event (s.vcpus id)) }

/-- A CPU of the VM handles its next SBI message. -/
def deliver (cpu : ℕ) : HsmState :=
  if vm.HasCpu cpu then
    match s.msgs cpu with
    | [] => s
    | msg :: rest =>
        { s with msgs := Function.update s.msgs cpu rest }.handleMsg (vm.vmCalcVcpuId cpu) msg
  else s

def step : HsmAct → HsmState
  | .hartStart caller regs => (s.sbiHsmStartHandler vm sbiMsgId caller regs).1
  | .sendIpi regs => s.sendIpi vm sbiMsgId regs
  | .deliver cpu => s.deliver vm cpu

end Step

abbrev after (vm : Vm) (sbiMsgId : BitVec 32) (as : List HsmAct) : HsmState :=
  Run.exec (step vm sbiMsgId) (boot vm) as

/-- The `HART_START` messages in the queue of the CPU of the vCPU. -/
def inFlight (s : HsmState) (id : ℕ) : ℕ :=
  (s.msgs (s.vcpus id).physId).countP fun m => m.event = SbiMsgEvent.hartStart.code

/-- The vCPU begins at the address, with its own id and the second value in the argument
registers and zero in all others. -/
structure StartsWith (vcpu : Vcpu) (startAddr : Addr) (priv : BitVec 64) : Prop where
  sepc : vcpu.regs.sepc = startAddr
  regs : ∀ i, vcpu.regs.x i =
    if i = regA0 then BitVec.ofNat 64 vcpu.id else if i = regA1 then priv else 0#64

/-! ## What is pending is in flight -/

/-- The vCPU is on its CPU. It is in `START_PENDING` while a start was accepted that it was
not reset for yet, and then one message for this is in flight. -/
structure Coherent (vm : Vm) (s : HsmState) (id : ℕ) : Prop where
  id_eq : (s.vcpus id).id = id
  hasCpu : vm.HasCpu (s.vcpus id).physId
  calc_eq : vm.vmCalcVcpuId (s.vcpus id).physId = id
  pending : (s.vcpus id).sbiCtx.state = .startPending →
    s.inFlight id = 1 ∧ s.accepted id = s.resets id ++ [(s.vcpus id).sbiCtx.startAddr]
  settled : (s.vcpus id).sbiCtx.state ≠ .startPending →
    s.inFlight id = 0 ∧ s.accepted id = s.resets id
  delivered_eq : s.delivered id = (s.resets id).length

theorem coherent_boot {vm : Vm} {id : ℕ} (hid : id < vm.cpuSet.card) :
    Coherent vm (boot vm) id := by
  have hcard := vm.card_cpuSet_le
  have hnat : (BitVec.ofNat 64 id).toNat = id := Vm.toNat_cpuid (by omega)
  have hid' : (BitVec.ofNat 64 id).toNat < vm.cpuSet.card := by rwa [hnat]
  obtain ⟨cpu, hcpu, hcalc, htranslate⟩ := Vm.exists_translateToPcpuid hid'
  have hphys : (vm.translateToPcpuid (BitVec.ofNat 64 id)).toNat = cpu := by
    rw [htranslate, Vm.toNat_cpuid hcpu.lt.le]
  rw [hnat] at hcalc
  have hvcpu : (boot vm).vcpus id = vm.vmVcpuInit cpu := congrArg vm.vmVcpuInit hphys
  refine ⟨?_, ?_, ?_, fun hpending => ?_, fun _ => ⟨rfl, rfl⟩, rfl⟩
  · rw [hvcpu, Vm.vmVcpuInit_id, hcalc]
  · rw [hvcpu]
    exact hcpu
  · rw [hvcpu]
    exact hcalc
  · have hstate : ((boot vm).vcpus id).sbiCtx.state = bootState (vm.vmCalcVcpuId cpu) := by
      rw [hvcpu]
      rfl
    rw [hstate, bootState] at hpending
    split_ifs at hpending

section Steps

variable {vm : Vm} {sbiMsgId : BitVec 32} {s s' : HsmState} {id cpu : ℕ}

/-- A vCPU about which nothing changes. -/
theorem Coherent.congr (h : Coherent vm s id) (hvcpu : s'.vcpus id = s.vcpus id)
    (hflight : s'.inFlight id = s.inFlight id) (haccepted : s'.accepted id = s.accepted id)
    (hdelivered : s'.delivered id = s.delivered id) (hresets : s'.resets id = s.resets id) :
    Coherent vm s' id := by
  refine ⟨?_, ?_, ?_, fun hstate => ?_, fun hstate => ?_, ?_⟩
  · rw [hvcpu, h.id_eq]
  · rw [hvcpu]
    exact h.hasCpu
  · rw [hvcpu]
    exact h.calc_eq
  · rw [hvcpu] at hstate ⊢
    rw [hflight, haccepted, hresets]
    exact h.pending hstate
  · rw [hvcpu] at hstate
    rw [hflight, haccepted, hresets]
    exact h.settled hstate
  · rw [hdelivered, hresets, h.delivered_eq]

theorem Coherent.physId_ne (h : Coherent vm s id) {other : ℕ} (hother : Coherent vm s other)
    (hne : other ≠ id) : (s.vcpus other).physId ≠ (s.vcpus id).physId := by
  intro heq
  rw [← hother.calc_eq, ← h.calc_eq, heq] at hne
  exact hne rfl

theorem Coherent.physId_eq (h : Coherent vm s (vm.vmCalcVcpuId cpu)) (hcpu : vm.HasCpu cpu) :
    (s.vcpus (vm.vmCalcVcpuId cpu)).physId = cpu :=
  Vm.vmCalcVcpuId_injective h.hasCpu hcpu h.calc_eq

theorem inFlight_eq {cpu : ℕ} (hphys : (s.vcpus id).physId = cpu) :
    s.inFlight id = (s.msgs cpu).countP fun m => m.event = SbiMsgEvent.hartStart.code := by
  rw [inFlight, hphys]

theorem coherent_sendIpi (h : Coherent vm s id) (regs : ArchRegs) :
    Coherent vm (s.sendIpi vm sbiMsgId regs) id := by
  refine h.congr rfl ?_ rfl rfl rfl
  rw [inFlight, inFlight, sendIpi]
  dsimp only
  rw [List.countP_append]
  refine Nat.add_eq_left.mpr (List.countP_eq_zero.mpr fun m hm => ?_)
  obtain ⟨sent, hsent, rfl⟩ := List.mem_map.mp hm
  have hevent : sent.2.event = SbiMsgEvent.sendIpi.code := by
    have hmem := (List.mem_filter.mp hsent).1
    rw [sbiIpiHandler, if_neg (not_not.mpr rfl)] at hmem
    obtain ⟨cpu, -, rfl⟩ := List.mem_map.mp hmem
    rfl
  rw [hevent]
  decide

/-- A start that is accepted leaves one message in flight. -/
theorem coherent_startPending (h : ∀ v < vm.config.cpuNum, Coherent vm s v) {v : ℕ}
    (hv : v < vm.config.cpuNum) (hstate : (s.vcpus v).sbiCtx.state = .stopped)
    (startAddr : Addr) (priv : BitVec 32) (hid : id < vm.config.cpuNum) :
    Coherent vm (s.startPending sbiMsgId v startAddr priv) id := by
  by_cases hne : id = v
  · subst hne
    obtain ⟨hflight, haccepted⟩ := (h id hv).settled (by rw [hstate]; decide)
    have hvcpu : (s.startPending sbiMsgId id startAddr priv).vcpus id =
        { s.vcpus id with
          sbiCtx := { state := .startPending, startAddr := startAddr, priv := priv } } :=
      Function.update_self _ _ _
    refine ⟨?_, ?_, ?_, fun _ => ⟨?_, ?_⟩, fun hsettled => ?_, (h id hv).delivered_eq⟩
    · rw [hvcpu]
      exact (h id hv).id_eq
    · rw [hvcpu]
      exact (h id hv).hasCpu
    · rw [hvcpu]
      exact (h id hv).calc_eq
    · rw [inFlight_eq (congrArg Vcpu.physId hvcpu), startPending]
      dsimp only
      rw [Function.update_self, List.countP_append]
      rw [inFlight] at hflight
      rw [hflight]
      rfl
    · rw [hvcpu, startPending]
      dsimp only
      rw [Function.update_self, haccepted]
    · rw [hvcpu] at hsettled
      exact absurd rfl hsettled
  · have hvcpu : (s.startPending sbiMsgId v startAddr priv).vcpus id = s.vcpus id :=
      Function.update_of_ne hne _ _
    refine (h id hid).congr hvcpu ?_ (Function.update_of_ne hne _ _) rfl rfl
    rw [inFlight_eq (congrArg Vcpu.physId hvcpu), startPending]
    dsimp only
    rw [Function.update_of_ne ((h v hv).physId_ne (h id hid) hne), inFlight]

/-- The message that is handled is the one the vCPU is pending for, if it is a start. -/
theorem coherent_deliver_self (h : Coherent vm s (vm.vmCalcVcpuId cpu))
    (hcpu : vm.HasCpu cpu) {msg : CpuMsg} {rest : List CpuMsg} (hmsgs : s.msgs cpu = msg :: rest) :
    Coherent vm ({ s with msgs := Function.update s.msgs cpu rest }.handleMsg
      (vm.vmCalcVcpuId cpu) msg) (vm.vmCalcVcpuId cpu) := by
  set id := vm.vmCalcVcpuId cpu with hid
  set s' := { s with msgs := Function.update s.msgs cpu rest }.handleMsg id msg with hs'
  have hphys : (s.vcpus id).physId = cpu := h.physId_eq hcpu
  have hvcpu : s'.vcpus id = sbiMsgHandler msg.event (s.vcpus id) := Function.update_self _ _ _
  have hresets : s'.resets id = s.resets id ++ sbiMsgResets msg.event (s.vcpus id) :=
    Function.update_self _ _ _
  have hdelivered : s'.delivered id = if msg.event = SbiMsgEvent.hartStart.code then
      s.delivered id + 1 else s.delivered id := Function.update_self _ _ _
  have hphys' : (s'.vcpus id).physId = cpu := by rw [hvcpu, sbiMsgHandler_physId, hphys]
  have hflight' : s'.inFlight id =
      rest.countP fun m => m.event = SbiMsgEvent.hartStart.code := by
    rw [inFlight_eq hphys']
    exact congrArg _ (Function.update_self _ _ _)
  have hflight := inFlight_eq hphys
  rw [hmsgs, List.countP_cons, ← hflight'] at hflight
  have hwhere : (s'.vcpus id).id = id ∧ vm.HasCpu (s'.vcpus id).physId ∧
      vm.vmCalcVcpuId (s'.vcpus id).physId = id := by
    rw [hphys', hvcpu, sbiMsgHandler_id]
    exact ⟨h.id_eq, hcpu, rfl⟩
  by_cases hstart : msg.event = SbiMsgEvent.hartStart.code
  · rw [decide_eq_true hstart, if_pos rfl] at hflight
    have hstate : (s.vcpus id).sbiCtx.state = .startPending := by
      by_contra hne
      have hnone := (h.settled hne).1
      omega
    obtain ⟨hone, haccepted⟩ := h.pending hstate
    obtain ⟨hstarted, hreset⟩ := sbiMsgHandler_of_pending hstate
    rw [hstart] at hvcpu hresets
    rw [hreset] at hresets
    refine ⟨hwhere.1, hwhere.2.1, hwhere.2.2, fun hpending => ?_, fun _ => ⟨by omega, ?_⟩, ?_⟩
    · rw [hvcpu, hstarted] at hpending
      cases hpending
    · rw [hresets]
      exact haccepted
    · rw [hdelivered, if_pos hstart, hresets, List.length_append, h.delivered_eq]
      rfl
  · rw [decide_eq_false hstart, if_neg Bool.false_ne_true, Nat.add_zero] at hflight
    obtain ⟨hctx, hreset⟩ := sbiMsgHandler_of_ne (s.vcpus id) hstart
    rw [hreset, List.append_nil] at hresets
    refine ⟨hwhere.1, hwhere.2.1, hwhere.2.2, fun hpending => ?_, fun hsettled => ?_, ?_⟩
    · rw [hvcpu, hctx] at hpending ⊢
      rw [← hflight, hresets]
      exact h.pending hpending
    · rw [hvcpu, hctx] at hsettled
      rw [← hflight, hresets]
      exact h.settled hsettled
    · rw [hdelivered, if_neg hstart, hresets, h.delivered_eq]

theorem coherent_deliver (hnum : vm.config.cpuNum = vm.cpuSet.card)
    (h : ∀ v < vm.config.cpuNum, Coherent vm s v) (cpu : ℕ) (hid : id < vm.config.cpuNum) :
    Coherent vm (s.deliver vm cpu) id := by
  rw [deliver]
  split_ifs with hcpu
  · have hlt : vm.vmCalcVcpuId cpu < vm.config.cpuNum := hnum ▸ Vm.vmCalcVcpuId_lt hcpu
    cases hmsgs : s.msgs cpu with
    | nil => exact h id hid
    | cons msg rest =>
        dsimp only
        by_cases hne : id = vm.vmCalcVcpuId cpu
        · rw [hne]
          exact coherent_deliver_self (h _ hlt) hcpu hmsgs
        · have hother := (h _ hlt).physId_ne (h id hid) hne
          rw [(h _ hlt).physId_eq hcpu] at hother
          refine (h id hid).congr (Function.update_of_ne hne _ _) ?_ rfl
            (Function.update_of_ne hne _ _) (Function.update_of_ne hne _ _)
          rw [inFlight_eq (congrArg Vcpu.physId (Function.update_of_ne hne _ _)), handleMsg]
          dsimp only
          rw [Function.update_of_ne hother, inFlight]
  · exact h id hid

/-- What `sbi_hsm_start_handler` does: it starts a stopped vCPU, or it returns an error and
changes nothing. -/
theorem sbiHsmStartHandler_cases (vm : Vm) (sbiMsgId : BitVec 32) (s : HsmState) (caller : ℕ)
    (regs : ArchRegs) :
    let vhartId := (vcpuReadreg regs (argReg 0)).toNat
    let r := s.sbiHsmStartHandler vm sbiMsgId caller regs
    (vhartId < vm.config.cpuNum ∧ (s.vcpus vhartId).sbiCtx.state = .stopped ∧
      r = (s.startPending sbiMsgId vhartId (vcpuReadreg regs (argReg 1))
        ((vcpuReadreg regs (argReg 2)).setWidth 32), .success)) ∨
    (r.2 ≠ .success ∧ r.1 = s) := by
  intro vhartId r
  have hr : r = s.sbiHsmStartHandler vm sbiMsgId caller regs := rfl
  rw [sbiHsmStartHandler, Vm.vmGetVcpu] at hr
  dsimp only at hr
  by_cases hself : vhartId = (s.vcpus caller).id
  · rw [if_pos hself] at hr
    rw [hr]
    exact .inr ⟨by simp, rfl⟩
  · rw [if_neg hself] at hr
    by_cases hlt : vhartId < vm.config.cpuNum
    · rw [if_pos hlt] at hr
      dsimp only at hr
      cases hstate : (s.vcpus vhartId).sbiCtx.state with
      | stopped =>
          rw [hstate] at hr
          exact .inl ⟨hlt, rfl, hr⟩
      | _ =>
          rw [hstate] at hr
          rw [hr]
          exact .inr ⟨by simp, rfl⟩
    · rw [if_neg hlt] at hr
      rw [hr]
      exact .inr ⟨by simp, rfl⟩

theorem coherent_step (hnum : vm.config.cpuNum = vm.cpuSet.card)
    (h : ∀ v < vm.config.cpuNum, Coherent vm s v) (a : HsmAct) :
    ∀ v < vm.config.cpuNum, Coherent vm (s.step vm sbiMsgId a) v := by
  intro v hv
  cases a with
  | hartStart caller regs =>
      rw [step]
      rcases sbiHsmStartHandler_cases vm sbiMsgId s caller regs with ⟨hlt, hstate, heq⟩ | ⟨-, heq⟩
      · rw [heq]
        exact coherent_startPending h hlt hstate _ _ hv
      · rw [heq]
        exact h v hv
  | sendIpi regs => exact coherent_sendIpi (h v hv) regs
  | deliver cpu => exact coherent_deliver hnum h cpu hv

theorem accepted_prefix_step (vm : Vm) (sbiMsgId : BitVec 32) (s : HsmState) (a : HsmAct)
    (id : ℕ) : s.accepted id <+: (s.step vm sbiMsgId a).accepted id := by
  cases a with
  | hartStart caller regs =>
      rw [step]
      rcases sbiHsmStartHandler_cases vm sbiMsgId s caller regs with ⟨-, -, heq⟩ | ⟨-, heq⟩
      · rw [heq, startPending]
        dsimp only
        by_cases hid : id = (vcpuReadreg regs (argReg 0)).toNat
        · rw [hid, Function.update_self]
          exact List.prefix_append _ _
        · rw [Function.update_of_ne hid]
      · rw [heq]
  | sendIpi regs => exact List.prefix_rfl
  | deliver cpu =>
      rw [step, deliver]
      split_ifs
      · cases s.msgs cpu <;> exact List.prefix_rfl
      · exact List.prefix_rfl

theorem accepted_prefix_exec (vm : Vm) (sbiMsgId : BitVec 32) (s : HsmState)
    (as : List HsmAct) (id : ℕ) :
    s.accepted id <+: (Run.exec (step vm sbiMsgId) s as).accepted id :=
  Run.exec_invariant (I := fun s' => s.accepted id <+: s'.accepted id) List.prefix_rfl
    (fun s' a hs => hs.trans (accepted_prefix_step vm sbiMsgId s' a id)) as

theorem coherent_exec (hnum : vm.config.cpuNum = vm.cpuSet.card)
    (h : ∀ v < vm.config.cpuNum, Coherent vm s v) (as : List HsmAct) :
    ∀ v < vm.config.cpuNum, Coherent vm (Run.exec (step vm sbiMsgId) s as) v :=
  Run.exec_invariant (I := fun s => ∀ v < vm.config.cpuNum, Coherent vm s v) h
    (fun _ a hs => coherent_step hnum hs a) as

theorem Coherent.resets_prefix (h : Coherent vm s id) : s.resets id <+: s.accepted id := by
  by_cases hstate : (s.vcpus id).sbiCtx.state = .startPending
  · rw [(h.pending hstate).2]
    exact List.prefix_append _ _
  · rw [(h.settled hstate).2]

/-- What a delivery does to the vCPU: it is on another CPU or there is no message, it
handles a start, or it handles another message. -/
theorem deliver_cases (vm : Vm) (s : HsmState) (cpu id : ℕ) :
    ((s.deliver vm cpu).vcpus id = s.vcpus id ∧
        (s.deliver vm cpu).delivered id = s.delivered id) ∨
      ((s.deliver vm cpu).vcpus id =
          sbiMsgHandler SbiMsgEvent.hartStart.code (s.vcpus id) ∧
        (s.deliver vm cpu).delivered id = s.delivered id + 1) ∨
      (((s.deliver vm cpu).vcpus id).sbiCtx = (s.vcpus id).sbiCtx ∧
        (s.deliver vm cpu).delivered id = s.delivered id) := by
  rw [deliver]
  split_ifs with hcpu
  · cases s.msgs cpu with
    | nil => exact .inl ⟨rfl, rfl⟩
    | cons msg rest =>
        dsimp only [handleMsg]
        by_cases hid : id = vm.vmCalcVcpuId cpu
        · subst hid
          rw [Function.update_self, Function.update_self]
          by_cases hstart : msg.event = SbiMsgEvent.hartStart.code
          · rw [if_pos hstart, hstart]
            exact .inr (.inl ⟨rfl, rfl⟩)
          · rw [if_neg hstart]
            exact .inr (.inr ⟨(sbiMsgHandler_of_ne _ hstart).1, rfl⟩)
        · rw [Function.update_of_ne hid, Function.update_of_ne hid]
          exact .inl ⟨rfl, rfl⟩
  · exact .inl ⟨rfl, rfl⟩

theorem delivered_le_step (vm : Vm) (sbiMsgId : BitVec 32) (s : HsmState) (a : HsmAct)
    (id : ℕ) : s.delivered id ≤ (s.step vm sbiMsgId a).delivered id := by
  cases a with
  | hartStart caller regs =>
      rw [step]
      rcases sbiHsmStartHandler_cases vm sbiMsgId s caller regs with ⟨-, -, heq⟩ | ⟨-, heq⟩
      · rw [heq]
        exact le_rfl
      · rw [heq]
  | sendIpi regs => exact le_rfl
  | deliver cpu =>
      rw [step]
      rcases deliver_cases vm s cpu id with ⟨-, heq⟩ | ⟨-, heq⟩ | ⟨-, heq⟩
      · rw [heq]
      · rw [heq]
        exact Nat.le_succ _
      · rw [heq]

theorem delivered_le_exec (vm : Vm) (sbiMsgId : BitVec 32) (s : HsmState) (as : List HsmAct)
    (id : ℕ) : s.delivered id ≤ (Run.exec (step vm sbiMsgId) s as).delivered id :=
  Run.exec_invariant (I := fun s' => s.delivered id ≤ s'.delivered id) le_rfl
    (fun s' a hs => hs.trans (delivered_le_step vm sbiMsgId s' a id)) as

/-- Until a pending vCPU handles a start, its hart state stays as it is. -/
theorem sbiCtx_step (hpending : (s.vcpus id).sbiCtx.state = .startPending) (a : HsmAct)
    (hdelivered : (s.step vm sbiMsgId a).delivered id = s.delivered id) :
    ((s.step vm sbiMsgId a).vcpus id).sbiCtx = (s.vcpus id).sbiCtx := by
  cases a with
  | hartStart caller regs =>
      rw [step]
      rcases sbiHsmStartHandler_cases vm sbiMsgId s caller regs with
        ⟨-, hstopped, heq⟩ | ⟨-, heq⟩
      · have hne : id ≠ (vcpuReadreg regs (argReg 0)).toNat := by
          rintro rfl
          rw [hpending] at hstopped
          cases hstopped
        rw [heq, startPending]
        dsimp only
        rw [Function.update_of_ne hne]
      · rw [heq]
  | sendIpi regs => rfl
  | deliver cpu =>
      rw [step] at hdelivered ⊢
      rcases deliver_cases vm s cpu id with ⟨heq, -⟩ | ⟨-, hone⟩ | ⟨heq, -⟩
      · rw [heq]
      · rw [hone] at hdelivered
        exact absurd hdelivered (Nat.succ_ne_self _)
      · exact heq

theorem sbiCtx_exec (hpending : (s.vcpus id).sbiCtx.state = .startPending) (as : List HsmAct)
    (hdelivered : (Run.exec (step vm sbiMsgId) s as).delivered id = s.delivered id) :
    ((Run.exec (step vm sbiMsgId) s as).vcpus id).sbiCtx = (s.vcpus id).sbiCtx := by
  induction as generalizing s with
  | nil => rfl
  | cons a as ih =>
      have hstep : (s.step vm sbiMsgId a).delivered id = s.delivered id :=
        le_antisymm
          ((delivered_le_exec vm sbiMsgId (s.step vm sbiMsgId a) as id).trans hdelivered.le)
          (delivered_le_step vm sbiMsgId s a id)
      have hctx := sbiCtx_step hpending a hstep
      exact (ih (by rw [hctx]; exact hpending) (hdelivered.trans hstep.symm)).trans hctx

theorem startsWith_sbiMsgHandler {vcpu : Vcpu} (h : vcpu.sbiCtx.state = .startPending) :
    StartsWith (sbiMsgHandler SbiMsgEvent.hartStart.code vcpu) vcpu.sbiCtx.startAddr
      (vcpu.sbiCtx.priv.setWidth 64) := by
  rw [sbiMsgHandler, sbiMsgHandlerCalls_of_pending h]
  refine ⟨rfl, fun i => ?_⟩
  dsimp only [vcpuArchReset]
  rw [Function.update_apply, Function.update_apply]
  by_cases ha0 : i = regA0
  · have hne : i ≠ regA1 := ha0 ▸ (by decide)
    rw [if_neg hne, if_pos ha0, if_pos ha0]
  · rw [if_neg ha0, if_neg ha0]

end Steps

/-- Once the message of an accepted start has been handled, its target was reset once more
than before, to the address of the start. -/
theorem resets_of_delivered {vm : Vm} {sbiMsgId : BitVec 32} {s : HsmState} {id : ℕ}
    (hnum : vm.config.cpuNum = vm.cpuSet.card) (h : ∀ v < vm.config.cpuNum, Coherent vm s v)
    (hid : id < vm.config.cpuNum) (hstate : (s.vcpus id).sbiCtx.state = .stopped)
    (startAddr : Addr) (priv : BitVec 32) (bs : List HsmAct)
    (hdelivered : (Run.exec (step vm sbiMsgId)
      (s.startPending sbiMsgId id startAddr priv) bs).delivered id = s.delivered id + 1) :
    (Run.exec (step vm sbiMsgId) (s.startPending sbiMsgId id startAddr priv) bs).resets id =
      s.resets id ++ [startAddr] := by
  have hend := @coherent_exec vm sbiMsgId (s.startPending sbiMsgId id startAddr priv) hnum
    (fun v hv => coherent_startPending h hid hstate startAddr priv hv) bs id hid
  have haccepted : (s.startPending sbiMsgId id startAddr priv).accepted id =
      s.resets id ++ [startAddr] := by
    rw [startPending]
    dsimp only
    rw [Function.update_self, ((h id hid).settled (by rw [hstate]; decide)).2]
  have hprefix := accepted_prefix_exec vm sbiMsgId
    (s.startPending sbiMsgId id startAddr priv) bs id
  have hlength := hend.delivered_eq
  rw [haccepted] at hprefix
  rw [hdelivered, (h id hid).delivered_eq] at hlength
  refine List.IsPrefix.eq_of_length
    (List.prefix_of_prefix_length_le hend.resets_prefix hprefix ?_) ?_
  · rw [List.length_append, ← hlength]
    exact le_rfl
  · rw [List.length_append, ← hlength]
    rfl

/-- Until the message of an accepted start has been handled, its target is not reset. -/
theorem resets_of_waiting {vm : Vm} {sbiMsgId : BitVec 32} {s : HsmState} {id : ℕ}
    (hnum : vm.config.cpuNum = vm.cpuSet.card) (h : ∀ v < vm.config.cpuNum, Coherent vm s v)
    (hid : id < vm.config.cpuNum) (hstate : (s.vcpus id).sbiCtx.state = .stopped)
    (startAddr : Addr) (priv : BitVec 32) (bs : List HsmAct)
    (hwaits : (Run.exec (step vm sbiMsgId)
      (s.startPending sbiMsgId id startAddr priv) bs).delivered id = s.delivered id) :
    (Run.exec (step vm sbiMsgId) (s.startPending sbiMsgId id startAddr priv) bs).resets id =
      s.resets id := by
  have hend := @coherent_exec vm sbiMsgId (s.startPending sbiMsgId id startAddr priv) hnum
    (fun v hv => coherent_startPending h hid hstate startAddr priv hv) bs id hid
  have haccepted : (s.startPending sbiMsgId id startAddr priv).accepted id =
      s.resets id ++ [startAddr] := by
    rw [startPending]
    dsimp only
    rw [Function.update_self, ((h id hid).settled (by rw [hstate]; decide)).2]
  have hprefix := accepted_prefix_exec vm sbiMsgId
    (s.startPending sbiMsgId id startAddr priv) bs id
  have hlength := hend.delivered_eq
  rw [haccepted] at hprefix
  rw [hwaits, (h id hid).delivered_eq] at hlength
  have hold := (List.prefix_append _ _).trans hprefix
  exact ((List.prefix_of_prefix_length_le hold hend.resets_prefix hlength.le).eq_of_length
    hlength).symm

/-- The target of an accepted start begins, when it handles the message, with what the call
gave it. -/
theorem startsWith_of_handled {vm : Vm} {sbiMsgId : BitVec 32} {s : HsmState} {id : ℕ}
    (startAddr : Addr) (priv : BitVec 32) (bs : List HsmAct) (cpu : ℕ)
    (hwaits : (Run.exec (step vm sbiMsgId)
      (s.startPending sbiMsgId id startAddr priv) bs).delivered id = s.delivered id)
    (hhandles : ((Run.exec (step vm sbiMsgId)
      (s.startPending sbiMsgId id startAddr priv) bs).deliver vm cpu).delivered id =
        s.delivered id + 1) :
    let vcpu := ((Run.exec (step vm sbiMsgId)
      (s.startPending sbiMsgId id startAddr priv) bs).deliver vm cpu).vcpus id
    vcpu.sbiCtx.state = .started ∧ StartsWith vcpu startAddr (priv.setWidth 64) := by
  intro vcpu
  set s₀ := s.startPending sbiMsgId id startAddr priv with hs₀
  set s₁ := Run.exec (step vm sbiMsgId) s₀ bs with hs₁
  have hctx₀ : (s₀.vcpus id).sbiCtx =
      { state := .startPending, startAddr := startAddr, priv := priv } := by
    rw [hs₀, startPending]
    dsimp only
    rw [Function.update_self]
  have hctx : (s₁.vcpus id).sbiCtx = (s₀.vcpus id).sbiCtx :=
    sbiCtx_exec (congrArg SbiHsm.state hctx₀) bs hwaits
  rw [hctx₀] at hctx
  have hvcpu : vcpu = sbiMsgHandler SbiMsgEvent.hartStart.code (s₁.vcpus id) := by
    rcases deliver_cases vm s₁ cpu id with ⟨-, hsame⟩ | ⟨heq, -⟩ | ⟨-, hsame⟩
    · rw [hsame, hwaits] at hhandles
      exact absurd hhandles.symm (Nat.succ_ne_self _)
    · exact heq
    · rw [hsame, hwaits] at hhandles
      exact absurd hhandles.symm (Nat.succ_ne_self _)
  have hpending := congrArg SbiHsm.state hctx
  have hstarts := startsWith_sbiMsgHandler hpending
  rw [hctx, ← hvcpu] at hstarts
  exact ⟨hvcpu ▸ (sbiMsgHandler_of_pending hpending).1, hstarts⟩

/-- In every state of a run, a start that is accepted finds all earlier ones done. Its target is
not reset before it handles the message; it is then, once, and begins at the start address. A
start that is not accepted changes nothing, and a started hart is not reset by a message. -/
theorem hartStart_protocol (vm : Vm) (hnum : vm.config.cpuNum = vm.cpuSet.card)
    (sbiMsgId : BitVec 32) (as : List HsmAct) :
    let s := after vm sbiMsgId as
    (∀ caller regs,
      let id := (vcpuReadreg regs (argReg 0)).toNat
      let startAddr := vcpuReadreg regs (argReg 1)
      let priv := ((vcpuReadreg regs (argReg 2)).setWidth 32).setWidth 64
      let r := s.sbiHsmStartHandler vm sbiMsgId caller regs
      (r.2 = .success →
        s.resets id = s.accepted id ∧ s.inFlight id = 0 ∧ r.1.inFlight id = 1 ∧
          ∀ bs, let s₁ := Run.exec (step vm sbiMsgId) r.1 bs
            (s₁.delivered id = s.delivered id →
              s₁.resets id = s.resets id ∧
                ∀ cpu, let s' := s₁.deliver vm cpu
                  s'.delivered id = s.delivered id + 1 →
                    (s'.vcpus id).id = id ∧ (s'.vcpus id).sbiCtx.state = .started ∧
                      StartsWith (s'.vcpus id) startAddr priv) ∧
            (s₁.delivered id = s.delivered id + 1 →
              s₁.resets id = s.resets id ++ [startAddr])) ∧
      (r.2 ≠ .success → r.1 = s)) ∧
    ∀ cpu msg rest, vm.HasCpu cpu → s.msgs cpu = msg :: rest →
      msg.event = SbiMsgEvent.hartStart.code →
      (s.vcpus (vm.vmCalcVcpuId cpu)).sbiCtx.state = .started →
      (s.deliver vm cpu).vcpus = s.vcpus ∧ (s.deliver vm cpu).resets = s.resets := by
  intro s
  have hinv : ∀ v < vm.config.cpuNum, Coherent vm s v :=
    coherent_exec hnum (fun v hv => coherent_boot (hnum ▸ hv)) as
  refine ⟨fun caller regs => ?_, fun cpu msg rest hcpu hmsgs hstart hstate => ?_⟩
  · intro id startAddr priv r
    rcases sbiHsmStartHandler_cases vm sbiMsgId s caller regs with
      ⟨hlt, hstopped, heq⟩ | ⟨herror, heq⟩
    · have hfirst : r.1 = _ := congrArg Prod.fst heq
      have hstarted : ∀ v < vm.config.cpuNum, Coherent vm (s.startPending sbiMsgId id startAddr
          ((vcpuReadreg regs (argReg 2)).setWidth 32)) v :=
        fun v hv => coherent_startPending hinv hlt hstopped _ _ hv
      obtain ⟨hflight, haccepted⟩ := (hinv id hlt).settled (by rw [hstopped]; decide)
      refine ⟨fun _ => ⟨haccepted.symm, hflight, ?_, fun bs => ⟨fun hwaits =>
        ⟨?_, fun cpu hhandles => ⟨?_, ?_⟩⟩, ?_⟩⟩, fun hne => absurd (congrArg Prod.snd heq) hne⟩
      · rw [hfirst]
        refine ((hstarted id hlt).pending ?_).1
        rw [startPending]
        dsimp only
        rw [Function.update_self]
      · rw [hfirst] at hwaits ⊢
        exact resets_of_waiting hnum hinv hlt hstopped _ _ bs hwaits
      · rw [hfirst]
        exact (coherent_deliver hnum (@coherent_exec vm sbiMsgId _ hnum hstarted bs) cpu hlt).id_eq
      · rw [hfirst] at hwaits hhandles ⊢
        exact startsWith_of_handled _ _ bs cpu hwaits hhandles
      · rw [hfirst]
        exact resets_of_delivered hnum hinv hlt hstopped _ _ bs
    · exact ⟨fun hsuccess => absurd hsuccess herror, fun _ => heq⟩
  · obtain ⟨hhandler, hreset⟩ := sbiMsgHandler_of_not_pending
      (s.vcpus (vm.vmCalcVcpuId cpu)) (by rw [hstate]; decide)
    rw [deliver, if_pos hcpu, hmsgs]
    dsimp only
    rw [handleMsg, hstart]
    dsimp only
    rw [hhandler, hreset, List.append_nil, Function.update_eq_self, Function.update_eq_self]
    exact ⟨rfl, rfl⟩

def startRegs (startAddr : Addr) : ArchRegs :=
  { (default : ArchRegs) with
    x := Function.update (Function.update (fun _ => 0#64) regA0 1#64) regA1 startAddr }

theorem hartStart_protocol_three :
    let r := (after Vm.threeCpus 7#32 []).sbiHsmStartHandler Vm.threeCpus 7#32 0
      (startRegs 0x80200000#64)
    let s' := r.1.deliver Vm.threeCpus 3
    r.2 = .success ∧ s'.resets 1 = [0x80200000#64] ∧ (s'.vcpus 1).sbiCtx.state = .started ∧
      StartsWith (s'.vcpus 1) 0x80200000#64 0#64 := by
  intro r s'
  have hprotocol := hartStart_protocol Vm.threeCpus (by decide) 7#32 []
  have hsuccess : ((after Vm.threeCpus 7#32 []).sbiHsmStartHandler Vm.threeCpus 7#32 0
      (startRegs 0x80200000#64)).2 = .success := by decide
  obtain ⟨-, -, -, hrun⟩ := (hprotocol.1 0 (startRegs 0x80200000#64)).1 hsuccess
  exact ⟨hsuccess, (hrun [.deliver 3]).2 (by decide),
    (((hrun []).1 (by decide)).2 3 (by decide)).2⟩

end HsmState

end BaoHypervisor
