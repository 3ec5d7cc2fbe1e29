import BaoHypervisor.Arch.Riscv.Sbi.Hsm
import BaoHypervisor.Arch.Riscv.Vplic.Lines
import BaoHypervisor.Core.Recovery.System

/-!
# Messages around a recovery

The queue of a CPU holds the `VM_RESET` of a recovery among the messages of the guest: IPIs,
starts of its hart and updates of its interrupt line. A CPU takes its messages in order, so
some of them come before it joins the recovery and some after it has resumed, when the guest
has started anew.

A start is a call that stores its address in the context of the vCPU and a message that
follows. The call is in two steps here, since a recovery may start on another CPU between
them. A recovery takes the vCPU out of `START_PENDING`, and then the message finds nothing
to do: whatever starts a vCPU by a message is a call that was accepted after the last
recovery of the vCPU (`Timely`).
-/

namespace BaoHypervisor

/-- The messages between the CPUs of a VM, by what their handlers do: `sbi_msg_handler`,
`vplic_ipi_handler` and `vm_recovery_msg_handler`. -/
inductive VmMsg
  | sendIpi
  | hartStart
  | updateHartLine (vcntxt : ℕ)
  | vmReset
deriving DecidableEq, Repr

/-- What happens on a CPU or to its vCPU. A start is accepted for the vCPU, or a message
starts it at an entry, or a recovery resets it; the CPU enters or passes a barrier. -/
inductive CpuEvent
  | accepted (startAddr : Addr)
  | started (entry : Addr)
  | reset
  | entered (barrier : RecoveryBarrier)
  | passed (barrier : RecoveryBarrier)
deriving DecidableEq, Repr

/-- The state of a VM with the queues of its CPUs. A CPU is `calling` while it holds the
lock of another vCPU in `sbi_hsm_start_handler`, with the call accepted and the message not
sent. The history of each CPU is recorded. -/
structure RecoveryQueues extends RecoveryState where
  eventList : ℕ → List VmMsg
  calling : ℕ → Option ℕ
  history : ℕ → List CpuEvent

/-- One function on one CPU. `sendStart` is the rest of `hartStart`, and `guest` any change
of the registers by the guest. -/
inductive QueueAct
  | guest (cpu : ℕ) (regs : ArchRegs) (csrs : GuestCsrs)
  | hartStart (cpu : ℕ)
  | sendStart (cpu : ℕ)
  | sendIpi (cpu : ℕ)
  | access (cpu : ℕ) (access : Vplic.Access)
  | start (cpu : ℕ)
  | deliver (cpu : ℕ)
  | proceed (cpu : ℕ) (now : BitVec 64)

def QueueAct.IsStart : QueueAct → Prop
  | .start _ => True
  | _ => False

instance : DecidablePred QueueAct.IsStart
  | .start _ => isTrue trivial
  | .guest _ _ _ | .hartStart _ | .sendStart _ | .sendIpi _ | .access _ _ | .deliver _
  | .proceed _ _ => isFalse not_false

def hipVseip : BitVec 64 := 1#64 <<< 10

namespace RecoveryQueues

/-- The VM when its CPUs first enter their guests. -/
def boot (vm : Vm) (now : BitVec 64) (vplic : Vplic) : RecoveryQueues where
  toRecoveryState := RecoveryState.boot vm now vplic
  eventList := fun _ => []
  calling := fun _ => none
  history := fun _ => []

section Functions

variable (platCpuNum : ℕ) (vm : Vm) (s : RecoveryQueues) (cpu : ℕ)

def Ready : Prop := s.Free vm cpu ∧ s.calling cpu = none

/-- The guest runs on the CPU. -/
def Runs : Prop := s.GuestRuns vm cpu ∧ s.calling cpu = none

instance : Decidable (s.Ready vm cpu) := inferInstanceAs (Decidable (_ ∧ _))

instance : Decidable (s.Runs vm cpu) := inferInstanceAs (Decidable (_ ∧ _))

def Locked (target : ℕ) : Prop := ∃ cpu < 64, s.calling cpu = some target

instance (target : ℕ) : Decidable (s.Locked target) :=
  inferInstanceAs (Decidable (∃ cpu < 64, _))

def setVcpu (vcpu : Vcpu) : RecoveryQueues :=
  { s with toRecoveryState := s.toRecoveryState.setVcpu cpu vcpu }

def record (events : List CpuEvent) : RecoveryQueues :=
  { s with history := Function.update s.history cpu (s.history cpu ++ events) }

/-- `cpu_send_msg` to each of the targets. -/
def cpuSendMsg (sent : List (ℕ × VmMsg)) : RecoveryQueues :=
  { s with
    eventList := fun cpu => s.eventList cpu ++ (sent.filter fun m => m.1 = cpu).map Prod.snd }

/-- `vm_recovery_start`, up to the first barrier. -/
def vmRecoveryStart : RecoveryQueues :=
  let result := BaoHypervisor.vmRecoveryStart vm.config.health s.health
  let s' := { s with toRecoveryState := s.toRecoveryState.recoveryStart vm cpu result }
  if result.2 then
    (s'.cpuSendMsg ((vm.vmMsgBroadcast cpu).map (·, .vmReset))).record cpu [.entered .stopped]
  else s'

/-- `vm_recovery_msg_handler`, up to the first barrier. -/
def vmRecoveryMsgHandler : RecoveryQueues :=
  let core :=
    { s.toRecoveryState with
      pendingResets := Function.update s.pendingResets cpu (s.pendingResets cpu - 1) }
  { s with toRecoveryState := core.join vm cpu }.record cpu [.entered .stopped]

def vplicUpdateHartLine (vcntxt : ℕ) : RecoveryQueues :=
  let hart := (vm.translateToPcpuid (BitVec.ofNat 64 (vcntxt / 2))).toNat
  if hart = cpu then
    let vcpu := s.vcpus cpu
    let hvip :=
      if s.vplic.vplicNextPending vcntxt ≠ 0 then vcpu.csrs.hvip ||| hipVseip
      else vcpu.csrs.hvip &&& ~~~hipVseip
    s.setVcpu cpu { vcpu with csrs := { vcpu.csrs with hvip := hvip } }
  else s.cpuSendMsg [(hart, .updateHartLine vcntxt)]

/-- What `sbi_hsm_start_handler` does to a stopped vCPU before it sends the message. -/
def startPending (target : ℕ) (startAddr : Addr) (priv : BitVec 32) : RecoveryQueues :=
  let vcpu := s.vcpus target
  { (s.setVcpu target
      { vcpu with
        sbiCtx := { state := .startPending, startAddr := startAddr, priv := priv } }).record
      target [.accepted startAddr] with
    calling := Function.update s.calling cpu (some target) }

/-- `sbi_hsm_start_handler` on the registers of the vCPU, up to the message. A CPU that finds
the lock taken has to wait, and the results of the call are left out. -/
def sbiHsmStartHandler : RecoveryQueues :=
  let regs := (s.vcpus cpu).regs
  let vhartId := vcpuReadreg regs (argReg 0)
  if vhartId.toNat = (s.vcpus cpu).id then s
  else
    match vm.vmGetVcpu vhartId with
    | none => s
    | some _ =>
        let target := (vm.translateToPcpuid vhartId).toNat
        if ¬ s.Locked target ∧ (s.vcpus target).sbiCtx.state = .stopped then
          let startAddr := vcpuReadreg regs (argReg 1)
          let priv := (vcpuReadreg regs (argReg 2)).setWidth 32
          s.startPending cpu target startAddr priv
        else s

/-- The rest of `sbi_hsm_start_handler`: the message is sent, and the lock given back. -/
def sendStart : RecoveryQueues :=
  match s.calling cpu with
  | none => s
  | some target =>
      { s.cpuSendMsg [(target, .hartStart)] with
        calling := Function.update s.calling cpu none }

/-- `sbi_ipi_handler` on the registers of the vCPU. -/
def sbiIpiHandler : RecoveryQueues :=
  s.cpuSendMsg ((BaoHypervisor.sbiIpiHandler vm 0#64 (s.vcpus cpu).regs 0#32).1.map
    fun m => (m.1.toNat, .sendIpi))

/-- An access to the vPLIC, with the lines that it updates. -/
def vplicAccess (a : Vplic.Access) : RecoveryQueues :=
  (linesToUpdate (s.vplic.guestEffects platCpuNum a)).foldl
    (fun s vcntxt => s.vplicUpdateHartLine vm cpu vcntxt)
    { s with vplic := s.vplic.guestAccess platCpuNum a }

def handleMsg : VmMsg → RecoveryQueues
  | .sendIpi => s.setVcpu cpu (sbiMsgHandler SbiMsgEvent.sendIpi.code (s.vcpus cpu))
  | .hartStart =>
      (s.setVcpu cpu (sbiMsgHandler SbiMsgEvent.hartStart.code (s.vcpus cpu))).record cpu
        ((sbiMsgResets SbiMsgEvent.hartStart.code (s.vcpus cpu)).map .started)
  | .updateHartLine vcntxt => s.vplicUpdateHartLine vm cpu vcntxt
  | .vmReset => s.vmRecoveryMsgHandler vm cpu

/-- A round of the loop of `cpu_msg_handler`. A recovery does not come back to the loop, so
the messages behind it are left to the next interrupt. -/
def cpuMsgHandler : RecoveryQueues :=
  match s.eventList cpu with
  | [] => s
  | msg :: rest =>
      if msg = .hartStart ∧ s.Locked cpu then s
      else { s with eventList := Function.update s.eventList cpu rest }.handleMsg vm cpu msg

def passing : RecoveryBarrier → List CpuEvent
  | .stopped => [.passed .stopped, .entered .installed]
  | .installed => [.passed .installed, .reset, .entered .reset]
  | .reset => [.passed .reset]

def proceed (now : BitVec 64) : RecoveryQueues :=
  match s.mode cpu with
  | .running => s
  | .waiting barrier nextCount =>
      if nextCount ≤ s.sync.count then
        { s with toRecoveryState := s.afterBarrier vm cpu now barrier }.record cpu
          (passing barrier)
      else s

end Functions

def step (platCpuNum : ℕ) (vm : Vm) (s : RecoveryQueues) : QueueAct → RecoveryQueues
  | .guest cpu regs csrs =>
      if s.Runs vm cpu then s.setVcpu cpu { s.vcpus cpu with regs := regs, csrs := csrs } else s
  | .hartStart cpu => if s.Runs vm cpu then s.sbiHsmStartHandler vm cpu else s
  | .sendStart cpu => s.sendStart cpu
  | .sendIpi cpu => if s.Runs vm cpu then s.sbiIpiHandler vm cpu else s
  | .access cpu a => if s.Ready vm cpu then s.vplicAccess platCpuNum vm cpu a else s
  | .start cpu => if s.Ready vm cpu then s.vmRecoveryStart vm cpu else s
  | .deliver cpu => if s.Ready vm cpu then s.cpuMsgHandler vm cpu else s
  | .proceed cpu now => if vm.HasCpu cpu then s.proceed vm cpu now else s

/-! ## What a step does -/

/-- The hart states, the barrier, the histories and the recoveries in the queues are as
before. -/
structure Calm (s s' : RecoveryQueues) : Prop where
  ctx : ∀ c, (s'.vcpus c).sbiCtx = (s.vcpus c).sbiCtx
  history : s'.history = s.history
  mode : s'.mode = s.mode
  sync : s'.sync = s.sync
  broadcasts : s'.broadcasts = s.broadcasts
  resets : ∀ c, (s'.eventList c).count .vmReset = (s.eventList c).count .vmReset

/-- The hart state of one CPU becomes `ctx`, its mode `mode` and the barrier `sync`, and this
is recorded as `events`. -/
structure Moved (s s' : RecoveryQueues) (c : ℕ) (ctx : SbiHsm) (events : List CpuEvent)
    (mode : CpuMode) (sync : CpuSynctoken) : Prop where
  ctx_self : (s'.vcpus c).sbiCtx = ctx
  ctx_of_ne : ∀ d, d ≠ c → (s'.vcpus d).sbiCtx = (s.vcpus d).sbiCtx
  history : s'.history = Function.update s.history c (s.history c ++ events)
  mode : s'.mode = Function.update s.mode c mode
  sync : s'.sync = sync

/-- No recovery is sent or taken. -/
structure SameResets (s s' : RecoveryQueues) : Prop where
  broadcasts : s'.broadcasts = s.broadcasts
  resets : ∀ c, (s'.eventList c).count .vmReset = (s.eventList c).count .vmReset

def entering (s : RecoveryQueues) (barrier : RecoveryBarrier) : CpuMode :=
  .waiting barrier s.sync.cpuSyncBarrier.2

def nextBarrier : RecoveryBarrier → Option RecoveryBarrier
  | .stopped => some .installed
  | .installed => some .reset
  | .reset => none

/-- What a step from `s` to `s'` can do. -/
inductive StepKind (vm : Vm) (s s' : RecoveryQueues) : QueueAct → Prop
  | calm {a : QueueAct} (h : Calm s s') : StepKind vm s s' a
  | accept {a : QueueAct} (target : ℕ) (startAddr : Addr) (priv : BitVec 32)
      (h : Moved s s' target ⟨.startPending, startAddr, priv⟩ [.accepted startAddr]
        (s.mode target) s.sync)
      (hsame : SameResets s s') : StepKind vm s s' a
  | start {a : QueueAct} (c : ℕ) (hpending : (s.vcpus c).sbiCtx.state = .startPending)
      (h : Moved s s' c { (s.vcpus c).sbiCtx with state := .started }
        [.started (s.vcpus c).sbiCtx.startAddr] (s.mode c) s.sync)
      (hsame : SameResets s s') : StepKind vm s s' a
  | begin (c : ℕ) (hcpu : vm.HasCpu c) (hmode : s.mode c = .running)
      (h : Moved s s' c (s.vcpus c).sbiCtx [.entered .stopped] (s.entering .stopped)
        s.sync.cpuSyncBarrier.1)
      (hbroadcasts : s'.broadcasts = s.broadcasts + 1)
      (hresets : ∀ d, (s'.eventList d).count .vmReset =
        (s.eventList d).count .vmReset + (vm.vmMsgBroadcast c).count d) :
      StepKind vm s s' (.start c)
  | join {a : QueueAct} (c : ℕ) (hcpu : vm.HasCpu c) (hmode : s.mode c = .running)
      (h : Moved s s' c (s.vcpus c).sbiCtx [.entered .stopped] (s.entering .stopped)
        s.sync.cpuSyncBarrier.1)
      (hbroadcasts : s'.broadcasts = s.broadcasts)
      (hself : (s.eventList c).count .vmReset = (s'.eventList c).count .vmReset + 1)
      (hresets : ∀ d, d ≠ c →
        (s'.eventList d).count .vmReset = (s.eventList d).count .vmReset) :
      StepKind vm s s' a
  | pass {a : QueueAct} (c : ℕ) (barrier next : RecoveryBarrier) (ctx : SbiHsm)
      (hcpu : vm.HasCpu c) (hleaves : s.Leaves c barrier) (hnext : nextBarrier barrier = some next)
      (hctx : barrier = .stopped ∧ ctx = (s.vcpus c).sbiCtx ∨
        barrier = .installed ∧ ctx.state ≠ .startPending)
      (h : Moved s s' c ctx (passing barrier) (s.entering next) s.sync.cpuSyncBarrier.1)
      (hsame : SameResets s s') : StepKind vm s s' a
  | resume {a : QueueAct} (c : ℕ) (hcpu : vm.HasCpu c) (hleaves : s.Leaves c .reset)
      (h : Moved s s' c (s.vcpus c).sbiCtx (passing .reset) .running s.sync)
      (hsame : SameResets s s') : StepKind vm s s' a

section StepLemmas

variable {platCpuNum : ℕ} {vm : Vm} {s s' s'' : RecoveryQueues} {cpu : ℕ}

theorem calm_refl (s : RecoveryQueues) : Calm s s :=
  ⟨fun _ => rfl, rfl, rfl, rfl, rfl, fun _ => rfl⟩

theorem Calm.trans (h : Calm s s') (h' : Calm s' s'') : Calm s s'' where
  ctx c := (h'.ctx c).trans (h.ctx c)
  history := h'.history.trans h.history
  mode := h'.mode.trans h.mode
  sync := h'.sync.trans h.sync
  broadcasts := h'.broadcasts.trans h.broadcasts
  resets c := (h'.resets c).trans (h.resets c)

theorem calm_setVcpu {vcpu : Vcpu} (hctx : vcpu.sbiCtx = (s.vcpus cpu).sbiCtx) :
    Calm s (s.setVcpu cpu vcpu) where
  ctx c := by
    rw [setVcpu]
    dsimp only [RecoveryState.setVcpu]
    by_cases hc : c = cpu
    · rw [hc, Function.update_self, hctx]
    · rw [Function.update_of_ne hc]
  history := rfl
  mode := rfl
  sync := rfl
  broadcasts := rfl
  resets _ := rfl

theorem count_cpuSendMsg (sent : List (ℕ × VmMsg)) (c : ℕ) :
    ((s.cpuSendMsg sent).eventList c).count .vmReset =
      (s.eventList c).count .vmReset + sent.countP fun m => m = (c, .vmReset) := by
  rw [cpuSendMsg]
  dsimp only
  rw [List.count_append, List.count_eq_countP (l := (sent.filter _).map _), List.countP_map,
    List.countP_filter]
  refine congrArg _ (List.countP_congr fun m _ => ?_)
  obtain ⟨target, msg⟩ := m
  simp [and_comm]

theorem calm_cpuSendMsg {sent : List (ℕ × VmMsg)} (hsent : ∀ m ∈ sent, m.2 ≠ .vmReset) :
    Calm s (s.cpuSendMsg sent) where
  ctx _ := rfl
  history := rfl
  mode := rfl
  sync := rfl
  broadcasts := rfl
  resets c := by
    rw [count_cpuSendMsg]
    refine Nat.add_eq_left.mpr (List.countP_eq_zero.mpr fun m hm heq => ?_)
    exact hsent m hm (congrArg Prod.snd (of_decide_eq_true heq))

theorem calm_vplicUpdateHartLine (vcntxt : ℕ) :
    Calm s (s.vplicUpdateHartLine vm cpu vcntxt) := by
  rw [vplicUpdateHartLine]
  dsimp only
  split_ifs
  · exact calm_setVcpu rfl
  · exact calm_setVcpu rfl
  · refine calm_cpuSendMsg fun m hm => ?_
    rw [List.mem_singleton.mp hm]
    exact VmMsg.noConfusion

theorem calm_vplicAccess (a : Vplic.Access) : Calm s (s.vplicAccess platCpuNum vm cpu a) := by
  rw [vplicAccess]
  have hvplic : Calm s { s with vplic := s.vplic.guestAccess platCpuNum a } :=
    ⟨fun _ => rfl, rfl, rfl, rfl, rfl, fun _ => rfl⟩
  generalize { s with vplic := s.vplic.guestAccess platCpuNum a } = t at hvplic
  induction linesToUpdate (s.vplic.guestEffects platCpuNum a) generalizing t with
  | nil => exact hvplic
  | cons vcntxt vcntxts ih => exact ih _ (hvplic.trans (calm_vplicUpdateHartLine vcntxt))

theorem Moved.of_calm {c : ℕ} {ctx : SbiHsm} {events : List CpuEvent} {mode : CpuMode}
    {sync : CpuSynctoken} (hcalm : Calm s s') (h : Moved s' s'' c ctx events mode sync) :
    Moved s s'' c ctx events mode sync where
  ctx_self := h.ctx_self
  ctx_of_ne d hd := (h.ctx_of_ne d hd).trans (hcalm.ctx d)
  history := by rw [h.history, hcalm.history]
  mode := by rw [h.mode, hcalm.mode]
  sync := h.sync

theorem moved_setVcpu_record (s : RecoveryQueues) (cpu : ℕ) (vcpu : Vcpu)
    (events : List CpuEvent) :
    Moved s ((s.setVcpu cpu vcpu).record cpu events) cpu vcpu.sbiCtx events (s.mode cpu)
      s.sync where
  ctx_self := by
    rw [record, setVcpu]
    dsimp only [RecoveryState.setVcpu]
    rw [Function.update_self]
  ctx_of_ne d hd := by
    rw [record, setVcpu]
    dsimp only [RecoveryState.setVcpu]
    rw [Function.update_of_ne hd]
  history := rfl
  mode := (Function.update_eq_self _ _).symm
  sync := rfl

theorem moved_startPending (s : RecoveryQueues) (cpu target : ℕ) (startAddr : Addr)
    (priv : BitVec 32) :
    Moved s (s.startPending cpu target startAddr priv) target ⟨.startPending, startAddr, priv⟩
      [.accepted startAddr] (s.mode target) s.sync :=
  have h := moved_setVcpu_record s target
    { s.vcpus target with sbiCtx := ⟨.startPending, startAddr, priv⟩ } [.accepted startAddr]
  ⟨h.ctx_self, h.ctx_of_ne, h.history, h.mode, h.sync⟩

/-- A CPU joins a recovery. -/
theorem moved_join {core : RecoveryState} (hcore : s'.toRecoveryState = core.join vm cpu)
    (hvcpus : core.vcpus = s.vcpus) (hmode : core.mode = s.mode) (hsync : core.sync = s.sync)
    (hhistory : s'.history =
      Function.update s.history cpu (s.history cpu ++ [.entered .stopped])) :
    Moved s s' cpu (s.vcpus cpu).sbiCtx [.entered .stopped] (s.entering .stopped)
      s.sync.cpuSyncBarrier.1 where
  ctx_self := by
    rw [hcore, RecoveryState.join_eq]
    dsimp only [RecoveryState.setVcpu, RecoveryState.cpuSyncBarrier]
    rw [Function.update_self, hvcpus]
  ctx_of_ne d hd := by
    rw [hcore, RecoveryState.join_eq]
    dsimp only [RecoveryState.setVcpu, RecoveryState.cpuSyncBarrier]
    rw [Function.update_of_ne hd, hvcpus]
  history := hhistory
  mode := by
    rw [hcore, RecoveryState.join_eq]
    dsimp only [RecoveryState.setVcpu, RecoveryState.cpuSyncBarrier]
    rw [hmode, hsync, entering]
  sync := by
    rw [hcore, RecoveryState.join_eq]
    dsimp only [RecoveryState.setVcpu, RecoveryState.cpuSyncBarrier]
    rw [hsync]

/-- A CPU passes the second barrier and enters the third one with its vCPU reset. -/
theorem moved_reset {core : RecoveryState} {vcpu : Vcpu}
    (hcore : s'.toRecoveryState = core.cpuSyncBarrier cpu .reset)
    (hvcpus : core.vcpus = Function.update s.vcpus cpu vcpu) (hmode : core.mode = s.mode)
    (hsync : core.sync = s.sync)
    (hhistory : s'.history =
      Function.update s.history cpu (s.history cpu ++ passing .installed)) :
    Moved s s' cpu vcpu.sbiCtx (passing .installed) (s.entering .reset)
      s.sync.cpuSyncBarrier.1 where
  ctx_self := by
    rw [hcore]
    dsimp only [RecoveryState.cpuSyncBarrier]
    rw [hvcpus, Function.update_self]
  ctx_of_ne d hd := by
    rw [hcore]
    dsimp only [RecoveryState.cpuSyncBarrier]
    rw [hvcpus, Function.update_of_ne hd]
  history := hhistory
  mode := by
    rw [hcore]
    dsimp only [RecoveryState.cpuSyncBarrier]
    rw [hmode, hsync, entering]
  sync := by
    rw [hcore]
    dsimp only [RecoveryState.cpuSyncBarrier]
    rw [hsync]

theorem stepKind_vmRecoveryStart (hready : s.Ready vm cpu) :
    StepKind vm s (s.vmRecoveryStart vm cpu) (.start cpu) := by
  rw [vmRecoveryStart]
  dsimp only
  cases hgo : (BaoHypervisor.vmRecoveryStart vm.config.health s.health).2 with
  | false =>
      rw [if_neg Bool.false_ne_true, RecoveryState.recoveryStart, hgo,
        if_neg Bool.false_ne_true]
      exact .calm ⟨fun _ => rfl, rfl, rfl, rfl, rfl, fun _ => rfl⟩
  | true =>
      rw [if_pos rfl, RecoveryState.recoveryStart, hgo, if_pos rfl]
      refine .begin cpu hready.1.1 hready.1.2 ?_ ?_ fun d => ?_
      · exact moved_join rfl rfl rfl rfl rfl
      · exact RecoveryState.broadcasts_join vm _ cpu
      · rw [record]
        dsimp only
        rw [count_cpuSendMsg, List.countP_map, List.count_eq_countP (a := d)]
        refine congrArg _ (List.countP_congr fun i _ => ?_)
        simp

theorem stepKind_sbiHsmStartHandler {a : QueueAct} :
    StepKind vm s (s.sbiHsmStartHandler vm cpu) a := by
  rw [sbiHsmStartHandler]
  dsimp only
  by_cases hself : (vcpuReadreg (s.vcpus cpu).regs (argReg 0)).toNat = (s.vcpus cpu).id
  · rw [if_pos hself]
    exact .calm (calm_refl s)
  · rw [if_neg hself]
    cases vm.vmGetVcpu (vcpuReadreg (s.vcpus cpu).regs (argReg 0)) with
    | none => exact .calm (calm_refl s)
    | some id =>
        dsimp only
        split_ifs
        · exact .accept _ _ _ (moved_startPending _ _ _ _ _) ⟨rfl, fun _ => rfl⟩
        · exact .calm (calm_refl s)

theorem calm_sendStart : Calm s (s.sendStart cpu) := by
  rw [sendStart]
  cases s.calling cpu with
  | none => exact calm_refl s
  | some target =>
      have hcalm : Calm s (s.cpuSendMsg [(target, .hartStart)]) := by
        refine calm_cpuSendMsg fun m hm => ?_
        rw [List.mem_singleton.mp hm]
        exact VmMsg.noConfusion
      exact ⟨hcalm.ctx, hcalm.history, hcalm.mode, hcalm.sync, hcalm.broadcasts, hcalm.resets⟩

theorem calm_sbiIpiHandler : Calm s (s.sbiIpiHandler vm cpu) := by
  refine calm_cpuSendMsg fun m hm => ?_
  obtain ⟨sent, -, rfl⟩ := List.mem_map.mp hm
  exact VmMsg.noConfusion

theorem calm_pop {msg : VmMsg} {rest : List VmMsg} (hqueue : s.eventList cpu = msg :: rest)
    (hmsg : msg ≠ .vmReset) :
    Calm s { s with eventList := Function.update s.eventList cpu rest } where
  ctx _ := rfl
  history := rfl
  mode := rfl
  sync := rfl
  broadcasts := rfl
  resets c := by
    dsimp only
    by_cases hc : c = cpu
    · rw [hc, Function.update_self, hqueue, List.count_cons_of_ne hmsg]
    · rw [Function.update_of_ne hc]

theorem stepKind_cpuMsgHandler {a : QueueAct} (hready : s.Ready vm cpu) :
    StepKind vm s (s.cpuMsgHandler vm cpu) a := by
  rw [cpuMsgHandler]
  cases hqueue : s.eventList cpu with
  | nil => exact .calm (calm_refl s)
  | cons msg rest =>
      dsimp only
      split_ifs
      · exact .calm (calm_refl s)
      · cases msg with
        | sendIpi =>
            refine .calm ((calm_pop hqueue VmMsg.noConfusion).trans (calm_setVcpu ?_))
            exact (sbiMsgHandler_of_ne _ (by decide)).1
        | updateHartLine vcntxt =>
            exact .calm ((calm_pop hqueue VmMsg.noConfusion).trans
              (calm_vplicUpdateHartLine vcntxt))
        | hartStart =>
            have hpop := calm_pop hqueue VmMsg.noConfusion
            by_cases hpending : (s.vcpus cpu).sbiCtx.state = .startPending
            · refine .start cpu hpending ?_ ⟨rfl, hpop.resets⟩
              have hresets := (sbiMsgHandler_of_pending hpending).2
              have hctx : (sbiMsgHandler SbiMsgEvent.hartStart.code (s.vcpus cpu)).sbiCtx =
                  { (s.vcpus cpu).sbiCtx with state := .started } := by
                rw [sbiMsgHandler, sbiMsgHandlerCalls_of_pending hpending]
              have hmoved := moved_setVcpu_record
                { s with eventList := Function.update s.eventList cpu rest } cpu
                (sbiMsgHandler SbiMsgEvent.hartStart.code (s.vcpus cpu))
                [.started (s.vcpus cpu).sbiCtx.startAddr]
              rw [hctx] at hmoved
              rw [handleMsg]
              dsimp only
              rw [hresets]
              exact hmoved.of_calm hpop
            · obtain ⟨hhandler, hresets⟩ := sbiMsgHandler_of_not_pending (s.vcpus cpu) hpending
              refine .calm (hpop.trans ?_)
              rw [handleMsg]
              dsimp only
              rw [hhandler, hresets]
              refine ⟨(calm_setVcpu rfl).ctx, ?_, rfl, rfl, rfl, fun _ => rfl⟩
              rw [record, List.map_nil, List.append_nil]
              exact Function.update_eq_self _ _
        | vmReset =>
            refine .join cpu hready.1.1 hready.1.2 (moved_join rfl rfl rfl rfl rfl)
              (RecoveryState.broadcasts_join vm _ cpu) ?_ fun d hd => ?_
            · rw [hqueue, List.count_cons_self]
              exact congrArg (fun l => List.count VmMsg.vmReset l + 1)
                (Function.update_self (f := s.eventList) cpu rest).symm
            · have hqueue' : Function.update s.eventList cpu rest d = s.eventList d :=
                Function.update_of_ne hd _ _
              exact congrArg (List.count VmMsg.vmReset) hqueue'

theorem stepKind_proceed {a : QueueAct} (hcpu : vm.HasCpu cpu) (now : BitVec 64) :
    StepKind vm s (s.proceed vm cpu now) a := by
  rw [proceed]
  cases hmode : s.mode cpu with
  | running => exact .calm (calm_refl s)
  | waiting barrier nextCount =>
      dsimp only
      split_ifs with hcount
      · have hleaves : s.Leaves cpu barrier := ⟨nextCount, hmode, hcount⟩
        cases barrier with
        | stopped =>
            exact .pass cpu .stopped .installed _ hcpu hleaves rfl (.inl ⟨rfl, rfl⟩)
              ⟨rfl, fun _ _ => rfl, rfl, rfl, rfl⟩ ⟨rfl, fun _ => rfl⟩
        | installed =>
            rw [RecoveryState.afterBarrier]
            split_ifs
            · exact .pass cpu .installed .reset _ hcpu hleaves rfl
                (.inr ⟨rfl, SbiState.noConfusion⟩) (moved_reset rfl rfl rfl rfl rfl)
                ⟨rfl, fun _ => rfl⟩
            · refine .pass cpu .installed .reset _ hcpu hleaves rfl (.inr ⟨rfl, ?_⟩)
                (moved_reset rfl rfl rfl rfl rfl) ⟨rfl, fun _ => rfl⟩
              rw [resetVcpu_state]
              split_ifs <;> exact SbiState.noConfusion
        | reset =>
            have hcalm : Calm s (s.setVcpu cpu { s.vcpus cpu with active := true }) :=
              calm_setVcpu rfl
            exact .resume cpu hcpu hleaves
              ⟨hcalm.ctx cpu, fun d _ => hcalm.ctx d, rfl, rfl, rfl⟩ ⟨rfl, fun _ => rfl⟩
      · exact .calm (calm_refl s)

theorem stepKind_step (platCpuNum : ℕ) (vm : Vm) (s : RecoveryQueues) (a : QueueAct) :
    StepKind vm s (step platCpuNum vm s a) a := by
  cases a with
  | guest cpu regs csrs =>
      rw [step]
      split_ifs
      · exact .calm (calm_setVcpu rfl)
      · exact .calm (calm_refl s)
  | hartStart cpu =>
      rw [step]
      split_ifs
      · exact stepKind_sbiHsmStartHandler
      · exact .calm (calm_refl s)
  | sendStart cpu => exact .calm calm_sendStart
  | sendIpi cpu =>
      rw [step]
      split_ifs
      · exact .calm calm_sbiIpiHandler
      · exact .calm (calm_refl s)
  | access cpu a =>
      rw [step]
      split_ifs
      · exact .calm (calm_vplicAccess a)
      · exact .calm (calm_refl s)
  | start cpu =>
      rw [step]
      split_ifs with hready
      · exact stepKind_vmRecoveryStart hready
      · exact .calm (calm_refl s)
  | deliver cpu =>
      rw [step]
      split_ifs with hready
      · exact stepKind_cpuMsgHandler hready
      · exact .calm (calm_refl s)
  | proceed cpu now =>
      rw [step]
      split_ifs with hcpu
      · exact stepKind_proceed hcpu now
      · exact .calm (calm_refl s)

end StepLemmas

/-! ## What starts a vCPU -/

/-- The start that a vCPU waits for after an event, given the one before. -/
def requestAfter (request : Option Addr) : CpuEvent → Option Addr
  | .accepted startAddr => some startAddr
  | .started _ | .reset => none
  | .entered _ | .passed _ => request

/-- The start that a vCPU waits for: the last one accepted for it, unless it was started or
reset since. -/
def requested (history : List CpuEvent) : Option Addr := history.foldl requestAfter none

/-- Each message that started the vCPU did what it waited for then. -/
def Timely (history : List CpuEvent) : Prop :=
  ∀ before entry after, history = before ++ .started entry :: after →
    requested before = some entry

theorem requested_append_barriers (history : List CpuEvent) {events : List CpuEvent}
    (h : ∀ e ∈ events, ∀ request, requestAfter request e = request) :
    requested (history ++ events) = requested history := by
  rw [requested, requested, List.foldl_append]
  generalize history.foldl requestAfter none = request
  induction events with
  | nil => rfl
  | cons e events ih =>
      rw [List.foldl_cons, h e List.mem_cons_self]
      exact ih fun e he => h e (List.mem_cons_of_mem _ he)

/-- What a vCPU waits for was accepted for it, and it was neither started nor reset since,
and no other start was accepted. -/
theorem exists_accepted_of_requested {history : List CpuEvent} {startAddr : Addr}
    (h : requested history = some startAddr) :
    ∃ before since, history = before ++ .accepted startAddr :: since ∧
      ∀ e ∈ since, ∀ request, requestAfter request e = request := by
  induction history using List.reverseRecOn with
  | nil => cases h
  | append_singleton history e ih =>
      have hkeep : (∀ request, requestAfter request e = request) →
          requested history = some startAddr →
          ∃ before since, history ++ [e] = before ++ .accepted startAddr :: since ∧
            ∀ e ∈ since, ∀ request, requestAfter request e = request := by
        intro he hrequested
        obtain ⟨before, since, rfl, hsince⟩ := ih hrequested
        refine ⟨before, since ++ [e], List.append_assoc _ _ _, fun e' hmem => ?_⟩
        rcases List.mem_append.mp hmem with hmem | hmem
        · exact hsince e' hmem
        · rw [List.mem_singleton.mp hmem]
          exact he
      rw [requested, List.foldl_append] at h
      cases e with
      | accepted addr =>
          cases h
          exact ⟨history, [], rfl, fun _ hmem => absurd hmem List.not_mem_nil⟩
      | started entry => cases h
      | reset => cases h
      | entered barrier => exact hkeep (fun _ => rfl) h
      | passed barrier => exact hkeep (fun _ => rfl) h

theorem timely_append {history events : List CpuEvent} (h : Timely history)
    (hevents : ∀ before entry after, events = before ++ .started entry :: after →
      requested (history ++ before) = some entry) : Timely (history ++ events) := by
  intro before entry after heq
  rcases List.append_eq_append_iff.mp heq with ⟨between, rfl, hright⟩ | ⟨between, rfl, hright⟩
  · exact hevents between entry after hright
  · cases between with
    | nil =>
        have hnone := hevents [] entry after hright.symm
        rwa [List.append_nil, List.append_nil] at hnone
    | cons e between =>
        injection hright with he _
        subst he
        exact h before entry between rfl

theorem timely_append_of_ne {history events : List CpuEvent} (h : Timely history)
    (hevents : ∀ entry, .started entry ∉ events) : Timely (history ++ events) :=
  timely_append h fun before entry _ heq =>
    absurd (heq ▸ List.mem_append_right before List.mem_cons_self) (hevents entry)

/-- Every start of a vCPU is timely, and one that is in `START_PENDING` waits for the address
in its context. -/
structure TimelyHart (ctx : SbiHsm) (history : List CpuEvent) : Prop where
  pending : ctx.state = .startPending → requested history = some ctx.startAddr
  timely : Timely history

section TimelySteps

variable {platCpuNum : ℕ} {vm : Vm} {s s' : RecoveryQueues}

theorem timelyHart_of_moved {c : ℕ} {ctx : SbiHsm} {events : List CpuEvent} {mode : CpuMode}
    {sync : CpuSynctoken} (h : ∀ d, TimelyHart (s.vcpus d).sbiCtx (s.history d))
    (hmoved : Moved s s' c ctx events mode sync)
    (hself : TimelyHart ctx (s.history c ++ events)) (d : ℕ) :
    TimelyHart (s'.vcpus d).sbiCtx (s'.history d) := by
  by_cases hd : d = c
  · rw [hd, hmoved.ctx_self, hmoved.history, Function.update_self]
    exact hself
  · rw [hmoved.ctx_of_ne d hd, hmoved.history, Function.update_of_ne hd]
    exact h d

theorem TimelyHart.append_barriers {ctx : SbiHsm} {history events : List CpuEvent}
    (h : TimelyHart ctx history)
    (hevents : ∀ e ∈ events, ∀ request, requestAfter request e = request) :
    TimelyHart ctx (history ++ events) where
  pending hstate := (requested_append_barriers history hevents).trans (h.pending hstate)
  timely := timely_append_of_ne h.timely fun entry hmem =>
    Option.some_ne_none entry (hevents _ hmem (some entry)).symm

theorem timelyHart_step (h : ∀ d, TimelyHart (s.vcpus d).sbiCtx (s.history d))
    (a : QueueAct) (c : ℕ) :
    TimelyHart ((step platCpuNum vm s a).vcpus c).sbiCtx ((step platCpuNum vm s a).history c) := by
  have henter : ∀ e ∈ [CpuEvent.entered .stopped], ∀ request,
      requestAfter request e = request := by
    intro e he
    rw [List.mem_singleton.mp he]
    exact fun _ => rfl
  cases stepKind_step platCpuNum vm s a with
  | calm hcalm =>
      rw [hcalm.ctx, hcalm.history]
      exact h c
  | accept target startAddr priv hmoved hsame =>
      refine timelyHart_of_moved h hmoved ⟨fun _ => ?_, ?_⟩ c
      · rw [requested, List.foldl_append]
        rfl
      · refine timely_append_of_ne (h target).timely fun entry hmem => ?_
        exact CpuEvent.noConfusion (List.mem_singleton.mp hmem)
  | start cpu hpending hmoved hsame =>
      refine timelyHart_of_moved h hmoved ⟨fun hstate => SbiState.noConfusion hstate, ?_⟩ c
      refine timely_append (h cpu).timely fun before entry after heq => ?_
      cases before with
      | nil =>
          injection heq with hentry _
          injection hentry with hentry
          rw [List.append_nil, ← hentry]
          exact (h cpu).pending hpending
      | cons e before =>
          injection heq with _ hnil
          exact absurd hnil.symm (List.append_ne_nil_of_right_ne_nil _ (List.cons_ne_nil _ _))
  | begin cpu hcpu hmode hmoved hbroadcasts hresets =>
      exact timelyHart_of_moved h hmoved ((h cpu).append_barriers henter) c
  | join cpu hcpu hmode hmoved hbroadcasts hself hresets =>
      exact timelyHart_of_moved h hmoved ((h cpu).append_barriers henter) c
  | pass cpu barrier next ctx hcpu hleaves hnext hctx hmoved hsame =>
      refine timelyHart_of_moved h hmoved ?_ c
      rcases hctx with ⟨rfl, rfl⟩ | ⟨rfl, hctx⟩
      · refine (h cpu).append_barriers fun e he => ?_
        simp only [passing, List.mem_cons, List.not_mem_nil, or_false] at he
        rcases he with rfl | rfl <;> exact fun _ => rfl
      · refine ⟨fun hstate => absurd hstate hctx,
          timely_append_of_ne (h cpu).timely fun entry hmem => ?_⟩
        simp [passing] at hmem
  | resume cpu hcpu hleaves hmoved hsame =>
      refine timelyHart_of_moved h hmoved ((h cpu).append_barriers fun e he => ?_) c
      rw [List.mem_singleton.mp he]
      exact fun _ => rfl

theorem timely_exec (platCpuNum : ℕ) (vm : Vm) (now : BitVec 64) (vplic : Vplic)
    (as : List QueueAct) (c : ℕ) :
    Timely ((Run.exec (step platCpuNum vm) (boot vm now vplic) as).history c) := by
  have hboot : ∀ d, TimelyHart ((boot vm now vplic).vcpus d).sbiCtx
      ((boot vm now vplic).history d) := by
    intro d
    refine ⟨fun hstate => ?_, fun before entry after heq => ?_⟩
    · have hctx : ((boot vm now vplic).vcpus d).sbiCtx.state =
          bootState (vm.vmCalcVcpuId d) := rfl
      rw [hctx, bootState] at hstate
      split_ifs at hstate
    · exact absurd heq.symm (List.append_ne_nil_of_right_ne_nil _ (List.cons_ne_nil _ _))
  exact (Run.exec_invariant (I := fun s : RecoveryQueues =>
      ∀ d, TimelyHart (s.vcpus d).sbiCtx (s.history d))
    hboot (fun _ a h => timelyHart_step h a) as c).timely

end TimelySteps

end RecoveryQueues

end BaoHypervisor
