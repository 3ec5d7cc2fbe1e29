import BaoHypervisor.Arch.Riscv.Sbi.Hsm
import BaoHypervisor.Arch.Riscv.Sbi.Timer
import BaoHypervisor.Core.Recovery.System

/-!
# The timers of a VM that recovers

Each CPU of a VM has a physical timer, which the guest and the watchdog set. Its interrupt is
passed on to the guest whoever set it, unless the health check starts a recovery, which does not
come back. A recovery resets the vCPUs, and it leaves the timers as they are: a timer that the
guest or the watchdog had set before goes off in the guest that was reset.
-/

namespace BaoHypervisor

open Run

def hipVstip : BitVec 64 := 1#64 <<< 6

/-- The physical timer of a CPU. The time that the guest has set it to since its vCPU was reset
is kept for the statements only. -/
structure HartTimer where
  deadline : Option ℕ
  stie : Bool
  programmed : Option ℕ
deriving DecidableEq, Repr

structure TimerVm where
  recovery : RecoveryState
  now : ℕ
  harts : ℕ → HartTimer

/-- One function on one CPU, or time that passes. -/
inductive TimerVmAct
  | setTimer (cpu : ℕ) (fid : BitVec 64) (regs : ArchRegs)
  | timerIrq (cpu : ℕ)
  | advance (ticks : ℕ)
  | heartbeat (cpu : ℕ)
  | deliver (cpu : ℕ)
  | proceed (cpu : ℕ)
  | hartStart (cpu target : ℕ) (startAddr : Addr) (priv : BitVec 32)
  | sbiMsg (cpu : ℕ) (event : BitVec 32)

theorem TimerCpu.vstip_sbiTimerIrqHandler {cfg : VmHealthConfig} {c : TimerCpu}
    (h : ¬ (healthMonitorCheck cfg c.healthRdtime c.health).2 = true) :
    (c.sbiTimerIrqHandler cfg).vstip = true := by
  rw [sbiTimerIrqHandler]
  dsimp only
  rw [if_neg h]
  split_ifs <;> rfl

namespace TimerVm

/-- The VM when its CPUs first enter their guests, before any timer was set. -/
def boot (vm : Vm) (now : ℕ) (vplic : Vplic) : TimerVm where
  recovery := RecoveryState.boot vm (BitVec.ofNat 64 now) vplic
  now := now
  harts := fun _ => ⟨none, false, none⟩

section Functions

variable (platCpuNum : ℕ) (vm : Vm) (s : TimerVm) (cpu : ℕ)

/-- `HVIP.VSTIP` of the CPU. -/
def vstip : Bool := (s.recovery.vcpus cpu).csrs.hvip.getLsbD 6

/-- The CPU by itself. -/
def view : TimerCpu where
  now := s.now
  deadline := (s.harts cpu).deadline
  vstip := s.vstip cpu
  stie := (s.harts cpu).stie
  health := s.recovery.health
  lastCheck := none

/-- `CSRS` or `CSRC` of `HVIP` with `HIP_VSTIP`. -/
def writeVstip (vcpu : Vcpu) (set : Bool) : Vcpu :=
  let hvip := if set then vcpu.csrs.hvip ||| hipVstip else vcpu.csrs.hvip &&& ~~~hipVstip
  { vcpu with csrs := { vcpu.csrs with hvip := hvip } }

/-- The VM with what a handler made of the CPU. -/
def put (c : TimerCpu) (programmed : Option ℕ) : TimerVm :=
  { s with
    recovery :=
      { s.recovery.setVcpu cpu (writeVstip (s.recovery.vcpus cpu) c.vstip) with
        health := c.health }
    harts := Function.update s.harts cpu ⟨c.deadline, c.stie, programmed⟩ }

def forget : TimerVm :=
  { s with harts := Function.update s.harts cpu { s.harts cpu with programmed := none } }

def sbiTimeHandler (fid : BitVec 64) (regs : ArchRegs) : TimerVm :=
  let c := ((s.view cpu).sbiTimeHandler fid regs).2
  s.put cpu c (if fid = sbiSetTimerFid then c.deadline else (s.harts cpu).programmed)

def StartsRecovery : Prop :=
  (healthMonitorCheck vm.config.health (s.view cpu).healthRdtime s.recovery.health).2 = true

instance : Decidable (s.StartsRecovery vm cpu) := inferInstanceAs (Decidable (_ = true))

/-- `sbi_timer_irq_handler`. A recovery that it starts goes as far as the first barrier. -/
def sbiTimerIrqHandler : TimerVm :=
  if s.StartsRecovery vm cpu then
    { s with recovery := s.recovery.step platCpuNum vm (.check cpu (s.view cpu).healthRdtime) }
  else
    s.put cpu ((s.view cpu).sbiTimerIrqHandler vm.config.health) (s.harts cpu).programmed

end Functions

/-- One action. A reset of the vCPU of a CPU comes with a `HART_START` message, or between the
second and the third barrier of a recovery. -/
def step (platCpuNum : ℕ) (vm : Vm) (s : TimerVm) : TimerVmAct → TimerVm
  | .setTimer cpu fid regs =>
      if s.recovery.GuestRuns vm cpu then s.sbiTimeHandler cpu fid regs else s
  | .timerIrq cpu =>
      if s.recovery.Free vm cpu ∧ (s.view cpu).Interrupted then
        s.sbiTimerIrqHandler platCpuNum vm cpu
      else s
  | .advance ticks => { s with now := s.now + ticks }
  | .heartbeat cpu =>
      { s with
        recovery := s.recovery.step platCpuNum vm (.heartbeat cpu (s.view cpu).healthRdtime) }
  | .deliver cpu => { s with recovery := s.recovery.step platCpuNum vm (.deliver cpu) }
  | .proceed cpu =>
      let s' :=
        { s with
          recovery := s.recovery.step platCpuNum vm (.proceed cpu (s.view cpu).healthRdtime) }
      if vm.HasCpu cpu ∧ s.recovery.Leaves cpu .installed then s'.forget cpu else s'
  | .hartStart cpu target startAddr priv =>
      if s.recovery.GuestRuns vm cpu ∧ (s.recovery.vcpus target).sbiCtx.state = .stopped then
        { s with
          recovery := s.recovery.setVcpu target
            { s.recovery.vcpus target with
              sbiCtx := { state := .startPending, startAddr := startAddr, priv := priv } } }
      else s
  | .sbiMsg cpu event =>
      if s.recovery.Free vm cpu then
        let s' :=
          { s with
            recovery := s.recovery.setVcpu cpu (sbiMsgHandler event (s.recovery.vcpus cpu)) }
        if sbiMsgResets event (s.recovery.vcpus cpu) = [] then s' else s'.forget cpu
      else s

/-- `HVIP.VSTIP` is set on a CPU of the VM only if the guest has set its timer since the vCPU
was reset, and the time it has set the timer to last has come. -/
def NotSpurious (vm : Vm) (s : TimerVm) : Prop :=
  ∀ cpu, vm.HasCpu cpu → s.vstip cpu = true → ∃ d ∈ (s.harts cpu).programmed, d ≤ s.now

/-- A timer interrupt that starts no recovery comes after the guest has set the timer, since the
vCPU was reset. -/
def ComesProgrammed (vm : Vm) (s : TimerVm) : TimerVmAct → Prop
  | .timerIrq cpu =>
      s.recovery.Free vm cpu → (s.view cpu).Interrupted → ¬ s.StartsRecovery vm cpu →
        (s.harts cpu).programmed.isSome = true
  | _ => True

def Tracks (s : TimerVm) : Prop :=
  ∀ cpu, ∀ d ∈ (s.harts cpu).programmed, (s.harts cpu).deadline = some d ∨ d ≤ s.now

/-! ## CSRs -/

section Csrs

variable (platCpuNum : ℕ) {vm : Vm} {r : RecoveryState} {cpu : ℕ}

theorem csrs_setVcpu (r : RecoveryState) (cpu : ℕ) (vcpu : Vcpu) (c : ℕ) :
    ((r.setVcpu cpu vcpu).vcpus c).csrs = if c = cpu then vcpu.csrs else (r.vcpus c).csrs := by
  rw [RecoveryState.setVcpu]
  dsimp only
  by_cases hc : c = cpu
  · rw [hc, Function.update_self, if_pos rfl]
  · rw [Function.update_of_ne hc, if_neg hc]

theorem csrs_setVcpu_of_eq {vcpu : Vcpu} (h : vcpu.csrs = (r.vcpus cpu).csrs) (c : ℕ) :
    ((r.setVcpu cpu vcpu).vcpus c).csrs = (r.vcpus c).csrs := by
  rw [csrs_setVcpu]
  split_ifs with hc
  · rw [hc, h]
  · rfl

theorem csrs_join (vm : Vm) (r : RecoveryState) (cpu c : ℕ) :
    ((r.join vm cpu).vcpus c).csrs = (r.vcpus c).csrs := by
  rw [RecoveryState.join_eq, RecoveryState.cpuSyncBarrier]
  refine csrs_setVcpu_of_eq ?_ c
  rfl

theorem csrs_check (now : BitVec 64) (c : ℕ) :
    ((r.step platCpuNum vm (.check cpu now)).vcpus c).csrs = (r.vcpus c).csrs := by
  rw [RecoveryState.step]
  split_ifs
  · rw [RecoveryState.recoveryStart]
    split_ifs
    · rw [csrs_join]
      rfl
    · rfl
  · rfl

theorem csrs_heartbeat (now : BitVec 64) (c : ℕ) :
    ((r.step platCpuNum vm (.heartbeat cpu now)).vcpus c).csrs = (r.vcpus c).csrs := by
  rw [RecoveryState.step]
  split_ifs <;> rfl

theorem csrs_deliver (c : ℕ) :
    ((r.step platCpuNum vm (.deliver cpu)).vcpus c).csrs = (r.vcpus c).csrs := by
  rw [RecoveryState.step]
  split_ifs
  · rw [csrs_join]
  · rfl

/-- A CPU that goes on to the final barrier has had its vCPU reset. -/
theorem csrs_proceed (vm : Vm) (cpu : ℕ) (now : BitVec 64) (c : ℕ) :
    ((r.step platCpuNum vm (.proceed cpu now)).vcpus c).csrs =
      if c = cpu ∧ vm.HasCpu cpu ∧ r.Leaves cpu .installed then
        (vcpuArchReset vm.config.entry (r.vcpus cpu)).csrs
      else (r.vcpus c).csrs := by
  rw [RecoveryState.step]
  by_cases hcpu : vm.HasCpu cpu
  · rw [if_pos hcpu]
    rcases r.proceed_cases vm cpu now with ⟨hnot, heq⟩ | ⟨barrier, hleaves, heq⟩
    · rw [heq, if_neg fun h => hnot _ h.2.2]
    · rw [heq]
      cases barrier with
      | stopped =>
          rw [if_neg fun h => RecoveryBarrier.noConfusion (hleaves.unique h.2.2)]
          rfl
      | reset =>
          rw [if_neg fun h => RecoveryBarrier.noConfusion (hleaves.unique h.2.2),
            RecoveryState.afterBarrier, RecoveryState.vcpuRun]
          refine csrs_setVcpu_of_eq ?_ c
          rfl
      | installed =>
          have hreset : ((r.afterBarrier vm cpu now .installed).vcpus c).csrs =
              if c = cpu then (vcpuArchReset vm.config.entry (r.vcpus cpu)).csrs
              else (r.vcpus c).csrs := by
            rw [RecoveryState.afterBarrier, RecoveryState.cpuSyncBarrier]
            split
            · rw [RecoveryState.resetMaster]
              exact csrs_setVcpu _ _ _ c
            · rw [RecoveryState.resetSlave]
              exact csrs_setVcpu _ _ _ c
          rw [hreset]
          exact if_congr (and_iff_left ⟨hcpu, hleaves⟩).symm rfl rfl
  · rw [if_neg hcpu, if_neg fun h => hcpu h.2.1]

end Csrs

/-! ## The pending bit -/

section Vstip

variable {vm : Vm} {s s' : TimerVm} {cpu : ℕ}

theorem vstip_congr {c : ℕ}
    (h : (s'.recovery.vcpus c).csrs = (s.recovery.vcpus c).csrs) : s'.vstip c = s.vstip c := by
  rw [vstip, vstip, h]

theorem getLsbD_writeVstip (vcpu : Vcpu) (set : Bool) :
    (writeVstip vcpu set).csrs.hvip.getLsbD 6 = set := by
  cases set <;> simp [writeVstip, hipVstip]

theorem vstip_put (c : TimerCpu) (programmed : Option ℕ) (i : ℕ) :
    (s.put cpu c programmed).vstip i = if i = cpu then c.vstip else s.vstip i := by
  have hcsrs : ((s.put cpu c programmed).recovery.vcpus i).csrs =
      if i = cpu then (writeVstip (s.recovery.vcpus cpu) c.vstip).csrs
      else (s.recovery.vcpus i).csrs :=
    csrs_setVcpu _ _ _ i
  rw [vstip, hcsrs]
  split_ifs
  · exact getLsbD_writeVstip _ _
  · rfl

theorem harts_put (c : TimerCpu) (programmed : Option ℕ) (i : ℕ) :
    (s.put cpu c programmed).harts i =
      if i = cpu then ⟨c.deadline, c.stie, programmed⟩ else s.harts i := by
  rw [put]
  exact Function.update_apply _ _ _ _

theorem harts_forget (i : ℕ) :
    (s.forget cpu).harts i =
      if i = cpu then { s.harts cpu with programmed := none } else s.harts i := by
  rw [forget]
  exact Function.update_apply _ _ _ _

theorem getLsbD_sbiMsgHandler (event : BitVec 32) (vcpu : Vcpu) :
    (sbiMsgHandler event vcpu).csrs.hvip.getLsbD 6 =
      if sbiMsgResets event vcpu = [] then vcpu.csrs.hvip.getLsbD 6 else false := by
  rw [sbiMsgHandler, sbiMsgResets]
  by_cases hstart : event = SbiMsgEvent.hartStart.code
  · subst hstart
    by_cases hpending : vcpu.sbiCtx.state = .startPending
    · rw [sbiMsgHandlerCalls_of_pending hpending, if_neg (List.cons_ne_nil _ _)]
      simp [vcpuArchReset]
    · rw [sbiMsgHandlerCalls_of_not_pending hpending, if_pos rfl]
  · rw [sbiMsgHandlerCalls_of_ne hstart, if_pos rfl]
    dsimp only
    split_ifs
    · simp [hipVssip]
    · rfl

end Vstip

/-! ## What the guest has programmed -/

section Tracks

variable {vm : Vm} {s s' : TimerVm} {cpu : ℕ}

theorem Tracks.congr (h : s.Tracks) (hharts : s'.harts = s.harts) (hnow : s.now ≤ s'.now) :
    s'.Tracks := by
  intro c d hd
  rw [hharts] at hd ⊢
  exact (h c d hd).imp_right fun hle => hle.trans hnow

theorem Tracks.put (h : s.Tracks) {c : TimerCpu} {programmed : Option ℕ}
    (hc : ∀ d ∈ programmed, c.deadline = some d ∨ d ≤ s.now) :
    (s.put cpu c programmed).Tracks := by
  intro i d hd
  rw [harts_put] at hd ⊢
  split_ifs at hd ⊢
  · exact hc d hd
  · exact h i d hd

theorem Tracks.forget (h : s.Tracks) : (s.forget cpu).Tracks := by
  intro i d hd
  rw [harts_forget] at hd ⊢
  split_ifs at hd ⊢
  · cases hd
  · exact h i d hd

theorem Tracks.le_now (h : s.Tracks) (hirq : (s.view cpu).Interrupted) {d : ℕ}
    (hd : d ∈ (s.harts cpu).programmed) : d ≤ s.now := by
  rcases h cpu d hd with hdeadline | hle
  · obtain ⟨e, he, hle⟩ := hirq.2
    have hsame : some e = some d := he.symm.trans hdeadline
    rw [Option.some.injEq] at hsame
    exact hsame ▸ hle
  · exact hle

theorem tracks_step (platCpuNum : ℕ) (vm : Vm) (h : s.Tracks) (a : TimerVmAct) :
    (s.step platCpuNum vm a).Tracks := by
  cases a with
  | setTimer cpu fid regs =>
      rw [step]
      split_ifs
      · refine h.put fun d hd => ?_
        split_ifs at hd with hfid
        · exact .inl hd
        · rw [TimerCpu.sbiTimeHandler_of_ne hfid]
          exact h cpu d hd
      · exact h
  | timerIrq cpu =>
      rw [step]
      split_ifs with hirq
      · rw [sbiTimerIrqHandler]
        split_ifs
        · exact h.congr rfl le_rfl
        · exact h.put fun d hd => .inr (h.le_now hirq.2 hd)
      · exact h
  | advance ticks => exact h.congr rfl (Nat.le_add_right _ _)
  | heartbeat cpu => exact h.congr rfl le_rfl
  | deliver cpu => exact h.congr rfl le_rfl
  | proceed cpu =>
      rw [step]
      split_ifs
      · exact (h.congr rfl le_rfl : TimerVm.Tracks { s with recovery := _ }).forget
      · exact h.congr rfl le_rfl
  | hartStart cpu target startAddr priv =>
      rw [step]
      split_ifs
      · exact h.congr rfl le_rfl
      · exact h
  | sbiMsg cpu event =>
      rw [step]
      split_ifs
      · exact h.congr rfl le_rfl
      · exact (h.congr rfl le_rfl : TimerVm.Tracks { s with recovery := _ }).forget
      · exact h

end Tracks

/-! ## Spurious interrupts -/

section NotSpurious

variable {platCpuNum : ℕ} {vm : Vm} {s s' : TimerVm} {cpu : ℕ}

theorem NotSpurious.of_forall (h : s.NotSpurious vm) (hnow : s.now ≤ s'.now)
    (hbits : ∀ c, s'.vstip c = false ∨
      s'.vstip c = s.vstip c ∧ (s'.harts c).programmed = (s.harts c).programmed) :
    s'.NotSpurious vm := by
  intro c hc hset
  rcases hbits c with hclear | ⟨hsame, hprogrammed⟩
  · rw [hclear] at hset
    cases hset
  · rw [hsame] at hset
    obtain ⟨d, hd, hle⟩ := h c hc hset
    exact ⟨d, hprogrammed ▸ hd, hle.trans hnow⟩

theorem NotSpurious.of_csrs (h : s.NotSpurious vm) (hnow : s.now ≤ s'.now)
    (hharts : s'.harts = s.harts)
    (hcsrs : ∀ c, (s'.recovery.vcpus c).csrs = (s.recovery.vcpus c).csrs) :
    s'.NotSpurious vm :=
  h.of_forall hnow fun c => .inr ⟨vstip_congr (hcsrs c), by rw [hharts]⟩

theorem NotSpurious.of_reset (h : s.NotSpurious vm) (cpu : ℕ) (hnow : s.now ≤ s'.now)
    (hbit : s'.vstip cpu = false)
    (hothers : ∀ c, c ≠ cpu → s'.vstip c = s.vstip c ∧
      (s'.harts c).programmed = (s.harts c).programmed) : s'.NotSpurious vm := by
  refine h.of_forall hnow fun c => ?_
  by_cases hc : c = cpu
  · exact .inl (hc ▸ hbit)
  · exact .inr (hothers c hc)

theorem notSpurious_setTimer (h : s.NotSpurious vm) (fid : BitVec 64) (regs : ArchRegs) :
    (s.sbiTimeHandler cpu fid regs).NotSpurious vm := by
  rw [sbiTimeHandler]
  refine h.of_forall le_rfl fun c => ?_
  rw [vstip_put, harts_put]
  by_cases hc : c = cpu
  · subst hc
    rw [if_pos rfl, if_pos rfl]
    by_cases hfid : fid = sbiSetTimerFid
    · subst hfid
      rw [TimerCpu.sbiTimeHandler_of_setTimer]
      exact .inl rfl
    · rw [TimerCpu.sbiTimeHandler_of_ne hfid, if_neg hfid]
      exact .inr ⟨rfl, rfl⟩
  · rw [if_neg hc, if_neg hc]
    exact .inr ⟨rfl, rfl⟩

/-- The interrupt is passed on to the guest, and it is spurious unless the guest has set the
timer. -/
theorem notSpurious_timerIrq_iff (htracks : s.Tracks) (h : s.NotSpurious vm)
    (hfree : s.recovery.Free vm cpu) (hirq : (s.view cpu).Interrupted) :
    (s.sbiTimerIrqHandler platCpuNum vm cpu).NotSpurious vm ↔
      (¬ s.StartsRecovery vm cpu → (s.harts cpu).programmed.isSome = true) := by
  rw [sbiTimerIrqHandler]
  by_cases hstarts : s.StartsRecovery vm cpu
  · rw [if_pos hstarts]
    exact iff_of_true (h.of_csrs le_rfl rfl fun c => csrs_check platCpuNum _ c)
      fun hnot => absurd hstarts hnot
  · rw [if_neg hstarts, forall_prop_of_true hstarts]
    have hset : ((s.view cpu).sbiTimerIrqHandler vm.config.health).vstip = true :=
      TimerCpu.vstip_sbiTimerIrqHandler hstarts
    constructor
    · intro hnot
      obtain ⟨d, hd, -⟩ := hnot cpu hfree.1 (by rw [vstip_put, if_pos rfl, hset])
      rw [harts_put, if_pos rfl] at hd
      exact Option.isSome_of_mem hd
    · intro hsome c hc hbit
      rw [vstip_put] at hbit
      rw [harts_put]
      by_cases hself : c = cpu
      · rw [if_pos hself]
        obtain ⟨d, hd⟩ := Option.isSome_iff_exists.mp hsome
        exact ⟨d, hd, htracks.le_now hirq hd⟩
      · rw [if_neg hself] at hbit ⊢
        exact h c hc hbit

theorem notSpurious_step_iff (htracks : s.Tracks) (h : s.NotSpurious vm) (a : TimerVmAct) :
    (s.step platCpuNum vm a).NotSpurious vm ↔ s.ComesProgrammed vm a := by
  cases a with
  | setTimer cpu fid regs =>
      refine iff_of_true ?_ trivial
      rw [step]
      split_ifs
      · exact notSpurious_setTimer h fid regs
      · exact h
  | timerIrq cpu =>
      rw [step, ComesProgrammed]
      by_cases hirq : s.recovery.Free vm cpu ∧ (s.view cpu).Interrupted
      · rw [if_pos hirq, notSpurious_timerIrq_iff htracks h hirq.1 hirq.2,
          forall_prop_of_true hirq.1, forall_prop_of_true hirq.2]
      · rw [if_neg hirq]
        exact iff_of_true h fun hfree hirq' => absurd ⟨hfree, hirq'⟩ hirq
  | advance ticks =>
      refine iff_of_true (h.of_csrs (Nat.le_add_right _ _) ?_ fun c => ?_) trivial <;> rfl
  | heartbeat cpu =>
      exact iff_of_true (h.of_csrs le_rfl rfl fun c => csrs_heartbeat platCpuNum _ c) trivial
  | deliver cpu =>
      exact iff_of_true (h.of_csrs le_rfl rfl fun c => csrs_deliver platCpuNum c) trivial
  | proceed cpu =>
      refine iff_of_true ?_ trivial
      rw [step]
      have hcsrs := csrs_proceed (r := s.recovery) platCpuNum vm cpu (s.view cpu).healthRdtime
      split_ifs with hreset
      · refine h.of_reset cpu le_rfl ?_ fun c hc => ⟨vstip_congr ?_, ?_⟩
        · rw [vstip, forget, hcsrs, if_pos ⟨rfl, hreset⟩]
          simp [vcpuArchReset]
        · rw [forget, hcsrs, if_neg fun h => hc h.1]
        · rw [harts_forget, if_neg hc]
      · refine h.of_csrs le_rfl rfl fun c => ?_
        rw [hcsrs, if_neg fun h => hreset h.2]
  | hartStart cpu target startAddr priv =>
      refine iff_of_true ?_ trivial
      rw [step]
      split_ifs
      · refine h.of_csrs le_rfl rfl fun c => csrs_setVcpu_of_eq ?_ c
        rfl
      · exact h
  | sbiMsg cpu event =>
      refine iff_of_true ?_ trivial
      rw [step]
      have hbit := getLsbD_sbiMsgHandler event (s.recovery.vcpus cpu)
      have hcsrs := csrs_setVcpu s.recovery cpu (sbiMsgHandler event (s.recovery.vcpus cpu))
      split_ifs with hfree hresets
      · rw [if_pos hresets] at hbit
        refine h.of_forall le_rfl fun c => .inr ⟨?_, rfl⟩
        rw [vstip, hcsrs]
        split_ifs with hc
        · rw [hbit, hc, vstip]
        · rfl
      · rw [if_neg hresets] at hbit
        refine h.of_reset cpu le_rfl ?_ fun c hc => ⟨vstip_congr ?_, ?_⟩
        · rw [vstip, forget, hcsrs, if_pos rfl, hbit]
        · rw [forget, hcsrs, if_neg hc]
        · rw [harts_forget, if_neg hc]
      · exact h

end NotSpurious

theorem tracks_boot (vm : Vm) (now : ℕ) (vplic : Vplic) : (boot vm now vplic).Tracks := by
  intro cpu d hd
  cases hd

theorem notSpurious_boot (vm : Vm) (now : ℕ) (vplic : Vplic) :
    (boot vm now vplic).NotSpurious vm := by
  intro cpu _ hset
  have hclear : (boot vm now vplic).vstip cpu = false := by
    simp [vstip, boot, RecoveryState.boot, Vm.vmVcpuInit, vcpuArchReset]
  rw [hclear] at hset
  cases hset

/-- Along a run from boot no timer interrupt is spurious after any step if and only if each one
that starts no recovery comes after the guest has set the timer, since its vCPU was reset. -/
theorem along_notSpurious_iff (platCpuNum : ℕ) (vm : Vm) (now : ℕ) (vplic : Vplic)
    (as : List TimerVmAct) :
    Along (step platCpuNum vm) (fun s a => (s.step platCpuNum vm a).NotSpurious vm)
        (boot vm now vplic) as ↔
      Along (step platCpuNum vm) (ComesProgrammed vm) (boot vm now vplic) as := by
  have hall : Along (step platCpuNum vm) (fun _ _ => True) (boot vm now vplic) as :=
    along_of_forall (fun _ _ _ => trivial) _
  exact hall.invariant_iff (tracks_boot vm now vplic) (fun _ a h _ => tracks_step platCpuNum vm h a)
    (notSpurious_boot vm now vplic) fun _ a htracks h _ => notSpurious_step_iff htracks h a

/-- The timer that went off before a recovery goes off again in the guest that was reset. -/
def recoveredRun : List TimerVmAct :=
  [.setTimer 0 sbiSetTimerFid (TimerCpu.callRegs 20000#64), .advance 20000, .timerIrq 0,
    .deliver 1, .proceed 0, .proceed 1, .proceed 0, .proceed 1, .proceed 0, .proceed 1,
    .timerIrq 0]

theorem not_notSpurious_recovered :
    ¬ (exec (step 2 RecoveryState.pairVm) (boot RecoveryState.pairVm 0 Vplic.zero)
      recoveredRun).NotSpurious RecoveryState.pairVm := by
  intro h
  have hset : (exec (step 2 RecoveryState.pairVm) (boot RecoveryState.pairVm 0 Vplic.zero)
      recoveredRun).vstip 0 = true := by decide +kernel
  have hnone : ((exec (step 2 RecoveryState.pairVm) (boot RecoveryState.pairVm 0 Vplic.zero)
      recoveredRun).harts 0).programmed = none := by decide +kernel
  obtain ⟨d, hd, -⟩ := h 0 (by decide) hset
  rw [hnone] at hd
  cases hd

end TimerVm

end BaoHypervisor
