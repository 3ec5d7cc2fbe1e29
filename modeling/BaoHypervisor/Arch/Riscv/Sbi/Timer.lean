import BaoHypervisor.Arch.Riscv.Sbi
import BaoHypervisor.Core.Health.Budget

/-!
# The timer of a guest and the watchdog

A CPU has one physical timer. `sbi_time_handler` sets it for the guest, to any value;
`sbi_timer_irq_handler` checks the health of the VM and sets it for the next check. Each
replaces what the other one set, so a check is late as soon as the guest asks for a later
time than that of the next check.
-/

namespace BaoHypervisor

open Run

def healthWatchdogTicks : BitVec 64 := healthMsToTicks 2000#64

def sbiSetTimerFid : BitVec 64 := 0#64

/-- A CPU with a vCPU of a VM: the time, the time that its physical timer is set to, two
bits of its CSRs and the health of the VM. The time of the last health check is kept for
the statements only. -/
structure TimerCpu where
  now : ℕ
  deadline : Option ℕ
  vstip : Bool
  stie : Bool
  health : VmHealth
  lastCheck : Option ℕ
deriving DecidableEq, Repr

/-- What happens on the CPU. Calls on the health of the VM may come from its other CPUs. -/
inductive TimerAct
  | sbiTime (fid : BitVec 64) (regs : ArchRegs)
  | timerIrq
  | advance (ticks : ℕ)
  | health (op : HealthCall)

namespace TimerCpu

def healthRdtime (c : TimerCpu) : BitVec 64 := BitVec.ofNat 64 c.now

def timeOf (c : TimerCpu) (value : BitVec 64) : ℕ := c.now - c.now % 2 ^ 64 + value.toNat

def sbiSetTimer (c : TimerCpu) (stimeValue : BitVec 64) : TimerCpu :=
  { c with deadline := some (c.timeOf stimeValue) }

def sbiTimeHandler (c : TimerCpu) (fid : BitVec 64) (regs : ArchRegs) : SbiError × TimerCpu :=
  if fid ≠ sbiSetTimerFid then (.notSupported, c)
  else
    (.success,
      { c.sbiSetTimer (vcpuReadreg regs (argReg 0)) with vstip := false, stie := true })

/-- `sbi_timer_irq_handler`. If the check starts a recovery, it does not return: the vCPU is
reset and the health of the VM initialised. -/
def sbiTimerIrqHandler (cfg : VmHealthConfig) (c : TimerCpu) : TimerCpu :=
  let check := healthMonitorCheck cfg c.healthRdtime c.health
  let c := { c with health := check.1, lastCheck := some c.now }
  if check.2 then
    { c with health := healthMonitorInit cfg c.healthRdtime c.health, vstip := false }
  else
    let c := { c with vstip := true, stie := false }
    if c.health.status ≠ .notMonitored then
      { c.sbiSetTimer (c.healthRdtime + healthWatchdogTicks) with stie := true }
    else c

def Interrupted (c : TimerCpu) : Prop := c.stie = true ∧ ∃ d ∈ c.deadline, d ≤ c.now

instance (c : TimerCpu) : Decidable c.Interrupted := inferInstanceAs (Decidable (_ ∧ _))

def step (cfg : VmHealthConfig) (c : TimerCpu) : TimerAct → TimerCpu
  | .sbiTime fid regs => (c.sbiTimeHandler fid regs).2
  | .timerIrq => if c.Interrupted then c.sbiTimerIrqHandler cfg else c
  | .advance ticks => { c with now := c.now + ticks }
  | .health op => { c with health := (RecoveryLog.call cfg c.health op).1 }

/-- The next check is due within the ticks of the watchdog after the last one, once there
was one. -/
def Guarded (c : TimerCpu) : Prop :=
  ∀ t ∈ c.lastCheck, c.stie = true ∧ ∃ d ∈ c.deadline, d ≤ t + healthWatchdogTicks.toNat

instance (c : TimerCpu) : Decidable c.Guarded :=
  inferInstanceAs (Decidable (∀ t ∈ c.lastCheck, _ ∧ _))

/-- A guest that sets the timer sets it to a time within the ticks of the watchdog after the
last check. -/
def KeepsWatchdog (c : TimerCpu) : TimerAct → Prop
  | .sbiTime fid regs =>
      fid = sbiSetTimerFid → ∀ t ∈ c.lastCheck,
        c.timeOf (vcpuReadreg regs (argReg 0)) ≤ t + healthWatchdogTicks.toNat
  | _ => True

def Monitored (c : TimerCpu) : Prop := c.health.status ≠ .notMonitored

variable {cfg : VmHealthConfig} {c : TimerCpu}

/-! ## The VM stays monitored -/

theorem status_healthMonitorInit (henabled : cfg.enabled = true) (now : BitVec 64)
    (h : VmHealth) : (healthMonitorInit cfg now h).status = .healthy := by
  rw [healthMonitorInit, if_pos henabled]

theorem status_vmRecoveryStart {h : VmHealth} (hmonitored : h.status ≠ .notMonitored) :
    (vmRecoveryStart cfg h).1.status ≠ .notMonitored := by
  rcases vmRecoveryStart_cases cfg h with ⟨-, heq⟩ | ⟨-, heq⟩
  · rw [heq]
    exact hmonitored
  · rw [heq]
    exact fun hnone => by cases hnone

theorem status_healthMonitorCheck {h : VmHealth} (now : BitVec 64)
    (hmonitored : h.status ≠ .notMonitored) :
    (healthMonitorCheck cfg now h).1.status ≠ .notMonitored := by
  rw [healthMonitorCheck]
  dsimp only
  split_ifs
  · exact hmonitored
  · exact hmonitored
  · exact fun hnone => by cases hnone
  · exact status_vmRecoveryStart fun hnone => by cases hnone
  · exact fun hnone => by cases hnone

theorem status_call {h : VmHealth} (henabled : cfg.enabled = true)
    (hmonitored : h.status ≠ .notMonitored) (op : HealthCall) :
    (RecoveryLog.call cfg h op).1.status ≠ .notMonitored := by
  cases op with
  | init now =>
      rw [RecoveryLog.call, status_healthMonitorInit henabled]
      exact fun hnone => by cases hnone
  | heartbeat now =>
      rw [RecoveryLog.call, healthMonitorHeartbeat, if_neg hmonitored]
      exact fun hnone => by cases hnone
  | check now => exact status_healthMonitorCheck now hmonitored
  | start => exact status_vmRecoveryStart hmonitored

/-! ## The handlers -/

theorem sbiTimeHandler_of_setTimer (regs : ArchRegs) :
    (c.sbiTimeHandler sbiSetTimerFid regs).2 =
      { c with
        deadline := some (c.timeOf (vcpuReadreg regs (argReg 0)))
        vstip := false
        stie := true } := by
  rw [sbiTimeHandler, if_neg (not_not.mpr rfl), sbiSetTimer]

theorem sbiTimeHandler_of_ne {fid : BitVec 64} (hfid : fid ≠ sbiSetTimerFid) (regs : ArchRegs) :
    (c.sbiTimeHandler fid regs).2 = c := by
  rw [sbiTimeHandler, if_pos hfid]

theorem timeOf_watchdog_le (c : TimerCpu) :
    c.timeOf (c.healthRdtime + healthWatchdogTicks) ≤ c.now + healthWatchdogTicks.toNat := by
  have hle : (c.healthRdtime + healthWatchdogTicks).toNat ≤
      c.now % 2 ^ 64 + healthWatchdogTicks.toNat := by
    rw [BitVec.toNat_add, healthRdtime, BitVec.toNat_ofNat]
    exact Nat.mod_le _ _
  have hround := Nat.mod_le c.now (2 ^ 64)
  rw [timeOf]
  omega

/-- What the handler leaves of a CPU that was interrupted: either it set the timer for the
next check, or a recovery has started and the interrupt is still there. -/
theorem sbiTimerIrqHandler_cases (henabled : cfg.enabled = true) (hmonitored : c.Monitored) :
    (c.sbiTimerIrqHandler cfg).Monitored ∧
      (c.sbiTimerIrqHandler cfg).lastCheck = some c.now ∧
        (((c.sbiTimerIrqHandler cfg).stie = true ∧
            (c.sbiTimerIrqHandler cfg).deadline =
              some (c.timeOf (c.healthRdtime + healthWatchdogTicks))) ∨
          ((c.sbiTimerIrqHandler cfg).stie = c.stie ∧
            (c.sbiTimerIrqHandler cfg).deadline = c.deadline)) := by
  have hcheck : (healthMonitorCheck cfg c.healthRdtime c.health).1.status ≠ .notMonitored :=
    status_healthMonitorCheck c.healthRdtime hmonitored
  rw [sbiTimerIrqHandler]
  dsimp only
  split_ifs with hrecovers
  · refine ⟨?_, rfl, .inr ⟨rfl, rfl⟩⟩
    rw [Monitored, status_healthMonitorInit henabled]
    exact fun hnone => by cases hnone
  · exact ⟨hcheck, rfl, .inl ⟨rfl, rfl⟩⟩

theorem monitored_step (henabled : cfg.enabled = true) (hmonitored : c.Monitored)
    (a : TimerAct) : (c.step cfg a).Monitored := by
  cases a with
  | sbiTime fid regs =>
      by_cases hfid : fid = sbiSetTimerFid
      · subst hfid
        rw [step, sbiTimeHandler_of_setTimer]
        exact hmonitored
      · rw [step, sbiTimeHandler_of_ne hfid]
        exact hmonitored
  | timerIrq =>
      rw [step]
      split_ifs
      · exact (sbiTimerIrqHandler_cases henabled hmonitored).1
      · exact hmonitored
  | advance ticks => exact hmonitored
  | health op => exact status_call henabled hmonitored op

theorem guarded_sbiTimerIrqHandler (henabled : cfg.enabled = true) (hmonitored : c.Monitored)
    (hirq : c.Interrupted) : (c.sbiTimerIrqHandler cfg).Guarded := by
  obtain ⟨-, hcheck, hcases⟩ := sbiTimerIrqHandler_cases henabled hmonitored
  intro t ht
  rw [hcheck] at ht
  obtain rfl := Option.some.inj ht
  rcases hcases with ⟨hstie, hdeadline⟩ | ⟨hstie, hdeadline⟩
  · exact ⟨hstie, _, hdeadline, c.timeOf_watchdog_le⟩
  · obtain ⟨d, hd, hle⟩ := hirq.2
    exact ⟨hstie.trans hirq.1, d, hdeadline.trans hd, hle.trans (Nat.le_add_right _ _)⟩

/-- The watchdog stays armed if and only if the step is no call that sets the timer too late. -/
theorem guarded_step_iff (henabled : cfg.enabled = true) (hmonitored : c.Monitored)
    (hguarded : c.Guarded) (a : TimerAct) :
    (c.step cfg a).Guarded ↔ c.KeepsWatchdog a := by
  cases a with
  | sbiTime fid regs =>
      by_cases hfid : fid = sbiSetTimerFid
      · subst hfid
        rw [step, sbiTimeHandler_of_setTimer]
        constructor
        · intro h _ t ht
          obtain ⟨-, d, hd, hle⟩ := h t ht
          rwa [Option.some.inj hd]
        · intro h t ht
          exact ⟨rfl, _, rfl, h rfl t ht⟩
      · rw [step, sbiTimeHandler_of_ne hfid]
        exact iff_of_true hguarded fun h => absurd h hfid
  | timerIrq =>
      refine iff_of_true ?_ trivial
      rw [step]
      split_ifs with hirq
      · exact guarded_sbiTimerIrqHandler henabled hmonitored hirq
      · exact hguarded
  | advance ticks => exact iff_of_true hguarded trivial
  | health op => exact iff_of_true hguarded trivial

/-- Along a run of a CPU whose VM is monitored, the watchdog is armed after every step from
the first check on if and only if the guest never sets the timer to a later time than the
ticks of the watchdog after the last check. -/
theorem watchdog_armed_iff (henabled : cfg.enabled = true) {c : TimerCpu}
    (hmonitored : c.Monitored) (hboot : c.lastCheck = none) (as : List TimerAct) :
    Along (step cfg) (fun s a => (s.step cfg a).Guarded) c as ↔
      Along (step cfg) KeepsWatchdog c as := by
  have hall : Along (step cfg) (fun _ _ => True) c as :=
    along_of_forall (fun _ _ _ => trivial) c
  have hguarded : c.Guarded := by
    intro t ht
    rw [hboot] at ht
    cases ht
  exact hall.invariant_iff hmonitored (fun _ a hs _ => monitored_step henabled hs a) hguarded
    fun _ a hs hI _ => guarded_step_iff henabled hs hI a

def checkedVm : VmHealthConfig := { (default : VmHealthConfig) with enabled := true }

/-- A CPU of that VM, whose timer was set for the first time. -/
def booted : TimerCpu where
  now := 0
  deadline := some 1000
  vstip := false
  stie := true
  health := VmHealth.zero
  lastCheck := none

def callRegs (value : BitVec 64) : ArchRegs :=
  { (default : ArchRegs) with x := fun _ => value }

theorem watchdog_armed_booted :
    Along (step checkedVm) (fun s a => (s.step checkedVm a).Guarded) booted
      [.advance 1000, .timerIrq, .sbiTime sbiSetTimerFid (callRegs 0#64)] := by
  have hmonitored : booted.Monitored := by
    rw [Monitored]
    decide
  refine (@watchdog_armed_iff checkedVm rfl booted hmonitored rfl _).mpr
    ⟨trivial, trivial, fun _ t _ => ?_, trivial⟩
  have hzero : (step checkedVm (step checkedVm booted (.advance 1000)) .timerIrq).timeOf
      (vcpuReadreg (callRegs 0#64) (argReg 0)) = 0 := by decide
  rw [hzero]
  exact Nat.zero_le _

/-- The guest sets the timer to the end of time, and the next check with it. -/
theorem watchdog_disarmed :
    ¬ Along (step checkedVm) (fun s a => (s.step checkedVm a).Guarded) booted
      [.advance 1000, .timerIrq, .sbiTime sbiSetTimerFid (callRegs (BitVec.allOnes 64))] := by
  rintro ⟨-, -, hguarded, -⟩
  revert hguarded
  decide

end TimerCpu

end BaoHypervisor
