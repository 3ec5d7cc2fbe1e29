import BaoHypervisor.Core.Health.Budget
import BaoHypervisor.Core.Recovery.System

/-!
# Overlapping recoveries

Every action of a CPU makes at most one call on the health of its VM, so the
health and the broadcasts of any interleaving are those of a `RecoveryLog`, and
the recovery budget holds of it. While a recovery is underway the status guards
against a second one, as long as nothing but the recovery itself writes it. A
heartbeat does: the hypercall of a vCPU that has not taken its `VM_RESET` yet
makes the VM healthy again, and the next late check starts a second recovery.
-/

namespace BaoHypervisor

namespace RecoveryState

variable {platCpuNum : ℕ} {vm : Vm} {s : RecoveryState}

def healthCall (vm : Vm) (s : RecoveryState) : RecoveryAct → Option HealthCall
  | .heartbeat cpu now => if s.GuestRuns vm cpu then some (.heartbeat now) else none
  | .check cpu now => if s.Free vm cpu then some (.check now) else none
  | .start cpu => if s.Free vm cpu then some .start else none
  | .proceed cpu now =>
      if vm.HasCpu cpu ∧ cpu = vm.master ∧ s.Leaves cpu .installed then some (.init now)
      else none
  | .deliver _ => none
  | .access _ _ => none
  | .guest _ _ _ => none

def LoggedBy (s : RecoveryState) (log : RecoveryLog) : Prop :=
  log.health = s.health ∧ log.broadcasts = s.broadcasts

/-- The state has the health, the broadcasts and the mark of another one. -/
structure SameRecord (s s' : RecoveryState) : Prop where
  health : s'.health = s.health
  broadcasts : s'.broadcasts = s.broadcasts
  underway : s'.underway = s.underway

/-- What a call on the health does to the record. -/
structure Calls (vm : Vm) (op : HealthCall) (s s' : RecoveryState) : Prop where
  health : s'.health = (RecoveryLog.call vm.config.health s.health op).1
  broadcasts : s'.broadcasts =
    s.broadcasts + if (RecoveryLog.call vm.config.health s.health op).2 then 1 else 0
  underway : s'.underway =
    match op with
    | .init _ => false
    | _ => s.underway || (RecoveryLog.call vm.config.health s.health op).2

theorem sameRecord_self (s : RecoveryState) : SameRecord s s := ⟨rfl, rfl, rfl⟩

theorem recoveryStart_record (vm : Vm) (s : RecoveryState) (cpu : ℕ)
    (result : VmHealth × Bool) :
    (s.recoveryStart vm cpu result).health = result.1 ∧
      (s.recoveryStart vm cpu result).broadcasts =
        s.broadcasts + (if result.2 then 1 else 0) ∧
      (s.recoveryStart vm cpu result).underway = (s.underway || result.2) := by
  rw [recoveryStart]
  cases hsend : result.2 with
  | false => exact ⟨rfl, rfl, (Bool.or_false _).symm⟩
  | true =>
      rw [if_pos rfl, health_join, broadcasts_join, underway_join]
      exact ⟨rfl, rfl, (Bool.or_true _).symm⟩

theorem calls_recoveryStart (vm : Vm) (s : RecoveryState) (cpu : ℕ) {op : HealthCall}
    (hop : ∀ now, op ≠ .init now) :
    Calls vm op s
      (s.recoveryStart vm cpu (RecoveryLog.call vm.config.health s.health op)) := by
  obtain ⟨hhealth, hbroadcasts, hunderway⟩ := recoveryStart_record vm s cpu
    (RecoveryLog.call vm.config.health s.health op)
  refine ⟨hhealth, hbroadcasts, ?_⟩
  cases op with
  | init now => exact absurd rfl (hop now)
  | heartbeat now => exact hunderway
  | check now => exact hunderway
  | start => exact hunderway

/-- Behind a barrier the record changes only when the master has reset its
vCPU. -/
theorem afterBarrier_sameRecord {cpu : ℕ} {barrier : RecoveryBarrier} (now : BitVec 64)
    (h : ¬ (cpu = vm.master ∧ barrier = .installed)) :
    SameRecord s (s.afterBarrier vm cpu now barrier) := by
  cases barrier with
  | stopped => exact ⟨rfl, rfl, rfl⟩
  | reset => exact ⟨rfl, rfl, rfl⟩
  | installed =>
      rw [afterBarrier, if_neg fun hmaster => h ⟨hmaster, rfl⟩]
      exact ⟨rfl, rfl, rfl⟩

theorem calls_proceed {cpu : ℕ} (now : BitVec 64) (hmaster : cpu = vm.master)
    (hleaves : s.Leaves cpu .installed) : Calls vm (.init now) s (s.proceed vm cpu now) := by
  rcases proceed_cases vm s cpu now with ⟨hstay, -⟩ | ⟨barrier, hleaves', heq⟩
  · exact absurd hleaves (hstay _)
  · rw [heq, hleaves'.unique hleaves, afterBarrier, if_pos hmaster]
    exact ⟨rfl, rfl, rfl⟩

theorem sameRecord_proceed {cpu : ℕ} (now : BitVec 64)
    (h : ¬ (cpu = vm.master ∧ s.Leaves cpu .installed)) :
    SameRecord s (s.proceed vm cpu now) := by
  rcases proceed_cases vm s cpu now with ⟨-, heq⟩ | ⟨barrier, hleaves, heq⟩
  · rw [heq]
    exact sameRecord_self s
  · rw [heq]
    exact afterBarrier_sameRecord now fun hinit => h ⟨hinit.1, hinit.2 ▸ hleaves⟩

/-- An action makes its call on the health, or leaves the record alone. -/
theorem step_record (platCpuNum : ℕ) (vm : Vm) (s : RecoveryState) (a : RecoveryAct) :
    match healthCall vm s a with
    | none => SameRecord s (step platCpuNum vm s a)
    | some op => Calls vm op s (step platCpuNum vm s a) := by
  cases a with
  | heartbeat cpu now =>
      rw [healthCall, step]
      split_ifs
      · exact ⟨rfl, rfl, (Bool.or_false _).symm⟩
      · exact sameRecord_self s
  | check cpu now =>
      rw [healthCall, step]
      split_ifs
      · exact calls_recoveryStart vm s cpu nofun
      · exact sameRecord_self s
  | start cpu =>
      rw [healthCall, step]
      split_ifs
      · exact calls_recoveryStart vm s cpu nofun
      · exact sameRecord_self s
  | deliver cpu =>
      rw [healthCall, step]
      split_ifs
      · exact ⟨health_join _ _ _, broadcasts_join _ _ _, underway_join _ _ _⟩
      · exact sameRecord_self s
  | access cpu access =>
      rw [healthCall, step]
      split_ifs <;> exact ⟨rfl, rfl, rfl⟩
  | guest cpu target vcpu =>
      rw [healthCall, step]
      split_ifs <;> exact ⟨rfl, rfl, rfl⟩
  | proceed cpu now =>
      rw [healthCall, step]
      by_cases hcpu : vm.HasCpu cpu
      · rw [if_pos hcpu]
        split_ifs with hinit
        · exact calls_proceed now hinit.2.1 hinit.2.2
        · exact sameRecord_proceed now fun h => hinit ⟨hcpu, h⟩
      · rw [if_neg hcpu, if_neg fun h => hcpu h.1]
        exact sameRecord_self s

def healthCalls (platCpuNum : ℕ) (vm : Vm) (s : RecoveryState) (as : List RecoveryAct) :
    List HealthCall :=
  Run.emitted (step platCpuNum vm) (fun s a => (healthCall vm s a).toList) s as

theorem loggedBy_step {log : RecoveryLog} (h : LoggedBy s log) (a : RecoveryAct) :
    LoggedBy (step platCpuNum vm s a)
      (Run.exec (RecoveryLog.step vm.config.health) log (healthCall vm s a).toList) := by
  obtain ⟨hhealth, hbroadcasts⟩ := h
  have hstep := step_record platCpuNum vm s a
  cases hcall : healthCall vm s a with
  | none =>
      rw [hcall] at hstep
      exact ⟨hhealth.trans hstep.health.symm, hbroadcasts.trans hstep.broadcasts.symm⟩
  | some op =>
      rw [hcall] at hstep
      rw [LoggedBy, hstep.health, hstep.broadcasts, ← hhealth, ← hbroadcasts]
      exact ⟨rfl, rfl⟩

theorem loggedBy_exec {log : RecoveryLog} (h : LoggedBy s log) (as : List RecoveryAct) :
    LoggedBy (Run.exec (step platCpuNum vm) s as)
      (Run.exec (RecoveryLog.step vm.config.health) log (healthCalls platCpuNum vm s as)) :=
  Run.exec_simulates (R := LoggedBy) (fun _ _ a h => loggedBy_step h a) h as

/-- On any number of CPUs a VM broadcasts at most as often as its configuration
allows. -/
theorem broadcasts_le (platCpuNum : ℕ) {vm : Vm} (hmax : 0#32 < vm.config.health.maxRecoveries)
    (now : BitVec 64) (vplic : Vplic) (as : List RecoveryAct) :
    (Run.exec (step platCpuNum vm) (boot vm now vplic) as).broadcasts ≤
      vm.config.health.maxRecoveries.toNat := by
  have hboot : LoggedBy (boot vm now vplic)
      (RecoveryLog.step vm.config.health RecoveryLog.zero (.init now)) := ⟨rfl, rfl⟩
  have hlog : LoggedBy (Run.exec (step platCpuNum vm) (boot vm now vplic) as) _ :=
    loggedBy_exec hboot as
  have hbudget := RecoveryLog.withinBudget_exec hmax
    (.init now :: healthCalls platCpuNum vm (boot vm now vplic) as)
  rw [Run.exec_cons] at hbudget
  rw [← hlog.2, hbudget.broadcasts_eq]
  exact BitVec.le_def.mp hbudget.count_le

/-! ## Overlap -/

/-- The status stays `VM_RECOVERING` as long as the recovery is underway, and a
step taken then neither counts nor broadcasts another one. -/
def KeepsRecovery (platCpuNum : ℕ) (vm : Vm) (s : RecoveryState) (a : RecoveryAct) : Prop :=
  ((step platCpuNum vm s a).underway = true →
      (step platCpuNum vm s a).health.status = .recovering) ∧
    (s.underway = true →
      (step platCpuNum vm s a).health.recoveryCount = s.health.recoveryCount ∧
        (step platCpuNum vm s a).broadcasts = s.broadcasts)

def HeartbeatUnderway (vm : Vm) (s : RecoveryState) (a : RecoveryAct) : Prop :=
  s.underway = true ∧ ∃ cpu now, a = .heartbeat cpu now ∧ s.GuestRuns vm cpu

/-- The status of a VM with a recovery underway is `VM_RECOVERING`. -/
def Guarded (s : RecoveryState) : Prop :=
  s.underway = true → s.health.status = .recovering

theorem not_keepsRecovery_of_heartbeat (hguard : Guarded s) {a : RecoveryAct}
    (h : HeartbeatUnderway vm s a) : ¬ KeepsRecovery platCpuNum vm s a := by
  obtain ⟨hunderway, cpu, now, rfl, hruns⟩ := h
  intro hkeeps
  rw [KeepsRecovery, step, if_pos hruns] at hkeeps
  have hstatus := hkeeps.1 hunderway
  rw [status_healthMonitorHeartbeat_of_recovering (hguard hunderway)] at hstatus
  cases hstatus

theorem call_of_recovering {op : HealthCall} {cfg : VmHealthConfig} {h : VmHealth}
    (hrec : h.status = .recovering) (hbeat : ∀ now, op ≠ .heartbeat now)
    (hinit : ∀ now, op ≠ .init now) : RecoveryLog.call cfg h op = (h, false) := by
  cases op with
  | init now => exact absurd rfl (hinit now)
  | heartbeat now => exact absurd rfl (hbeat now)
  | check now => exact healthMonitorCheck_of_recovering hrec
  | start => exact vmRecoveryStart_of_recovering hrec

theorem status_of_call_sends {op : HealthCall} {cfg : VmHealthConfig} {h : VmHealth}
    (hsend : (RecoveryLog.call cfg h op).2 = true) :
    (RecoveryLog.call cfg h op).1.status = .recovering := by
  rcases RecoveryLog.call_cases cfg h op with ⟨hno, -, -⟩ | ⟨-, -, -, henter⟩
  · rw [hsend] at hno
    cases hno
  · exact henter.2

theorem Calls.keepsRecovery {op : HealthCall} {a : RecoveryAct} (hguard : Guarded s)
    (hcalls : Calls vm op s (step platCpuNum vm s a))
    (hbeat : s.underway = true → ∀ now, op ≠ .heartbeat now) : KeepsRecovery platCpuNum vm s a := by
  obtain ⟨hhealth, hbroadcasts, hunderway⟩ := hcalls
  rw [KeepsRecovery, hhealth, hbroadcasts, hunderway]
  by_cases hinit : ∃ now, op = .init now
  · obtain ⟨now, rfl⟩ := hinit
    exact ⟨nofun, fun _ => ⟨recoveryCount_healthMonitorInit, rfl⟩⟩
  · have hne : ∀ now, op ≠ .init now := fun now heq => hinit ⟨now, heq⟩
    cases hrec : s.underway with
    | true =>
        rw [call_of_recovering (hguard hrec) (hbeat hrec) hne]
        exact ⟨fun _ => hguard hrec, fun _ => ⟨rfl, rfl⟩⟩
    | false =>
        refine ⟨fun hafter => status_of_call_sends ?_, nofun⟩
        cases op with
        | init now => exact absurd rfl (hne now)
        | heartbeat now => exact hafter
        | check now => exact hafter
        | start => exact hafter

/-- A step from a guarded state keeps the recovery exactly when it is not a
heartbeat during one. -/
theorem keepsRecovery_iff (hguard : Guarded s) (a : RecoveryAct) :
    KeepsRecovery platCpuNum vm s a ↔ ¬ HeartbeatUnderway vm s a := by
  refine ⟨fun hkeeps h => not_keepsRecovery_of_heartbeat hguard h hkeeps, fun hno => ?_⟩
  have hstep := step_record platCpuNum vm s a
  cases hcall : healthCall vm s a with
  | none =>
      rw [hcall] at hstep
      rw [KeepsRecovery, hstep.health, hstep.broadcasts, hstep.underway]
      exact ⟨hguard, fun _ => ⟨rfl, rfl⟩⟩
  | some op =>
      rw [hcall] at hstep
      refine hstep.keepsRecovery hguard fun hunderway now heq => hno ⟨hunderway, ?_⟩
      subst heq
      cases a with
      | heartbeat cpu now' =>
          rw [healthCall] at hcall
          split_ifs at hcall with hruns
          exact ⟨cpu, now', rfl, hruns⟩
      | check =>
          rw [healthCall] at hcall
          split_ifs at hcall
          cases hcall
      | start =>
          rw [healthCall] at hcall
          split_ifs at hcall
          cases hcall
      | proceed =>
          rw [healthCall] at hcall
          split_ifs at hcall
          cases hcall
      | deliver => cases hcall
      | access => cases hcall
      | guest => cases hcall

/-- Along every interleaving from boot, recoveries do not overlap exactly when
no heartbeat takes place while one is underway. -/
theorem along_keepsRecovery_iff (platCpuNum : ℕ) (vm : Vm) (now : BitVec 64) (vplic : Vplic)
    (as : List RecoveryAct) :
    Run.Along (step platCpuNum vm) (KeepsRecovery platCpuNum vm) (boot vm now vplic) as ↔
      Run.Along (step platCpuNum vm) (fun s a => ¬ HeartbeatUnderway vm s a)
        (boot vm now vplic) as :=
  Run.along_iff_of_carry (I := Guarded) (fun h => absurd h Bool.false_ne_true)
    (fun _ a hguard => keepsRecovery_iff hguard a)
    (fun _ _ _ hkeeps => hkeeps.1) as

/-- CPU 0 starts a recovery; the second vCPU, which runs by now, gives a
heartbeat and then comes to a late check before it takes its `VM_RESET`. -/
def overlapRun : List RecoveryAct :=
  [.guest 0 1 { (default : Vcpu) with sbiCtx := ⟨.started, 0#64, 0#32⟩ },
    .check 0 20000#64, .heartbeat 1 20001#64, .check 1 40002#64]

theorem overlapRun_not_keepsRecovery :
    ¬ Run.Along (step 2 pairVm) (KeepsRecovery 2 pairVm) (boot pairVm 0#64 Vplic.zero)
        overlapRun ∧
      (Run.exec (step 2 pairVm) (boot pairVm 0#64 Vplic.zero) overlapRun).broadcasts = 2 := by
  refine ⟨fun h => ?_, by decide⟩
  have hstatus := h.2.2.1.1 (by decide)
  revert hstatus
  decide

end RecoveryState

end BaoHypervisor
