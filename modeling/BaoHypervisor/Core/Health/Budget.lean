import BaoHypervisor.Core.Health.Monitor
import BaoHypervisor.Theory.Run

/-!
# The recovery budget

The count of recoveries is the only part of the health of a VM that outlives
`health_monitor_init`. Along any run it is the number of `VM_RESET` broadcasts
and the number of times the VM became recovering, and with a limit configured it
stays within the limit.
-/

namespace BaoHypervisor

/-- A call on the health of a VM. `init` is also the call of
`health_monitor_init` that executes a recovery that was started. -/
inductive HealthCall
  | init (now : BitVec 64)
  | heartbeat (now : BitVec 64)
  | check (now : BitVec 64)
  | start
deriving DecidableEq, Repr

/-- The health of a VM, with the number of broadcasts sent and of transitions
into `VM_RECOVERING` made so far. -/
structure RecoveryLog where
  health : VmHealth
  broadcasts : ℕ
  entries : ℕ
deriving DecidableEq, Repr

namespace RecoveryLog

/-- The log of a VM whose memory has just been zeroed. -/
def zero : RecoveryLog := { health := VmHealth.zero, broadcasts := 0, entries := 0 }

def call (cfg : VmHealthConfig) (h : VmHealth) : HealthCall → VmHealth × Bool
  | .init now => (healthMonitorInit cfg now h, false)
  | .heartbeat now => (healthMonitorHeartbeat now h, false)
  | .check now => healthMonitorCheck cfg now h
  | .start => vmRecoveryStart cfg h

def Enters (h h' : VmHealth) : Prop :=
  h.status ≠ .recovering ∧ h'.status = .recovering

instance (h h' : VmHealth) : Decidable (Enters h h') :=
  inferInstanceAs (Decidable (_ ∧ _))

def step (cfg : VmHealthConfig) (s : RecoveryLog) (op : HealthCall) : RecoveryLog :=
  let result := call cfg s.health op
  { health := result.1
    broadcasts := s.broadcasts + if result.2 then 1 else 0
    entries := s.entries + if Enters s.health result.1 then 1 else 0 }

variable {cfg : VmHealthConfig}

/-- A call leaves the count alone, sends nothing and does not make the VM
recovering, or it does all three within the guards of `vm_recovery_start`. -/
theorem call_cases (cfg : VmHealthConfig) (h : VmHealth) (op : HealthCall) :
    ((call cfg h op).2 = false ∧ (call cfg h op).1.recoveryCount = h.recoveryCount ∧
        ¬ Enters h (call cfg h op).1) ∨
      ((call cfg h op).2 = true ∧ RecoveryAllowed cfg h ∧
        (call cfg h op).1.recoveryCount = h.recoveryCount + 1#32 ∧
        Enters h (call cfg h op).1) := by
  cases op with
  | init now =>
      exact .inl ⟨rfl, recoveryCount_healthMonitorInit,
        fun henter => status_healthMonitorInit_ne_recovering henter.2⟩
  | heartbeat now =>
      exact .inl ⟨rfl, recoveryCount_healthMonitorHeartbeat,
        fun henter => status_healthMonitorHeartbeat_ne_recovering henter.2⟩
  | check now =>
      rcases healthMonitorCheck_cases cfg now h with
        ⟨hsend, hcount, hstatus⟩ | ⟨hsend, hallowed, hcount, hstatus⟩
      · exact .inl ⟨hsend, hcount, fun henter => henter.1 (hstatus.mp henter.2)⟩
      · exact .inr ⟨hsend, hallowed, hcount, hallowed.2.2, hstatus⟩
  | start =>
      rw [call]
      rcases vmRecoveryStart_cases cfg h with ⟨-, heq⟩ | ⟨hallowed, heq⟩
      · rw [heq]
        exact .inl ⟨rfl, rfl, fun henter => henter.1 henter.2⟩
      · rw [heq]
        exact .inr ⟨rfl, hallowed, rfl, hallowed.2.2, rfl⟩

/-- The count stays within the limit and is the number of broadcasts and of
entries. -/
structure WithinBudget (cfg : VmHealthConfig) (s : RecoveryLog) : Prop where
  count_le : s.health.recoveryCount ≤ cfg.maxRecoveries
  broadcasts_eq : s.broadcasts = s.health.recoveryCount.toNat
  entries_eq : s.entries = s.health.recoveryCount.toNat

/-- What one step does to the count, the broadcasts and the status. -/
def StepCounted (s s' : RecoveryLog) : Prop :=
  (s'.health.recoveryCount = s.health.recoveryCount ∧ s'.broadcasts = s.broadcasts ∧
      ¬ Enters s.health s'.health) ∨
    (s'.health.recoveryCount.toNat = s.health.recoveryCount.toNat + 1 ∧
      s'.broadcasts = s.broadcasts + 1 ∧ Enters s.health s'.health)

theorem toNat_succ_of_allowed {h : VmHealth} (hmax : 0#32 < cfg.maxRecoveries)
    (hallowed : RecoveryAllowed cfg h) :
    (h.recoveryCount + 1#32).toNat = h.recoveryCount.toNat + 1 ∧
      h.recoveryCount.toNat + 1 ≤ cfg.maxRecoveries.toNat := by
  have hlt := BitVec.lt_def.mp (hallowed.2.1 hmax)
  have hbound := cfg.maxRecoveries.isLt
  have hadd : (h.recoveryCount + 1#32).toNat = (h.recoveryCount.toNat + 1) % 2 ^ 32 :=
    BitVec.toNat_add _ _
  omega

theorem step_counted (hmax : 0#32 < cfg.maxRecoveries) (s : RecoveryLog)
    (op : HealthCall) : StepCounted s (step cfg s op) := by
  rw [step]
  rcases call_cases cfg s.health op with
    ⟨hsend, hcount, henter⟩ | ⟨hsend, hallowed, hcount, henter⟩
  · exact .inl ⟨hcount, by simp [hsend], henter⟩
  · refine .inr ⟨?_, by simp [hsend], henter⟩
    dsimp only
    rw [hcount, (toNat_succ_of_allowed hmax hallowed).1]

theorem WithinBudget.step (hmax : 0#32 < cfg.maxRecoveries) {s : RecoveryLog}
    (h : WithinBudget cfg s) (op : HealthCall) : WithinBudget cfg (step cfg s op) := by
  rw [RecoveryLog.step]
  rcases call_cases cfg s.health op with
    ⟨hsend, hcount, henter⟩ | ⟨hsend, hallowed, hcount, henter⟩
  · constructor
    · dsimp only
      rw [hcount]
      exact h.count_le
    · simp [hsend, hcount, h.broadcasts_eq]
    · simp [henter, hcount, h.entries_eq]
  · obtain ⟨hsucc, hle⟩ := toNat_succ_of_allowed hmax hallowed
    constructor
    · dsimp only
      rw [hcount, BitVec.le_def, hsucc]
      exact hle
    · simp [hsend, hcount, hsucc, h.broadcasts_eq]
    · simp [henter, hcount, hsucc, h.entries_eq]

theorem withinBudget_exec (hmax : 0#32 < cfg.maxRecoveries) (ops : List HealthCall) :
    WithinBudget cfg (Run.exec (RecoveryLog.step cfg) zero ops) :=
  Run.exec_invariant (I := WithinBudget cfg)
    { count_le := BitVec.le_of_lt hmax, broadcasts_eq := rfl, entries_eq := rfl }
    (fun _ op h => h.step hmax op) ops

theorem vmRecoveryStart_of_used_up (hmax : 0#32 < cfg.maxRecoveries) {h : VmHealth}
    (hused : cfg.autoRecover = false ∨ h.recoveryCount = cfg.maxRecoveries) :
    vmRecoveryStart cfg h = (h, false) := by
  rcases vmRecoveryStart_cases cfg h with ⟨-, heq⟩ | ⟨hallowed, -⟩
  · exact heq
  · rcases hused with hauto | hcount
    · have hon := hallowed.1
      rw [hauto] at hon
      cases hon
    · have hlt := hallowed.2.1 hmax
      rw [hcount] at hlt
      exact absurd hlt (BitVec.lt_irrefl _)

/-- With a limit configured the count of recoveries stays within it along any
run and never goes down, each increment comes with one broadcast and one
transition into `VM_RECOVERING`, and with the budget used up or recovery off
`vm_recovery_start` does nothing. -/
theorem recovery_budget (hmax : 0#32 < cfg.maxRecoveries) (ops : List HealthCall) :
    WithinBudget cfg (Run.exec (RecoveryLog.step cfg) zero ops) ∧
      (∀ op, StepCounted (Run.exec (RecoveryLog.step cfg) zero ops)
        (Run.exec (RecoveryLog.step cfg) zero (ops ++ [op]))) ∧
      (cfg.autoRecover = false ∨
          (Run.exec (RecoveryLog.step cfg) zero ops).health.recoveryCount =
            cfg.maxRecoveries →
        vmRecoveryStart cfg (Run.exec (RecoveryLog.step cfg) zero ops).health =
          ((Run.exec (RecoveryLog.step cfg) zero ops).health, false)) := by
  refine ⟨withinBudget_exec hmax ops, fun op => ?_, vmRecoveryStart_of_used_up hmax⟩
  rw [Run.exec_concat]
  exact step_counted hmax _ op

/-- One recovery allowed: it is used up by the first check that finds the VM
late, and a start after the recovery has been executed does nothing. -/
theorem recovery_budget_one :
    let cfg : VmHealthConfig := ⟨true, 1#64, 1#32, true, 1#32⟩
    let ops : List HealthCall := [.init 0#64, .check 20000#64, .init 30000#64, .start]
    WithinBudget cfg (Run.exec (RecoveryLog.step cfg) zero ops) ∧
      (Run.exec (RecoveryLog.step cfg) zero ops).broadcasts = 1 :=
  ⟨(recovery_budget (by decide) _).1, by decide⟩

end RecoveryLog

end BaoHypervisor
