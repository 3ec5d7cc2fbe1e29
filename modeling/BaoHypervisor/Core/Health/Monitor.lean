import BaoHypervisor.Core.Config

/-!
# The health monitor

A guest shows that it is alive by heartbeats; a check that finds the last one
too old counts as missed, and enough of them make the VM unhealthy. The first
check that finds the VM unhealthy asks for a recovery, which `vm_recovery_start`
grants within the configured budget. The time is what `rdtime` returns, an
argument here.
-/

namespace BaoHypervisor

inductive VmHealthStatus
  | healthy
  | suspect
  | unhealthy
  | notMonitored
  | recovering
deriving DecidableEq, Repr, Inhabited

structure VmHealth where
  status : VmHealthStatus
  lastHeartbeat : BitVec 64
  missedCount : BitVec 32
  maxMissed : BitVec 32
  heartbeatTimeout : BitVec 64
  recoveryCount : BitVec 32
deriving DecidableEq, Repr, Inhabited

namespace VmHealth

/-- The health of a VM whose memory has just been zeroed. -/
def zero : VmHealth where
  status := .healthy
  lastHeartbeat := 0#64
  missedCount := 0#32
  maxMissed := 0#32
  heartbeatTimeout := 0#64
  recoveryCount := 0#32

end VmHealth

def healthMsToTicks (ms : BitVec 64) : BitVec 64 :=
  ms * 10000000#64 / 1000#64

/-- The timeout that `health_monitor_init` sets, in ticks. -/
def healthTimeout (cfg : VmHealthConfig) : BitVec 64 :=
  if cfg.timeoutMs = 0#64 then healthMsToTicks 5000#64 else healthMsToTicks cfg.timeoutMs

/-- The threshold that `health_monitor_init` sets. -/
def healthMaxMissed (cfg : VmHealthConfig) : BitVec 32 :=
  if cfg.maxMissed = 0#32 then 3#32 else cfg.maxMissed

def healthMonitorInit (cfg : VmHealthConfig) (now : BitVec 64) (h : VmHealth) : VmHealth :=
  if cfg.enabled then
    { h with
      status := .healthy
      lastHeartbeat := now
      missedCount := 0#32
      maxMissed := healthMaxMissed cfg
      heartbeatTimeout := healthTimeout cfg }
  else
    { h with
      status := .notMonitored
      lastHeartbeat := 0#64
      missedCount := 0#32
      maxMissed := 0#32
      heartbeatTimeout := 0#64 }

def healthMonitorHeartbeat (now : BitVec 64) (h : VmHealth) : VmHealth :=
  if h.status = .notMonitored then h
  else { h with lastHeartbeat := now, missedCount := 0#32, status := .healthy }

/-- `vm_recovery_start` up to its broadcast: the health it leaves, and whether
it goes on to send `VM_RESET` and to execute the recovery. -/
def vmRecoveryStart (cfg : VmHealthConfig) (h : VmHealth) : VmHealth × Bool :=
  if cfg.autoRecover = false then (h, false)
  else if 0#32 < cfg.maxRecoveries ∧ cfg.maxRecoveries ≤ h.recoveryCount then (h, false)
  else if h.status = .recovering then (h, false)
  else ({ h with status := .recovering, recoveryCount := h.recoveryCount + 1#32 }, true)

/-- `health_monitor_check`, with the outcome of the call of `vm_recovery_start`
that a transition to unhealthy makes. -/
def healthMonitorCheck (cfg : VmHealthConfig) (now : BitVec 64) (h : VmHealth) :
    VmHealth × Bool :=
  if h.status = .notMonitored ∨ h.status = .recovering then (h, false)
  else if now - h.lastHeartbeat ≤ h.heartbeatTimeout then (h, false)
  else
    let missed := { h with missedCount := h.missedCount + 1#32 }
    if h.maxMissed ≤ missed.missedCount then
      let unhealthy := { missed with status := .unhealthy }
      if h.status = .unhealthy then (unhealthy, false)
      else vmRecoveryStart cfg unhealthy
    else ({ missed with status := .suspect }, false)

/-! ## Initialisation -/

variable {cfg : VmHealthConfig} {now : BitVec 64} {h : VmHealth}

@[simp] theorem recoveryCount_healthMonitorInit :
    (healthMonitorInit cfg now h).recoveryCount = h.recoveryCount := by
  rw [healthMonitorInit]
  split_ifs <;> rfl

theorem status_healthMonitorInit_ne_recovering :
    (healthMonitorInit cfg now h).status ≠ .recovering := by
  rw [healthMonitorInit]
  split_ifs <;> exact nofun

@[simp] theorem recoveryCount_healthMonitorHeartbeat :
    (healthMonitorHeartbeat now h).recoveryCount = h.recoveryCount := by
  rw [healthMonitorHeartbeat]
  split_ifs <;> rfl

theorem status_healthMonitorHeartbeat_of_recovering (hrec : h.status = .recovering) :
    (healthMonitorHeartbeat now h).status = .healthy := by
  rw [healthMonitorHeartbeat, if_neg (by rw [hrec]; exact nofun)]

theorem status_healthMonitorHeartbeat_ne_recovering :
    (healthMonitorHeartbeat now h).status ≠ .recovering := by
  rw [healthMonitorHeartbeat]
  split_ifs with hnot
  · rw [hnot]
    exact nofun
  · exact nofun

/-! ## The start of a recovery -/

/-- What the guards of `vm_recovery_start` test. -/
def RecoveryAllowed (cfg : VmHealthConfig) (h : VmHealth) : Prop :=
  cfg.autoRecover = true ∧
    (0#32 < cfg.maxRecoveries → h.recoveryCount < cfg.maxRecoveries) ∧
    h.status ≠ .recovering

theorem vmRecoveryStart_cases (cfg : VmHealthConfig) (h : VmHealth) :
    (¬ RecoveryAllowed cfg h ∧ vmRecoveryStart cfg h = (h, false)) ∨
      (RecoveryAllowed cfg h ∧ vmRecoveryStart cfg h =
        ({ h with status := .recovering, recoveryCount := h.recoveryCount + 1#32 }, true)) := by
  rw [vmRecoveryStart, RecoveryAllowed]
  split_ifs with hauto hmax hrec
  · exact .inl ⟨fun h' => by rw [hauto] at h'; exact absurd h'.1 Bool.false_ne_true, rfl⟩
  · refine .inl ⟨fun h' => ?_, rfl⟩
    exact absurd (h'.2.1 hmax.1) (BitVec.not_lt.mpr hmax.2)
  · exact .inl ⟨fun h' => h'.2.2 hrec, rfl⟩
  · refine .inr ⟨⟨Bool.not_eq_false _ ▸ hauto, fun hpos => ?_, hrec⟩, rfl⟩
    exact BitVec.not_le.mp fun hle => hmax ⟨hpos, hle⟩

theorem vmRecoveryStart_of_recovering (hrec : h.status = .recovering) :
    vmRecoveryStart cfg h = (h, false) := by
  rcases vmRecoveryStart_cases cfg h with ⟨-, heq⟩ | ⟨hallowed, -⟩
  · exact heq
  · exact absurd hrec hallowed.2.2

theorem healthMonitorCheck_of_recovering (hrec : h.status = .recovering) :
    healthMonitorCheck cfg now h = (h, false) := by
  rw [healthMonitorCheck, if_pos (.inr hrec)]

/-- A check that sends nothing leaves the count of recoveries alone and does not
make the VM recovering; one that sends has passed the guards of
`vm_recovery_start`. -/
theorem healthMonitorCheck_cases (cfg : VmHealthConfig) (now : BitVec 64) (h : VmHealth) :
    ((healthMonitorCheck cfg now h).2 = false ∧
        (healthMonitorCheck cfg now h).1.recoveryCount = h.recoveryCount ∧
        ((healthMonitorCheck cfg now h).1.status = .recovering ↔ h.status = .recovering)) ∨
      ((healthMonitorCheck cfg now h).2 = true ∧ RecoveryAllowed cfg h ∧
        (healthMonitorCheck cfg now h).1.recoveryCount = h.recoveryCount + 1#32 ∧
        (healthMonitorCheck cfg now h).1.status = .recovering) := by
  rw [healthMonitorCheck]
  dsimp only
  split_ifs with hskip htime hmissed hprev
  · exact .inl ⟨rfl, rfl, Iff.rfl⟩
  · exact .inl ⟨rfl, rfl, Iff.rfl⟩
  · exact .inl ⟨rfl, rfl, by rw [hprev]; exact ⟨nofun, nofun⟩⟩
  · have hne : h.status ≠ .recovering := fun hrec => hskip (.inr hrec)
    obtain ⟨h', hh'⟩ : ∃ h' : VmHealth, h' = { h with
      missedCount := h.missedCount + 1#32, status := .unhealthy } := ⟨_, rfl⟩
    have hcount : h'.recoveryCount = h.recoveryCount := by rw [hh']
    have hstatus : h'.status = .unhealthy := by rw [hh']
    rw [← hh']
    rcases vmRecoveryStart_cases cfg h' with ⟨-, heq⟩ | ⟨hallowed, heq⟩
    · rw [heq]
      exact .inl ⟨rfl, hcount, by rw [hstatus]; exact ⟨nofun, fun hrec => absurd hrec hne⟩⟩
    · rw [heq]
      refine .inr ⟨rfl, ⟨hallowed.1, fun hpos => hcount ▸ hallowed.2.1 hpos, hne⟩, ?_, rfl⟩
      rw [← hcount]
  · have hne : h.status ≠ .recovering := fun hrec => hskip (.inr hrec)
    exact .inl ⟨rfl, rfl, nofun, fun hrec => absurd hrec hne⟩

end BaoHypervisor
