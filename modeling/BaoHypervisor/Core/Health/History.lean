import BaoHypervisor.Core.Health.Monitor
import BaoHypervisor.Theory.Run

/-!
# The health status and the history it stands for

For a monitored VM without automatic recovery the missed counter counts the
overdue checks since the last heartbeat, in 32 bits, and the status follows
the counter. So counter and status are what the history says as long as fewer
than `2 ^ 32` overdue checks have passed since the last heartbeat; with the next
one the counter is zero again and an unhealthy VM becomes a suspect one.
-/

namespace BaoHypervisor

/-- What happens to a monitored VM, with the time it happens at. -/
inductive HealthEvent
  | heartbeat (now : BitVec 64)
  | check (now : BitVec 64)
deriving DecidableEq, Repr

namespace HealthEvent

def time : HealthEvent → BitVec 64
  | heartbeat now => now
  | check now => now

def isCheck : HealthEvent → Bool
  | heartbeat _ => false
  | check _ => true

end HealthEvent

open HealthEvent

/-! ## Histories -/

section History

variable (timeout : BitVec 64) (start : BitVec 64)

/-- The time of the last heartbeat, or of the initialisation at `start`. -/
def lastHeartbeat (events : List HealthEvent) : BitVec 64 :=
  match (events.filter fun e => !e.isCheck).getLast? with
  | none => start
  | some e => e.time

def checksSince (events : List HealthEvent) : List (BitVec 64) :=
  (events.reverse.takeWhile isCheck).map time

/-- The number of checks since the last heartbeat that came more than the
timeout after it. -/
def overdueCount (events : List HealthEvent) : ℕ :=
  (checksSince events).countP fun now =>
    decide ((lastHeartbeat start events).toNat + timeout.toNat < now.toNat)

variable {timeout start}

@[simp] theorem lastHeartbeat_heartbeat (events : List HealthEvent) (now : BitVec 64) :
    lastHeartbeat start (events ++ [heartbeat now]) = now := by
  simp [lastHeartbeat, isCheck, time]

@[simp] theorem lastHeartbeat_check (events : List HealthEvent) (now : BitVec 64) :
    lastHeartbeat start (events ++ [check now]) = lastHeartbeat start events := by
  simp [lastHeartbeat, isCheck]

@[simp] theorem checksSince_heartbeat (events : List HealthEvent) (now : BitVec 64) :
    checksSince (events ++ [heartbeat now]) = [] := by
  rw [checksSince, List.reverse_append]
  rfl

@[simp] theorem checksSince_check (events : List HealthEvent) (now : BitVec 64) :
    checksSince (events ++ [check now]) = now :: checksSince events := by
  rw [checksSince, List.reverse_append]
  rfl

@[simp] theorem overdueCount_nil : overdueCount timeout start [] = 0 := rfl

@[simp] theorem overdueCount_heartbeat (events : List HealthEvent) (now : BitVec 64) :
    overdueCount timeout start (events ++ [heartbeat now]) = 0 := by
  rw [overdueCount, checksSince_heartbeat, List.countP_nil]

theorem overdueCount_check (timeout start : BitVec 64) (events : List HealthEvent)
    (now : BitVec 64) :
    overdueCount timeout start (events ++ [check now]) =
      overdueCount timeout start events +
        if (lastHeartbeat start events).toNat + timeout.toNat < now.toNat then 1 else 0 := by
  rw [overdueCount, overdueCount, lastHeartbeat_check, checksSince_check, List.countP_cons]
  simp only [decide_eq_true_eq]

theorem overdueCount_replicate_check {now : BitVec 64}
    (h : start.toNat + timeout.toNat < now.toNat) (n : ℕ) :
    lastHeartbeat start (List.replicate n (check now)) = start ∧
      overdueCount timeout start (List.replicate n (check now)) = n := by
  induction n with
  | zero => exact ⟨rfl, rfl⟩
  | succ n ih =>
      rw [List.replicate_succ', lastHeartbeat_check, overdueCount_check, ih.1, ih.2, if_pos h]
      exact ⟨rfl, rfl⟩

def Timely (start : BitVec 64) (events : List HealthEvent) : Prop :=
  (start :: events.map time).Pairwise (· ≤ ·)

theorem Timely.of_concat {events : List HealthEvent} {e : HealthEvent}
    (h : Timely start (events ++ [e])) :
    Timely start events ∧ start ≤ e.time ∧ ∀ e' ∈ events, e'.time ≤ e.time := by
  rw [Timely, List.map_append, ← List.cons_append, List.pairwise_append] at h
  obtain ⟨hpre, -, hlast⟩ := h
  refine ⟨hpre, hlast start List.mem_cons_self _ (by simp), fun e' he' => ?_⟩
  exact hlast e'.time (List.mem_cons_of_mem _ (List.mem_map_of_mem he')) _ (by simp)

theorem lastHeartbeat_mem (start : BitVec 64) (events : List HealthEvent) :
    lastHeartbeat start events = start ∨
      ∃ e ∈ events, lastHeartbeat start events = e.time := by
  rw [lastHeartbeat]
  cases hlast : (events.filter fun e => !e.isCheck).getLast? with
  | none => exact .inl rfl
  | some e =>
      have hmem := List.mem_of_getLast? hlast
      exact .inr ⟨e, (List.mem_filter.mp hmem).1, rfl⟩

theorem Timely.lastHeartbeat_le {events : List HealthEvent} {e : HealthEvent}
    (h : Timely start (events ++ [e])) : lastHeartbeat start events ≤ e.time := by
  obtain ⟨-, hstart, hall⟩ := h.of_concat
  rcases lastHeartbeat_mem start events with heq | ⟨e', he', heq⟩
  · rw [heq]
    exact hstart
  · rw [heq]
    exact hall e' he'

end History

/-! ## The monitor along a history -/

def healthStep (cfg : VmHealthConfig) (h : VmHealth) : HealthEvent → VmHealth
  | heartbeat now => healthMonitorHeartbeat now h
  | check now => (healthMonitorCheck cfg now h).1

def healthAfter (cfg : VmHealthConfig) (h : VmHealth) (start : BitVec 64)
    (events : List HealthEvent) : VmHealth :=
  Run.exec (healthStep cfg) (healthMonitorInit cfg start h) events

/-- Counter and status are what the number `n` of overdue checks since the last
heartbeat says. -/
structure MatchesHistory (maxMissed n : ℕ) (h : VmHealth) : Prop where
  missedCount_eq : h.missedCount.toNat = n
  healthy_iff : h.status = .healthy ↔ n = 0
  suspect_iff : h.status = .suspect ↔ 1 ≤ n ∧ n ≤ maxMissed - 1
  unhealthy_iff : h.status = .unhealthy ↔ maxMissed ≤ n

/-- What the code keeps along a history: it counts modulo `2 ^ 32`, and goes
by the counter when it sets the status at an overdue check. -/
structure TracksHistory (cfg : VmHealthConfig) (start : BitVec 64)
    (events : List HealthEvent) (h : VmHealth) : Prop where
  last_eq : h.lastHeartbeat = lastHeartbeat start events
  timeout_eq : h.heartbeatTimeout = healthTimeout cfg
  maxMissed_eq : h.maxMissed = cfg.maxMissed
  missedCount_eq : h.missedCount = BitVec.ofNat 32 (overdueCount (healthTimeout cfg) start events)
  status_eq : h.status = if overdueCount (healthTimeout cfg) start events = 0 then .healthy
    else if cfg.maxMissed ≤ h.missedCount then .unhealthy else .suspect

section Tracking

variable {cfg : VmHealthConfig} {start : BitVec 64} {events : List HealthEvent}
  {h : VmHealth}

theorem TracksHistory.status_cases (ht : TracksHistory cfg start events h) :
    h.status ≠ .notMonitored ∧ h.status ≠ .recovering := by
  rw [ht.status_eq]
  split_ifs <;> exact ⟨nofun, nofun⟩

theorem tracksHistory_init (henabled : cfg.enabled = true) (hmax : cfg.maxMissed ≠ 0#32)
    (h : VmHealth) : TracksHistory cfg start [] (healthMonitorInit cfg start h) := by
  rw [healthMonitorInit, if_pos henabled]
  exact
    { last_eq := rfl
      timeout_eq := rfl
      maxMissed_eq := if_neg hmax
      missedCount_eq := rfl
      status_eq := rfl }

theorem TracksHistory.heartbeat (ht : TracksHistory cfg start events h) (now : BitVec 64) :
    TracksHistory cfg start (events ++ [.heartbeat now]) (healthMonitorHeartbeat now h) := by
  rw [healthMonitorHeartbeat, if_neg ht.status_cases.1]
  exact
    { last_eq := (lastHeartbeat_heartbeat events now).symm
      timeout_eq := ht.timeout_eq
      maxMissed_eq := ht.maxMissed_eq
      missedCount_eq := by rw [overdueCount_heartbeat]
      status_eq := by rw [overdueCount_heartbeat, if_pos rfl] }

theorem healthMonitorCheck_of_not_autoRecover (hauto : cfg.autoRecover = false)
    {now : BitVec 64} (hmon : h.status ≠ .notMonitored) (hrec : h.status ≠ .recovering) :
    (healthMonitorCheck cfg now h).1 =
      if now - h.lastHeartbeat ≤ h.heartbeatTimeout then h
      else
        { h with
          missedCount := h.missedCount + 1#32
          status := if h.maxMissed ≤ h.missedCount + 1#32 then .unhealthy else .suspect } := by
  have hskip : ¬ (h.status = .notMonitored ∨ h.status = .recovering) := by
    rintro (hs | hs)
    · exact hmon hs
    · exact hrec hs
  rw [healthMonitorCheck, if_neg hskip]
  dsimp only
  split_ifs with htime hmissed hprev
  · rfl
  · rfl
  · rw [vmRecoveryStart, if_pos hauto]
  · rfl

theorem TracksHistory.check (hauto : cfg.autoRecover = false)
    (ht : TracksHistory cfg start events h) {now : BitVec 64}
    (hle : lastHeartbeat start events ≤ now) :
    TracksHistory cfg start (events ++ [.check now]) (healthMonitorCheck cfg now h).1 := by
  have helapsed : (now - h.lastHeartbeat ≤ h.heartbeatTimeout) ↔
      ¬ (lastHeartbeat start events).toNat + (healthTimeout cfg).toNat < now.toNat := by
    have hlt := now.isLt
    rw [ht.last_eq, ht.timeout_eq, BitVec.le_def, BitVec.toNat_sub_of_le hle]
    rw [BitVec.le_def] at hle
    omega
  rw [healthMonitorCheck_of_not_autoRecover hauto ht.status_cases.1 ht.status_cases.2]
  by_cases hlate : (lastHeartbeat start events).toNat + (healthTimeout cfg).toNat < now.toNat
  · rw [if_neg (by rw [helapsed]; exact not_not.mpr hlate)]
    have hcount := overdueCount_check (healthTimeout cfg) start events now
    rw [if_pos hlate] at hcount
    exact
      { last_eq := by rw [lastHeartbeat_check]; exact ht.last_eq
        timeout_eq := ht.timeout_eq
        maxMissed_eq := ht.maxMissed_eq
        missedCount_eq := by
          rw [hcount, BitVec.ofNat_add]
          exact congrArg (· + 1#32) ht.missedCount_eq
        status_eq := by
          rw [hcount, if_neg (Nat.succ_ne_zero _), ht.maxMissed_eq] }
  · rw [if_pos (helapsed.mpr hlate)]
    have hcount := overdueCount_check (healthTimeout cfg) start events now
    rw [if_neg hlate, Nat.add_zero] at hcount
    exact
      { last_eq := by rw [lastHeartbeat_check]; exact ht.last_eq
        timeout_eq := ht.timeout_eq
        maxMissed_eq := ht.maxMissed_eq
        missedCount_eq := by rw [hcount]; exact ht.missedCount_eq
        status_eq := by rw [hcount]; exact ht.status_eq }

theorem tracksHistory_healthAfter (henabled : cfg.enabled = true)
    (hauto : cfg.autoRecover = false) (hmax : cfg.maxMissed ≠ 0#32) (h : VmHealth)
    (htimely : Timely start events) :
    TracksHistory cfg start events (healthAfter cfg h start events) := by
  induction events using List.reverseRecOn with
  | nil => exact tracksHistory_init henabled hmax h
  | append_singleton events e ih =>
      have hlast := htimely.lastHeartbeat_le
      have ht := ih htimely.of_concat.1
      rw [healthAfter, Run.exec_concat]
      cases e with
      | heartbeat now => exact ht.heartbeat now
      | check now => exact ht.check hauto hlast

/-- The tracked state matches the history exactly while the counter has not
wrapped. -/
theorem TracksHistory.matches_iff (ht : TracksHistory cfg start events h)
    (hmax : cfg.maxMissed ≠ 0#32) :
    MatchesHistory cfg.maxMissed.toNat (overdueCount (healthTimeout cfg) start events) h ↔
      overdueCount (healthTimeout cfg) start events < 2 ^ 32 := by
  have hpos : 0 < cfg.maxMissed.toNat := Nat.pos_of_ne_zero (BitVec.toNat_ne.mp hmax)
  constructor
  · intro hm
    rw [← hm.missedCount_eq]
    exact h.missedCount.isLt
  · intro hlt
    have hcount : h.missedCount.toNat = overdueCount (healthTimeout cfg) start events := by
      rw [ht.missedCount_eq, BitVec.toNat_ofNat, Nat.mod_eq_of_lt hlt]
    have hstatus := ht.status_eq
    simp only [BitVec.le_def, hcount] at hstatus
    refine ⟨hcount, ?_, ?_, ?_⟩ <;> rw [hstatus] <;> split_ifs <;> simp <;> omega

/-! ## On time, and late for good -/

/-- No check comes more than the timeout after the heartbeat before it. -/
def OnTime (timeout start : BitVec 64) (events : List HealthEvent) : Prop :=
  ∀ pre now post, events = pre ++ .check now :: post →
    now.toNat ≤ (lastHeartbeat start pre).toNat + timeout.toNat

theorem OnTime.of_concat {timeout : BitVec 64} {e : HealthEvent}
    (h : OnTime timeout start (events ++ [e])) : OnTime timeout start events := by
  intro pre now post heq
  refine h pre now (post ++ [e]) ?_
  rw [heq, List.append_assoc, List.cons_append]

theorem OnTime.overdueCount_eq_zero {timeout : BitVec 64} (h : OnTime timeout start events) :
    overdueCount timeout start events = 0 := by
  induction events using List.reverseRecOn with
  | nil => rfl
  | append_singleton events e ih =>
      cases e with
      | heartbeat now => exact overdueCount_heartbeat events now
      | check now =>
          have hle := h events now [] rfl
          rw [overdueCount_check, ih h.of_concat, if_neg (by omega)]

theorem overdueCount_le_append_checks (timeout start : BitVec 64)
    (events : List HealthEvent) (checks : List (BitVec 64)) :
    overdueCount timeout start events ≤
      overdueCount timeout start (events ++ checks.map HealthEvent.check) := by
  induction checks using List.reverseRecOn with
  | nil => rw [List.map_nil, List.append_nil]
  | append_singleton checks now ih =>
      rw [List.map_append, ← List.append_assoc, List.map_singleton, overdueCount_check]
      omega

/-- Counter and status match the history exactly while fewer than `2 ^ 32`
overdue checks have passed since the last heartbeat. A VM whose checks are on
time is healthy, and an unhealthy one stays so over the checks that follow, as
long as the counter does not wrap. -/
theorem healthAfter_matches_iff (henabled : cfg.enabled = true)
    (hauto : cfg.autoRecover = false) (hmax : cfg.maxMissed ≠ 0#32) (h : VmHealth)
    (htimely : Timely start events) :
    (MatchesHistory cfg.maxMissed.toNat (overdueCount (healthTimeout cfg) start events)
          (healthAfter cfg h start events) ↔
        overdueCount (healthTimeout cfg) start events < 2 ^ 32) ∧
      (OnTime (healthTimeout cfg) start events →
        (healthAfter cfg h start events).status = .healthy) ∧
      ∀ checks : List (BitVec 64),
        Timely start (events ++ checks.map HealthEvent.check) →
        overdueCount (healthTimeout cfg) start (events ++ checks.map HealthEvent.check) <
          2 ^ 32 →
        (healthAfter cfg h start events).status = .unhealthy →
          (healthAfter cfg h start (events ++ checks.map HealthEvent.check)).status =
            .unhealthy := by
  have ht := tracksHistory_healthAfter henabled hauto hmax h htimely
  refine ⟨ht.matches_iff hmax, fun hontime => ?_, fun checks htimely' hlt hun => ?_⟩
  · rw [ht.status_eq, if_pos hontime.overdueCount_eq_zero]
  · have hle := overdueCount_le_append_checks (healthTimeout cfg) start events checks
    have hbefore := (ht.matches_iff hmax).mpr (by omega)
    have hafter := ((tracksHistory_healthAfter henabled hauto hmax h htimely').matches_iff
      hmax).mpr hlt
    exact hafter.unhealthy_iff.mpr (le_trans (hbefore.unhealthy_iff.mp hun) hle)

/-- A VM that becomes unhealthy at the first overdue check, one millisecond
after the last heartbeat. -/
def strictHealth : VmHealthConfig where
  enabled := true
  timeoutMs := 1#64
  maxMissed := 1#32
  autoRecover := false
  maxRecoveries := 0#32

theorem healthAfter_matches_strictHealth :
    MatchesHistory 1
        (overdueCount (healthTimeout strictHealth) 0#64 [.check 20000#64, .heartbeat 30000#64])
        (healthAfter strictHealth VmHealth.zero 0#64
          [.check 20000#64, .heartbeat 30000#64]) ↔
      overdueCount (healthTimeout strictHealth) 0#64
        [.check 20000#64, .heartbeat 30000#64] < 2 ^ 32 := by
  have henabled : strictHealth.enabled = true := rfl
  have htimely : Timely 0#64 [.check 20000#64, .heartbeat 30000#64] := by
    unfold Timely
    decide
  exact (healthAfter_matches_iff henabled rfl (by decide) VmHealth.zero htimely).1

/-- After `2 ^ 32` overdue checks the unhealthy VM is a suspect one. -/
theorem healthAfter_not_matches_wrapped :
    Timely 0#64 (List.replicate (2 ^ 32) (.check 20000#64)) ∧
      (healthAfter strictHealth VmHealth.zero 0#64
        (List.replicate (2 ^ 32) (.check 20000#64))).status = .suspect ∧
      ¬ MatchesHistory 1
        (overdueCount (healthTimeout strictHealth) 0#64
          (List.replicate (2 ^ 32) (.check 20000#64)))
        (healthAfter strictHealth VmHealth.zero 0#64
          (List.replicate (2 ^ 32) (.check 20000#64))) := by
  obtain ⟨n, hn⟩ : ∃ n : ℕ, n = 2 ^ 32 := ⟨_, rfl⟩
  have htimely : Timely 0#64 (List.replicate n (.check 20000#64)) := by
    rw [Timely, List.map_replicate, List.pairwise_cons]
    refine ⟨fun now hnow => ?_, List.pairwise_replicate.mpr (.inr (by decide))⟩
    rw [List.eq_of_mem_replicate hnow]
    decide
  have hcount : overdueCount (healthTimeout strictHealth) 0#64
      (List.replicate n (.check 20000#64)) = n :=
    (overdueCount_replicate_check (by decide) n).2
  have henabled : strictHealth.enabled = true := rfl
  have ht := tracksHistory_healthAfter henabled rfl (by decide) VmHealth.zero htimely
  rw [← hn]
  refine ⟨htimely, ?_, ?_⟩
  · rw [ht.status_eq, ht.missedCount_eq, hcount, if_neg (by omega), hn]
    decide
  · have hiff := ht.matches_iff (by decide)
    rw [hcount] at hiff ⊢
    intro hm
    have hlt := hiff.mp hm
    omega

end Tracking

end BaoHypervisor
