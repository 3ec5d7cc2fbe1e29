import BaoHypervisor.Core.Recovery.Messages
import BaoHypervisor.Core.Vm.Broadcast
import BaoHypervisor.Theory.CountBarrier

/-!
# The phases of a recovery

A recovery is started once, on any CPU. When its broadcast reaches the other CPUs of the VM,
each CPU joins the recovery once, whatever messages are around its `VM_RESET`. The barrier of
the VM is then one that counts, and all CPUs go through its three rounds together. No CPU is
left at a barrier when nothing more is to be done.

`vm_msg_broadcast` looks for the CPUs of the VM with a mask of 32 bits, so it may take another
CPU for one of the VM when there are CPUs with higher numbers. A CPU of the VM that is not told
of the recovery never joins it, and the others wait for it.
-/

namespace BaoHypervisor

namespace CpuEvent

def enters : CpuEvent → Option RecoveryBarrier
  | .entered barrier => some barrier
  | .passed _ | .accepted _ | .started _ | .reset => none

def passes : CpuEvent → Option RecoveryBarrier
  | .passed barrier => some barrier
  | .entered _ | .accepted _ | .started _ | .reset => none

end CpuEvent

def Vm.Broadcasts (vm : Vm) (self : ℕ) : Prop :=
  ∀ cpu < 64, (vm.vmMsgBroadcast self).count cpu = if vm.HasCpu cpu ∧ cpu ≠ self then 1 else 0

instance (vm : Vm) (self : ℕ) : Decidable (vm.Broadcasts self) :=
  inferInstanceAs (Decidable (∀ cpu < 64, _))

section Broadcasts

variable {vm : Vm} {self : ℕ}

/-- In a VM with all its CPUs below 32, the broadcast of each of them reaches the others. -/
theorem broadcasts_of_lt (hnum : vm.config.cpuNum = vm.cpuSet.card) (hself : vm.HasCpu self)
    (hlow : ∀ c, vm.HasCpu c → c < 32) : vm.Broadcasts self := by
  intro cpu _
  exact Vm.count_vmMsgBroadcast hnum hself (Vm.unaliased_of_lt fun c hc _ => hlow c hc) cpu

end Broadcasts

namespace RecoveryQueues

def entered (s : RecoveryQueues) (c : ℕ) : List RecoveryBarrier :=
  (s.history c).filterMap CpuEvent.enters

def passed (s : RecoveryQueues) (c : ℕ) : List RecoveryBarrier :=
  (s.history c).filterMap CpuEvent.passes

def barriers : List RecoveryBarrier := [.stopped, .installed, .reset]

def barriersBefore : RecoveryBarrier → List RecoveryBarrier
  | .stopped => []
  | .installed => [.stopped]
  | .reset => [.stopped, .installed]

/-- The hypervisor has nothing to do on the CPUs of the VM: no call is under way, no running
CPU has a message, and no waiting CPU may leave its barrier. -/
structure Settled (vm : Vm) (s : RecoveryQueues) : Prop where
  calling : ∀ c < 64, vm.HasCpu c → s.calling c = none
  eventList : ∀ c < 64, vm.HasCpu c → s.mode c = .running → s.eventList c = []
  waiting : ∀ c < 64, vm.HasCpu c →
    ¬ s.Leaves c .stopped ∧ ¬ s.Leaves c .installed ∧ ¬ s.Leaves c .reset

/-- The CPUs of the VM enter and pass the barriers of a recovery in order, each of them once
at most, and none passes one that another has not entered. When the hypervisor has nothing
to do after a recovery started, they have passed all three. And a vCPU is started by a
message only if the start was accepted after the last reset of the vCPU, as the last one. -/
structure Unconfused (vm : Vm) (s : RecoveryQueues) : Prop where
  once : ∀ c, vm.HasCpu c → s.passed c <+: s.entered c ∧ s.entered c <+: barriers
  together : ∀ c d, vm.HasCpu c → vm.HasCpu d → s.passed c <+: s.entered d
  complete : s.broadcasts ≠ 0 → s.Settled vm → ∀ c, vm.HasCpu c → s.passed c = barriers
  timely : ∀ c before entry after, s.history c = before ++ .started entry :: after →
    ∃ calls since, before = calls ++ .accepted entry :: since ∧ .reset ∉ since ∧
      ∀ startAddr, .accepted startAddr ∉ since

/-! ## The barrier counts -/

/-- The barrier of the VM. Its CPUs went through five rounds at boot. -/
def barrier (vm : Vm) (s : RecoveryQueues) : CountBarrier.State vm.cpuSet where
  count := s.sync.count
  entered c := 5 + (s.entered c).length
  waiting c :=
    match s.mode c with
    | .running => none
    | .waiting _ nextCount => some nextCount

/-- Where a CPU is in a recovery, by its mode and the barriers it has entered and passed. -/
inductive Stage (mode : CpuMode) (entered passed : List RecoveryBarrier) : Prop
  | before (hmode : mode = .running) (hentered : entered = []) (hpassed : passed = [])
  | waiting (barrier : RecoveryBarrier) (nextCount : ℕ) (hmode : mode = .waiting barrier nextCount)
      (hentered : entered = barriersBefore barrier ++ [barrier])
      (hpassed : passed = barriersBefore barrier)
  | done (hmode : mode = .running) (hentered : entered = barriers) (hpassed : passed = barriers)

/-- No CPU of the VM joins more than one recovery, and the barrier counts. -/
structure Phased (vm : Vm) (s : RecoveryQueues) : Prop where
  n_eq : s.sync.n = vm.config.cpuNum
  barrier : (s.barrier vm).Inv
  stage : ∀ c, vm.HasCpu c → Stage (s.mode c) (s.entered c) (s.passed c)
  joins : ∀ c, vm.HasCpu c →
    (s.eventList c).count .vmReset + (if s.entered c = [] then 0 else 1) = s.broadcasts
  broadcasts_le : s.broadcasts ≤ 1

section Barrier

variable {platCpuNum : ℕ} {vm : Vm} {s s' : RecoveryQueues} {c : ℕ} {ctx : SbiHsm}
  {events : List CpuEvent} {mode : CpuMode} {sync : CpuSynctoken}

theorem Moved.entered (h : Moved s s' c ctx events mode sync) :
    s'.entered = Function.update s.entered c (s.entered c ++ events.filterMap CpuEvent.enters) := by
  funext d
  rw [RecoveryQueues.entered, h.history]
  by_cases hd : d = c
  · rw [hd, Function.update_self, Function.update_self, List.filterMap_append]
    rfl
  · rw [Function.update_of_ne hd, Function.update_of_ne hd]
    rfl

theorem Moved.passed (h : Moved s s' c ctx events mode sync) :
    s'.passed = Function.update s.passed c (s.passed c ++ events.filterMap CpuEvent.passes) := by
  funext d
  rw [RecoveryQueues.passed, h.history]
  by_cases hd : d = c
  · rw [hd, Function.update_self, Function.update_self, List.filterMap_append]
    rfl
  · rw [Function.update_of_ne hd, Function.update_of_ne hd]
    rfl

theorem barrier_congr (hsync : s'.sync = s.sync) (hmode : s'.mode = s.mode)
    (hentered : s'.entered = s.entered) : s'.barrier vm = s.barrier vm := by
  rw [RecoveryQueues.barrier, RecoveryQueues.barrier, hsync, hmode, hentered]

theorem waiting_eq_none (hc : c ∈ vm.cpuSet) (hmode : s.mode c = .running) :
    (s.barrier vm).waiting ⟨c, hc⟩ = none := by
  rw [RecoveryQueues.barrier]
  dsimp only
  rw [hmode]

theorem waiting_eq_some (hc : c ∈ vm.cpuSet) {barrier : RecoveryBarrier} {nextCount : ℕ}
    (hmode : s.mode c = .waiting barrier nextCount) :
    (s.barrier vm).waiting ⟨c, hc⟩ = some nextCount := by
  rw [RecoveryQueues.barrier]
  dsimp only
  rw [hmode]

theorem barrier_leave (hc : c ∈ vm.cpuSet) (hsync : s'.sync = s.sync)
    (hmode : s'.mode = Function.update s.mode c .running) (hentered : s'.entered = s.entered) :
    s'.barrier vm = (s.barrier vm).leave ⟨c, hc⟩ := by
  rw [RecoveryQueues.barrier, CountBarrier.State.leave, hsync, hentered]
  refine congrArg (CountBarrier.State.mk _ _) (funext fun d => ?_)
  rw [hmode]
  by_cases hd : d = ⟨c, hc⟩
  · rw [hd, Function.update_self, Function.update_self]
  · have hne : (d : ℕ) ≠ c := fun heq => hd (Subtype.ext heq)
    rw [Function.update_of_ne hd, Function.update_of_ne hne]
    rfl

/-- The barrier when a CPU has entered it, from a state in which no other CPU waits otherwise
than before. -/
theorem barrier_enter (hnum : vm.config.cpuNum = vm.cpuSet.card)
    (hn : s.sync.n = vm.config.cpuNum) (hc : c ∈ vm.cpuSet) {next : RecoveryBarrier}
    {t : CountBarrier.State vm.cpuSet} (hcount : t.count = s.sync.count)
    (hentered : t.entered = (s.barrier vm).entered)
    (hwaiting : ∀ d : vm.cpuSet, (d : ℕ) ≠ c → t.waiting d = (s.barrier vm).waiting d)
    (hsync : s'.sync = s.sync.cpuSyncBarrier.1)
    (hmode : s'.mode = Function.update s.mode c (s.entering next))
    (hentered' : s'.entered = Function.update s.entered c (s.entered c ++ [next])) :
    s'.barrier vm = t.enter ⟨c, hc⟩ := by
  have hwaits : s.sync.cpuSyncBarrier.2 =
      CountBarrier.roundUp (Fintype.card vm.cpuSet) (s.sync.count + 1) := by
    rw [Fintype.card_coe, ← hnum, ← hn]
    rfl
  rw [CountBarrier.State.enter, hcount, hentered]
  rw [RecoveryQueues.barrier, hsync, hentered', hmode]
  refine congr (congrArg (CountBarrier.State.mk _) (funext fun d => ?_)) (funext fun d => ?_)
  · by_cases hd : d = ⟨c, hc⟩
    · rw [hd, Function.update_self, Function.update_self, List.length_append]
      rfl
    · have hne : (d : ℕ) ≠ c := fun heq => hd (Subtype.ext heq)
      rw [Function.update_of_ne hd, Function.update_of_ne hne]
      rfl
  · by_cases hd : d = ⟨c, hc⟩
    · rw [hd, Function.update_self, Function.update_self, entering, hwaits]
    · have hne : (d : ℕ) ≠ c := fun heq => hd (Subtype.ext heq)
      rw [Function.update_of_ne hd, Function.update_of_ne hne, hwaiting d hne]
      rfl

end Barrier

/-! ## One step -/

section Steps

variable {platCpuNum : ℕ} {vm : Vm} {s s' : RecoveryQueues} {c : ℕ}

theorem Stage.of_running {mode : CpuMode} {entered passed : List RecoveryBarrier}
    (h : Stage mode entered passed) (hmode : mode = .running) (hentered : entered = []) :
    passed = [] := by
  cases h with
  | before _ _ hpassed => exact hpassed
  | waiting barrier nextCount hwaiting => exact CpuMode.noConfusion (hmode.symm.trans hwaiting)
  | done _ hdone => exact absurd (hdone.symm.trans hentered) (List.cons_ne_nil _ _)

theorem Stage.of_waiting {mode : CpuMode} {entered passed : List RecoveryBarrier}
    (h : Stage mode entered passed) {barrier : RecoveryBarrier} {nextCount : ℕ}
    (hmode : mode = .waiting barrier nextCount) :
    entered = barriersBefore barrier ++ [barrier] ∧ passed = barriersBefore barrier := by
  cases h with
  | before hrunning => exact CpuMode.noConfusion (hrunning.symm.trans hmode)
  | done hrunning => exact CpuMode.noConfusion (hrunning.symm.trans hmode)
  | waiting barrier' nextCount' hmode' hentered hpassed =>
      rw [hmode] at hmode'
      injection hmode' with hbarrier _
      subst hbarrier
      exact ⟨hentered, hpassed⟩

/-- A step that leaves the barriers alone. -/
theorem Phased.congr (h : s.Phased vm) (hsync : s'.sync = s.sync) (hmode : s'.mode = s.mode)
    (hentered : s'.entered = s.entered) (hpassed : s'.passed = s.passed)
    (hsame : SameResets s s') : s'.Phased vm where
  n_eq := by rw [hsync, h.n_eq]
  barrier := by
    rw [barrier_congr hsync hmode hentered]
    exact h.barrier
  stage d hd := by
    rw [hmode, hentered, hpassed]
    exact h.stage d hd
  joins d hd := by
    rw [hentered, hsame.resets, hsame.broadcasts]
    exact h.joins d hd
  broadcasts_le := by
    rw [hsame.broadcasts]
    exact h.broadcasts_le

theorem Phased.moved (h : s.Phased vm) {ctx : SbiHsm} {events : List CpuEvent}
    (hmoved : Moved s s' c ctx events (s.mode c) s.sync)
    (henters : events.filterMap CpuEvent.enters = [])
    (hpasses : events.filterMap CpuEvent.passes = []) (hsame : SameResets s s') :
    s'.Phased vm := by
  refine h.congr hmoved.sync ?_ ?_ ?_ hsame
  · rw [hmoved.mode, Function.update_eq_self]
  · rw [hmoved.entered, henters, List.append_nil, Function.update_eq_self]
  · rw [hmoved.passed, hpasses, List.append_nil, Function.update_eq_self]

/-- A running CPU enters the first barrier. -/
theorem Phased.join (h : s.Phased vm) (hnum : vm.config.cpuNum = vm.cpuSet.card)
    (hcpu : vm.HasCpu c) (hmode : s.mode c = .running) (hnone : s.entered c = []) {ctx : SbiHsm}
    (hmoved : Moved s s' c ctx [.entered .stopped] (s.entering .stopped)
      s.sync.cpuSyncBarrier.1)
    (hbroadcasts : s'.broadcasts = 1)
    (hself : (s'.eventList c).count .vmReset = 0)
    (hjoins : ∀ d, d ≠ c → vm.HasCpu d →
      (s'.eventList d).count .vmReset + (if s.entered d = [] then 0 else 1) = 1) :
    s'.Phased vm where
  n_eq := by
    rw [hmoved.sync]
    exact h.n_eq
  barrier := by
    have hc := Vm.mem_cpuSet.mpr hcpu
    rw [barrier_enter hnum h.n_eq hc rfl rfl (fun _ _ => rfl) hmoved.sync hmoved.mode
      hmoved.entered]
    exact h.barrier.enter (waiting_eq_none hc hmode)
  stage d hd := by
    rw [hmoved.mode, hmoved.entered, hmoved.passed]
    by_cases hdc : d = c
    · subst hdc
      have hpassed := (h.stage d hd).of_running hmode hnone
      rw [Function.update_self, Function.update_self, Function.update_self, hnone, hpassed]
      exact .waiting .stopped _ rfl rfl rfl
    · rw [Function.update_of_ne hdc, Function.update_of_ne hdc, Function.update_of_ne hdc]
      exact h.stage d hd
  joins d hd := by
    rw [hmoved.entered, hbroadcasts]
    by_cases hdc : d = c
    · rw [hdc, Function.update_self, hself, hnone]
      rfl
    · rw [Function.update_of_ne hdc]
      exact hjoins d hdc hd
  broadcasts_le := hbroadcasts.le

/-- The recovery starts. -/
theorem Phased.begin (h : s.Phased vm) (hnum : vm.config.cpuNum = vm.cpuSet.card)
    (hcpu : vm.HasCpu c) (hmode : s.mode c = .running) (hzero : s.broadcasts = 0)
    (hsends : vm.Broadcasts c)
    (hmoved : Moved s s' c (s.vcpus c).sbiCtx [.entered .stopped] (s.entering .stopped)
      s.sync.cpuSyncBarrier.1)
    (hbroadcasts : s'.broadcasts = s.broadcasts + 1)
    (hresets : ∀ d, (s'.eventList d).count .vmReset =
      (s.eventList d).count .vmReset + (vm.vmMsgBroadcast c).count d) : s'.Phased vm := by
  have hout : ∀ d, vm.HasCpu d → (s.eventList d).count .vmReset = 0 ∧ s.entered d = [] := by
    intro d hd
    have hjoins := h.joins d hd
    rw [hzero] at hjoins
    refine ⟨by omega, by_contra fun hne => ?_⟩
    rw [if_neg hne] at hjoins
    omega
  refine h.join hnum hcpu hmode (hout c hcpu).2 hmoved (by rw [hbroadcasts, hzero]) ?_
    fun d hdc hd => ?_
  · rw [hresets, (hout c hcpu).1, hsends c hcpu.lt, if_neg fun hself => hself.2 rfl]
  · rw [hresets, (hout d hd).1, hsends d hd.lt, if_pos ⟨hd, hdc⟩, if_pos (hout d hd).2]

/-- A CPU passes a barrier and enters the next one. -/
theorem Phased.pass (h : s.Phased vm) (hnum : vm.config.cpuNum = vm.cpuSet.card)
    (hcpu : vm.HasCpu c) {barrier next : RecoveryBarrier} {ctx : SbiHsm}
    (hleaves : s.Leaves c barrier) (hnext : nextBarrier barrier = some next)
    (hmoved : Moved s s' c ctx (passing barrier) (s.entering next) s.sync.cpuSyncBarrier.1)
    (hsame : SameResets s s') : s'.Phased vm := by
  have hc := Vm.mem_cpuSet.mpr hcpu
  obtain ⟨nextCount, hmode, hcount⟩ := hleaves
  obtain ⟨hentered, hpassed⟩ := (h.stage c hcpu).of_waiting hmode
  have henters : (passing barrier).filterMap CpuEvent.enters = [next] := by
    cases barrier <;> cases hnext <;> rfl
  have hpasses : (passing barrier).filterMap CpuEvent.passes = [barrier] := by
    cases barrier <;> rfl
  have hbefore : barriersBefore next = barriersBefore barrier ++ [barrier] := by
    cases barrier <;> cases hnext <;> rfl
  have hentered' := hmoved.entered
  have hpassed' := hmoved.passed
  rw [henters] at hentered'
  rw [hpasses] at hpassed'
  refine ⟨?_, ?_, fun d hd => ?_, fun d hd => ?_, ?_⟩
  · rw [hmoved.sync]
    exact h.n_eq
  · have hwaiting := waiting_eq_some hc hmode
    rw [barrier_enter (t := (s.barrier vm).leave ⟨c, hc⟩) hnum h.n_eq hc rfl rfl
      (fun d hd => Function.update_of_ne (fun heq => hd (congrArg Subtype.val heq)) _ _)
      hmoved.sync hmoved.mode hentered']
    exact (h.barrier.leave hwaiting hcount).enter (Function.update_self _ _ _)
  · rw [hmoved.mode, hentered', hpassed']
    by_cases hdc : d = c
    · rw [hdc, Function.update_self, Function.update_self, Function.update_self, hentered,
        hpassed, ← hbefore]
      exact .waiting next _ rfl rfl rfl
    · rw [Function.update_of_ne hdc, Function.update_of_ne hdc, Function.update_of_ne hdc]
      exact h.stage d hd
  · have hjoins := h.joins d hd
    rw [hsame.resets, hsame.broadcasts, hentered']
    by_cases hdc : d = c
    · rw [hdc] at hjoins ⊢
      rw [Function.update_self, if_neg (List.append_ne_nil_of_right_ne_nil _
        (List.cons_ne_nil _ _))]
      rw [hentered, if_neg (List.append_ne_nil_of_right_ne_nil _ (List.cons_ne_nil _ _))]
        at hjoins
      exact hjoins
    · rw [Function.update_of_ne hdc]
      exact hjoins
  · rw [hsame.broadcasts]
    exact h.broadcasts_le

/-- A CPU passes the final barrier. -/
theorem Phased.resume (h : s.Phased vm) (hcpu : vm.HasCpu c) {ctx : SbiHsm}
    (hleaves : s.Leaves c .reset)
    (hmoved : Moved s s' c ctx (passing .reset) .running s.sync) (hsame : SameResets s s') :
    s'.Phased vm := by
  have hc := Vm.mem_cpuSet.mpr hcpu
  obtain ⟨nextCount, hmode, hcount⟩ := hleaves
  obtain ⟨hentered, hpassed⟩ := (h.stage c hcpu).of_waiting hmode
  have hentered' : s'.entered = s.entered := by
    rw [hmoved.entered]
    exact (congrArg _ (List.append_nil _)).trans (Function.update_eq_self _ _)
  refine ⟨?_, ?_, fun d hd => ?_, fun d hd => ?_, ?_⟩
  · rw [hmoved.sync]
    exact h.n_eq
  · rw [barrier_leave hc hmoved.sync hmoved.mode hentered']
    exact h.barrier.leave (waiting_eq_some hc hmode) hcount
  · rw [hmoved.mode, hentered', hmoved.passed]
    by_cases hdc : d = c
    · rw [hdc, Function.update_self, Function.update_self, hentered, hpassed]
      exact .done rfl rfl rfl
    · rw [Function.update_of_ne hdc, Function.update_of_ne hdc]
      exact h.stage d hd
  · rw [hsame.resets, hsame.broadcasts, hentered']
    exact h.joins d hd
  · rw [hsame.broadcasts]
    exact h.broadcasts_le

def StartsOnce (vm : Vm) (s : RecoveryQueues) (a : QueueAct) : Prop :=
  ∀ c, a = .start c → s.broadcasts = 0 ∧ vm.Broadcasts c

theorem Phased.step (hnum : vm.config.cpuNum = vm.cpuSet.card) (h : s.Phased vm) {a : QueueAct}
    (hstarts : StartsOnce vm s a) : (step platCpuNum vm s a).Phased vm := by
  cases stepKind_step platCpuNum vm s a with
  | calm hcalm =>
      refine h.congr hcalm.sync hcalm.mode ?_ ?_ ⟨hcalm.broadcasts, hcalm.resets⟩
      · funext d
        rw [entered, hcalm.history]
        rfl
      · funext d
        rw [passed, hcalm.history]
        rfl
  | accept target startAddr priv hmoved hsame => exact h.moved hmoved rfl rfl hsame
  | start cpu hpending hmoved hsame => exact h.moved hmoved rfl rfl hsame
  | begin cpu hcpu hmode hmoved hbroadcasts hresets =>
      obtain ⟨hzero, hsends⟩ := hstarts cpu rfl
      exact h.begin hnum hcpu hmode hzero hsends hmoved hbroadcasts hresets
  | join cpu hcpu hmode hmoved hbroadcasts hself hresets =>
      have hjoins := h.joins cpu hcpu
      have hle := h.broadcasts_le
      have hnone : s.entered cpu = [] := by
        by_contra hne
        rw [if_neg hne] at hjoins
        omega
      rw [if_pos hnone] at hjoins
      refine h.join hnum hcpu hmode hnone hmoved (by omega) (by omega) fun d hdc hd => ?_
      rw [hresets d hdc, h.joins d hd]
      omega
  | pass cpu barrier next ctx hcpu hleaves hnext hctx hmoved hsame =>
      exact h.pass hnum hcpu hleaves hnext hmoved hsame
  | resume cpu hcpu hleaves hmoved hsame => exact h.resume hcpu hleaves hmoved hsame

theorem phased_boot (hnum : vm.config.cpuNum = vm.cpuSet.card) (now : BitVec 64)
    (vplic : Vplic) : (boot vm now vplic).Phased vm where
  n_eq := rfl
  barrier := by
    have hstart : (boot vm now vplic).barrier vm = CountBarrier.State.start 5 := by
      rw [barrier, CountBarrier.State.start, Fintype.card_coe, ← hnum]
      rfl
    rw [hstart]
    exact CountBarrier.State.inv_start 5
  stage _ _ := .before rfl rfl rfl
  joins _ _ := rfl
  broadcasts_le := Nat.zero_le 1

end Steps

/-! ## One recovery -/

section Recoveries

variable {vm : Vm} {s : RecoveryQueues} {c d : ℕ}

/-- What a CPU has passed is what the barrier has it leave. -/
theorem Phased.left_eq (h : s.Phased vm) (hcpu : vm.HasCpu c) :
    (s.barrier vm).left ⟨c, Vm.mem_cpuSet.mpr hcpu⟩ = 5 + (s.passed c).length := by
  cases h.stage c hcpu with
  | before hmode hentered hpassed =>
      rw [CountBarrier.State.left_of_none (waiting_eq_none _ hmode), hpassed]
      rw [RecoveryQueues.barrier]
      dsimp only
      rw [hentered]
  | waiting barrier nextCount hmode hentered hpassed =>
      rw [CountBarrier.State.left_of_some (waiting_eq_some _ hmode), hpassed]
      rw [RecoveryQueues.barrier]
      dsimp only
      rw [hentered, List.length_append]
      rfl
  | done hmode hentered hpassed =>
      rw [CountBarrier.State.left_of_none (waiting_eq_none _ hmode), hpassed]
      rw [RecoveryQueues.barrier]
      dsimp only
      rw [hentered]

theorem Phased.once (h : s.Phased vm) (hcpu : vm.HasCpu c) :
    s.passed c <+: s.entered c ∧ s.entered c <+: barriers := by
  cases h.stage c hcpu with
  | before _ hentered hpassed =>
      rw [hentered, hpassed]
      exact ⟨List.prefix_rfl, List.nil_prefix⟩
  | waiting barrier nextCount _ hentered hpassed =>
      rw [hentered, hpassed]
      refine ⟨List.prefix_append _ _, ?_⟩
      cases barrier <;> decide
  | done _ hentered hpassed =>
      rw [hentered, hpassed]
      exact ⟨List.prefix_rfl, List.prefix_rfl⟩

theorem Phased.together (h : s.Phased vm) (hc : vm.HasCpu c) (hd : vm.HasCpu d) :
    s.passed c <+: s.entered d := by
  have hleft := h.barrier.left_le ⟨c, Vm.mem_cpuSet.mpr hc⟩ ⟨d, Vm.mem_cpuSet.mpr hd⟩
  rw [h.left_eq hc] at hleft
  obtain ⟨hpassed, hentered⟩ := h.once hc
  exact List.prefix_of_prefix_length_le (hpassed.trans hentered) (h.once hd).2
    (Nat.le_of_add_le_add_left hleft)

/-- A CPU that waits is held back by one that has entered fewer barriers, if it may not
leave. -/
theorem Phased.exists_lt (h : s.Phased vm) (hcpu : vm.HasCpu c) {barrier : RecoveryBarrier}
    {nextCount : ℕ} (hmode : s.mode c = .waiting barrier nextCount)
    (hstays : ¬ s.Leaves c barrier) :
    ∃ d, vm.HasCpu d ∧ (s.entered d).length < (s.entered c).length := by
  by_contra hnone
  push Not at hnone
  refine hstays ⟨nextCount, hmode, ?_⟩
  refine (h.barrier.passes_iff (waiting_eq_some (Vm.mem_cpuSet.mpr hcpu) hmode)).mpr fun d => ?_
  exact Nat.add_le_add_left (hnone d (Vm.mem_cpuSet.mp d.2)) 5

theorem Settled.not_leaves (h : s.Settled vm) (hcpu : vm.HasCpu c) (barrier : RecoveryBarrier) :
    ¬ s.Leaves c barrier := by
  obtain ⟨hstopped, hinstalled, hreset⟩ := h.waiting c hcpu.lt hcpu
  cases barrier with
  | stopped => exact hstopped
  | installed => exact hinstalled
  | reset => exact hreset

/-- When there is nothing to do, the CPUs have passed all barriers: a CPU that has entered
the fewest is not waiting, and one that has not joined has the message that tells it to. -/
theorem Phased.complete (h : s.Phased vm) (hstarted : s.broadcasts ≠ 0)
    (hsettled : s.Settled vm) (hcpu : vm.HasCpu c) : s.passed c = barriers := by
  have hjoined : ∀ d, vm.HasCpu d → s.mode d = .running → s.entered d ≠ [] := by
    intro d hd hmode hnone
    have hjoins := h.joins d hd
    rw [hsettled.eventList d hd.lt hd hmode, if_pos hnone] at hjoins
    exact hstarted hjoins.symm
  obtain ⟨m, hm, hmin⟩ := Finset.exists_min_image vm.cpuSet (fun d => (s.entered d).length)
    ⟨c, Vm.mem_cpuSet.mpr hcpu⟩
  have hm := Vm.mem_cpuSet.mp hm
  have hall : ∀ d, vm.HasCpu d → 3 ≤ (s.entered d).length := by
    intro d hd
    refine le_trans ?_ (hmin d (Vm.mem_cpuSet.mpr hd))
    cases h.stage m hm with
    | before hmode hentered => exact absurd hentered (hjoined m hm hmode)
    | done _ hentered =>
        rw [hentered]
        exact le_rfl
    | waiting barrier nextCount hmode =>
        obtain ⟨e, he, hlt⟩ := h.exists_lt hm hmode (hsettled.not_leaves hm barrier)
        exact absurd (hmin e (Vm.mem_cpuSet.mpr he)) (Nat.not_le.mpr hlt)
  cases h.stage c hcpu with
  | before hmode hentered => exact absurd hentered (hjoined c hcpu hmode)
  | done _ _ hpassed => exact hpassed
  | waiting barrier nextCount hmode =>
      obtain ⟨d, hd, hlt⟩ := h.exists_lt hcpu hmode (hsettled.not_leaves hcpu barrier)
      have hle := (h.once hcpu).2.length_le
      have hthree := hall d hd
      have hlength : barriers.length = 3 := rfl
      omega

variable {platCpuNum : ℕ}

theorem broadcasts_exec {as : List QueueAct} (has : ∀ a ∈ as, ¬ a.IsStart) :
    (Run.exec (step platCpuNum vm) s as).broadcasts = s.broadcasts := by
  induction as generalizing s with
  | nil => rfl
  | cons a as ih =>
      rw [Run.exec_cons, ih fun b hb => has b (List.mem_cons_of_mem _ hb)]
      have ha := has a List.mem_cons_self
      cases stepKind_step platCpuNum vm s a with
      | calm hcalm => exact hcalm.broadcasts
      | accept target startAddr priv hmoved hsame => exact hsame.broadcasts
      | start cpu hpending hmoved hsame => exact hsame.broadcasts
      | begin cpu hcpu hmode hmoved hbroadcasts hresets => exact absurd trivial ha
      | join cpu hcpu hmode hmoved hbroadcasts hself hresets => exact hbroadcasts
      | pass cpu barrier next ctx hcpu hleaves hnext hctx hmoved hsame => exact hsame.broadcasts
      | resume cpu hcpu hleaves hmoved hsame => exact hsame.broadcasts

theorem Phased.exec (hnum : vm.config.cpuNum = vm.cpuSet.card) (h : s.Phased vm)
    {as : List QueueAct} (has : ∀ a ∈ as, ¬ a.IsStart) :
    (Run.exec (RecoveryQueues.step platCpuNum vm) s as).Phased vm := by
  have halong : Run.Along (RecoveryQueues.step platCpuNum vm) (fun _ a => ¬ a.IsStart) s as :=
    Run.along_of_forall (fun a ha _ => has a ha) s
  refine halong.exec_invariant h fun s a hs ha => hs.step hnum fun c heq => ?_
  subst heq
  exact absurd trivial ha

/-- In every run from boot in which one CPU starts a recovery, and its broadcast reaches the
other CPUs of the VM, the VM is not confused by the messages around the recovery. -/
theorem unconfused_of_broadcasts (platCpuNum : ℕ) (vm : Vm)
    (hnum : vm.config.cpuNum = vm.cpuSet.card) (now : BitVec 64) (vplic : Vplic)
    (as bs : List QueueAct) (hone : ∀ a ∈ as ++ bs, ¬ a.IsStart) (cpu : ℕ)
    (hsends : vm.Broadcasts cpu) :
    (Run.exec (step platCpuNum vm) (boot vm now vplic) (as ++ .start cpu :: bs)).Unconfused
      vm := by
  have hphased : (Run.exec (step platCpuNum vm) (boot vm now vplic)
      (as ++ .start cpu :: bs)).Phased vm := by
    rw [Run.exec_append, Run.exec_cons]
    refine Phased.exec hnum ?_ fun b hb => hone b (List.mem_append_right _ hb)
    have has : ∀ a ∈ as, ¬ a.IsStart := fun a ha => hone a (List.mem_append_left _ ha)
    refine ((phased_boot hnum now vplic).exec hnum has).step hnum fun c heq => ?_
    cases heq
    exact ⟨broadcasts_exec has, hsends⟩
  refine ⟨fun c hc => hphased.once hc, fun c d hc hd => hphased.together hc hd,
    fun hstarted hsettled c hc => hphased.complete hstarted hsettled hc,
    fun c before entry after heq => ?_⟩
  obtain ⟨calls, since, hbefore, hsince⟩ := exists_accepted_of_requested
    (timely_exec platCpuNum vm now vplic (as ++ .start cpu :: bs) c before entry after heq)
  refine ⟨calls, since, hbefore, fun hmem => ?_, fun startAddr hmem => ?_⟩
  · exact Option.some_ne_none entry (hsince _ hmem (some entry)).symm
  · exact Option.some_ne_none startAddr (hsince _ hmem none)

def staleStart (entry : Addr) : List QueueAct :=
  [.guest 0 (HsmState.startRegs entry) default, .hartStart 0]

/-- The recovery goes on when the call is done, and the message is delivered when it is
over. -/
def staleRecovery (now : BitVec 64) : List QueueAct :=
  [.sendStart 0, .deliver 0, .proceed 0 now, .proceed 1 now, .proceed 0 now, .proceed 1 now,
    .proceed 0 now, .proceed 1 now, .deliver 1]

theorem unconfused_staleStart :
    (Run.exec (step 2 RecoveryState.pairVm) (boot RecoveryState.pairVm 0#64 Vplic.zero)
      (staleStart 0x80200000#64 ++ .start 1 :: staleRecovery 20000#64)).Unconfused
      RecoveryState.pairVm :=
  unconfused_of_broadcasts 2 RecoveryState.pairVm (by decide) 0#64 Vplic.zero
    (staleStart 0x80200000#64) (staleRecovery 20000#64) (by decide +kernel) 1 (by decide +kernel)

def highVm : Vm where
  config := { RecoveryState.pairVmConfig with cpuNum := 3 }
  master := 0
  cpus := 0x200000003#64

/-- CPU 0 starts a recovery and CPU 1 joins it, but CPU 33 is not told of it: the bit of CPU 0
is taken for that of CPU 32. -/
theorem not_unconfused_highVm :
    highVm.vmMsgBroadcast 0 = [1, 32] ∧
      ¬ (Run.exec (step 64 highVm) (boot highVm 0#64 Vplic.zero)
        [.start 0, .deliver 1]).Unconfused highVm := by
  refine ⟨by decide +kernel, fun h => ?_⟩
  have hcomplete := h.complete (by decide +kernel)
    ⟨by decide +kernel, by decide +kernel, by decide +kernel⟩ 33 (by decide)
  exact absurd hcomplete (by decide +kernel)

end Recoveries

end RecoveryQueues

end BaoHypervisor
