import BaoHypervisor.Arch.Armv8.Psci
import BaoHypervisor.Theory.Run
import Mathlib.Data.Fin.VecNotation

/-!
# One start for each period off

What the protocol promises of a vCPU depends on a part of the system only, its `view`: its
own `psci_ctx`, CPU and messages, and the CPUs that are writing to its `psci_ctx`. A view
goes through the phases of one period: on, off, written to by one caller, sent the message,
woken up and started. A step changes the views of the vCPU that takes it and of the one it
turns on.

Two callers that both find a vCPU off write to its `psci_ctx` together, and both return
success. So the protocol is kept as long as no caller finds a vCPU off that another one has
found off and not yet marked.
-/

namespace BaoHypervisor

variable {cpuNum : ℕ}

namespace PsciPc

/-- The vCPU that is being turned on, from when it was found off to the message. -/
def target : PsciPc cpuNum → Option (Fin cpuNum)
  | .onState t _ _ | .onEntry t _ _ | .onContext t _ _ | .onUnlock t _ (some _)
  | .onSend t _ _ => some t
  | _ => none

def reads : PsciPc cpuNum → Option (Fin cpuNum)
  | .onRead t _ => some t
  | _ => none

def marks : PsciPc cpuNum → Option (Fin cpuNum)
  | .onState t _ _ => some t
  | _ => none

/-- The stage of a CPU that is turning on `t`. -/
def aimedAt (t : Fin cpuNum) (pc : PsciPc cpuNum) : Option (PsciPc cpuNum) :=
  if pc.target = some t then some pc else none

/-- Where the CPU of a vCPU may be that is on. -/
def running : PsciPc cpuNum → Bool
  | .idle | .offUnlock | .wakeLock _ | .wakeRead _ | .wakeReset _ | .wakeState _
  | .wakeContext _ => false
  | _ => true

def resting : PsciPc cpuNum → Bool
  | .idle | .run | .offUnlock | .msgs false => true
  | _ => false

/-- The CPU is between `spin_lock` and `spin_unlock`. -/
def holdsLock : PsciPc cpuNum → Bool
  | .onRead _ _ | .onState _ _ _ | .onEntry _ _ _ | .onContext _ _ _ | .onUnlock _ _ _
  | .offState | .offUnlock | .wakeRead _ | .wakeReset _ | .wakeState _ | .wakeContext _
  | .wakeUnlock _ => true
  | _ => false

theorem aimedAt_of_ne {t : Fin cpuNum} {pc : PsciPc cpuNum} (h : pc.target ≠ some t) :
    pc.aimedAt t = none := if_neg h

theorem aimedAt_of_eq {t : Fin cpuNum} {pc : PsciPc cpuNum} (h : pc.target = some t) :
    pc.aimedAt t = some pc := if_pos h

theorem aimedAt_of_ne_target {t u : Fin cpuNum} {pc : PsciPc cpuNum} (h : pc.target = some t)
    (hu : u ≠ t) : pc.aimedAt u = none :=
  aimedAt_of_ne fun h' => hu (Option.some.inj (h'.symm.trans h))

theorem marks_eq_none {t : Fin cpuNum} {pc : PsciPc cpuNum} (h : pc.target = some t)
    (hne : pc.marks ≠ some t) : pc.marks = none := by
  cases pc with
  | onState u call k => exact absurd h hne
  | _ => rfl

end PsciPc

def CpuOnCall.args (call : CpuOnCall) : Addr × BitVec 64 := (call.entrypoint, call.contextId)

namespace PsciSystem

/-- The calls that returned success for a vCPU in one of its periods. -/
def successes (s : PsciSystem cpuNum) (t : Fin cpuNum) (k : ℕ) : List CpuOnCall :=
  s.events.filterMap fun
    | .success u l call => if u = t ∧ l = k then some call else none
    | .start _ _ _ _ => none

def starts (s : PsciSystem cpuNum) (t : Fin cpuNum) (k : ℕ) : List (Addr × BitVec 64) :=
  s.events.filterMap fun
    | .success _ _ _ => none
    | .start u l entrypoint contextId =>
        if u = t ∧ l = k then some (entrypoint, contextId) else none

def Quiet (vm : PsciVm cpuNum) (s : PsciSystem cpuNum) : Prop :=
  ∀ v, (s.pc v = .guest ∨ s.pc v = .idle) ∧ s.msgs (vm.physId v) = 0

/-- The protocol: in each period at most one call returns success, the vCPU starts with
nothing but its arguments and at most once, it has when nothing is left to be done, and until
then it gets there by the steps of its own CPU. -/
structure CpuOnProtocol (vm : PsciVm cpuNum) (s : PsciSystem cpuNum) : Prop where
  one : ∀ t k, (s.successes t k).length ≤ 1
  start_of : ∀ t k, s.starts t k <+: (s.successes t k).map CpuOnCall.args
  started : s.Quiet vm → ∀ t k, s.starts t k = (s.successes t k).map CpuOnCall.args
  starts : ∀ t k, ∃ acts, (∀ act ∈ acts, act = .wakeup t ∨ act = .next t) ∧
    (Run.exec (step vm) s acts).starts t k = (s.successes t k).map CpuOnCall.args

/-- A caller finds a vCPU off only when no other caller has found it off and is yet to mark
it. -/
def SoleFinder (s : PsciSystem cpuNum) : PsciAct cpuNum → Prop
  | .next v => ∀ t, (s.pc v).reads = some t → (s.ctx t).state = .off →
      ∀ w, (s.pc w).marks ≠ some t
  | _ => True

instance (s : PsciSystem cpuNum) : ∀ act, Decidable (s.SoleFinder act)
  | .next v => inferInstanceAs (Decidable (∀ t, (s.pc v).reads = some t →
      (s.ctx t).state = .off → ∀ w, (s.pc w).marks ≠ some t))
  | .cpuOn _ _ => isTrue trivial
  | .cpuOff _ => isTrue trivial
  | .interrupt _ => isTrue trivial
  | .wakeup _ => isTrue trivial

end PsciSystem

/-- The part of the system that concerns one vCPU. -/
structure PsciView (cpuNum : ℕ) where
  ctx : PsciCtx
  guestPc : Addr
  pc : PsciPc cpuNum
  msgs : ℕ
  period : ℕ
  writers : Fin cpuNum → Option (PsciPc cpuNum)
  successes : ℕ → List CpuOnCall
  starts : ℕ → List (Addr × BitVec 64)

namespace PsciView

variable {r : PsciView cpuNum}

/-- Nobody has returned success in the current period, and there is no message. -/
structure Fresh (r : PsciView cpuNum) : Prop where
  resting : r.pc.resting = true
  msgs : r.msgs = 0
  successes : r.successes r.period = []
  starts : r.starts r.period = []

/-- A call has returned success, and the vCPU is yet to start. -/
structure Called (r : PsciView cpuNum) (call : CpuOnCall) : Prop where
  writers : ∀ w, r.writers w = none
  successes : r.successes r.period = [call]
  starts : r.starts r.period = []
  contextId : r.ctx.contextId = call.contextId

/-- What the caller has written to the `psci_ctx` at each stage. -/
def Written (r : PsciView cpuNum) : PsciPc cpuNum → Prop
  | .onState _ _ k => r.ctx.state = .off ∧ k = r.period
  | .onEntry _ _ k => r.ctx.state = .onPending ∧ k = r.period
  | .onContext _ call k =>
      r.ctx.state = .onPending ∧ k = r.period ∧ r.ctx.entrypoint = call.entrypoint
  | .onUnlock _ call (some k) | .onSend _ call k =>
      r.ctx.state = .onPending ∧ k = r.period ∧ r.ctx.entrypoint = call.entrypoint ∧
        r.ctx.contextId = call.contextId
  | _ => False

inductive Phase (r : PsciView cpuNum) : Prop
  | on (state : r.ctx.state = .on) (running : r.pc.running = true)
      (writers : ∀ w, r.writers w = none) (msgs : r.msgs = 0)
      (one : (r.successes r.period).length ≤ 1)
      (starts : r.starts r.period = (r.successes r.period).map CpuOnCall.args)
  | off (state : r.ctx.state = .off) (writers : ∀ w, r.writers w = none) (fresh : r.Fresh)
  | writing (w : Fin cpuNum) (pc : PsciPc cpuNum) (writer : r.writers w = some pc)
      (others : ∀ u, u ≠ w → r.writers u = none) (written : r.Written pc) (fresh : r.Fresh)
  | sent (call : CpuOnCall) (called : r.Called call) (state : r.ctx.state = .onPending)
      (entry : r.ctx.entrypoint = call.entrypoint) (resting : r.pc.resting = true)
      (msgs : r.msgs = 1)
  | taken (call : CpuOnCall) (called : r.Called call) (state : r.ctx.state = .onPending)
      (entry : r.ctx.entrypoint = call.entrypoint)
      (pc : r.pc = .wakeLock false ∨ r.pc = .wakeRead false ∨ r.pc = .wakeReset false)
      (msgs : r.msgs = 0)
  | reset (call : CpuOnCall) (called : r.Called call) (state : r.ctx.state = .onPending)
      (pc : r.pc = .wakeState false) (entry : r.guestPc = call.entrypoint) (msgs : r.msgs = 0)
  | starting (call : CpuOnCall) (called : r.Called call) (state : r.ctx.state = .on)
      (pc : r.pc = .wakeContext false) (entry : r.guestPc = call.entrypoint)
      (msgs : r.msgs = 0)

/-- The lock is held by the own CPU only, the period is in one of its phases, those before it
are settled, and those after it have nothing. -/
structure Inv (r : PsciView cpuNum) : Prop where
  lock : r.ctx.lock = r.pc.holdsLock
  phase : r.Phase
  one : ∀ k < r.period, (r.successes k).length ≤ 1
  starts : ∀ k < r.period, r.starts k = (r.successes k).map CpuOnCall.args
  later : ∀ k, r.period < k → r.successes k = [] ∧ r.starts k = []

/-- The own CPU goes on. -/
def move (r : PsciView cpuNum) (pc : PsciPc cpuNum) : PsciView cpuNum :=
  { r with pc := pc, ctx := { r.ctx with lock := pc.holdsLock } }

theorem Fresh.move {pc : PsciPc cpuNum} (h : r.Fresh)
    (hrest : r.pc.resting = true → pc.resting = true) : (r.move pc).Fresh :=
  ⟨hrest h.resting, h.msgs, h.successes, h.starts⟩

theorem Called.move {call : CpuOnCall} {pc : PsciPc cpuNum} (h : r.Called call) :
    (r.move pc).Called call :=
  ⟨h.writers, h.successes, h.starts, h.contextId⟩

theorem Written.move {stage pc : PsciPc cpuNum} (h : r.Written stage) :
    (r.move pc).Written stage := h

theorem Written.state_ne_on {stage : PsciPc cpuNum} (h : r.Written stage) :
    r.ctx.state ≠ .on := by
  intro hon
  cases stage with
  | onUnlock _ _ k => cases k <;> simp [Written, hon] at h
  | _ => simp [Written, hon] at h

/-- The vCPU has started as promised, or its CPU is still to do it. -/
theorem Phase.settled_or_called (h : r.Phase) :
    (r.successes r.period).length ≤ 1 ∧
        r.starts r.period = (r.successes r.period).map CpuOnCall.args ∨
      ∃ call, r.successes r.period = [call] ∧ r.starts r.period = [] ∧
        ¬ ((r.pc = .guest ∨ r.pc = .idle) ∧ r.msgs = 0) := by
  cases h with
  | on _ _ _ _ hone hstarts => exact .inl ⟨hone, hstarts⟩
  | off _ _ hfresh =>
      rw [hfresh.successes, hfresh.starts]
      exact .inl ⟨Nat.zero_le 1, rfl⟩
  | writing _ _ _ _ _ hfresh =>
      rw [hfresh.successes, hfresh.starts]
      exact .inl ⟨Nat.zero_le 1, rfl⟩
  | sent call hcalled _ _ _ hmsgs =>
      exact .inr ⟨call, hcalled.successes, hcalled.starts, by simp [hmsgs]⟩
  | taken call hcalled _ _ hpc =>
      refine .inr ⟨call, hcalled.successes, hcalled.starts, ?_⟩
      rcases hpc with hpc | hpc | hpc <;> simp [hpc]
  | reset call hcalled _ hpc =>
      exact .inr ⟨call, hcalled.successes, hcalled.starts, by simp [hpc]⟩
  | starting call hcalled _ hpc =>
      exact .inr ⟨call, hcalled.successes, hcalled.starts, by simp [hpc]⟩

/-- The own CPU may go on where it could be in the same phases. -/
theorem Phase.move {pc : PsciPc cpuNum} (h : r.Phase)
    (hawake : r.pc.running = true ∨ r.pc.resting = true)
    (hrun : r.ctx.state = .on → r.pc.running = true → pc.running = true)
    (hrest : r.ctx.state ≠ .on → r.pc.resting = true → pc.resting = true) :
    (r.move pc).Phase := by
  cases h with
  | on hstate hrunning hwriters hmsgs hone hstarts =>
      exact .on hstate (hrun hstate hrunning) hwriters hmsgs hone hstarts
  | off hstate hwriters hfresh =>
      exact .off hstate hwriters (hfresh.move (hrest (by simp [hstate])))
  | writing w stage hwriter hothers hwritten hfresh =>
      exact .writing w stage hwriter hothers hwritten.move
        (hfresh.move (hrest hwritten.state_ne_on))
  | sent call hcalled hstate hentry hresting hmsgs =>
      exact .sent call hcalled.move hstate hentry (hrest (by simp [hstate]) hresting) hmsgs
  | taken call hcalled hstate hentry hpc hmsgs =>
      rcases hpc with hpc | hpc | hpc <;> simp [hpc, PsciPc.running, PsciPc.resting] at hawake
  | reset call hcalled hstate hpc hentry hmsgs =>
      simp [hpc, PsciPc.running, PsciPc.resting] at hawake
  | starting call hcalled hstate hpc hentry hmsgs =>
      simp [hpc, PsciPc.running, PsciPc.resting] at hawake

theorem Inv.of_phase {r' : PsciView cpuNum} (h : r.Inv) (hlock : r'.ctx.lock = r'.pc.holdsLock)
    (hphase : r'.Phase) (hperiod : r'.period = r.period)
    (hevents : ∀ k, k ≠ r.period →
      r'.successes k = r.successes k ∧ r'.starts k = r.starts k) : r'.Inv := by
  refine ⟨hlock, hphase, fun k hk => ?_, fun k hk => ?_, fun k hk => ?_⟩
  · rw [hperiod] at hk
    rw [(hevents k hk.ne).1]
    exact h.one k hk
  · rw [hperiod] at hk
    rw [(hevents k hk.ne).1, (hevents k hk.ne).2]
    exact h.starts k hk
  · rw [hperiod] at hk
    rw [(hevents k hk.ne').1, (hevents k hk.ne').2]
    exact h.later k hk

theorem Inv.move {pc : PsciPc cpuNum} (h : r.Inv)
    (hawake : r.pc.running = true ∨ r.pc.resting = true)
    (hrun : r.ctx.state = .on → r.pc.running = true → pc.running = true)
    (hrest : r.ctx.state ≠ .on → r.pc.resting = true → pc.resting = true) :
    (r.move pc).Inv :=
  h.of_phase rfl (h.phase.move hawake hrun hrest) rfl fun _ _ => ⟨rfl, rfl⟩

theorem Phase.on_of_running (h : r.Phase) (hrun : r.pc.running = true)
    (hrest : r.pc.resting = false) :
    r.ctx.state = .on ∧ (∀ w, r.writers w = none) ∧ r.msgs = 0 ∧
      (r.successes r.period).length ≤ 1 ∧
      r.starts r.period = (r.successes r.period).map CpuOnCall.args := by
  cases h with
  | on hstate _ hwriters hmsgs hone hstarts => exact ⟨hstate, hwriters, hmsgs, hone, hstarts⟩
  | off _ _ hfresh => simp [hfresh.resting] at hrest
  | writing _ _ _ _ _ hfresh => simp [hfresh.resting] at hrest
  | sent _ _ _ _ hresting => simp [hresting] at hrest
  | taken _ _ _ _ hpc => rcases hpc with hpc | hpc | hpc <;> simp [hpc, PsciPc.running] at hrun
  | reset _ _ _ hpc => simp [hpc, PsciPc.running] at hrun
  | starting _ _ _ hpc => simp [hpc, PsciPc.running] at hrun

/-- The phase of a vCPU that another CPU is turning on. -/
theorem Phase.writing_of_writer (h : r.Phase) {w : Fin cpuNum} {pc : PsciPc cpuNum}
    (hw : r.writers w = some pc) :
    r.Fresh ∧ r.Written pc ∧ ∀ u, u ≠ w → r.writers u = none := by
  cases h with
  | on _ _ hwriters => simp [hwriters w] at hw
  | off _ hwriters => simp [hwriters w] at hw
  | writing u stage hwriter hothers hwritten hfresh =>
      have heq : w = u := by
        by_contra hne
        simp [hothers w hne] at hw
      subst heq
      cases hwriter.symm.trans hw
      exact ⟨hfresh, hwritten, hothers⟩
  | sent _ hcalled => simp [hcalled.writers w] at hw
  | taken _ hcalled => simp [hcalled.writers w] at hw
  | reset _ hcalled => simp [hcalled.writers w] at hw
  | starting _ hcalled => simp [hcalled.writers w] at hw

/-- The caller goes on with what it writes to the `psci_ctx`. -/
theorem Inv.write (h : r.Inv) {w : Fin cpuNum} {pc pc' : PsciPc cpuNum} {ctx : PsciCtx}
    (hw : r.writers w = some pc) (hlock : ctx.lock = r.ctx.lock)
    (hwritten : ({ r with ctx := ctx } : PsciView cpuNum).Written pc') :
    ({ r with ctx := ctx, writers := Function.update r.writers w (some pc') } :
      PsciView cpuNum).Inv := by
  obtain ⟨hfresh, -, hothers⟩ := h.phase.writing_of_writer hw
  refine h.of_phase (hlock.trans h.lock) ?_ rfl fun _ _ => ⟨rfl, rfl⟩
  exact .writing w pc' (Function.update_self _ _ _)
    (fun u hu => (Function.update_of_ne hu _ _).trans (hothers u hu)) hwritten
    ⟨hfresh.resting, hfresh.msgs, hfresh.successes, hfresh.starts⟩

/-- A caller that finds the vCPU off is the one to turn it on, when it is the only one that
has. -/
theorem Inv.find (h : r.Inv) {w : Fin cpuNum} {pc : PsciPc cpuNum} (hstate : r.ctx.state = .off)
    (hsole : ∀ u pc, r.writers u = some pc → pc.marks = none)
    (hwritten : r.Written pc) :
    ({ r with writers := Function.update r.writers w (some pc) } : PsciView cpuNum).Inv := by
  refine h.of_phase h.lock ?_ rfl fun _ _ => ⟨rfl, rfl⟩
  cases h.phase with
  | off _ hwriters hfresh =>
      exact .writing w pc (Function.update_self _ _ _)
        (fun u hu => (Function.update_of_ne hu _ _).trans (hwriters u)) hwritten
        ⟨hfresh.resting, hfresh.msgs, hfresh.successes, hfresh.starts⟩
  | writing u stage hwriter _ hstage =>
      -- The other stages are behind the write of the state.
      cases stage with
      | onState t call k => exact absurd (hsole u _ hwriter) nofun
      | onUnlock t call k => cases k <;> simp [Written, hstate] at hstage
      | _ => simp [Written, hstate] at hstage
  | on hon => simp [hstate] at hon
  | sent _ _ hpending => simp [hstate] at hpending
  | taken _ _ hpending => simp [hstate] at hpending
  | reset _ _ hpending => simp [hstate] at hpending
  | starting _ _ hon => simp [hstate] at hon

/-- The caller sends the message and returns success. -/
theorem Inv.send (h : r.Inv) {w t : Fin cpuNum} {call : CpuOnCall} {k : ℕ}
    (hw : r.writers w = some (.onSend t call k)) {r' : PsciView cpuNum}
    (hr : r' = { r with
      msgs := r.msgs + 1
      writers := Function.update r.writers w none
      successes := Function.update r.successes k (r.successes k ++ [call]) }) : r'.Inv := by
  obtain ⟨hfresh, ⟨hstate, rfl, hentry, hcontext⟩, hothers⟩ := h.phase.writing_of_writer hw
  subst hr
  refine h.of_phase h.lock ?_ rfl fun k hk => ⟨Function.update_of_ne hk _ _, rfl⟩
  refine .sent call ⟨fun u => ?_, ?_, hfresh.starts, hcontext⟩ hstate hentry hfresh.resting ?_
  · by_cases hu : u = w
    · subst hu
      exact Function.update_self _ _ _
    · exact (Function.update_of_ne hu _ _).trans (hothers u hu)
  · simp [hfresh.successes]
  · simp [hfresh.msgs]

theorem Inv.turnOff (h : r.Inv) {ctx : PsciCtx} (hrun : r.pc.running = true)
    (hrest : r.pc.resting = false) (hstate : ctx.state = .off) (hlock : ctx.lock = true) :
    ({ r with ctx := ctx, pc := .offUnlock, period := r.period + 1 } : PsciView cpuNum).Inv := by
  obtain ⟨-, hwriters, hmsgs, hone, hstarts⟩ := h.phase.on_of_running hrun hrest
  obtain ⟨hsuccesses, hstart⟩ := h.later (r.period + 1) (Nat.lt_succ_self _)
  refine ⟨hlock, .off hstate hwriters ⟨rfl, hmsgs, hsuccesses, hstart⟩, fun k hk => ?_,
    fun k hk => ?_, fun k hk => h.later k (Nat.lt_of_succ_lt hk)⟩
  · rcases Nat.lt_succ_iff_lt_or_eq.mp hk with hk | rfl
    · exact h.one k hk
    · exact hone
  · rcases Nat.lt_succ_iff_lt_or_eq.mp hk with hk | rfl
    · exact h.starts k hk
    · exact hstarts

/-- A message is taken when a call has returned success and the vCPU is yet to start. -/
theorem Inv.take (h : r.Inv) {i : Bool} (hpc : r.pc = .msgs i) (hmsgs : r.msgs ≠ 0) :
    ({ r with pc := .wakeLock i, msgs := r.msgs - 1 } : PsciView cpuNum).Inv := by
  have hlock : r.ctx.lock = false := by
    rw [h.lock, hpc]
    rfl
  refine h.of_phase hlock ?_ rfl fun _ _ => ⟨rfl, rfl⟩
  cases h.phase with
  | on _ _ _ hnone => exact absurd hnone hmsgs
  | off _ _ hfresh => exact absurd hfresh.msgs hmsgs
  | writing _ _ _ _ _ hfresh => exact absurd hfresh.msgs hmsgs
  | sent call hcalled hstate hentry hresting hone =>
      rw [hpc] at hresting
      cases i with
      | false =>
          exact .taken call
            ⟨hcalled.writers, hcalled.successes, hcalled.starts, hcalled.contextId⟩
            hstate hentry (.inl rfl) (by rw [hone])
      | true => cases hresting
  | taken _ _ _ _ _ hnone => exact absurd hnone hmsgs
  | reset _ _ _ _ _ hnone => exact absurd hnone hmsgs
  | starting _ _ _ _ _ hnone => exact absurd hnone hmsgs

/-- What is known of a vCPU whose message has been taken, until it is reset. -/
theorem Phase.taken_of_pc (h : r.Phase) {i : Bool}
    (hpc : r.pc = .wakeLock i ∨ r.pc = .wakeRead i ∨ r.pc = .wakeReset i) :
    i = false ∧ ∃ call, r.Called call ∧ r.ctx.state = .onPending ∧
      r.ctx.entrypoint = call.entrypoint ∧ r.msgs = 0 := by
  have hasleep : r.pc.running = false ∧ r.pc.resting = false := by
    rcases hpc with hpc | hpc | hpc <;> exact hpc ▸ ⟨rfl, rfl⟩
  cases h with
  | on _ hrunning => exact absurd (hasleep.1.symm.trans hrunning) (by decide)
  | off _ _ hfresh => exact absurd (hasleep.2.symm.trans hfresh.resting) (by decide)
  | writing _ _ _ _ _ hfresh => exact absurd (hasleep.2.symm.trans hfresh.resting) (by decide)
  | sent _ _ _ _ hresting => exact absurd (hasleep.2.symm.trans hresting) (by decide)
  | taken call hcalled hstate hentry hwake hmsgs =>
      refine ⟨?_, call, hcalled, hstate, hentry, hmsgs⟩
      rcases hpc with hpc | hpc | hpc <;> simpa [hpc] using hwake
  | reset _ _ _ hwake => rcases hpc with hpc | hpc | hpc <;> simp [hpc] at hwake
  | starting _ _ _ hwake => rcases hpc with hpc | hpc | hpc <;> simp [hpc] at hwake

theorem Inv.wake (h : r.Inv) {i : Bool} {pc : PsciPc cpuNum}
    (hpc : r.pc = .wakeLock i ∨ r.pc = .wakeRead i)
    (hnext : pc = .wakeRead i ∨ pc = .wakeReset i) : (r.move pc).Inv := by
  obtain ⟨rfl, call, hcalled, hstate, hentry, hmsgs⟩ :=
    h.phase.taken_of_pc (hpc.imp_right .inl)
  exact h.of_phase rfl (.taken call hcalled.move hstate hentry (.inr hnext) hmsgs) rfl
    fun _ _ => ⟨rfl, rfl⟩

/-- `vcpu_arch_reset` to the entry point of the call. -/
theorem Inv.reset (h : r.Inv) {i : Bool} (hpc : r.pc = .wakeReset i) :
    ({ r with pc := .wakeState i, guestPc := r.ctx.entrypoint } : PsciView cpuNum).Inv := by
  obtain ⟨rfl, call, hcalled, hstate, hentry, hmsgs⟩ :=
    h.phase.taken_of_pc (.inr (.inr hpc))
  have hlock : r.ctx.lock = true := by
    rw [h.lock, hpc]
    rfl
  exact h.of_phase hlock
    (.reset call ⟨hcalled.writers, hcalled.successes, hcalled.starts, hcalled.contextId⟩
      hstate rfl hentry hmsgs) rfl fun _ _ => ⟨rfl, rfl⟩

/-- The vCPU is marked on. -/
theorem Inv.turnOn (h : r.Inv) {i : Bool} (hpc : r.pc = .wakeState i) :
    ({ r with pc := .wakeContext i, ctx := { r.ctx with state := .on } } :
      PsciView cpuNum).Inv := by
  have hlock : r.ctx.lock = true := by
    rw [h.lock, hpc]
    rfl
  refine h.of_phase hlock ?_ rfl fun _ _ => ⟨rfl, rfl⟩
  cases h.phase with
  | on _ hrunning => simp [hpc, PsciPc.running] at hrunning
  | off _ _ hfresh => simpa [hpc, PsciPc.resting] using hfresh.resting
  | writing _ _ _ _ _ hfresh => simpa [hpc, PsciPc.resting] using hfresh.resting
  | sent _ _ _ _ hresting => simp [hpc, PsciPc.resting] at hresting
  | taken _ _ _ _ hwake => simp [hpc] at hwake
  | reset call hcalled _ hwake hentry hmsgs =>
      cases hpc.symm.trans hwake
      exact .starting call
        ⟨hcalled.writers, hcalled.successes, hcalled.starts, hcalled.contextId⟩
        rfl rfl hentry hmsgs
  | starting _ _ _ hwake => simp [hpc] at hwake

/-- The vCPU starts with the arguments of the call. -/
theorem Inv.start (h : r.Inv) {i : Bool} (hpc : r.pc = .wakeContext i)
    {r' : PsciView cpuNum}
    (hr : r' = { r with
      pc := .wakeUnlock i
      starts := Function.update r.starts r.period
        (r.starts r.period ++ [(r.guestPc, r.ctx.contextId)]) }) : r'.Inv := by
  have hlock : r.ctx.lock = true := by
    rw [h.lock, hpc]
    rfl
  subst hr
  refine h.of_phase hlock ?_ rfl fun k hk => ⟨rfl, Function.update_of_ne hk _ _⟩
  cases h.phase with
  | on _ hrunning => simp [hpc, PsciPc.running] at hrunning
  | off _ _ hfresh => simpa [hpc, PsciPc.resting] using hfresh.resting
  | writing _ _ _ _ _ hfresh => simpa [hpc, PsciPc.resting] using hfresh.resting
  | sent _ _ _ _ hresting => simp [hpc, PsciPc.resting] at hresting
  | taken _ _ _ _ hwake => simp [hpc] at hwake
  | reset _ _ _ hwake => simp [hpc] at hwake
  | starting call hcalled hstate hwake hentry hmsgs =>
      refine .on hstate rfl hcalled.writers hmsgs ?_ ?_
      · rw [hcalled.successes]
        exact le_rfl
      · dsimp only
        rw [Function.update_self, hcalled.starts, hcalled.successes, hentry,
          hcalled.contextId]
        rfl

end PsciView

namespace PsciSystem

variable {vm : PsciVm cpuNum} {s : PsciSystem cpuNum} {v t : Fin cpuNum} {pc : PsciPc cpuNum}

/-- The part of the system that concerns a vCPU. -/
def view (vm : PsciVm cpuNum) (s : PsciSystem cpuNum) (t : Fin cpuNum) : PsciView cpuNum where
  ctx := s.ctx t
  guestPc := s.guestPc t
  pc := s.pc t
  msgs := s.msgs (vm.physId t)
  period := s.period t
  writers w := (s.pc w).aimedAt t
  successes := s.successes t
  starts := s.starts t

def Inv (vm : PsciVm cpuNum) (s : PsciSystem cpuNum) : Prop := ∀ t, (s.view vm t).Inv

theorem aimedAt_update (u : Fin cpuNum) :
    (fun w => (Function.update s.pc v pc w).aimedAt u) =
      Function.update (s.view vm u).writers v (pc.aimedAt u) := by
  funext w
  rw [Function.update_apply, Function.update_apply]
  split <;> rfl

theorem view_setPc_of_ne (h : t ≠ v) :
    (s.setPc v pc).view vm t =
      { s.view vm t with
        writers := Function.update (s.view vm t).writers v (pc.aimedAt t) } := by
  rw [← aimedAt_update]
  simp only [view, setPc, Function.update_of_ne h]
  rfl

theorem view_setPc_of_aimedAt (h : t ≠ v) (haim : pc.aimedAt t = (s.pc v).aimedAt t) :
    (s.setPc v pc).view vm t = s.view vm t := by
  rw [view_setPc_of_ne h, haim]
  have hself : Function.update (s.view vm t).writers v ((s.pc v).aimedAt t) =
      (s.view vm t).writers := Function.update_eq_self v _
  rw [hself]

theorem view_setPc_self (haim : pc.aimedAt v = (s.pc v).aimedAt v) :
    (s.setPc v pc).view vm v = { s.view vm v with pc := pc } := by
  have hself : Function.update (s.view vm v).writers v (pc.aimedAt v) =
      (s.view vm v).writers := haim ▸ Function.update_eq_self v _
  rw [← aimedAt_update] at hself
  simp only [view, setPc, Function.update_self] at hself ⊢
  rw [hself]
  rfl

theorem view_setCtx_self (ctx : PsciCtx) :
    (s.setCtx t ctx).view vm t = { s.view vm t with ctx := ctx } := by
  simp only [view, setCtx, Function.update_self]
  rfl

theorem view_setCtx_of_ne {u : Fin cpuNum} (h : t ≠ u) (ctx : PsciCtx) :
    (s.setCtx u ctx).view vm t = s.view vm t := by
  simp only [view, setCtx, Function.update_of_ne h]
  rfl

theorem view_eq_move (hs : Inv vm s) (v : Fin cpuNum) (h : pc.holdsLock = (s.pc v).holdsLock) :
    ({ s.view vm v with pc := pc } : PsciView cpuNum) = (s.view vm v).move pc := by
  have hlock : (s.view vm v).ctx.lock = pc.holdsLock := (hs v).lock.trans h.symm
  rw [PsciView.move, ← hlock]

/-- A step of one CPU, given what it does to its own view and to that of the vCPU it turns
on. -/
theorem Inv.of_views {s' : PsciSystem cpuNum} (hs : Inv vm s) (v t : Fin cpuNum)
    (hv : (s'.view vm v).Inv) (ht : t ≠ v → (s'.view vm t).Inv)
    (hothers : ∀ u, u ≠ v → u ≠ t → s'.view vm u = s.view vm u) : Inv vm s' := by
  intro u
  by_cases huv : u = v
  · exact huv ▸ hv
  · by_cases hut : u = t
    · subst hut
      exact ht huv
    · rw [hothers u huv hut]
      exact hs u

theorem Inv.of_own_view {s' : PsciSystem cpuNum} (hs : Inv vm s) (v : Fin cpuNum)
    (hv : (s'.view vm v).Inv) (hothers : ∀ u, u ≠ v → s'.view vm u = s.view vm u) : Inv vm s' :=
  hs.of_views v v hv (fun h => absurd rfl h) fun u hu _ => hothers u hu

theorem Inv.setPc (hs : Inv vm s) (hawake : (s.pc v).running = true ∨ (s.pc v).resting = true)
    (hrun : (s.ctx v).state = .on → (s.pc v).running = true → pc.running = true)
    (hrest : (s.ctx v).state ≠ .on → (s.pc v).resting = true → pc.resting = true)
    (hlock : pc.holdsLock = (s.pc v).holdsLock)
    (haim : ∀ u, pc.aimedAt u = (s.pc v).aimedAt u) : Inv vm (s.setPc v pc) := by
  refine hs.of_own_view v ?_ fun u hu => view_setPc_of_aimedAt hu (haim u)
  rw [view_setPc_self (haim v), view_eq_move hs v hlock]
  exact (hs v).move hawake hrun hrest

theorem Inv.setLock (hs : Inv vm s) (hmove : ((s.view vm v).move pc).Inv)
    (haim : ∀ u, pc.aimedAt u = (s.pc v).aimedAt u) :
    Inv vm ((s.setCtx v { s.ctx v with lock := pc.holdsLock }).setPc v pc) := by
  refine hs.of_own_view v ?_ fun u hu => ?_
  · rw [view_setPc_self (s := s.setCtx v _) (haim v), view_setCtx_self]
    exact hmove
  · rw [view_setPc_of_aimedAt (s := s.setCtx v _) hu (haim u), view_setCtx_of_ne hu]

theorem Inv.spinLock (hs : Inv vm s) (hmove : ((s.view vm v).move pc).Inv)
    (hlock : pc.holdsLock = true) (haim : ∀ u, pc.aimedAt u = (s.pc v).aimedAt u) :
    Inv vm (s.spinLock v pc) := by
  rw [PsciSystem.spinLock]
  split
  · exact hs
  · rw [← hlock]
    exact hs.setLock hmove haim

theorem Inv.spinUnlock (hs : Inv vm s) (hmove : ((s.view vm v).move pc).Inv)
    (hlock : pc.holdsLock = false) (haim : ∀ u, pc.aimedAt u = (s.pc v).aimedAt u) :
    Inv vm (s.spinUnlock v pc) := by
  rw [PsciSystem.spinUnlock, ← hlock]
  exact hs.setLock hmove haim

theorem Inv.target_ne (hs : Inv vm s) (ht : (s.pc v).target = some t)
    (hrun : (s.pc v).running = true) (hrest : (s.pc v).resting = false) : t ≠ v := by
  rintro rfl
  have hnone := ((hs t).phase.on_of_running hrun hrest).2.1 t
  have hsome : (s.pc t).aimedAt t = some (s.pc t) := PsciPc.aimedAt_of_eq ht
  exact absurd (hsome.symm.trans hnone) (by simp)

/-- A caller goes on with the accesses to the `psci_ctx` of another vCPU. -/
theorem Inv.write (hs : Inv vm s) {ctx : PsciCtx} (ht : (s.pc v).target = some t)
    (hrun : (s.pc v).running = true) (hrest : (s.pc v).resting = false)
    (ht' : pc.target = some t) (hrun' : pc.running = true)
    (hlock' : pc.holdsLock = (s.pc v).holdsLock) (hlock : ctx.lock = (s.ctx t).lock)
    (hwritten : (s.view vm t).Written (s.pc v) →
      ({ s.view vm t with ctx := ctx } : PsciView cpuNum).Written pc) :
    Inv vm ((s.setCtx t ctx).setPc v pc) := by
  have hne := hs.target_ne ht hrun hrest
  have haim : ∀ u, u ≠ t → pc.aimedAt u = (s.pc v).aimedAt u := by
    intro u hu
    rw [PsciPc.aimedAt_of_ne_target ht' hu, PsciPc.aimedAt_of_ne_target ht hu]
  refine hs.of_views v t ?_ (fun _ => ?_) fun u huv hut => ?_
  · rw [view_setPc_self (s := s.setCtx t ctx) (haim v hne.symm), view_setCtx_of_ne hne.symm,
      view_eq_move hs v hlock']
    refine (hs v).move (.inl hrun) (fun _ _ => hrun') fun _ h => ?_
    exact absurd (hrest.symm.trans h) (by decide)
  · have hwriter : (s.view vm t).writers v = some (s.pc v) := PsciPc.aimedAt_of_eq ht
    rw [view_setPc_of_ne hne, view_setCtx_self, PsciPc.aimedAt_of_eq ht']
    exact (hs t).write hwriter hlock
      (hwritten ((hs t).phase.writing_of_writer hwriter).2.1)
  · rw [view_setPc_of_aimedAt (s := s.setCtx t ctx) huv (haim u hut), view_setCtx_of_ne hut]

/-- A caller that has found a vCPU off begins to turn it on. -/
theorem Inv.find (hs : Inv vm s) {call : CpuOnCall} (hpc : s.pc v = .onRead t call)
    (hstate : (s.ctx t).state = .off)
    (hsole : ∀ w, (s.pc w).marks ≠ some t) :
    Inv vm (s.setPc v (.onState t call (s.period t))) := by
  have hrun : (s.pc v).running = true := by
    rw [hpc]
    rfl
  have hrest : (s.pc v).resting = false := by
    rw [hpc]
    rfl
  have hon : (s.ctx v).state = .on := ((hs v).phase.on_of_running hrun hrest).1
  have hne : t ≠ v := by
    rintro rfl
    cases hon.symm.trans hstate
  have haim : ∀ u, u ≠ t →
      (PsciPc.onState t call (s.period t)).aimedAt u = (s.pc v).aimedAt u := by
    intro u hu
    rw [PsciPc.aimedAt_of_ne_target rfl hu, hpc]
    rfl
  refine hs.of_views v t ?_ (fun _ => ?_) fun u huv hut => view_setPc_of_aimedAt huv (haim u hut)
  · rw [view_setPc_self (haim v hne.symm), view_eq_move hs v (by rw [hpc]; rfl)]
    exact (hs v).move (.inl hrun) (fun _ _ => rfl) fun h _ => absurd hon h
  · rw [view_setPc_of_ne hne, PsciPc.aimedAt_of_eq rfl]
    refine (hs t).find hstate (fun w pc h => ?_) ⟨hstate, rfl⟩
    have haimed : (s.pc w).aimedAt t = some pc := h
    rw [PsciPc.aimedAt] at haimed
    split at haimed
    · rename_i htarget
      obtain rfl := Option.some.inj haimed
      exact PsciPc.marks_eq_none htarget (hsole w)
    · cases haimed

/-- The caller releases its lock before it sends the message. -/
theorem Inv.unlockToSend (hs : Inv vm s) {call : CpuOnCall} {k : ℕ}
    (hpc : s.pc v = .onUnlock t call (some k)) :
    Inv vm (s.spinUnlock v (.onSend t call k)) := by
  have ht : (s.pc v).target = some t := by
    rw [hpc]
    rfl
  have hrun : (s.pc v).running = true := by
    rw [hpc]
    rfl
  have hrest : (s.pc v).resting = false := by
    rw [hpc]
    rfl
  have hne := hs.target_ne ht hrun hrest
  have haim : ∀ u, u ≠ t → (PsciPc.onSend t call k).aimedAt u = (s.pc v).aimedAt u := by
    intro u hu
    rw [PsciPc.aimedAt_of_ne_target rfl hu, PsciPc.aimedAt_of_ne_target ht hu]
  refine hs.of_views v t ?_ (fun _ => ?_) fun u huv hut => ?_
  · rw [PsciSystem.spinUnlock, view_setPc_self (s := s.setCtx v _) (haim v hne.symm),
      view_setCtx_self]
    have hon : (s.ctx v).state = .on := ((hs v).phase.on_of_running hrun hrest).1
    have hmove : ((s.view vm v).move (.onSend t call k)).Inv :=
      (hs v).move (.inl hrun) (fun _ _ => rfl) fun h _ => absurd hon h
    exact hmove
  · have hwriter : (s.view vm t).writers v = some (.onUnlock t call (some k)) := by
      rw [← hpc]
      exact PsciPc.aimedAt_of_eq ht
    rw [PsciSystem.spinUnlock, view_setPc_of_ne (s := s.setCtx v _) hne, view_setCtx_of_ne hne,
      PsciPc.aimedAt_of_eq rfl]
    exact (hs t).write hwriter rfl ((hs t).phase.writing_of_writer hwriter).2.1
  · rw [PsciSystem.spinUnlock, view_setPc_of_aimedAt (s := s.setCtx v _) huv (haim u hut),
      view_setCtx_of_ne huv]

def record (s : PsciSystem cpuNum) (event : PsciEvent cpuNum) : PsciSystem cpuNum :=
  { s with events := s.events ++ [event] }

theorem successes_record_success (s : PsciSystem cpuNum) (t : Fin cpuNum) (k : ℕ)
    (call : CpuOnCall) :
    (s.record (.success t k call)).successes t =
      Function.update (s.successes t) k (s.successes t k ++ [call]) := by
  funext l
  rw [successes, record, List.filterMap_append]
  by_cases hl : l = k
  · subst hl
    simp [successes]
  · simp [successes, Function.update_of_ne hl, Ne.symm hl]

theorem successes_record_of_ne {u : Fin cpuNum} (h : u ≠ t) (s : PsciSystem cpuNum) (k : ℕ)
    (call : CpuOnCall) : (s.record (.success t k call)).successes u = s.successes u := by
  funext l
  rw [successes, record, List.filterMap_append]
  simp [successes, h.symm]

theorem successes_record_start (s : PsciSystem cpuNum) (t u : Fin cpuNum) (k : ℕ)
    (entrypoint : Addr) (contextId : BitVec 64) :
    (s.record (.start t k entrypoint contextId)).successes u = s.successes u := by
  funext l
  rw [successes, record, List.filterMap_append]
  exact List.append_nil _

theorem starts_record_start (s : PsciSystem cpuNum) (t : Fin cpuNum) (k : ℕ)
    (entrypoint : Addr) (contextId : BitVec 64) :
    (s.record (.start t k entrypoint contextId)).starts t =
      Function.update (s.starts t) k (s.starts t k ++ [(entrypoint, contextId)]) := by
  funext l
  rw [starts, record, List.filterMap_append]
  by_cases hl : l = k
  · subst hl
    simp [starts]
  · simp [starts, Function.update_of_ne hl, Ne.symm hl]

theorem starts_record_of_ne {u : Fin cpuNum} (h : u ≠ t) (s : PsciSystem cpuNum) (k : ℕ)
    (entrypoint : Addr) (contextId : BitVec 64) :
    (s.record (.start t k entrypoint contextId)).starts u = s.starts u := by
  funext l
  rw [starts, record, List.filterMap_append]
  simp [starts, h.symm]

theorem starts_record_success (s : PsciSystem cpuNum) (t u : Fin cpuNum) (k : ℕ)
    (call : CpuOnCall) : (s.record (.success t k call)).starts u = s.starts u := by
  funext l
  rw [starts, record, List.filterMap_append]
  exact List.append_nil _

theorem sendOn_eq (vm : PsciVm cpuNum) (s : PsciSystem cpuNum) (t : Fin cpuNum)
    (call : CpuOnCall) (k : ℕ) :
    s.sendOn vm t call k =
      { s with
        msgs := Function.update s.msgs (vm.physId t) (s.msgs (vm.physId t) + 1)
        events := s.events ++ [.success t k call] } := by
  have hlt := (vm.hasCpu t).lt
  have hne : BitVec.ofNat 64 (vm.physId t) ≠ invalidCpuid := Vm.ofNat_ne_invalidCpuid hlt
  have hnat : (BitVec.ofNat 64 (vm.physId t)).toNat = vm.physId t := by
    rw [BitVec.toNat_ofNat]
    exact Nat.mod_eq_of_lt (by omega)
  rw [sendOn, vm.translateToPcpuid, if_neg hne, hnat]

/-- A CPU that has sent the message is back in its guest, and the vCPU has the message. -/
theorem Inv.sendOn (hs : Inv vm s) {call : CpuOnCall} {k : ℕ} (hpc : s.pc v = .onSend t call k) :
    Inv vm ((s.sendOn vm t call k).setPc v .guest) := by
  have ht : (s.pc v).target = some t := by
    rw [hpc]
    rfl
  have hrun : (s.pc v).running = true := by
    rw [hpc]
    rfl
  have hrest : (s.pc v).resting = false := by
    rw [hpc]
    rfl
  have hne := hs.target_ne ht hrun hrest
  have hon : (s.ctx v).state = .on := ((hs v).phase.on_of_running hrun hrest).1
  have haim : ∀ u, u ≠ t → PsciPc.guest.aimedAt u = (s.pc v).aimedAt u := by
    intro u hu
    rw [PsciPc.aimedAt_of_ne_target ht hu]
    rfl
  have hview : ∀ u, (s.sendOn vm t call k).view vm u =
      { s.view vm u with
        msgs := Function.update s.msgs (vm.physId t) (s.msgs (vm.physId t) + 1) (vm.physId u)
        successes := (s.record (.success t k call)).successes u
        starts := (s.record (.success t k call)).starts u } := by
    intro u
    rw [sendOn_eq]
    rfl
  have hviewu : ∀ u, u ≠ t → (s.sendOn vm t call k).view vm u = s.view vm u := by
    intro u hu
    have hphys : vm.physId u ≠ vm.physId t := fun h => hu (vm.physId_injective h)
    rw [hview, Function.update_of_ne hphys, successes_record_of_ne hu, starts_record_success]
    rfl
  have hpcs : (s.sendOn vm t call k).pc = s.pc := by rw [sendOn_eq]
  refine hs.of_views v t ?_ (fun _ => ?_) fun u huv hut => ?_
  · rw [view_setPc_self (by rw [hpcs]; exact haim v hne.symm), hviewu v hne.symm,
      view_eq_move hs v (by rw [hpc]; rfl)]
    exact (hs v).move (.inl hrun) (fun _ _ => rfl) fun h _ => absurd hon h
  · have hwriter : (s.view vm t).writers v = some (.onSend t call k) := by
      rw [← hpc]
      exact PsciPc.aimedAt_of_eq ht
    refine (hs t).send hwriter ?_
    rw [view_setPc_of_ne hne, hview, Function.update_self, successes_record_success,
      starts_record_success]
    rfl
  · rw [view_setPc_of_aimedAt huv (by rw [hpcs]; exact haim u hut), hviewu u hut]

/-- `psci_cpu_off_handler` marks its vCPU off. -/
theorem Inv.turnOff (hs : Inv vm s) (hpc : s.pc v = .offState) :
    Inv vm
      { (s.setCtx v { s.ctx v with state := .off }).setPc v .offUnlock with
        period := Function.update s.period v (s.period v + 1) } := by
  have hrun : (s.pc v).running = true := by
    rw [hpc]
    rfl
  have hrest : (s.pc v).resting = false := by
    rw [hpc]
    rfl
  have haim : ∀ u, PsciPc.offUnlock.aimedAt u = (s.pc v).aimedAt u := by
    intro u
    rw [hpc]
    rfl
  have hlock : (s.ctx v).lock = true := (hs v).lock.trans (congrArg PsciPc.holdsLock hpc)
  have hview : ∀ u,
      ({ (s.setCtx v { s.ctx v with state := .off }).setPc v .offUnlock with
        period := Function.update s.period v (s.period v + 1) } : PsciSystem cpuNum).view vm u =
      { ((s.setCtx v { s.ctx v with state := .off }).setPc v .offUnlock).view vm u with
        period := Function.update s.period v (s.period v + 1) u } := fun _ => rfl
  refine hs.of_own_view v ?_ fun u hu => ?_
  · rw [hview, view_setPc_self (s := s.setCtx v _) (haim v), view_setCtx_self,
      Function.update_self]
    exact (hs v).turnOff hrun hrest rfl hlock
  · rw [hview, view_setPc_of_aimedAt (s := s.setCtx v _) hu (haim u), view_setCtx_of_ne hu,
      Function.update_of_ne hu]
    rfl

/-- A CPU takes a message. -/
theorem Inv.take (hs : Inv vm s) {i : Bool} (hpc : s.pc v = .msgs i)
    (hmsgs : s.msgs (vm.physId v) ≠ 0) :
    Inv vm
      { s.setPc v (.wakeLock i) with
        msgs := Function.update s.msgs (vm.physId v) (s.msgs (vm.physId v) - 1) } := by
  have haim : ∀ u, (PsciPc.wakeLock i).aimedAt u = (s.pc v).aimedAt u := by
    intro u
    rw [hpc]
    rfl
  have hview : ∀ u,
      ({ s.setPc v (.wakeLock i) with
        msgs := Function.update s.msgs (vm.physId v) (s.msgs (vm.physId v) - 1) } :
        PsciSystem cpuNum).view vm u =
      { (s.setPc v (.wakeLock i)).view vm u with
        msgs := Function.update s.msgs (vm.physId v) (s.msgs (vm.physId v) - 1)
          (vm.physId u) } := fun _ => rfl
  refine hs.of_own_view v ?_ fun u hu => ?_
  · rw [hview, view_setPc_self (haim v), Function.update_self]
    exact (hs v).take hpc hmsgs
  · have hphys : vm.physId u ≠ vm.physId v := fun h => hu (vm.physId_injective h)
    rw [hview, view_setPc_of_aimedAt hu (haim u), Function.update_of_ne hphys]
    rfl

/-- A vCPU is reset to the entry point. -/
theorem Inv.reset (hs : Inv vm s) {i : Bool} (hpc : s.pc v = .wakeReset i) :
    Inv vm
      { s.setPc v (.wakeState i) with
        guestPc := Function.update s.guestPc v (s.ctx v).entrypoint
        guestX0 := Function.update s.guestX0 v 0#64 } := by
  have haim : ∀ u, (PsciPc.wakeState i).aimedAt u = (s.pc v).aimedAt u := by
    intro u
    rw [hpc]
    rfl
  have hview : ∀ u,
      ({ s.setPc v (.wakeState i) with
        guestPc := Function.update s.guestPc v (s.ctx v).entrypoint
        guestX0 := Function.update s.guestX0 v 0#64 } : PsciSystem cpuNum).view vm u =
      { (s.setPc v (.wakeState i)).view vm u with
        guestPc := Function.update s.guestPc v (s.ctx v).entrypoint u } := fun _ => rfl
  refine hs.of_own_view v ?_ fun u hu => ?_
  · rw [hview, view_setPc_self (haim v), Function.update_self]
    exact (hs v).reset hpc
  · rw [hview, view_setPc_of_aimedAt hu (haim u), Function.update_of_ne hu]
    rfl

theorem Inv.turnOn (hs : Inv vm s) {i : Bool} (hpc : s.pc v = .wakeState i) :
    Inv vm ((s.setCtx v { s.ctx v with state := .on }).setPc v (.wakeContext i)) := by
  have haim : ∀ u, (PsciPc.wakeContext i).aimedAt u = (s.pc v).aimedAt u := by
    intro u
    rw [hpc]
    rfl
  refine hs.of_own_view v ?_ fun u hu => ?_
  · rw [view_setPc_self (s := s.setCtx v _) (haim v), view_setCtx_self]
    exact (hs v).turnOn hpc
  · rw [view_setPc_of_aimedAt (s := s.setCtx v _) hu (haim u), view_setCtx_of_ne hu]

/-- A vCPU starts. -/
theorem Inv.start (hs : Inv vm s) {i : Bool} (hpc : s.pc v = .wakeContext i) :
    Inv vm
      { s.setPc v (.wakeUnlock i) with
        guestX0 := Function.update s.guestX0 v (s.ctx v).contextId
        events := s.events ++ [.start v (s.period v) (s.guestPc v) (s.ctx v).contextId] } := by
  have haim : ∀ u, (PsciPc.wakeUnlock i).aimedAt u = (s.pc v).aimedAt u := by
    intro u
    rw [hpc]
    rfl
  have hview : ∀ u,
      ({ s.setPc v (.wakeUnlock i) with
        guestX0 := Function.update s.guestX0 v (s.ctx v).contextId
        events := s.events ++ [.start v (s.period v) (s.guestPc v) (s.ctx v).contextId] } :
        PsciSystem cpuNum).view vm u =
      { (s.setPc v (.wakeUnlock i)).view vm u with
        successes := (s.record (.start v (s.period v) (s.guestPc v)
          (s.ctx v).contextId)).successes u
        starts := (s.record (.start v (s.period v) (s.guestPc v)
          (s.ctx v).contextId)).starts u } := fun _ => rfl
  refine hs.of_own_view v ?_ fun u hu => ?_
  · refine (hs v).start hpc ?_
    rw [hview, view_setPc_self (haim v), successes_record_start, starts_record_start]
    rfl
  · rw [hview, view_setPc_of_aimedAt hu (haim u), successes_record_start,
      starts_record_of_ne hu]
    rfl

theorem Inv.goOn {stage : PsciPc cpuNum} (hs : Inv vm s) (hpc : s.pc v = stage)
    (hawake : stage.running = true ∨ stage.resting = true)
    (hrun : (s.ctx v).state = .on → stage.running = true → pc.running = true)
    (hrest : (s.ctx v).state ≠ .on → stage.resting = true → pc.resting = true)
    (hlock : pc.holdsLock = stage.holdsLock) (htarget : pc.target = none)
    (htarget' : stage.target = none) : Inv vm (s.setPc v pc) := by
  subst hpc
  refine hs.setPc hawake hrun hrest hlock fun u => ?_
  rw [PsciPc.aimedAt, PsciPc.aimedAt, htarget, htarget', if_neg nofun, if_neg nofun]

/-- The next access of a CPU keeps the invariant. -/
theorem Inv.next (hs : Inv vm s) (hsole : s.SoleFinder (.next v)) : Inv vm (s.next vm v) := by
  have hmove : ∀ {stage pc : PsciPc cpuNum}, s.pc v = stage →
      stage.running = true ∨ stage.resting = true →
      (stage.running = true → pc.running = true) →
      (stage.resting = true → pc.resting = true) → ((s.view vm v).move pc).Inv := by
    rintro stage pc rfl hawake hrun hrest
    exact (hs v).move hawake (fun _ => hrun) fun _ => hrest
  have haim : ∀ {stage pc : PsciPc cpuNum}, s.pc v = stage → stage.target = none →
      pc.target = none → ∀ u, pc.aimedAt u = (s.pc v).aimedAt u := by
    rintro stage pc rfl h h' u
    rw [PsciPc.aimedAt, PsciPc.aimedAt, h, h', if_neg nofun, if_neg nofun]
  unfold PsciSystem.next nextFrom
  cases hpc : s.pc v with
  | guest => exact hs
  | idle => exact hs
  | run =>
      dsimp only
      by_cases hon : (s.ctx v).state = .on
      · rw [if_pos hon]
        exact hs.goOn hpc (.inl rfl) (fun _ _ => rfl) (fun h => absurd hon h) rfl rfl rfl
      · rw [if_neg hon]
        exact hs.goOn hpc (.inl rfl) (fun h => absurd h hon) (fun _ _ => rfl) rfl rfl rfl
  | onLock t call =>
      exact hs.spinLock (hmove hpc (.inl rfl) (fun _ => rfl) nofun) rfl (haim hpc rfl rfl)
  | onRead t call =>
      dsimp only
      by_cases hoff : (s.ctx t).state = .off
      · rw [if_pos hoff]
        exact hs.find hpc hoff (hsole t (congrArg PsciPc.reads hpc) hoff)
      · rw [if_neg hoff]
        exact hs.goOn hpc (.inl rfl) (fun _ _ => rfl) nofun rfl rfl rfl
  | onState t call k =>
      refine hs.write (hpc ▸ rfl) (hpc ▸ rfl) (hpc ▸ rfl) rfl rfl (hpc ▸ rfl) rfl ?_
      rw [hpc]
      exact fun h => ⟨rfl, h.2⟩
  | onEntry t call k =>
      refine hs.write (hpc ▸ rfl) (hpc ▸ rfl) (hpc ▸ rfl) rfl rfl (hpc ▸ rfl) rfl ?_
      rw [hpc]
      exact fun h => ⟨h.1, h.2, rfl⟩
  | onContext t call k =>
      refine hs.write (hpc ▸ rfl) (hpc ▸ rfl) (hpc ▸ rfl) rfl rfl (hpc ▸ rfl) rfl ?_
      rw [hpc]
      exact fun h => ⟨h.1, h.2.1, h.2.2, rfl⟩
  | onUnlock t call k =>
      cases k with
      | none =>
          exact hs.spinUnlock (hmove hpc (.inl rfl) (fun _ => rfl) nofun) rfl (haim hpc rfl rfl)
      | some k => exact hs.unlockToSend hpc
  | onSend t call k => exact hs.sendOn hpc
  | offLock =>
      exact hs.spinLock (hmove hpc (.inl rfl) (fun _ => rfl) nofun) rfl (haim hpc rfl rfl)
  | offState => exact hs.turnOff hpc
  | offUnlock =>
      exact hs.spinUnlock (hmove hpc (.inr rfl) nofun fun _ => rfl) rfl (haim hpc rfl rfl)
  | msgs interrupted =>
      dsimp only
      by_cases hmsgs : s.msgs (vm.physId v) = 0
      · rw [if_pos hmsgs]
        cases interrupted with
        | false =>
            exact hs.goOn hpc (.inl rfl) (fun _ _ => rfl) (fun _ _ => rfl) rfl rfl rfl
        | true => exact hs.goOn hpc (.inl rfl) (fun _ _ => rfl) nofun rfl rfl rfl
      · rw [if_neg hmsgs]
        exact hs.take hpc hmsgs
  | wakeLock interrupted =>
      exact hs.spinLock ((hs v).wake (.inl hpc) (.inl rfl)) rfl (haim hpc rfl rfl)
  | wakeRead interrupted =>
      obtain ⟨-, -, -, hstate, -⟩ := (hs v).phase.taken_of_pc (.inr (.inl hpc))
      have hpending : (s.ctx v).state = .onPending := hstate
      dsimp only
      rw [if_pos hpending]
      refine hs.of_own_view v ?_ fun u hu => view_setPc_of_aimedAt hu (haim hpc rfl rfl u)
      rw [view_setPc_self (haim hpc rfl rfl v), view_eq_move hs v (hpc ▸ rfl)]
      exact (hs v).wake (.inr hpc) (.inr rfl)
  | wakeReset interrupted => exact hs.reset hpc
  | wakeState interrupted => exact hs.turnOn hpc
  | wakeContext interrupted => exact hs.start hpc
  | wakeUnlock interrupted =>
      refine hs.spinUnlock (hmove hpc (.inl rfl) (fun _ => rfl) nofun) rfl (haim hpc rfl rfl)

/-- Every step of a sole finder keeps the invariant. -/
theorem Inv.step (hs : Inv vm s) {act : PsciAct cpuNum} (hsole : s.SoleFinder act) :
    Inv vm (s.step vm act) := by
  cases act with
  | cpuOn v call =>
      rw [PsciSystem.step]
      split
      · split
        · rename_i hpc
          exact hs.goOn hpc (.inl rfl) (fun _ _ => rfl) nofun rfl rfl rfl
        · exact hs
      · exact hs
  | cpuOff v =>
      rw [PsciSystem.step]
      split
      · rename_i hpc
        exact hs.goOn hpc (.inl rfl) (fun _ _ => rfl) nofun rfl rfl rfl
      · exact hs
  | interrupt v =>
      rw [PsciSystem.step]
      split
      · rename_i hpc
        exact hs.goOn hpc (.inl rfl) (fun _ _ => rfl) nofun rfl rfl rfl
      · exact hs
  | wakeup v =>
      rw [PsciSystem.step]
      split
      · rename_i hpc
        exact hs.goOn hpc (.inr rfl) nofun (fun _ _ => rfl) rfl rfl rfl
      · exact hs
  | next v => exact hs.next hsole

theorem inv_boot (vm : PsciVm cpuNum) (entry : Addr) : Inv vm (boot cpuNum entry) := by
  intro t
  refine ⟨rfl, ?_, fun _ hk => absurd hk (Nat.not_lt_zero _),
    fun _ hk => absurd hk (Nat.not_lt_zero _), fun _ _ => ⟨rfl, rfl⟩⟩
  by_cases ht : t.val = 0
  · exact .on (if_pos ht) rfl (fun _ => rfl) rfl (Nat.zero_le _) rfl
  · exact .off (if_neg ht) (fun _ => rfl) ⟨rfl, rfl, rfl, rfl⟩

/-- The CPU of a vCPU brings it by steps of its own to where it has started. -/
def Reaches (vm : PsciVm cpuNum) (s : PsciSystem cpuNum) (t : Fin cpuNum) : Prop :=
  ∃ acts, (∀ act ∈ acts, act = .wakeup t ∨ act = .next t) ∧
    (Run.exec (step vm) s acts).starts t (s.period t) =
      (s.successes t (s.period t)).map CpuOnCall.args

theorem Reaches.of_step {act : PsciAct cpuNum} (hact : act = .wakeup t ∨ act = .next t)
    (hperiod : (s.step vm act).period t = s.period t)
    (hsuccesses : (s.step vm act).successes t = s.successes t)
    (h : Reaches vm (s.step vm act) t) : Reaches vm s t := by
  obtain ⟨acts, hacts, hstarts⟩ := h
  rw [hperiod, hsuccesses] at hstarts
  exact ⟨act :: acts, List.forall_mem_cons.mpr ⟨hact, hacts⟩, hstarts⟩

theorem Inv.reaches_of_next {stage : PsciPc cpuNum} (hs : Inv vm s) (hpc : s.pc t = stage)
    (hstage : stage.reads = none)
    (hperiod : (s.nextFrom vm t stage).period t = s.period t)
    (hsuccesses : (s.nextFrom vm t stage).successes t = s.successes t)
    (h : Inv vm (s.nextFrom vm t stage) → Reaches vm (s.nextFrom vm t stage) t) :
    Reaches vm s t := by
  subst hpc
  exact .of_step (.inr rfl) hperiod hsuccesses
    (h (hs.next fun u hu => absurd (hstage.symm.trans hu) nofun))

theorem Inv.reaches_of_wakeUnlock (hs : Inv vm s) {i : Bool} (hpc : s.pc t = .wakeUnlock i) :
    Reaches vm s t := by
  have hphase := (hs t).phase.on_of_running (congrArg PsciPc.running hpc)
    (congrArg PsciPc.resting hpc)
  exact ⟨[], nofun, hphase.2.2.2.2⟩

theorem Inv.reaches_of_wakeContext (hs : Inv vm s) {i : Bool} (hpc : s.pc t = .wakeContext i) :
    Reaches vm s t :=
  hs.reaches_of_next hpc rfl rfl (successes_record_start s t t _ _ _) fun hs' =>
    hs'.reaches_of_wakeUnlock (Function.update_self t _ _)

theorem Inv.reaches_of_wakeState (hs : Inv vm s) {i : Bool} (hpc : s.pc t = .wakeState i) :
    Reaches vm s t :=
  hs.reaches_of_next hpc rfl rfl rfl fun hs' =>
    hs'.reaches_of_wakeContext (Function.update_self t _ _)

theorem Inv.reaches_of_wakeReset (hs : Inv vm s) {i : Bool} (hpc : s.pc t = .wakeReset i) :
    Reaches vm s t :=
  hs.reaches_of_next hpc rfl rfl rfl fun hs' =>
    hs'.reaches_of_wakeState (Function.update_self t _ _)

theorem Inv.reaches_of_wakeRead (hs : Inv vm s) {i : Bool} (hpc : s.pc t = .wakeRead i) :
    Reaches vm s t := by
  obtain ⟨-, -, -, hstate, -⟩ := (hs t).phase.taken_of_pc (.inr (.inl hpc))
  have hpending : (s.ctx t).state = .onPending := hstate
  refine hs.reaches_of_next hpc rfl rfl rfl fun hs' => ?_
  refine hs'.reaches_of_wakeReset (i := i) ((Function.update_self t _ _).trans ?_)
  rw [if_pos hpending]

theorem Inv.reaches_of_wakeLock (hs : Inv vm s) {i : Bool} (hpc : s.pc t = .wakeLock i) :
    Reaches vm s t := by
  have hfree : (s.ctx t).lock = false := (hs t).lock.trans (congrArg PsciPc.holdsLock hpc)
  have hnext : s.nextFrom vm t (.wakeLock i) =
      (s.setCtx t { s.ctx t with lock := true }).setPc t (.wakeRead i) :=
    if_neg (by simp [hfree])
  refine hs.reaches_of_next hpc rfl (by rw [hnext]; rfl) (by rw [hnext]; rfl) fun hs' => ?_
  rw [hnext] at hs' ⊢
  exact hs'.reaches_of_wakeRead (Function.update_self t _ _)

theorem Inv.reaches_of_msgs (hs : Inv vm s) {i : Bool} (hpc : s.pc t = .msgs i)
    (hmsgs : s.msgs (vm.physId t) = 1) : Reaches vm s t := by
  have hnext : s.nextFrom vm t (.msgs i) =
      { s.setPc t (.wakeLock i) with
        msgs := Function.update s.msgs (vm.physId t) (s.msgs (vm.physId t) - 1) } :=
    if_neg (by simp [hmsgs])
  refine hs.reaches_of_next hpc rfl (by rw [hnext]; rfl) (by rw [hnext]; rfl) fun hs' => ?_
  rw [hnext] at hs' ⊢
  exact hs'.reaches_of_wakeLock (Function.update_self t _ _)

theorem Inv.reaches_of_idle (hs : Inv vm s) (hpc : s.pc t = .idle)
    (hmsgs : s.msgs (vm.physId t) = 1) : Reaches vm s t := by
  have hstep : s.step vm (.wakeup t) = s.setPc t (.msgs false) := if_pos hpc
  have hs' : Inv vm (s.step vm (.wakeup t)) := hs.step trivial
  rw [hstep] at hs'
  refine .of_step (.inl rfl) (by rw [hstep]; rfl) (by rw [hstep]; rfl) ?_
  rw [hstep]
  exact hs'.reaches_of_msgs (Function.update_self t _ _) hmsgs

/-- From every state the CPU of a vCPU starts it as its calls have promised. -/
theorem Inv.reaches (hs : Inv vm s) (t : Fin cpuNum) : Reaches vm s t := by
  cases (hs t).phase with
  | on _ _ _ _ _ hstarts => exact ⟨[], nofun, hstarts⟩
  | off _ _ hfresh =>
      exact ⟨[], nofun, hfresh.starts.trans (congrArg (List.map _) hfresh.successes).symm⟩
  | writing _ _ _ _ _ hfresh =>
      exact ⟨[], nofun, hfresh.starts.trans (congrArg (List.map _) hfresh.successes).symm⟩
  | sent _ _ hstate _ hresting hmsgs =>
      have hresting : (s.pc t).resting = true := hresting
      have hpending : (s.ctx t).state = .onPending := hstate
      cases hpc : s.pc t with
      | idle => exact hs.reaches_of_idle hpc hmsgs
      | run =>
          refine hs.reaches_of_next hpc rfl rfl rfl fun hs' => ?_
          refine hs'.reaches_of_idle ((Function.update_self t _ _).trans ?_) hmsgs
          rw [if_neg (by simp [hpending])]
      | offUnlock =>
          exact hs.reaches_of_next hpc rfl rfl rfl fun hs' =>
            hs'.reaches_of_idle (Function.update_self t _ _) hmsgs
      | msgs i => exact hs.reaches_of_msgs hpc hmsgs
      | _ => simp [hpc, PsciPc.resting] at hresting
  | taken _ _ _ _ hpc =>
      rcases hpc with hpc | hpc | hpc
      · exact hs.reaches_of_wakeLock hpc
      · exact hs.reaches_of_wakeRead hpc
      · exact hs.reaches_of_wakeReset hpc
  | reset _ _ _ hpc => exact hs.reaches_of_wakeState hpc
  | starting _ _ _ hpc => exact hs.reaches_of_wakeContext hpc

/-- A state with the invariant keeps to the protocol. -/
theorem Inv.cpuOnProtocol (hs : Inv vm s) : s.CpuOnProtocol vm := by
  have hpast : ∀ t k, k ≠ s.period t → (s.successes t k).length ≤ 1 ∧
      s.starts t k = (s.successes t k).map CpuOnCall.args := by
    intro t k hk
    rcases Nat.lt_or_gt_of_ne hk with hk | hk
    · exact ⟨(hs t).one k hk, (hs t).starts k hk⟩
    · have hsuccesses : s.successes t k = [] := ((hs t).later k hk).1
      have hstarts : s.starts t k = [] := ((hs t).later k hk).2
      rw [hsuccesses, hstarts]
      exact ⟨Nat.zero_le 1, rfl⟩
  refine ⟨fun t k => ?_, fun t k => ?_, fun hquiet t k => ?_, fun t k => ?_⟩
  all_goals by_cases hk : k = s.period t
  · rcases (hs t).phase.settled_or_called with ⟨hone, -⟩ | ⟨call, hsuccesses, -⟩
    · exact hk ▸ hone
    · rw [hk, show s.successes t (s.period t) = [call] from hsuccesses]
      exact le_rfl
  · exact (hpast t k hk).1
  · rcases (hs t).phase.settled_or_called with ⟨-, hstarts⟩ | ⟨call, -, hstarts, -⟩
    · rw [hk, show s.starts t (s.period t) = _ from hstarts]
      exact List.prefix_rfl
    · rw [hk, show s.starts t (s.period t) = [] from hstarts]
      exact List.nil_prefix
  · exact (hpast t k hk).2 ▸ List.prefix_rfl
  · rcases (hs t).phase.settled_or_called with ⟨-, hstarts⟩ | ⟨call, -, -, hbusy⟩
    · exact hk ▸ hstarts
    · exact absurd (hquiet t) hbusy
  · exact (hpast t k hk).2
  · exact hk ▸ hs.reaches t
  · exact ⟨[], nofun, (hpast t k hk).2⟩

/-- In a run in which every caller is the sole finder, every state keeps to the protocol. -/
theorem cpuOnProtocol_of_soleFinder (vm : PsciVm cpuNum) (entry : Addr)
    (acts : List (PsciAct cpuNum))
    (hsole : Run.Along (step vm) SoleFinder (boot cpuNum entry) acts) :
    (Run.exec (step vm) (boot cpuNum entry) acts).CpuOnProtocol vm :=
  (hsole.exec_invariant (inv_boot vm entry) fun _ _ hs => hs.step).cpuOnProtocol

/-- A VM with three vCPUs, which go by their ids. -/
def threeVcpus : PsciVm 3 where
  vm := Vm.threeCpus
  physId := ![1, 3, 4]
  vmpidr v := BitVec.ofNat 64 v
  hasCpu := by decide
  calcVcpuId := by decide

def bringUp : List (PsciAct 3) :=
  [.next 0, .next 1, .next 2, .cpuOn 0 ⟨1#64, 0x80000000#64, 0#64⟩] ++
    List.replicate 7 (.next 0) ++ .wakeup 1 :: List.replicate 9 (.next 1)

/-- The first vCPU turns on the second one and then the third one. -/
theorem cpuOnProtocol_bringUp :
    (Run.exec (step threeVcpus) (boot 3 0x80000000#64)
      (bringUp ++ .cpuOn 0 ⟨2#64, 0x80001000#64, 7#64⟩ :: List.replicate 7 (.next 0) ++
        .wakeup 2 :: List.replicate 9 (.next 2))).CpuOnProtocol threeVcpus :=
  cpuOnProtocol_of_soleFinder threeVcpus _ _ (by decide +kernel)

/-- Two vCPUs turn on the third one, both with success, and it starts at the entry point of
one with the context of the other. -/
theorem cpuOn_mixes_calls :
    let s := Run.exec (step threeVcpus) (boot 3 0x80000000#64)
      (bringUp ++
        [.cpuOn 0 ⟨2#64, 0x80001000#64, 7#64⟩, .cpuOn 1 ⟨2#64, 0x80002000#64, 9#64⟩,
          .next 0, .next 1, .next 0, .next 1, .next 0, .next 0, .next 1, .next 1, .next 1,
          .next 0, .next 0, .next 0, .next 1, .next 1] ++
        .wakeup 2 :: List.replicate 9 (.next 2))
    s.successes 2 0 =
        [⟨2#64, 0x80001000#64, 7#64⟩, ⟨2#64, 0x80002000#64, 9#64⟩] ∧
      s.starts 2 0 = [(0x80002000#64, 7#64)] ∧ ¬ s.CpuOnProtocol threeVcpus := by
  intro s
  have hsuccesses : s.successes 2 0 =
      [⟨2#64, 0x80001000#64, 7#64⟩, ⟨2#64, 0x80002000#64, 9#64⟩] := by decide +kernel
  refine ⟨hsuccesses, by decide +kernel, fun h => ?_⟩
  have hone := h.one 2 0
  rw [hsuccesses] at hone
  exact absurd hone (by decide)

end PsciSystem

end BaoHypervisor
