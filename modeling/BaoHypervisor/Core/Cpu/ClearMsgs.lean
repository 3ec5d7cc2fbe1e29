import BaoHypervisor.Core.Cpu
import BaoHypervisor.Core.Cpu.Barrier

/-!
# The barrier that clears messages

`cpu_sync_and_clear_msgs` passes the token's barrier twice. While a CPU waits in the
first round it handles its messages, and once more before it enters the second one. By
then all CPUs have entered their calls, so the messages they sent before are in the
queue, and a CPU that leaves the second round knows that all others have emptied theirs.

A message is one element of the queue of its target here, which the sender pushes and the
target pops in one step each.
-/

namespace BaoHypervisor

/-- A message, and the calls of `cpu_sync_and_clear_msgs` that its sender had returned
from when it sent it. -/
structure SentMsg where
  msg : CpuMsg
  call : ℕ
deriving DecidableEq, Repr, Inhabited

/-- Where a CPU is in `cpu_sync_and_clear_msgs`: in its loop, behind it, in the last
`cpu_msg_handler`, behind that, or in the loop of `cpu_sync_barrier`. -/
inductive ClearStage
  | outside
  | first
  | passed
  | clearing
  | cleared
  | second
deriving DecidableEq, Repr

/-- How many rounds of the barrier a CPU has entered in its call. -/
def ClearStage.rounds : ClearStage → ℕ
  | .outside => 0
  | .second => 2
  | _ => 1

def ClearStage.waits : ClearStage → Bool
  | .first | .second => true
  | _ => false

/-- The CPU has emptied its queue in its call. -/
def ClearStage.clears : ClearStage → ℕ
  | .cleared | .second => 1
  | _ => 0

/-- The CPUs that share a token, and their messages. `handling` is `none` outside of
`cpu_msg_handler`, and holds the message that was popped inside of it. The last two
fields record the messages pushed to each CPU and those whose handler it has called. -/
structure ClearState (ι : Type*) where
  barrier : BarrierState ι
  stage : ι → ClearStage
  calls : ι → ℕ
  handling : ι → Option (Option SentMsg)
  eventList : ι → List SentMsg
  pushed : ι → List SentMsg
  called : ι → List SentMsg

/-- A CPU sends a message, takes the interrupt of one, or takes its next turn. -/
inductive ClearAct (ι : Type*)
  | send (cpu trgtcpu : ι) (msg : CpuMsg)
  | interrupt (cpu : ι)
  | turn (cpu : ι)
deriving DecidableEq, Repr

/-- The test of `cpu_msg_handler`, where `handlers` tells which entries of the table
are set. -/
def SentMsg.hasHandler (handlers : List Bool) (m : SentMsg) : Bool :=
  handlers.getD m.msg.handler.toNat false

namespace ClearState

variable {ι : Type*}

/-- The CPUs before their calls, with a token that they have shared for `before`
rounds. -/
def start (n : SizeT) (before : ℕ) : ClearState ι where
  barrier := BarrierState.start n before
  stage := fun _ => .outside
  calls := fun _ => 0
  handling := fun _ => none
  eventList := fun _ => []
  pushed := fun _ => []
  called := fun _ => []

variable [DecidableEq ι]

section Step

variable (handlers : List Bool) (s : ClearState ι) (cpu : ι)

def setStage (stage : ClearStage) : ClearState ι :=
  { s with stage := Function.update s.stage cpu stage }

def setHandling (handling : Option (Option SentMsg)) : ClearState ι :=
  { s with handling := Function.update s.handling cpu handling }

def cpuSendMsg (trgtcpu : ι) (msg : CpuMsg) : ClearState ι :=
  let m : SentMsg := { msg := msg, call := s.calls cpu }
  { s with
    eventList := Function.update s.eventList trgtcpu (s.eventList trgtcpu ++ [m])
    pushed := Function.update s.pushed trgtcpu (s.pushed trgtcpu ++ [m]) }

def handle (m : SentMsg) : ClearState ι :=
  { s.setHandling cpu (some none) with
    called := Function.update s.called cpu
      (if m.hasHandler handlers then s.called cpu ++ [m] else s.called cpu) }

/-- The condition of the loop of `cpu_msg_handler`. -/
def getMsg : ClearState ι :=
  match s.eventList cpu with
  | m :: rest =>
      { s.setHandling cpu (some (some m)) with
        eventList := Function.update s.eventList cpu rest }
  | [] =>
      if s.stage cpu = .clearing then (s.setHandling cpu none).setStage cpu .cleared
      else s.setHandling cpu none

def syncAndClearMsgs : ClearState ι :=
  match s.stage cpu with
  | .outside =>
      if s.barrier.token.ready then
        { s.setStage cpu .first with barrier := s.barrier.enter cpu }
      else s
  | .first =>
      match s.barrier.nextCount cpu with
      | some nextCount =>
          if s.barrier.token.Passes nextCount then
            { s.setStage cpu .passed with barrier := s.barrier.leave cpu }
          else s.setHandling cpu (some none)
      | none => s
  | .passed => (s.setHandling cpu (some none)).setStage cpu .clearing
  | .clearing => s
  | .cleared =>
      if s.barrier.token.ready then
        { s.setStage cpu .second with barrier := s.barrier.enter cpu }
      else s
  | .second =>
      match s.barrier.nextCount cpu with
      | some nextCount =>
          if s.barrier.token.Passes nextCount then
            { s.setStage cpu .outside with
              barrier := s.barrier.leave cpu
              calls := Function.update s.calls cpu (s.calls cpu + 1) }
          else s
      | none => s

/-- Only a CPU outside of its calls and of the handlers sends messages. -/
def step : ClearAct ι → ClearState ι
  | .send cpu trgtcpu msg =>
      if s.stage cpu = .outside ∧ s.handling cpu = none then s.cpuSendMsg cpu trgtcpu msg
      else s
  | .interrupt cpu =>
      if s.handling cpu = none then s.setHandling cpu (some none) else s
  | .turn cpu =>
      match s.handling cpu with
      | some (some m) => s.handle handlers cpu m
      | some none => s.getMsg cpu
      | none => s.syncAndClearMsgs cpu

end Step

/-- The state after a run of CPUs that have shared the token for `before` rounds. -/
abbrev after (handlers : List Bool) (n : SizeT) (before : ℕ) (as : List (ClearAct ι)) :
    ClearState ι :=
  Run.exec (step handlers) (start n before) as

/-! ## What a CPU has done -/

/-- What the state holds of one CPU. -/
structure View where
  entered : ℕ
  nextCount : Option SizeT
  stage : ClearStage
  calls : ℕ
  handling : Option (Option SentMsg)
  eventList : List SentMsg
  pushed : List SentMsg
  called : List SentMsg

omit [DecidableEq ι] in
def view (s : ClearState ι) (cpu : ι) : View where
  entered := s.barrier.entered cpu
  nextCount := s.barrier.nextCount cpu
  stage := s.stage cpu
  calls := s.calls cpu
  handling := s.handling cpu
  eventList := s.eventList cpu
  pushed := s.pushed cpu
  called := s.called cpu

/-- The messages that were pushed to the CPU and not handled yet. -/
def View.unhandled (v : View) : List SentMsg :=
  match v.handling with
  | some (some m) => m :: v.eventList
  | _ => v.eventList

/-- The rounds of a CPU tell where it is. A message that it has not handled was sent
by a CPU that had returned from as many calls as this one has emptied its queue in. -/
structure View.Inv (handlers : List Bool) (before : ℕ) (v : View) : Prop where
  entered_eq : v.entered = before + 2 * v.calls + v.stage.rounds
  waits : v.nextCount.isSome = v.stage.waits
  clearing : v.stage = .clearing → v.handling ≠ none
  called_eq : v.pushed.filter (SentMsg.hasHandler handlers) =
    v.called ++ v.unhandled.filter (SentMsg.hasHandler handlers)
  late : ∀ m ∈ v.unhandled, v.calls + v.stage.clears ≤ m.call

namespace View

variable {handlers : List Bool} {before : ℕ} {v : View}

theorem Inv.handle (h : v.Inv handlers before) {m : SentMsg}
    (hm : v.handling = some (some m)) :
    View.Inv handlers before
      { v with
        handling := some none
        called := if m.hasHandler handlers then v.called ++ [m] else v.called } := by
  have hunhandled : v.unhandled = m :: v.eventList := by rw [unhandled, hm]
  refine ⟨h.entered_eq, h.waits, fun _ => Option.some_ne_none _, ?_, fun e he => ?_⟩
  · have hcalled := h.called_eq
    rw [hunhandled, List.filter_cons] at hcalled
    refine hcalled.trans ?_
    rw [unhandled]
    dsimp only
    split_ifs
    · rw [List.append_assoc]
      rfl
    · rfl
  · exact h.late e (hunhandled ▸ List.mem_cons_of_mem m he)

theorem Inv.pop (h : v.Inv handlers before) (hnone : v.handling = some none) {m : SentMsg}
    {rest : List SentMsg} (hlist : v.eventList = m :: rest) :
    View.Inv handlers before { v with handling := some (some m), eventList := rest } := by
  have hunhandled : v.unhandled = m :: rest := by rw [unhandled, hnone, hlist]
  refine ⟨h.entered_eq, h.waits, fun _ => Option.some_ne_none _, ?_, fun e he => ?_⟩
  · exact h.called_eq.trans (by rw [hunhandled]; rfl)
  · exact h.late e (hunhandled ▸ he)

/-- The queue is empty when `cpu_msg_handler` returns. -/
theorem Inv.empty (h : v.Inv handlers before) (hnone : v.handling = some none)
    (hlist : v.eventList = []) (stage : ClearStage)
    (hstage : stage = v.stage ∧ stage ≠ .clearing ∨ v.stage = .clearing ∧ stage = .cleared) :
    View.Inv handlers before { v with handling := none, stage := stage } := by
  have hunhandled : v.unhandled = [] := by rw [unhandled, hnone, hlist]
  have hsame : stage.rounds = v.stage.rounds ∧ stage.waits = v.stage.waits := by
    rcases hstage with ⟨rfl, -⟩ | ⟨hclearing, rfl⟩
    · exact ⟨rfl, rfl⟩
    · rw [hclearing]
      exact ⟨rfl, rfl⟩
  refine ⟨?_, ?_, fun hclearing => ?_, ?_, fun e he => ?_⟩
  · exact h.entered_eq.trans (by rw [hsame.1])
  · exact h.waits.trans hsame.2.symm
  · dsimp only at hclearing
    rcases hstage with ⟨-, hne⟩ | ⟨-, heq⟩
    · exact absurd hclearing hne
    · rw [heq] at hclearing
      cases hclearing
  · exact h.called_eq.trans (by rw [hunhandled, unhandled, hlist])
  · rw [unhandled, hlist] at he
    cases he

/-- A CPU starts to handle its messages. -/
theorem Inv.startHandling (h : v.Inv handlers before) (hnone : v.handling = none)
    (stage : ClearStage)
    (hstage : stage = v.stage ∨ v.stage = .passed ∧ stage = .clearing) :
    View.Inv handlers before { v with handling := some none, stage := stage } := by
  have hunhandled : v.unhandled = v.eventList := by rw [unhandled, hnone]
  have hsame : stage.rounds = v.stage.rounds ∧ stage.waits = v.stage.waits ∧
      stage.clears = v.stage.clears := by
    rcases hstage with rfl | ⟨hpassed, rfl⟩
    · exact ⟨rfl, rfl, rfl⟩
    · rw [hpassed]
      exact ⟨rfl, rfl, rfl⟩
  refine ⟨?_, ?_, fun _ => Option.some_ne_none _, ?_, fun e he => ?_⟩
  · exact h.entered_eq.trans (by rw [hsame.1])
  · exact h.waits.trans hsame.2.1.symm
  · exact h.called_eq.trans (by rw [hunhandled]; rfl)
  · have hlate := h.late e (hunhandled ▸ he)
    rwa [← hsame.2.2] at hlate

/-- A CPU enters a round of the barrier. -/
theorem Inv.enter (h : v.Inv handlers before) (stage : ClearStage) (nextCount : SizeT)
    (hstage : v.stage = .outside ∧ stage = .first ∨ v.stage = .cleared ∧ stage = .second) :
    View.Inv handlers before
      { v with entered := v.entered + 1, nextCount := some nextCount, stage := stage } := by
  have hsame : stage.rounds = v.stage.rounds + 1 ∧ stage.waits = true ∧
      stage.clears = v.stage.clears ∧ stage ≠ .clearing := by
    rcases hstage with ⟨hold, rfl⟩ | ⟨hold, rfl⟩
    · rw [hold]
      exact ⟨rfl, rfl, rfl, by decide⟩
    · rw [hold]
      exact ⟨rfl, rfl, rfl, by decide⟩
  refine ⟨?_, hsame.2.1.symm, fun hclearing => absurd hclearing hsame.2.2.2, h.called_eq,
    fun e he => ?_⟩
  · have hentered := h.entered_eq
    dsimp only
    omega
  · have hlate := h.late e he
    rwa [← hsame.2.2.1] at hlate

/-- A CPU leaves a round of the barrier, the second one also being the end of its call. -/
theorem Inv.leave (h : v.Inv handlers before) (stage : ClearStage) (calls : ℕ)
    (hstage : v.stage = .first ∧ stage = .passed ∧ calls = v.calls ∨
      v.stage = .second ∧ stage = .outside ∧ calls = v.calls + 1) :
    View.Inv handlers before { v with nextCount := none, stage := stage, calls := calls } := by
  have hsame : 2 * calls + stage.rounds = 2 * v.calls + v.stage.rounds ∧
      stage.waits = false ∧ calls + stage.clears = v.calls + v.stage.clears ∧
      stage ≠ .clearing := by
    rcases hstage with ⟨hold, rfl, rfl⟩ | ⟨hold, rfl, rfl⟩
    · rw [hold]
      exact ⟨rfl, rfl, rfl, by decide⟩
    · rw [hold]
      exact ⟨rfl, rfl, rfl, by decide⟩
  refine ⟨?_, hsame.2.1.symm, fun hclearing => absurd hclearing hsame.2.2.2, h.called_eq,
    fun e he => ?_⟩
  · have hentered := h.entered_eq
    dsimp only
    omega
  · have hlate := h.late e he
    rwa [← hsame.2.2.1] at hlate

theorem Inv.push (h : v.Inv handlers before) {m : SentMsg}
    (hm : v.calls + v.stage.clears ≤ m.call) :
    View.Inv handlers before
      { v with eventList := v.eventList ++ [m], pushed := v.pushed ++ [m] } := by
  have hunhandled : View.unhandled { v with
      eventList := v.eventList ++ [m], pushed := v.pushed ++ [m] } = v.unhandled ++ [m] := by
    rw [unhandled, unhandled]
    dsimp only
    split <;> rfl
  refine ⟨h.entered_eq, h.waits, h.clearing, ?_, fun e he => ?_⟩
  · rw [hunhandled, List.filter_append, h.called_eq, List.filter_append, List.append_assoc]
  · rw [hunhandled, List.mem_append, List.mem_singleton] at he
    rcases he with he | rfl
    · exact h.late e he
    · exact hm

end View

/-! ## Steps -/

section Steps

variable {handlers : List Bool} {before : ℕ} {s : ClearState ι} {cpu c : ι}

theorem view_turn_of_ne (hc : c ≠ cpu) : (s.step handlers (.turn cpu)).view c = s.view c := by
  rw [step]
  split
  · simp [view, handle, setHandling, Function.update_of_ne hc]
  · rw [getMsg]
    split
    · simp [view, setHandling, Function.update_of_ne hc]
    · split_ifs <;> simp [view, setHandling, setStage, Function.update_of_ne hc]
  · rw [syncAndClearMsgs]
    split <;> (try split) <;> (try split_ifs) <;>
      simp [view, setHandling, setStage, BarrierState.enter, BarrierState.leave,
        Function.update_of_ne hc]

/-- The next step in its call takes a CPU through a round, or to its messages. -/
theorem inv_syncAndClearMsgs (h : (s.view cpu).Inv handlers before)
    (hnone : s.handling cpu = none) :
    ((s.syncAndClearMsgs cpu).view cpu).Inv handlers before := by
  rw [syncAndClearMsgs]
  cases hstage : s.stage cpu with
  | outside =>
      dsimp only
      split_ifs
      · have henter := h.enter .first s.barrier.token.arrive.2 (.inl ⟨hstage, rfl⟩)
        simpa [view, setStage, BarrierState.enter] using henter
      · exact h
  | first =>
      dsimp only
      split
      · split_ifs
        · have hleave := h.leave .passed (s.calls cpu) (.inl ⟨hstage, rfl, rfl⟩)
          simpa [view, setStage, BarrierState.leave] using hleave
        · have hstart := h.startHandling hnone (s.stage cpu) (.inl rfl)
          simpa [view, setHandling] using hstart
      · exact h
  | passed =>
      have hstart := h.startHandling hnone .clearing (.inr ⟨hstage, rfl⟩)
      simpa [view, setHandling, setStage] using hstart
  | clearing => exact h
  | cleared =>
      dsimp only
      split_ifs
      · have henter := h.enter .second s.barrier.token.arrive.2 (.inr ⟨hstage, rfl⟩)
        simpa [view, setStage, BarrierState.enter] using henter
      · exact h
  | second =>
      dsimp only
      split
      · split_ifs
        · have hleave := h.leave .outside (s.calls cpu + 1) (.inr ⟨hstage, rfl, rfl⟩)
          simpa [view, setStage, BarrierState.leave] using hleave
        · exact h
      · exact h

theorem inv_getMsg (h : (s.view cpu).Inv handlers before)
    (hnone : s.handling cpu = some none) :
    ((s.getMsg cpu).view cpu).Inv handlers before := by
  rw [getMsg]
  cases hlist : s.eventList cpu with
  | nil =>
      dsimp only
      split_ifs with hstage
      · have hempty := h.empty hnone hlist .cleared (.inr ⟨hstage, rfl⟩)
        simpa [view, setHandling, setStage] using hempty
      · have hempty := h.empty hnone hlist (s.stage cpu) (.inl ⟨rfl, hstage⟩)
        simpa [view, setHandling] using hempty
  | cons m rest =>
      have hpop := h.pop hnone hlist
      simpa [view, setHandling] using hpop

theorem inv_turn (h : ∀ c, (s.view c).Inv handlers before) (cpu c : ι) :
    ((s.step handlers (.turn cpu)).view c).Inv handlers before := by
  by_cases hc : c = cpu
  · subst hc
    rw [step]
    cases hhandling : s.handling c with
    | none => exact inv_syncAndClearMsgs (h c) hhandling
    | some hand =>
        cases hand with
        | none => exact inv_getMsg (h c) hhandling
        | some m =>
            have hhandle := (h c).handle hhandling
            simpa [view, handle, setHandling] using hhandle
  · rw [view_turn_of_ne hc]
    exact h c

theorem inv_interrupt (h : ∀ c, (s.view c).Inv handlers before) (cpu c : ι) :
    ((s.step handlers (.interrupt cpu)).view c).Inv handlers before := by
  rw [step]
  split_ifs with hnone
  · by_cases hc : c = cpu
    · subst hc
      have hstart := (h c).startHandling hnone (s.stage c) (.inl rfl)
      simpa [view, setHandling] using hstart
    · have hview : (s.setHandling cpu (some none)).view c = s.view c := by
        simp [view, setHandling, Function.update_of_ne hc]
      rw [hview]
      exact h c
  · exact h c

/-- A turn is one of the barrier or leaves the barrier alone. -/
theorem barrier_turn (h : (s.view cpu).Inv handlers before) :
    (s.step handlers (.turn cpu)).barrier = s.barrier ∨
      (s.step handlers (.turn cpu)).barrier = s.barrier.step cpu := by
  have henter : (s.stage cpu).waits = false → s.barrier.token.ready = true →
      s.barrier.step cpu = s.barrier.enter cpu := by
    intro hwaits hready
    have hnext : s.barrier.nextCount cpu = none := by
      have hisSome := h.waits
      rw [view] at hisSome
      dsimp only at hisSome
      rw [hwaits] at hisSome
      exact Option.isSome_eq_false_iff.mp hisSome |> Option.isNone_iff_eq_none.mp
    exact BarrierState.step_of_ready hnext hready
  rw [step]
  split
  · exact .inl rfl
  · rw [getMsg]
    split
    · exact .inl rfl
    · split_ifs <;> exact .inl rfl
  · rw [syncAndClearMsgs]
    split
    · rename_i hstage
      split_ifs with hready
      · exact .inr (henter (by rw [hstage]; rfl) hready).symm
      · exact .inl rfl
    · split
      · rename_i nextCount hnext
        split_ifs with hpass
        · exact .inr (BarrierState.step_of_passes hnext hpass).symm
        · exact .inl rfl
      · exact .inl rfl
    · exact .inl rfl
    · exact .inl rfl
    · rename_i hstage
      split_ifs with hready
      · exact .inr (henter (by rw [hstage]; rfl) hready).symm
      · exact .inl rfl
    · split
      · rename_i nextCount hnext
        split_ifs with hpass
        · exact .inr (BarrierState.step_of_passes hnext hpass).symm
        · exact .inl rfl
      · exact .inl rfl

theorem entered_le_step (s : ClearState ι) (a : ClearAct ι) (c : ι) :
    s.barrier.entered c ≤ (s.step handlers a).barrier.entered c := by
  cases a with
  | send cpu trgtcpu msg =>
      rw [step]
      split_ifs <;> exact le_rfl
  | interrupt cpu =>
      rw [step]
      split_ifs <;> exact le_rfl
  | turn cpu =>
      have henter := s.barrier.entered_le_enter cpu c
      rw [step]
      split
      · exact le_rfl
      · rw [getMsg]
        split
        · exact le_rfl
        · split_ifs <;> exact le_rfl
      · rw [syncAndClearMsgs]
        split <;> (try split) <;> (try split_ifs) <;> first | exact le_rfl | exact henter

theorem barrier_step (h : ∀ c, (s.view c).Inv handlers before) (a : ClearAct ι) :
    ∃ schedule, (s.step handlers a).barrier =
      Run.exec BarrierState.step s.barrier schedule := by
  cases a with
  | send cpu trgtcpu msg =>
      refine ⟨[], ?_⟩
      rw [step]
      split_ifs <;> rfl
  | interrupt cpu =>
      refine ⟨[], ?_⟩
      rw [step]
      split_ifs <;> rfl
  | turn cpu =>
      rcases barrier_turn (h cpu) with heq | heq
      · exact ⟨[], heq⟩
      · exact ⟨[cpu], heq⟩

omit [DecidableEq ι] in
/-- In the first round of its call a CPU is as many rounds on as the calls in which it
has emptied its queue say. -/
theorem le_left (h : (s.view c).Inv handlers before) :
    before + 2 * (s.calls c + (s.stage c).clears) ≤ s.barrier.left c + 1 ∧
      before + 2 * s.calls c ≤ s.barrier.left c := by
  have hentered := h.entered_eq
  have hwaits := h.waits
  rw [view] at hentered hwaits
  dsimp only at hentered hwaits
  cases hnext : s.barrier.nextCount c with
  | none =>
      rw [BarrierState.left_of_none hnext]
      cases hstage : s.stage c <;> rw [hstage] at hentered <;>
        simp only [ClearStage.rounds, ClearStage.clears] at hentered ⊢ <;> omega
  | some nextCount =>
      rw [hnext, Option.isSome_some] at hwaits
      rw [BarrierState.left_of_some hnext]
      cases hstage : s.stage c <;> rw [hstage] at hentered hwaits <;>
        simp only [ClearStage.rounds, ClearStage.clears] at hentered ⊢ <;>
        first | omega | cases hwaits

omit [DecidableEq ι] in
theorem le_clears (h : (s.view c).Inv handlers before) {k : ℕ}
    (hk : before + 2 * k ≤ s.barrier.entered c) :
    k ≤ s.calls c + (s.stage c).clears := by
  have hentered := h.entered_eq
  rw [view] at hentered
  dsimp only at hentered
  cases hstage : s.stage c <;> rw [hstage] at hentered <;>
    simp only [ClearStage.rounds, ClearStage.clears] at hentered ⊢ <;> omega

/-- When the barrier is safe, a CPU that sends a message before its call sends it before
the target empties its queue in that call. -/
theorem inv_send (h : ∀ c, (s.view c).Inv handlers before)
    (hsafe : ∀ c d, s.barrier.left c ≤ s.barrier.entered d) (cpu trgtcpu : ι) (msg : CpuMsg)
    (c : ι) : ((s.step handlers (.send cpu trgtcpu msg)).view c).Inv handlers before := by
  rw [step]
  split_ifs with hout
  · by_cases hc : c = trgtcpu
    · subst hc
      have hlate : s.calls c + (s.stage c).clears ≤ s.calls cpu := by
        have hleft := (le_left (h c)).1
        have hentered := (h cpu).entered_eq
        have hle := hsafe c cpu
        rw [view] at hentered
        dsimp only at hentered
        rw [hout.1, ClearStage.rounds] at hentered
        omega
      have hpush := (h c).push (m := { msg := msg, call := s.calls cpu }) hlate
      simpa [view, cpuSendMsg] using hpush
    · have hview : (s.cpuSendMsg cpu trgtcpu msg).view c = s.view c := by
        simp [view, cpuSendMsg, Function.update_of_ne hc]
      rw [hview]
      exact h c
  · exact h c

end Steps

/-! ## Runs -/

omit [DecidableEq ι] in
theorem inv_start (handlers : List Bool) (n : SizeT) (before : ℕ) (c : ι) :
    ((start n before).view c).Inv handlers before where
  entered_eq := rfl
  waits := rfl
  clearing := fun h => by cases h
  called_eq := rfl
  late := fun _ h => by cases h

section Runs

variable {handlers : List Bool} {n : SizeT} {before rounds : ℕ} [Fintype ι]

/-- What holds after a run whose rounds fit in the count. -/
theorem inv_after (hn : n.toNat = Fintype.card ι) (hfit : BarrierState.RoundsFit n rounds)
    (as : List (ClearAct ι))
    (hle : ∀ c, (after handlers n before as).barrier.entered c ≤ rounds) :
    (∀ c, ((after handlers n before as).view c).Inv handlers before) ∧
      ∃ schedule, (after handlers n before as).barrier =
        Run.exec BarrierState.step (BarrierState.start n before) schedule := by
  induction as using List.reverseRecOn with
  | nil => exact ⟨inv_start handlers n before, [], rfl⟩
  | append_singleton as a ih =>
      rw [after, Run.exec_concat] at hle ⊢
      set s := Run.exec (step handlers) (start n before) as with hs
      have hbound : ∀ c, s.barrier.entered c ≤ rounds := fun c =>
        (entered_le_step s a c).trans (hle c)
      obtain ⟨hinv, schedule, hschedule⟩ := ih hbound
      obtain ⟨rest, hrest⟩ := barrier_step hinv a
      refine ⟨fun c => ?_, schedule ++ rest, ?_⟩
      · cases a with
        | send cpu trgtcpu msg =>
            refine inv_send hinv (fun c d => ?_) cpu trgtcpu msg c
            rw [hschedule] at hbound ⊢
            exact BarrierState.left_le_entered hn hfit hbound c d
        | interrupt cpu => exact inv_interrupt hinv cpu c
        | turn cpu => exact inv_turn hinv cpu c
      · rw [hrest, hschedule, Run.exec_append]

/-- A message that a CPU sent before its call has been handled when any CPU returns from
its own, as long as the rounds of the barrier fit in the count: all messages for a CPU that
it has not handled yet were sent by CPUs that had returned from as many calls as any other
CPU has. -/
theorem called_of_returned (n : SizeT) (before rounds : ℕ)
    (hfit : BarrierState.RoundsFit n rounds) (handlers : List Bool)
    (as : List (ClearAct (Fin n.toNat)))
    (hle : ∀ c, (after handlers n before as).barrier.entered c ≤ rounds) :
    let s := after handlers n before as
    ∀ c d, ∃ later, (s.pushed d).filter (SentMsg.hasHandler handlers) = s.called d ++ later ∧
      ∀ m ∈ later, s.calls c ≤ m.call := by
  intro s c d
  have hn : n.toNat = Fintype.card (Fin n.toNat) := (Fintype.card_fin _).symm
  obtain ⟨hinv, schedule, hschedule⟩ := inv_after hn hfit as hle
  refine ⟨_, (hinv d).called_eq, fun m hm => ?_⟩
  have hsafe : s.barrier.left c ≤ s.barrier.entered d := by
    rw [hschedule] at hle ⊢
    exact BarrierState.left_le_entered hn hfit hle c d
  have hclears := le_clears (hinv d) ((le_left (hinv c)).2.trans hsafe)
  exact hclears.trans ((hinv d).late m (List.mem_filter.mp hm).1)

def twoCalls : List (ClearAct (Fin 2)) :=
  .send 0 1 default ::
    [0, 0, 0, 1, 1, 1, 1, 1, 1, 0, 0, 0, 0, 1, 0].map .turn

theorem called_of_returned_two :
    let s := after [true] 2#64 0 twoCalls
    s.calls 0 = 1 ∧ s.called 1 = [⟨default, 0⟩] ∧
      ∀ c d, ∃ later, (s.pushed d).filter (SentMsg.hasHandler [true]) = s.called d ++ later ∧
        ∀ m ∈ later, s.calls c ≤ m.call :=
  ⟨by decide +kernel, by decide +kernel,
    called_of_returned 2#64 0 2 (by decide) [true] twoCalls (by decide +kernel)⟩

/-- After `2 ^ 63 - 1` rounds of two CPUs the first one sends a message to the second one
and returns from its call, while the second one does nothing. -/
theorem called_of_returned_wraps :
    let run : List (ClearAct (Fin 2)) := .send 0 1 default :: List.replicate 6 (.turn 0)
    let s := after [true] 2#64 (2 ^ 63 - 1) run
    BarrierState.after 2#64 (BarrierState.fullRounds [(0 : Fin 2), 1] (2 ^ 63 - 1)) =
        (start 2#64 (2 ^ 63 - 1)).barrier ∧
      s.calls 0 = 1 ∧ s.pushed 1 = [⟨default, 0⟩] ∧ s.called 1 = [] := by
  refine ⟨?_, by decide +kernel, by decide +kernel, by decide +kernel⟩
  exact BarrierState.exec_fullRounds (n := 2#64) rfl (by decide) (by decide) (by decide)

end Runs

end ClearState

end BaoHypervisor
