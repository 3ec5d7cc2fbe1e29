import BaoHypervisor.Core.Cpu
import BaoHypervisor.Theory.Run

/-!
# The interrupt of CPU messages

A sender appends its message to the list of the target and then sends an IPI, which
sets `SSIP` there. The target takes the messages when `SSIP` interrupts its guest, or
when it wakes up. Both ways clear the bit, `cpu_idle_wakeup` before the list has been
emptied and `interrupts_arch_handle` after it.

A list is given by its messages, which it holds in the order they were pushed. All
CPUs take their steps in any order, and a CPU in the middle of a send goes on with it.
-/

namespace BaoHypervisor

abbrev vmReset : BitVec 32 := 0#32

inductive CpuMsgHandler
  | vmRecoveryMsgHandler
  | other
deriving DecidableEq, Repr

/-- Whether `cpu_msg_handler` gets to the next message after this one. A recovery ends
in `vcpu_run`, which does not return. -/
def handlerReturns (handlers : List (Option CpuMsgHandler)) (msg : CpuMsg) : Bool :=
  match handlers[msg.handler.toNat]? with
  | some (some .vmRecoveryMsgHandler) => msg.event != vmReset
  | _ => true

/-- Where `cpu_msg_handler` is called. -/
inductive MsgCaller
  | interruptsArchHandle
  | cpuIdleWakeup
  | cpuSyncAndClearMsgs
deriving DecidableEq, Repr

/-- Where a CPU is. `hyp` is all of the hypervisor that has nothing to do with `SSIP`,
such as the boot and the other traps. -/
inductive IpiMode
  | guest
  | idle
  | hyp
  | getMsg (caller : MsgCaller)
  | handler (caller : MsgCaller) (msg : CpuMsg)
  | handled
  | wakeup
  | pending
  | awake
deriving DecidableEq, Repr

/-- A CPU, with the target of the send that it is in the middle of. -/
structure CpuIpi (ι : Type*) where
  eventList : List CpuMsg
  ssip : Bool
  handlingMsgs : Bool
  mode : IpiMode
  sending : Option ι
deriving DecidableEq, Repr

/-- A step of a CPU other than a send. It is up to the guest and the other traps
whether the vCPU of the CPU, if it has one, has been started when it is run. -/
inductive CpuAct
  | next (started : Bool)
  | interrupt
  | trap
  | sync
deriving DecidableEq, Repr

namespace CpuIpi

variable {ι : Type*}

def vcpuRun (c : CpuIpi ι) (started : Bool) : CpuIpi ι :=
  { c with mode := if started then .guest else .idle }

/-- `cpu_msg_handler` up to its loop. -/
def cpuMsgHandler (c : CpuIpi ι) (caller : MsgCaller) : CpuIpi ι :=
  { c with handlingMsgs := true, mode := .getMsg caller }

/-- `cpu_msg_handler` after its loop. -/
def msgsHandled (c : CpuIpi ι) (caller : MsgCaller) : CpuIpi ι :=
  { c with
    handlingMsgs := false
    mode :=
      match caller with
      | .interruptsArchHandle => .handled
      | .cpuIdleWakeup => .awake
      | .cpuSyncAndClearMsgs => .hyp }

/-- `CSRC(sip, SIP_SSIP)`. -/
def clearSsip (c : CpuIpi ι) : CpuIpi ι := { c with ssip := false }

/-- The CPU goes on in the hypervisor. -/
def next (handlers : List (Option CpuMsgHandler)) (started : Bool) (c : CpuIpi ι) :
    CpuIpi ι :=
  match c.mode with
  | .guest => c
  | .idle => { c with mode := .wakeup }
  | .hyp | .awake => c.vcpuRun started
  | .getMsg caller =>
      match c.eventList with
      | [] => c.msgsHandled caller
      | msg :: msgs => { c with eventList := msgs, mode := .handler caller msg }
  | .handler caller msg =>
      if handlerReturns handlers msg then { c with mode := .getMsg caller }
      else c.vcpuRun started
  | .handled => { c.clearSsip with mode := .guest }
  | .wakeup => { c with mode := if c.ssip then .pending else .awake }
  | .pending => c.clearSsip.cpuMsgHandler .cpuIdleWakeup

/-- A step that the CPU is not at is passed over. -/
def step (handlers : List (Option CpuMsgHandler)) (c : CpuIpi ι) : CpuAct → CpuIpi ι
  | .next started => c.next handlers started
  | .interrupt =>
      if c.mode = .guest ∧ c.ssip = true then c.cpuMsgHandler .interruptsArchHandle else c
  | .trap => if c.mode = .guest then { c with mode := .hyp } else c
  | .sync =>
      if c.mode = .hyp ∧ c.handlingMsgs = false then c.cpuMsgHandler .cpuSyncAndClearMsgs
      else c

/-- Messages are sent by handlers of messages and by the rest of the hypervisor. -/
def canSend (c : CpuIpi ι) : Bool :=
  c.sending.isNone &&
    match c.mode with
    | .hyp | .handler _ _ => true
    | _ => false

end CpuIpi

abbrev IpiState (ι : Type*) := ι → CpuIpi ι

inductive IpiAct (ι : Type*)
  | listPush (cpu trgtcpu : ι) (msg : CpuMsg)
  | sendIpi (cpu : ι)
  | act (cpu : ι) (act : CpuAct)
deriving DecidableEq, Repr

namespace IpiState

variable {ι : Type*}

/-- All CPUs are booting. -/
def boot : IpiState ι := fun _ =>
  { eventList := [], ssip := false, handlingMsgs := false, mode := .hyp, sending := none }

variable [DecidableEq ι]

/-- The first half of `cpu_send_msg`. -/
def listPush (s : IpiState ι) (cpu trgtcpu : ι) (msg : CpuMsg) : IpiState ι := fun c =>
  { s c with
    eventList := if c = trgtcpu then (s c).eventList ++ [msg] else (s c).eventList
    sending := if c = cpu then some trgtcpu else (s c).sending }

/-- The second half of `cpu_send_msg`. -/
def sendIpi (s : IpiState ι) (cpu trgtcpu : ι) : IpiState ι := fun c =>
  { s c with
    ssip := if c = trgtcpu then true else (s c).ssip
    sending := if c = cpu then none else (s c).sending }

def step (handlers : List (Option CpuMsgHandler)) (s : IpiState ι) : IpiAct ι → IpiState ι
  | .listPush cpu trgtcpu msg => if (s cpu).canSend then s.listPush cpu trgtcpu msg else s
  | .sendIpi cpu =>
      match (s cpu).sending with
      | some trgtcpu => s.sendIpi cpu trgtcpu
      | none => s
  | .act cpu act =>
      match (s cpu).sending with
      | some _ => s
      | none => Function.update s cpu ((s cpu).step handlers act)

end IpiState

/-! ## Messages that somebody attends to -/

namespace IpiMode

/-- `SSIP` was found set, and the CPU has not cleared it since. -/
def ssipSeen : IpiMode → Bool
  | .getMsg .interruptsArchHandle | .handler .interruptsArchHandle _ | .handled | .pending => true
  | _ => false

/-- The CPU empties its list after it has cleared `SSIP`. -/
def emptiesList : IpiMode → Bool
  | .getMsg .cpuIdleWakeup | .handler .cpuIdleWakeup _ => true
  | _ => false

def awaitsSsip (mode : IpiMode) : Prop := mode = .guest ∨ mode = .idle

end IpiMode

namespace CpuIpi

variable {ι : Type*}

/-- No message is left behind: while the CPU runs its guest or idles, a list that is
not empty has `SSIP` pending, unless a send to the CPU is half done (`sending`). -/
def NotStranded (c : CpuIpi ι) (sending : Prop) : Prop :=
  c.mode.awaitsSsip → c.eventList ≠ [] → ¬sending → c.ssip = true

/-- The CPU leaves no message behind in its next step. When `interrupts_arch_handle`
clears `SSIP`, the list is empty or the interrupt is still to come; and when
`VM_RESET` leaves `cpu_idle_wakeup`, the list is empty, or there is or will be an
interrupt for the rest. -/
def LeavesNone (handlers : List (Option CpuMsgHandler)) (c : CpuIpi ι) (sending : Prop) : Prop :=
  match c.mode with
  | .handled => c.eventList = [] ∨ sending
  | .handler .cpuIdleWakeup msg =>
      handlerReturns handlers msg = false → c.eventList = [] ∨ c.ssip = true ∨ sending
  | _ => True

/-- The messages in the list have an interrupt pending or on its way, or the CPU is
about to take them. -/
structure Attended (c : CpuIpi ι) (sending : Prop) : Prop where
  seen : c.mode.ssipSeen = true → c.ssip = true
  attended : c.eventList ≠ [] → c.ssip = true ∨ sending ∨ c.mode.emptiesList = true

section Attended

variable {handlers : List (Option CpuMsgHandler)} {c : CpuIpi ι} {sending sending' : Prop}

theorem Attended.mono (h : c.Attended sending) (himp : sending → sending') :
    c.Attended sending' :=
  ⟨h.seen, fun hlist => (h.attended hlist).imp_right (Or.imp_left himp)⟩

theorem Attended.notStranded (h : c.Attended sending) : c.NotStranded sending := by
  intro hmode hlist hsending
  rcases h.attended hlist with hssip | hsend | hempties
  · exact hssip
  · exact absurd hsend hsending
  · rcases hmode with hmode | hmode
    · rw [hmode] at hempties
      cases hempties
    · rw [hmode] at hempties
      cases hempties

theorem Attended.ssip_or (h : c.Attended sending) (hmode : c.mode.emptiesList = false)
    (hlist : c.eventList ≠ []) : c.ssip = true ∨ sending := by
  rcases h.attended hlist with hssip | hsend | hempties
  · exact .inl hssip
  · exact .inr hsend
  · rw [hmode] at hempties
    cases hempties

theorem attended_of_ssip_or (hmode : c.mode.ssipSeen = false)
    (h : c.eventList ≠ [] → c.ssip = true ∨ sending) : c.Attended sending := by
  refine ⟨fun hseen => ?_, fun hlist => (h hlist).imp_right Or.inl⟩
  rw [hmode] at hseen
  cases hseen

theorem attended_of_ssip (h : c.ssip = true) : c.Attended sending :=
  ⟨fun _ => h, fun _ => .inl h⟩

theorem attended_of_emptiesList (hmode : c.mode.ssipSeen = false)
    (h : c.mode.emptiesList = true) : c.Attended sending := by
  refine ⟨fun hseen => ?_, fun _ => .inr (.inr h)⟩
  rw [hmode] at hseen
  cases hseen

theorem attended_vcpuRun (h : c.eventList ≠ [] → c.ssip = true ∨ sending) (started : Bool) :
    (c.vcpuRun started).Attended sending := by
  cases started with
  | false => exact attended_of_ssip_or rfl h
  | true => exact attended_of_ssip_or rfl h

theorem Attended.msgsHandled (h : c.Attended sending) {caller : MsgCaller}
    (hmode : c.mode = .getMsg caller) (hlist : c.eventList = []) :
    (c.msgsHandled caller).Attended sending := by
  cases caller with
  | interruptsArchHandle => exact attended_of_ssip (h.seen (by rw [hmode]; rfl))
  | cpuIdleWakeup => exact attended_of_ssip_or rfl fun hne => absurd hlist hne
  | cpuSyncAndClearMsgs => exact attended_of_ssip_or rfl fun hne => absurd hlist hne

theorem Attended.getMsg (h : c.Attended sending) {caller : MsgCaller} {msg : CpuMsg}
    {msgs : List CpuMsg} (hmode : c.mode = .getMsg caller) (hlist : c.eventList = msg :: msgs) :
    Attended { c with eventList := msgs, mode := .handler caller msg } sending := by
  cases caller with
  | interruptsArchHandle => exact attended_of_ssip (h.seen (by rw [hmode]; rfl))
  | cpuIdleWakeup => exact attended_of_emptiesList rfl rfl
  | cpuSyncAndClearMsgs =>
      have hssip := h.ssip_or (by rw [hmode]; rfl) (by rw [hlist]; simp)
      exact attended_of_ssip_or rfl fun _ => hssip

/-- A handler returns to the loop. -/
theorem Attended.back (h : c.Attended sending) {caller : MsgCaller} {msg : CpuMsg}
    (hmode : c.mode = .handler caller msg) :
    Attended { c with mode := .getMsg caller } sending := by
  cases caller with
  | interruptsArchHandle => exact attended_of_ssip (h.seen (by rw [hmode]; rfl))
  | cpuIdleWakeup => exact attended_of_emptiesList rfl rfl
  | cpuSyncAndClearMsgs =>
      exact attended_of_ssip_or rfl (h.ssip_or (by rw [hmode]; rfl))

/-- A handler leaves the loop. -/
theorem Attended.leave (h : c.Attended sending) {caller : MsgCaller} {msg : CpuMsg}
    (hmode : c.mode = .handler caller msg) (hreturns : handlerReturns handlers msg = false)
    (hleaves : c.LeavesNone handlers sending) (started : Bool) :
    (c.vcpuRun started).Attended sending := by
  refine attended_vcpuRun (fun hlist => ?_) started
  cases caller with
  | interruptsArchHandle => exact .inl (h.seen (by rw [hmode]; rfl))
  | cpuIdleWakeup =>
      rw [LeavesNone, hmode] at hleaves
      exact (hleaves hreturns).resolve_left hlist
  | cpuSyncAndClearMsgs => exact h.ssip_or (by rw [hmode]; rfl) hlist

theorem Attended.wakeup (h : c.Attended sending) (hmode : c.mode = .wakeup) :
    Attended { c with mode := if c.ssip then .pending else .awake } sending := by
  by_cases hssip : c.ssip = true
  · exact attended_of_ssip hssip
  · rw [if_neg hssip]
    exact attended_of_ssip_or rfl (h.ssip_or (by rw [hmode]; rfl))

/-- A step that leaves no message behind keeps the messages attended to. -/
theorem Attended.next (h : c.Attended sending) (hleaves : c.LeavesNone handlers sending)
    (started : Bool) : (c.next handlers started).Attended sending := by
  rw [CpuIpi.next]
  cases hmode : c.mode with
  | guest => exact h
  | idle => exact attended_of_ssip_or rfl (h.ssip_or (by rw [hmode]; rfl))
  | hyp => exact attended_vcpuRun (h.ssip_or (by rw [hmode]; rfl)) started
  | awake => exact attended_vcpuRun (h.ssip_or (by rw [hmode]; rfl)) started
  | getMsg caller =>
      cases hlist : c.eventList with
      | nil => exact h.msgsHandled hmode hlist
      | cons msg msgs => exact h.getMsg hmode hlist
  | handler caller msg =>
      cases hreturns : handlerReturns handlers msg with
      | true =>
          dsimp only
          rw [if_pos hreturns]
          exact h.back hmode
      | false =>
          dsimp only
          rw [if_neg (by rw [hreturns]; simp)]
          exact h.leave hmode hreturns hleaves started
  | handled =>
      rw [LeavesNone, hmode] at hleaves
      exact attended_of_ssip_or rfl fun hlist => .inr (hleaves.resolve_left hlist)
  | wakeup => exact h.wakeup hmode
  | pending => exact attended_of_emptiesList rfl rfl

/-- A step that leaves a message behind strands it. -/
theorem leavesNone_of_notStranded {started : Bool}
    (h : (c.next handlers started).NotStranded sending) : c.LeavesNone handlers sending := by
  rw [LeavesNone]
  rw [CpuIpi.next] at h
  cases hmode : c.mode with
  | handled =>
      rw [hmode] at h
      by_contra hnot
      rw [not_or] at hnot
      cases h (.inl rfl) hnot.1 hnot.2
  | handler caller msg =>
      cases caller with
      | cpuIdleWakeup =>
          intro hreturns
          rw [hmode] at h
          dsimp only at h
          rw [if_neg (by rw [hreturns]; simp)] at h
          by_contra hnot
          rw [not_or, not_or] at hnot
          refine hnot.2.1 (h ?_ hnot.1 hnot.2.2)
          cases started with
          | false => exact .inr rfl
          | true => exact .inl rfl
      | _ => trivial
  | _ => trivial

/-- The other steps never leave a message behind. -/
theorem Attended.step (h : c.Attended sending) {act : CpuAct}
    (hleaves : ∀ started, act = .next started → c.LeavesNone handlers sending) :
    (c.step handlers act).Attended sending := by
  cases act with
  | next started => exact h.next (hleaves started rfl) started
  | interrupt =>
      rw [CpuIpi.step]
      split_ifs with hmode
      · exact attended_of_ssip hmode.2
      · exact h
  | trap =>
      rw [CpuIpi.step]
      split_ifs with hmode
      · exact attended_of_ssip_or rfl (h.ssip_or (by rw [hmode]; rfl))
      · exact h
  | sync =>
      rw [CpuIpi.step]
      split_ifs with hmode
      · exact attended_of_ssip_or rfl (h.ssip_or (by rw [hmode.1]; rfl))
      · exact h

/-- Nothing but a send has to do with sends. -/
theorem sending_step (act : CpuAct) : (c.step handlers act).sending = c.sending := by
  cases act with
  | next started =>
      rw [CpuIpi.step, CpuIpi.next]
      split
      all_goals first
        | rfl
        | split <;> rfl
  | interrupt =>
      rw [CpuIpi.step]
      split_ifs <;> rfl
  | trap =>
      rw [CpuIpi.step]
      split_ifs <;> rfl
  | sync =>
      rw [CpuIpi.step]
      split_ifs <;> rfl

end Attended

end CpuIpi

namespace IpiState

section Run

variable {ι : Type*} [DecidableEq ι] {handlers : List (Option CpuMsgHandler)} {s : IpiState ι}

/-- A CPU is in the middle of a send to `trgtcpu`. -/
def Sending (s : IpiState ι) (trgtcpu : ι) : Prop := ∃ cpu, (s cpu).sending = some trgtcpu

def NoneStranded (s : IpiState ι) : Prop := ∀ cpu, (s cpu).NotStranded (s.Sending cpu)

/-- A step of a CPU that is not in the middle of a send leaves no message behind. -/
def LeavesNone (handlers : List (Option CpuMsgHandler)) (s : IpiState ι) : IpiAct ι → Prop
  | .act cpu (.next _) =>
      (s cpu).sending = none → (s cpu).LeavesNone handlers (s.Sending cpu)
  | _ => True

def AllAttended (s : IpiState ι) : Prop := ∀ cpu, (s cpu).Attended (s.Sending cpu)

theorem AllAttended.listPush (h : s.AllAttended) {cpu : ι} (hcpu : (s cpu).sending = none)
    (trgtcpu : ι) (msg : CpuMsg) : (s.listPush cpu trgtcpu msg).AllAttended := by
  intro c
  by_cases hc : c = trgtcpu
  · refine ⟨(h c).seen, fun _ => .inr (.inl ⟨cpu, ?_⟩)⟩
    rw [IpiState.listPush, if_pos rfl, hc]
  · have hmono : s.Sending c → (s.listPush cpu trgtcpu msg).Sending c := by
      rintro ⟨d, hd⟩
      have hd' : d ≠ cpu := by
        rintro rfl
        rw [hcpu] at hd
        cases hd
      exact ⟨d, (if_neg hd').trans hd⟩
    refine ⟨(h c).seen, fun hlist => ?_⟩
    rw [IpiState.listPush] at hlist
    dsimp only at hlist
    rw [if_neg hc] at hlist
    exact ((h c).mono hmono).attended hlist

theorem AllAttended.sendIpi (h : s.AllAttended) {cpu trgtcpu : ι}
    (hcpu : (s cpu).sending = some trgtcpu) : (s.sendIpi cpu trgtcpu).AllAttended := by
  intro c
  by_cases hc : c = trgtcpu
  · exact CpuIpi.attended_of_ssip (if_pos hc)
  · have hmono : s.Sending c → (s.sendIpi cpu trgtcpu).Sending c := by
      rintro ⟨d, hd⟩
      have hd' : d ≠ cpu := by
        rintro rfl
        rw [hcpu] at hd
        exact hc (Option.some.inj hd).symm
      exact ⟨d, (if_neg hd').trans hd⟩
    have hssip : (s.sendIpi cpu trgtcpu c).ssip = (s c).ssip := if_neg hc
    refine ⟨fun hseen => hssip.trans ((h c).seen hseen), fun hlist => ?_⟩
    rw [hssip]
    exact ((h c).mono hmono).attended hlist

theorem sending_update {cpu : ι} (act : CpuAct) (trgtcpu : ι) :
    Sending (Function.update s cpu ((s cpu).step handlers act)) trgtcpu ↔ s.Sending trgtcpu := by
  refine exists_congr fun c => ?_
  by_cases hc : c = cpu
  · rw [hc, Function.update_self, CpuIpi.sending_step]
  · rw [Function.update_of_ne hc]

theorem AllAttended.step (h : s.AllAttended) {a : IpiAct ι} (hleaves : LeavesNone handlers s a) :
    (s.step handlers a).AllAttended := by
  cases a with
  | listPush cpu trgtcpu msg =>
      rw [IpiState.step]
      split_ifs with hsend
      · rw [CpuIpi.canSend, Bool.and_eq_true, Option.isNone_iff_eq_none] at hsend
        exact h.listPush hsend.1 trgtcpu msg
      · exact h
  | sendIpi cpu =>
      rw [IpiState.step]
      cases hcpu : (s cpu).sending with
      | none => exact h
      | some trgtcpu => exact h.sendIpi hcpu
  | act cpu act =>
      rw [IpiState.step]
      cases hcpu : (s cpu).sending with
      | some trgtcpu => exact h
      | none =>
          intro c
          dsimp only
          rw [sending_update]
          by_cases hc : c = cpu
          · rw [hc, Function.update_self]
            refine (h cpu).step fun started hact => ?_
            rw [hact] at hleaves
            exact hleaves hcpu
          · rw [Function.update_of_ne hc]
            exact h c

omit [DecidableEq ι] in
theorem AllAttended.noneStranded (h : s.AllAttended) : s.NoneStranded := fun cpu =>
  (h cpu).notStranded

theorem leavesNone_of_noneStranded {a : IpiAct ι} (h : (s.step handlers a).NoneStranded) :
    LeavesNone handlers s a := by
  cases a with
  | listPush cpu trgtcpu msg => trivial
  | sendIpi cpu => trivial
  | act cpu act =>
      cases act with
      | next started =>
          intro hcpu
          have hnext := h cpu
          rw [IpiState.step, hcpu] at hnext
          dsimp only at hnext
          rw [sending_update, Function.update_self] at hnext
          exact CpuIpi.leavesNone_of_notStranded hnext
      | _ => trivial

omit [DecidableEq ι] in
theorem allAttended_boot : (boot : IpiState ι).AllAttended := fun _ =>
  CpuIpi.attended_of_ssip_or rfl fun hlist => absurd rfl hlist

/-- A run strands no message exactly when none of its steps leaves one behind. -/
theorem along_noneStranded_iff (handlers : List (Option CpuMsgHandler)) (as : List (IpiAct ι)) :
    Run.Along (step handlers) (fun s a => (s.step handlers a).NoneStranded) boot as ↔
      Run.Along (step handlers) (LeavesNone handlers) boot as := by
  have hiff : ∀ (s : IpiState ι) a, s.AllAttended →
      ((s.step handlers a).NoneStranded ↔ LeavesNone handlers s a) := fun s a hs =>
    ⟨leavesNone_of_noneStranded, fun ha => (hs.step ha).noneStranded⟩
  exact Run.along_iff_of_carry allAttended_boot hiff
    (fun s a hs ha => hs.step ((hiff s a hs).mp ha)) as

end Run

/-- CPU 1 sends a second message when CPU 0 has emptied its list and not cleared
`SSIP` yet. -/
theorem stranded_by_interruptsArchHandle :
    let msg : CpuMsg := { handler := 0, event := 0, data := 0 }
    let s : IpiState (Fin 2) := Run.exec (step [some .other]) boot
      [.act 0 (.next true), .listPush 1 0 msg, .sendIpi 1, .act 0 .interrupt,
        .act 0 (.next true), .act 0 (.next true), .act 0 (.next true),
        .listPush 1 0 msg, .sendIpi 1, .act 0 (.next true)]
    (s 0).mode = .guest ∧ (s 0).eventList = [msg] ∧ (s 0).ssip = false ∧
      ∀ cpu, (s cpu).sending = none := by
  decide

-- A recovery that starts when CPU 0 wakes up leaves the message behind `VM_RESET`.
example :
    let msg : CpuMsg := { handler := 1, event := 0, data := 0 }
    let s : IpiState (Fin 2) := Run.exec (step [some .vmRecoveryMsgHandler, some .other]) boot
      [.act 0 (.next false), .listPush 1 0 { handler := 0, event := vmReset, data := 0 },
        .sendIpi 1, .listPush 1 0 msg, .sendIpi 1, .act 0 (.next true),
        .act 0 (.next true), .act 0 (.next true), .act 0 (.next true), .act 0 (.next true)]
    (s 0).mode = .guest ∧ (s 0).eventList = [msg] ∧ (s 0).ssip = false ∧
      ∀ cpu, (s cpu).sending = none := by
  decide

end IpiState

end BaoHypervisor
