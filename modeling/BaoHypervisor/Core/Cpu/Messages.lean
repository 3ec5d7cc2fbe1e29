import BaoHypervisor.Core.Cpu
import BaoHypervisor.Core.Objpool
import BaoHypervisor.Lib.List
import BaoHypervisor.Theory.Run

/-!
# Queues of CPU messages

A message travels in a node of the pool: the sender takes a free node, stores the
message in it and pushes it on the list of the target; the target pops it, copies
the message out and frees it. The pool and each list have their own lock, and
between two of these sections the node belongs to one CPU. All CPUs take their steps
in any order.
-/

namespace BaoHypervisor

open Bitmap

/-- How far a CPU is in `cpu_send_msg` or `cpu_get_msg`. A CPU that finds no free node
is stopped by `ERROR`. -/
inductive MsgTask (ι : Type*)
  | idle
  | allocated (node : Addr) (trgtcpu : ι) (msg : CpuMsg)
  | stored (node : Addr) (trgtcpu : ι) (msg : CpuMsg)
  | popped (node : Addr)
  | copied (node : Addr)
  | stopped
deriving DecidableEq, Repr

def MsgTask.node {ι : Type*} : MsgTask ι → Option Addr
  | .allocated node _ _ | .stored node _ _ | .popped node | .copied node => some node
  | .idle | .stopped => none

/-- The pool, the nodes and the lists in memory, and what the CPUs are doing. The last
two fields record the messages pushed to each CPU and those it got. -/
structure MsgState (ι : Type*) where
  bitmap : Bitmap
  link : Addr → Option Addr
  msg : Addr → CpuMsg
  eventList : ι → NodeList Addr
  task : ι → MsgTask ι
  pushed : ι → List CpuMsg
  got : ι → List CpuMsg

inductive MsgAct (ι : Type*)
  | send (cpu trgtcpu : ι) (msg : CpuMsg)
  | store (cpu : ι)
  | push (cpu : ι)
  | pop (cpu : ι)
  | copy (cpu : ι)
  | free (cpu : ι)
deriving DecidableEq, Repr

namespace MsgState

variable {ι : Type*}

/-- The state after boot: an empty pool and empty lists. -/
def boot (link : Addr → Option Addr) (msg : Addr → CpuMsg) : MsgState ι where
  bitmap := fun _ => 0#32
  link := link
  msg := msg
  eventList := fun _ => NodeList.listInit
  task := fun _ => .idle
  pushed := fun _ => []
  got := fun _ => []

variable [DecidableEq ι]

section Step

variable (objpool : Objpool) (s : MsgState ι)

/-- The allocation of `cpu_send_msg`. -/
def send (cpu trgtcpu : ι) (msg : CpuMsg) : MsgState ι :=
  let alloc := objpool.objpoolAlloc s.bitmap
  { s with
    bitmap := alloc.2
    task := Function.update s.task cpu
      (match alloc.1 with
        | some node => .allocated node trgtcpu msg
        | none => .stopped) }

def push (cpu : ι) (node : Addr) (trgtcpu : ι) (msg : CpuMsg) : MsgState ι :=
  let pushed := NodeList.listPush s.link (s.eventList trgtcpu) node
  { s with
    link := pushed.1
    eventList := Function.update s.eventList trgtcpu pushed.2
    task := Function.update s.task cpu .idle
    pushed := Function.update s.pushed trgtcpu (s.pushed trgtcpu ++ [msg]) }

/-- The pop of `cpu_get_msg`, which returns `false` when the list is empty. -/
def pop (cpu : ι) : MsgState ι :=
  let popped := NodeList.listPop s.link (s.eventList cpu)
  { s with
    link := popped.2.1
    eventList := Function.update s.eventList cpu popped.2.2
    task := Function.update s.task cpu
      (match popped.1 with
        | some node => .popped node
        | none => .idle) }

/-- A step that the CPU is not at is passed over. -/
def step : MsgAct ι → MsgState ι
  | .send cpu trgtcpu msg =>
      match s.task cpu with
      | .idle => s.send objpool cpu trgtcpu msg
      | _ => s
  | .store cpu =>
      match s.task cpu with
      | .allocated node trgtcpu msg =>
          { s with
            msg := Function.update s.msg node msg
            task := Function.update s.task cpu (.stored node trgtcpu msg) }
      | _ => s
  | .push cpu =>
      match s.task cpu with
      | .stored node trgtcpu msg => s.push cpu node trgtcpu msg
      | _ => s
  | .pop cpu =>
      match s.task cpu with
      | .idle => s.pop cpu
      | _ => s
  | .copy cpu =>
      match s.task cpu with
      | .popped node =>
          { s with
            task := Function.update s.task cpu (.copied node)
            got := Function.update s.got cpu (s.got cpu ++ [s.msg node]) }
      | _ => s
  | .free cpu =>
      match s.task cpu with
      | .copied node =>
          { s with
            bitmap := objpool.objpoolFree s.bitmap node
            task := Function.update s.task cpu .idle }
      | _ => s

end Step

/-! ## Who a node belongs to -/

/-- A node is free, in the list of a CPU or in the hand of a CPU. -/
inductive NodeOwner (ι : Type*)
  | free
  | queued (cpu : ι)
  | held (cpu : ι)
deriving DecidableEq, Repr

/-- `owner` tells the owner of every node, when the lists lead through `nodes`. -/
structure Owned (objpool : Objpool) (s : MsgState ι) (nodes : ι → List Addr)
    (owner : Addr → NodeOwner ι) : Prop where
  queued_iff : ∀ cpu a, a ∈ nodes cpu ↔ owner a = .queued cpu
  held_iff : ∀ cpu a, (s.task cpu).node = some a ↔ owner a = .held cpu
  used_iff : ∀ n < objpool.num.toNat,
    bitmapGet s.bitmap n = true ↔ owner (objpool.object n) ≠ .free
  inPool : ∀ a, owner a ≠ .free → ∃ n < objpool.num.toNat, a = objpool.object n

section Owned

variable {objpool : Objpool} {s s' : MsgState ι} {nodes nodes' : ι → List Addr}
  {owner : Addr → NodeOwner ι}

omit [DecidableEq ι] in
/-- One node gets another owner, and all others keep theirs. -/
theorem Owned.move (h : Owned objpool s nodes owner) {a : Addr} {o : NodeOwner ι}
    (hqueued : ∀ cpu, a ∈ nodes' cpu ↔ o = .queued cpu)
    (hqueued' : ∀ cpu, ∀ b ≠ a, (b ∈ nodes' cpu ↔ b ∈ nodes cpu))
    (hheld : ∀ cpu, (s'.task cpu).node = some a ↔ o = .held cpu)
    (hheld' : ∀ cpu, ∀ b ≠ a, ((s'.task cpu).node = some b ↔ (s.task cpu).node = some b))
    (hused : ∀ n < objpool.num.toNat, objpool.object n = a →
      (bitmapGet s'.bitmap n = true ↔ o ≠ .free))
    (hused' : ∀ n < objpool.num.toNat, objpool.object n ≠ a →
      bitmapGet s'.bitmap n = bitmapGet s.bitmap n)
    (hpool : ∃ n < objpool.num.toNat, a = objpool.object n) :
    Owned objpool s' nodes' (Function.update owner a o) := by
  constructor
  · intro cpu b
    by_cases hb : b = a
    · rw [hb, Function.update_self, hqueued]
    · rw [Function.update_of_ne hb, hqueued' cpu b hb, h.queued_iff]
  · intro cpu b
    by_cases hb : b = a
    · rw [hb, Function.update_self, hheld]
    · rw [Function.update_of_ne hb, hheld' cpu b hb, h.held_iff]
  · intro n hn
    by_cases ha : objpool.object n = a
    · rw [hused n hn ha, ha, Function.update_self]
    · rw [hused' n hn ha, Function.update_of_ne ha, h.used_iff n hn]
  · intro b hb
    by_cases ha : b = a
    · rwa [ha]
    · rw [Function.update_of_ne ha] at hb
      exact h.inPool b hb

end Owned

/-! ## What the lists contain -/

/-- The message of the node that the CPU popped and has not copied yet. -/
def inHand (s : MsgState ι) (cpu : ι) : List CpuMsg :=
  match s.task cpu with
  | .popped node => [s.msg node]
  | _ => []

/-- The lists lead through `nodes`, and the messages pushed to a CPU are those it got,
the one it has in hand and those in its list. -/
structure Exact (s : MsgState ι) (nodes : ι → List Addr) : Prop where
  holds : ∀ cpu, (s.eventList cpu).Holds s.link (nodes cpu)
  nodup : ∀ cpu, (nodes cpu).Nodup
  stored : ∀ cpu a trgtcpu msg, s.task cpu = .stored a trgtcpu msg → s.msg a = msg
  fifo : ∀ cpu, s.pushed cpu = s.got cpu ++ s.inHand cpu ++ (nodes cpu).map s.msg

/-- Every node has one owner, and the lists are exact. -/
structure Coherent (objpool : Objpool) (s : MsgState ι) (nodes : ι → List Addr)
    (owner : Addr → NodeOwner ι) : Prop where
  owned : Owned objpool s nodes owner
  exact : Exact s nodes

section Coherent

variable {objpool : Objpool} {s : MsgState ι} {nodes : ι → List Addr}
  {owner : Addr → NodeOwner ι} {cpu : ι}

omit [DecidableEq ι] in
theorem inHand_of_task {node : Addr} (h : s.task cpu = .popped node) :
    s.inHand cpu = [s.msg node] := by
  rw [inHand, h]

omit [DecidableEq ι] in
theorem inHand_eq_nil (h : ∀ node, s.task cpu ≠ .popped node) : s.inHand cpu = [] := by
  rw [inHand]
  cases htask : s.task cpu with
  | popped node => exact absurd htask (h node)
  | _ => rfl

omit [DecidableEq ι] in
theorem inHand_congr {s' : MsgState ι} (htask : s'.task cpu = s.task cpu)
    (hmsg : ∀ node, s.task cpu = .popped node → s'.msg node = s.msg node) :
    s'.inHand cpu = s.inHand cpu := by
  rw [inHand, inHand, htask]
  cases hnode : s.task cpu with
  | popped node => exact congrArg (fun m => [m]) (hmsg node hnode)
  | _ => rfl

theorem inHand_update {s s' : MsgState ι} (cpu : ι) (t : MsgTask ι)
    (htask : s'.task = Function.update s.task cpu t)
    (hbefore : ∀ node, s.task cpu ≠ .popped node) (hafter : ∀ node, t ≠ .popped node)
    (hmsg : ∀ c ≠ cpu, ∀ node, s.task c = .popped node → s'.msg node = s.msg node) (c : ι) :
    s'.inHand c = s.inHand c := by
  by_cases hc : c = cpu
  · rw [inHand_eq_nil (s := s') (by rwa [htask, hc, Function.update_self]), hc,
      inHand_eq_nil hbefore]
  · exact inHand_congr (by rw [htask, Function.update_of_ne hc]) (hmsg c hc)

theorem Exact.stored_update (h : Exact s nodes) {s' : MsgState ι} {t : MsgTask ι}
    (htask : s'.task = Function.update s.task cpu t)
    (ht : ∀ a trgtcpu msg, t = .stored a trgtcpu msg → s'.msg a = msg)
    (hmsg : ∀ c ≠ cpu, ∀ a, (s.task c).node = some a → s'.msg a = s.msg a)
    (c : ι) (a : Addr) (trgtcpu : ι) (msg : CpuMsg) (hc : s'.task c = .stored a trgtcpu msg) :
    s'.msg a = msg := by
  rw [htask] at hc
  by_cases hcpu : c = cpu
  · rw [hcpu, Function.update_self] at hc
    exact ht a trgtcpu msg hc
  · rw [Function.update_of_ne hcpu] at hc
    rw [hmsg c hcpu a (by rw [hc]; rfl)]
    exact h.stored c a trgtcpu msg hc

omit [DecidableEq ι] in
theorem Owned.not_mem (h : Owned objpool s nodes owner) {a : Addr}
    (ha : (s.task cpu).node = some a) (c : ι) : a ∉ nodes c := by
  rw [h.queued_iff, (h.held_iff cpu a).mp ha]
  simp

omit [DecidableEq ι] in
theorem Owned.hand_unique (h : Owned objpool s nodes owner) {a : Addr} {c : ι}
    (ha : (s.task cpu).node = some a) (hc : (s.task c).node = some a) : c = cpu := by
  have heq := (h.held_iff c a).mp hc
  rw [(h.held_iff cpu a).mp ha] at heq
  exact (NodeOwner.held.inj heq).symm

theorem node_update {task : ι → MsgTask ι} {t : MsgTask ι} (h : t.node = (task cpu).node)
    (c : ι) : (Function.update task cpu t c).node = (task c).node := by
  by_cases hc : c = cpu
  · rw [hc, Function.update_self, h]
  · rw [Function.update_of_ne hc]

theorem node_update_take {task : ι → MsgTask ι} {t : MsgTask ι} {a : Addr}
    (ht : t.node = some a) (hidle : (task cpu).node = none) {c : ι} {b : Addr} (hb : b ≠ a) :
    (Function.update task cpu t c).node = some b ↔ (task c).node = some b := by
  by_cases hc : c = cpu
  · rw [hc, Function.update_self, ht, hidle]
    simp [Ne.symm hb]
  · rw [Function.update_of_ne hc]

theorem node_update_drop {task : ι → MsgTask ι} {t : MsgTask ι} {a : Addr}
    (ht : t.node = none) (hhand : (task cpu).node = some a) {c : ι} {b : Addr} (hb : b ≠ a) :
    (Function.update task cpu t c).node = some b ↔ (task c).node = some b := by
  by_cases hc : c = cpu
  · rw [hc, Function.update_self, ht, hhand]
    simp [Ne.symm hb]
  · rw [Function.update_of_ne hc]

theorem coherent_send (h : Coherent objpool s nodes owner) (hidle : s.task cpu = .idle)
    (trgtcpu : ι) (msg : CpuMsg) :
    ∃ owner', Coherent objpool (s.send objpool cpu trgtcpu msg) nodes owner' := by
  have hnone : (s.task cpu).node = none := by rw [hidle]; rfl
  have hexact : ∀ t : MsgTask ι, (∀ a, t ≠ .popped a) → (∀ a c m, t ≠ .stored a c m) →
      ∀ bitmap, Exact { s with bitmap := bitmap, task := Function.update s.task cpu t } nodes := by
    intro t hpopped hstored bitmap
    refine ⟨h.exact.holds, h.exact.nodup, h.exact.stored_update rfl ?_ fun _ _ _ _ => rfl,
      fun c => ?_⟩
    · exact fun a r m ht => absurd ht (hstored a r m)
    · refine (h.exact.fifo c).trans ?_
      congr 2
      refine Eq.symm (inHand_update (s := s) cpu t rfl ?_ hpopped ?_ c)
      · simp [hidle]
      · exact fun _ _ _ _ => rfl
  rw [send]
  cases halloc : (objpool.objpoolAlloc s.bitmap).1 with
  | none =>
      obtain ⟨hbitmap, -⟩ := Objpool.objpoolAlloc_eq_none halloc
      rw [hbitmap]
      refine ⟨owner, ⟨h.owned.queued_iff, fun c a => ?_, h.owned.used_iff, h.owned.inPool⟩,
        hexact .stopped (by simp) (by simp) _⟩
      dsimp only
      rw [node_update (hnone ▸ rfl), h.owned.held_iff]
  | some node =>
      obtain ⟨n, hn, rfl, hget, hbitmap⟩ := Objpool.objpoolAlloc_eq_some halloc
      have hfree : owner (objpool.object n) = .free := by
        by_contra hne
        rw [(h.owned.used_iff n hn).mpr hne] at hget
        cases hget
      rw [hbitmap]
      refine ⟨_, h.owned.move (a := objpool.object n) (o := .held cpu) ?_ (fun _ _ _ => Iff.rfl)
        ?_ (fun c b hb => node_update_take rfl hnone hb) ?_ ?_ ⟨n, hn, rfl⟩,
        hexact _ (by simp) (by simp) _⟩
      · intro c
        rw [h.owned.queued_iff, hfree]
        simp
      · intro c
        dsimp only
        by_cases hc : c = cpu
        · rw [hc, Function.update_self]
          exact iff_of_true rfl rfl
        · rw [Function.update_of_ne hc, h.owned.held_iff, hfree]
          simp [Ne.symm hc]
      · intro m hm hobj
        rw [Objpool.object_injOn hm.le hn.le hobj, bitmapGet_bitmapSet]
        simp
      · intro m hm hobj
        have hne : m ≠ n := fun heq => hobj (heq ▸ rfl)
        rw [bitmapGet_bitmapSet, decide_eq_false hne, Bool.or_false]

theorem coherent_store (h : Coherent objpool s nodes owner) {a : Addr} {trgtcpu : ι}
    {msg : CpuMsg} (htask : s.task cpu = .allocated a trgtcpu msg) :
    Coherent objpool
      { s with
        msg := Function.update s.msg a msg
        task := Function.update s.task cpu (.stored a trgtcpu msg) } nodes owner := by
  have hnode : (s.task cpu).node = some a := by rw [htask]; rfl
  have hother : ∀ b, b ≠ a → Function.update s.msg a msg b = s.msg b := fun b hb =>
    Function.update_of_ne hb _ _
  refine ⟨⟨h.owned.queued_iff, fun c b => ?_, h.owned.used_iff, h.owned.inPool⟩,
    h.exact.holds, h.exact.nodup, h.exact.stored_update rfl (fun b r m ht => ?_)
      (fun c hc b hb => ?_), fun c => ?_⟩
  · dsimp only
    rw [node_update (hnode ▸ rfl), h.owned.held_iff]
  · obtain ⟨rfl, -, rfl⟩ := MsgTask.stored.inj ht
    exact Function.update_self ..
  · refine hother b ?_
    rintro rfl
    exact hc (h.owned.hand_unique hnode hb)
  · have hlist : (nodes c).map (Function.update s.msg a msg) = (nodes c).map s.msg :=
      List.map_congr_left fun b hb => hother b fun heq =>
        h.owned.not_mem hnode c (heq ▸ hb)
    refine (h.exact.fifo c).trans ?_
    dsimp only
    rw [hlist]
    congr 2
    refine Eq.symm (inHand_update (s := s) cpu _ rfl (by simp [htask]) (by simp)
      (fun d hd b hb => ?_) c)
    refine hother b ?_
    rintro rfl
    exact hd (h.owned.hand_unique hnode (by rw [hb]; rfl))

theorem Coherent.owned_push (h : Coherent objpool s nodes owner) {a : Addr} {trgtcpu : ι}
    {msg : CpuMsg} (htask : s.task cpu = .stored a trgtcpu msg) :
    Owned objpool (s.push cpu a trgtcpu msg)
      (Function.update nodes trgtcpu (nodes trgtcpu ++ [a]))
      (Function.update owner a (.queued trgtcpu)) := by
  have hnode : (s.task cpu).node = some a := by rw [htask]; rfl
  have hfresh := h.owned.not_mem hnode
  have hheld := (h.owned.held_iff cpu a).mp hnode
  refine h.owned.move (fun c => ?_) (fun c b hb => ?_) (fun c => ?_)
    (fun c b hb => node_update_drop rfl hnode hb) (fun n hn hobj => ?_)
    (fun _ _ _ => rfl) (h.owned.inPool a (by rw [hheld]; simp))
  · by_cases hc : c = trgtcpu
    · rw [hc, Function.update_self]
      simp
    · rw [Function.update_of_ne hc]
      exact iff_of_false (hfresh c) (by simp [Ne.symm hc])
  · by_cases hc : c = trgtcpu
    · rw [hc, Function.update_self]
      simp [hb]
    · rw [Function.update_of_ne hc]
  · rw [push]
    dsimp only
    by_cases hc : c = cpu
    · rw [hc, Function.update_self]
      simp [MsgTask.node]
    · rw [Function.update_of_ne hc, h.owned.held_iff, hheld]
      simp [Ne.symm hc]
  · have hused := (h.owned.used_iff n hn).mpr (by rw [hobj, hheld]; simp)
    exact iff_of_true hused (by simp)

theorem Coherent.exact_push (h : Coherent objpool s nodes owner) {a : Addr} {trgtcpu : ι}
    {msg : CpuMsg} (htask : s.task cpu = .stored a trgtcpu msg) :
    Exact (s.push cpu a trgtcpu msg)
      (Function.update nodes trgtcpu (nodes trgtcpu ++ [a])) := by
  have hnode : (s.task cpu).node = some a := by rw [htask]; rfl
  have hfresh := h.owned.not_mem hnode
  have hmsg : s.msg a = msg := h.exact.stored cpu a trgtcpu msg htask
  have hhold := h.exact.holds trgtcpu
  refine ⟨fun c => ?_, fun c => ?_, h.exact.stored_update rfl (by simp) fun _ _ _ _ => rfl,
    fun c => ?_⟩
  · rw [push]
    dsimp only
    by_cases hc : c = trgtcpu
    · rw [hc, Function.update_self, Function.update_self]
      exact NodeList.holds_listPush hhold (h.exact.nodup trgtcpu) (hfresh trgtcpu)
    · rw [Function.update_of_ne hc, Function.update_of_ne hc]
      refine (h.exact.holds c).listPush_of_disjoint hhold (hfresh c) fun b hb hb' => hc ?_
      have hqueued := (h.owned.queued_iff c b).mp hb'
      rw [(h.owned.queued_iff trgtcpu b).mp hb] at hqueued
      exact (NodeOwner.queued.inj hqueued).symm
  · by_cases hc : c = trgtcpu
    · rw [hc, Function.update_self]
      exact List.Nodup.append (h.exact.nodup trgtcpu) (List.nodup_singleton a)
        (List.disjoint_singleton.mpr (hfresh trgtcpu))
    · rw [Function.update_of_ne hc]
      exact h.exact.nodup c
  · have hhand : (s.push cpu a trgtcpu msg).inHand c = s.inHand c := by
      refine inHand_update cpu .idle rfl ?_ (by simp) ?_ c
      · simp [htask]
      · exact fun _ _ _ _ => rfl
    rw [hhand, push]
    dsimp only
    by_cases hc : c = trgtcpu
    · rw [hc, Function.update_self, Function.update_self, h.exact.fifo trgtcpu,
        List.map_append, List.map_singleton, hmsg, List.append_assoc _ _ [msg]]
    · rw [Function.update_of_ne hc, Function.update_of_ne hc, h.exact.fifo c]

theorem coherent_push (h : Coherent objpool s nodes owner) {a : Addr} {trgtcpu : ι}
    {msg : CpuMsg} (htask : s.task cpu = .stored a trgtcpu msg) :
    ∃ owner', Coherent objpool (s.push cpu a trgtcpu msg)
      (Function.update nodes trgtcpu (nodes trgtcpu ++ [a])) owner' :=
  ⟨_, h.owned_push htask, h.exact_push htask⟩

theorem pop_of_nil (h : Coherent objpool s nodes owner) (hidle : s.task cpu = .idle)
    (hnil : nodes cpu = []) : s.pop cpu = s := by
  have hholds := h.exact.holds cpu
  rw [hnil] at hholds
  rw [pop, NodeList.listPop_of_holds_nil hholds]
  dsimp only
  rw [Function.update_eq_self, ← hidle, Function.update_eq_self]

theorem Coherent.pop_eq (h : Coherent objpool s nodes owner) {a : Addr} {rest : List Addr}
    (hcons : nodes cpu = a :: rest) :
    (s.pop cpu).task = Function.update s.task cpu (.popped a) ∧
      (NodeList.listPop s.link (s.eventList cpu)).2.2.Holds
        (NodeList.listPop s.link (s.eventList cpu)).2.1 rest := by
  have hholds := h.exact.holds cpu
  have hnodup := h.exact.nodup cpu
  rw [hcons] at hholds hnodup
  obtain ⟨hpopped, hholds'⟩ := NodeList.holds_listPop hholds hnodup
  refine ⟨?_, hholds'⟩
  rw [pop]
  dsimp only
  rw [hpopped]

theorem Coherent.owned_pop (h : Coherent objpool s nodes owner) (hidle : s.task cpu = .idle)
    {a : Addr} {rest : List Addr} (hcons : nodes cpu = a :: rest) :
    Owned objpool (s.pop cpu) (Function.update nodes cpu rest)
      (Function.update owner a (.held cpu)) := by
  have hnone : (s.task cpu).node = none := by rw [hidle]; rfl
  have hnodup := h.exact.nodup cpu
  rw [hcons] at hnodup
  have hqueued := (h.owned.queued_iff cpu a).mp (by rw [hcons]; exact List.mem_cons_self)
  obtain ⟨htask, -⟩ := h.pop_eq hcons
  refine h.owned.move (fun c => ?_) (fun c b hb => ?_) (fun c => ?_) (fun c b hb => ?_)
    (fun n hn hobj => ?_) (fun _ _ _ => rfl) (h.owned.inPool a (by rw [hqueued]; simp))
  · refine iff_of_false (fun hmem => ?_) (by simp)
    by_cases hc : c = cpu
    · rw [hc, Function.update_self] at hmem
      exact (List.nodup_cons.mp hnodup).1 hmem
    · rw [Function.update_of_ne hc, h.owned.queued_iff, hqueued] at hmem
      exact hc (NodeOwner.queued.inj hmem).symm
  · by_cases hc : c = cpu
    · rw [hc, Function.update_self, hcons]
      simp [hb]
    · rw [Function.update_of_ne hc]
  · rw [htask]
    by_cases hc : c = cpu
    · rw [hc, Function.update_self]
      exact iff_of_true rfl rfl
    · rw [Function.update_of_ne hc, h.owned.held_iff, hqueued]
      simp [Ne.symm hc]
  · rw [htask]
    exact node_update_take rfl hnone hb
  · have hused := (h.owned.used_iff n hn).mpr (by rw [hobj, hqueued]; simp)
    exact iff_of_true hused (by simp)

theorem Coherent.exact_pop (h : Coherent objpool s nodes owner) (hidle : s.task cpu = .idle)
    {a : Addr} {rest : List Addr} (hcons : nodes cpu = a :: rest) :
    Exact (s.pop cpu) (Function.update nodes cpu rest) := by
  have hqueued := (h.owned.queued_iff cpu a).mp (by rw [hcons]; exact List.mem_cons_self)
  obtain ⟨htask, hrest⟩ := h.pop_eq hcons
  refine ⟨fun c => ?_, fun c => ?_, h.exact.stored_update htask (by simp) fun _ _ _ _ => rfl,
    fun c => ?_⟩
  · rw [pop]
    dsimp only
    by_cases hc : c = cpu
    · rw [hc, Function.update_self, Function.update_self]
      exact hrest
    · rw [Function.update_of_ne hc, Function.update_of_ne hc]
      refine (h.exact.holds c).listPop_of_disjoint (hcons ▸ h.exact.holds cpu) fun hmem => hc ?_
      rw [h.owned.queued_iff, hqueued] at hmem
      exact (NodeOwner.queued.inj hmem).symm
  · by_cases hc : c = cpu
    · have hnodup := h.exact.nodup cpu
      rw [hcons] at hnodup
      rw [hc, Function.update_self]
      exact (List.nodup_cons.mp hnodup).2
    · rw [Function.update_of_ne hc]
      exact h.exact.nodup c
  · have hfifo := h.exact.fifo c
    by_cases hc : c = cpu
    · have hhand : (s.pop cpu).inHand c = [s.msg a] :=
        inHand_of_task (by rw [htask, hc, Function.update_self])
      rw [hhand, hc, Function.update_self]
      rw [hc, inHand_eq_nil (by simp [hidle]), hcons, List.append_nil] at hfifo
      rw [List.append_assoc]
      exact hfifo
    · have hhand : (s.pop cpu).inHand c = s.inHand c :=
        inHand_congr (by rw [htask, Function.update_of_ne hc]) fun _ _ => rfl
      rw [hhand, Function.update_of_ne hc]
      exact hfifo

theorem coherent_pop (h : Coherent objpool s nodes owner) (hidle : s.task cpu = .idle)
    {a : Addr} {rest : List Addr} (hcons : nodes cpu = a :: rest) :
    ∃ owner', Coherent objpool (s.pop cpu) (Function.update nodes cpu rest) owner' :=
  ⟨_, h.owned_pop hidle hcons, h.exact_pop hidle hcons⟩

theorem coherent_copy (h : Coherent objpool s nodes owner) {a : Addr}
    (htask : s.task cpu = .popped a) :
    Coherent objpool
      { s with
        task := Function.update s.task cpu (.copied a)
        got := Function.update s.got cpu (s.got cpu ++ [s.msg a]) } nodes owner := by
  have hnode : (s.task cpu).node = some a := by rw [htask]; rfl
  refine ⟨⟨h.owned.queued_iff, fun c b => ?_, h.owned.used_iff, h.owned.inPool⟩,
    h.exact.holds, h.exact.nodup,
    h.exact.stored_update rfl (by simp) fun _ _ _ _ => rfl, fun c => ?_⟩
  · dsimp only
    rw [node_update (hnode ▸ rfl), h.owned.held_iff]
  · have hfifo := h.exact.fifo c
    rw [inHand]
    dsimp only
    by_cases hc : c = cpu
    · rw [hc, inHand_of_task htask] at hfifo
      rw [hc, Function.update_self, Function.update_self]
      dsimp only
      rw [List.append_nil, hfifo]
    · rw [Function.update_of_ne hc, Function.update_of_ne hc]
      exact hfifo

theorem coherent_free (h : Coherent objpool s nodes owner) {a : Addr}
    (htask : s.task cpu = .copied a) :
    ∃ owner', Coherent objpool
      { s with
        bitmap := objpool.objpoolFree s.bitmap a
        task := Function.update s.task cpu .idle } nodes owner' := by
  have hnode : (s.task cpu).node = some a := by rw [htask]; rfl
  have hheld := (h.owned.held_iff cpu a).mp hnode
  obtain ⟨n, hn, hobj⟩ := h.owned.inPool a (by rw [hheld]; simp)
  have hbitmap : objpool.objpoolFree s.bitmap a = bitmapClear s.bitmap n := by
    rw [hobj, Objpool.objpoolFree_object s.bitmap hn.le]
  refine ⟨_, h.owned.move (a := a) (o := .free) (fun c => ?_) (fun _ _ _ => Iff.rfl)
    (fun c => ?_) (fun c b hb => node_update_drop rfl hnode hb) (fun m hm hobj' => ?_)
    (fun m hm hobj' => ?_) ⟨n, hn, hobj⟩,
    h.exact.holds, h.exact.nodup,
    h.exact.stored_update rfl (by simp) fun _ _ _ _ => rfl, fun c => ?_⟩
  · exact iff_of_false (h.owned.not_mem hnode c) (by simp)
  · refine iff_of_false (fun hc => ?_) (by simp)
    dsimp only at hc
    by_cases hcpu : c = cpu
    · rw [hcpu, Function.update_self] at hc
      cases hc
    · rw [Function.update_of_ne hcpu] at hc
      exact hcpu (h.owned.hand_unique hnode hc)
  · have hmn : m = n := Objpool.object_injOn hm.le hn.le (hobj'.trans hobj)
    dsimp only
    rw [hbitmap, bitmapGet_bitmapClear, hmn]
    simp
  · have hmn : m ≠ n := fun heq => hobj' (heq ▸ hobj.symm)
    dsimp only
    rw [hbitmap, bitmapGet_bitmapClear, decide_eq_false hmn, Bool.not_false, Bool.and_true]
  · refine (h.exact.fifo c).trans ?_
    congr 2
    refine Eq.symm (inHand_update (s := s) cpu .idle rfl ?_ (by simp) ?_ c)
    · simp [htask]
    · exact fun _ _ _ _ => rfl

/-- Every step keeps every node with one owner and the lists exact. -/
theorem coherent_step (h : ∃ nodes owner, Coherent objpool s nodes owner) (a : MsgAct ι) :
    ∃ nodes owner, Coherent objpool (s.step objpool a) nodes owner := by
  obtain ⟨nodes, owner, h⟩ := h
  have hsame : ∃ nodes owner, Coherent objpool s nodes owner := ⟨nodes, owner, h⟩
  cases a with
  | send cpu trgtcpu msg =>
      rw [step]
      cases htask : s.task cpu with
      | idle => exact ⟨nodes, coherent_send h htask trgtcpu msg⟩
      | _ => exact hsame
  | store cpu =>
      rw [step]
      cases htask : s.task cpu with
      | allocated node trgtcpu msg => exact ⟨nodes, owner, coherent_store h htask⟩
      | _ => exact hsame
  | push cpu =>
      rw [step]
      cases htask : s.task cpu with
      | stored node trgtcpu msg => exact ⟨_, coherent_push h htask⟩
      | _ => exact hsame
  | pop cpu =>
      rw [step]
      cases htask : s.task cpu with
      | idle =>
          cases hnodes : nodes cpu with
          | nil => exact (pop_of_nil h htask hnodes).symm ▸ hsame
          | cons node rest => exact ⟨_, coherent_pop h htask hnodes⟩
      | _ => exact hsame
  | copy cpu =>
      rw [step]
      cases htask : s.task cpu with
      | popped node => exact ⟨nodes, owner, coherent_copy h htask⟩
      | _ => exact hsame
  | free cpu =>
      rw [step]
      cases htask : s.task cpu with
      | copied node => exact ⟨nodes, coherent_free h htask⟩
      | _ => exact hsame

omit [DecidableEq ι] in
theorem coherent_boot (objpool : Objpool) (link : Addr → Option Addr) (msg : Addr → CpuMsg) :
    Coherent objpool (boot link msg : MsgState ι) (fun _ => []) fun _ => .free := by
  constructor
  · refine ⟨fun cpu a => by simp, fun cpu a => by simp [boot, MsgTask.node], fun n hn => ?_,
      fun a ha => absurd rfl ha⟩
    have hclear : bitmapGet (fun _ => 0#32) n = false := by
      rw [bitmapGet_eq_getLsbD, BitVec.getLsbD_zero]
    rw [boot, hclear]
    simp
  · refine ⟨fun cpu => NodeList.holds_listInit link, fun cpu => List.nodup_nil,
      fun cpu a trgtcpu m h => ?_, fun cpu => rfl⟩
    cases h

end Coherent

/-! ## Where the nodes are -/

/-- A node of the pool is free, or in one list once, or in the hand of one CPU, and is
in no other place. -/
inductive Placed (objpool : Objpool) (s : MsgState ι) (nodes : ι → List Addr) (n : ℕ) : Prop
  | free (bit : bitmapGet s.bitmap n = false)
      (not_queued : ∀ cpu, objpool.object n ∉ nodes cpu)
      (not_held : ∀ cpu, (s.task cpu).node ≠ some (objpool.object n))
  | queued (cpu : ι) (bit : bitmapGet s.bitmap n = true)
      (once : (nodes cpu).count (objpool.object n) = 1)
      (not_queued : ∀ c ≠ cpu, objpool.object n ∉ nodes c)
      (not_held : ∀ c, (s.task c).node ≠ some (objpool.object n))
  | held (cpu : ι) (bit : bitmapGet s.bitmap n = true)
      (not_queued : ∀ c, objpool.object n ∉ nodes c)
      (hand : (s.task cpu).node = some (objpool.object n))
      (not_held : ∀ c ≠ cpu, (s.task c).node ≠ some (objpool.object n))

section Placed

variable {objpool : Objpool} {s : MsgState ι} {nodes : ι → List Addr}
  {owner : Addr → NodeOwner ι}

omit [DecidableEq ι] in
/-- A node is where its owner says. -/
theorem Coherent.placed (h : Coherent objpool s nodes owner) {n : ℕ}
    (hn : n < objpool.num.toNat) : Placed objpool s nodes n := by
  have hbit := h.owned.used_iff n hn
  have hqueued := fun cpu => h.owned.queued_iff cpu (objpool.object n)
  have hheld := fun cpu => h.owned.held_iff cpu (objpool.object n)
  cases howner : owner (objpool.object n) with
  | free =>
      rw [howner] at hbit hqueued hheld
      refine .free (Bool.eq_false_iff.mpr (by simpa using hbit)) (fun cpu hmem => ?_)
        fun cpu hhand => ?_
      · cases (hqueued cpu).mp hmem
      · cases (hheld cpu).mp hhand
  | queued cpu =>
      rw [howner] at hbit hqueued hheld
      refine .queued cpu (hbit.mpr (by simp)) ?_ (fun c hc hmem => hc ?_) fun c hhand => ?_
      · exact List.count_eq_one_of_mem (h.exact.nodup cpu) ((hqueued cpu).mpr rfl)
      · exact (NodeOwner.queued.inj ((hqueued c).mp hmem)).symm
      · cases (hheld c).mp hhand
  | held cpu =>
      rw [howner] at hbit hqueued hheld
      refine .held cpu (hbit.mpr (by simp)) (fun c hmem => ?_) ((hheld cpu).mpr rfl)
        fun c hc hhand => hc ?_
      · cases (hqueued c).mp hmem
      · exact (NodeOwner.held.inj ((hheld c).mp hhand)).symm

/-- After every run the messages pushed to a CPU are those it got, the one it is about
to copy and those in its list, in this order, and every node of the pool is in one
place. -/
theorem messages_exact (objpool : Objpool) (link : Addr → Option Addr) (msg : Addr → CpuMsg)
    (as : List (MsgAct ι)) :
    let s := Run.exec (step objpool) (boot link msg) as
    ∃ nodes : ι → List Addr,
      (∀ cpu, (s.eventList cpu).Holds s.link (nodes cpu)) ∧
      (∀ cpu, s.pushed cpu = s.got cpu ++ s.inHand cpu ++ (nodes cpu).map s.msg) ∧
      ∀ n < objpool.num.toNat, Placed objpool s nodes n := by
  intro s
  obtain ⟨nodes, owner, h⟩ : ∃ nodes owner, Coherent objpool s nodes owner :=
    Run.exec_invariant (I := fun s => ∃ nodes owner, Coherent objpool s nodes owner)
      ⟨_, _, coherent_boot objpool link msg⟩ (fun _ a hs => coherent_step hs a) as
  exact ⟨nodes, h.exact.holds, h.exact.fifo, fun n hn => h.placed hn⟩

end Placed

end MsgState

end BaoHypervisor
