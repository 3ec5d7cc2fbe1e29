import BaoHypervisor.Theory.Linked
import Mathlib.Data.Int.Notation

/-!
# Lists of nodes

The singly linked lists of `lib/inc/list.h`. A node begins with the pointer to the
next one, and `link` is what these pointers hold; `none` is `NULL`. Each function
takes the lock of its list for all that it does here, except that a node that is
pushed is cleared before, while it is its owner's alone.
-/

namespace BaoHypervisor

structure NodeList (P : Type*) where
  head : Option P
  tail : Option P
deriving DecidableEq, Repr

namespace NodeList

variable {P : Type*}

def listInit : NodeList P := { head := none, tail := none }

def Holds (link : P → Option P) (list : NodeList P) (nodes : List P) : Prop :=
  Linked.Queue link list.head list.tail nodes

theorem holds_listInit (link : P → Option P) : listInit.Holds link [] := Linked.queue_nil

/-- The list leads through these nodes, but its `tail` may have been left at a node that
was removed. -/
def Spans (link : P → Option P) (list : NodeList P) (nodes : List P) : Prop :=
  Linked.LooseQueue link list.head list.tail nodes

theorem spans_listInit (link : P → Option P) : listInit.Spans link [] := Linked.looseQueue_nil

theorem Spans.congr {link link' : P → Option P} {list : NodeList P} {nodes : List P}
    (h : list.Spans link nodes) (heq : ∀ node ∈ nodes, link' node = link node) :
    list.Spans link' nodes :=
  Linked.LooseQueue.congr h heq

/-- The nodes that `list_foreach` visits, at most `n` of them. -/
def listForeach (link : P → Option P) (list : NodeList P) (n : ℕ) : List P :=
  Linked.walk link n list.head

theorem listForeach_of_spans {link : P → Option P} {list : NodeList P} {nodes : List P} {n : ℕ}
    (h : list.Spans link nodes) (hlen : nodes.length ≤ n) : list.listForeach link n = nodes :=
  Linked.Chain.walk_eq h.chain hlen

theorem head_of_holds_cons {link : P → Option P} {list : NodeList P} {node : P}
    {nodes : List P} (h : list.Holds link (node :: nodes)) : list.head = some node :=
  h.chain.1

variable [DecidableEq P]

/-- `list_push`, with the links it leaves. -/
def listPush (link : P → Option P) (list : NodeList P) (node : P) :
    (P → Option P) × NodeList P :=
  let link := Function.update link node none
  (match list.tail with
    | some tail => Function.update link tail (some node)
    | none => link,
    { head := if list.head = none then some node else list.head, tail := some node })

/-- `list_pop`: the node that was taken off, the links and the list. -/
def listPop (link : P → Option P) (list : NodeList P) :
    Option P × (P → Option P) × NodeList P :=
  match list.head with
  | some temp =>
      (some temp, Function.update link temp none,
        { head := link temp, tail := if link temp = none then none else list.tail })
  | none => (none, link, list)

/-- `list_rm`, with the links it leaves, where the loop visits at most `n` nodes. -/
def listRm (link : P → Option P) (list : NodeList P) (node : P) (n : ℕ) :
    (P → Option P) × NodeList P :=
  match Linked.seek link node n none list.head with
  | some (some prev) => (Function.update link prev (link node), list)
  | some none =>
      (link, { head := link node, tail := if link node = none then none else list.tail })
  | none => (link, list)

/-- `list_insert_ordered`, with the links it leaves, where the loop visits at most `n` nodes. -/
def listInsertOrdered (link : P → Option P) (list : NodeList P) (node : P) (cmp : P → P → ℤ)
    (n : ℕ) : (P → Option P) × NodeList P :=
  let link := Function.update link node none
  let (tail, cur) := Linked.seekWhile link (fun cur => cmp cur node ≤ 0) n none list.head
  let (link, list) :=
    if cur ≠ none then (Function.update link node cur, list)
    else (link, { list with tail := some node })
  match tail with
  | some tail => (Function.update link tail (some node), list)
  | none => (link, { list with head := some node })

section Spec

variable {link : P → Option P} {list list' : NodeList P} {node : P} {nodes nodes' : List P}

theorem holds_listPush (h : list.Holds link nodes) (hnodup : nodes.Nodup)
    (hnode : node ∉ nodes) :
    (listPush link list node).2.Holds (listPush link list node).1 (nodes ++ [node]) :=
  Linked.Queue.push h hnodup hnode

theorem Holds.listPush_of_disjoint (h' : list'.Holds link nodes') (h : list.Holds link nodes)
    (hnode : node ∉ nodes') (hdisjoint : ∀ a ∈ nodes, a ∉ nodes') :
    list'.Holds (listPush link list node).1 nodes' := by
  refine Linked.Queue.congr h' fun a ha => ?_
  have hne : a ≠ node := fun heq => hnode (heq ▸ ha)
  rw [listPush]
  dsimp only
  cases htail : list.tail with
  | none => exact Function.update_of_ne hne _ _
  | some tail =>
      have hmem : tail ∈ nodes := List.mem_of_getLast? (h.tail_eq.symm.trans htail)
      have hne' : a ≠ tail := fun heq => hdisjoint tail hmem (heq ▸ ha)
      dsimp only
      rw [Function.update_of_ne hne', Function.update_of_ne hne]

theorem listPop_of_holds_nil (h : list.Holds link []) : listPop link list = (none, link, list) := by
  have hhead : list.head = none := h.chain
  rw [listPop, hhead]

theorem holds_listPop (h : list.Holds link (node :: nodes)) (hnodup : (node :: nodes).Nodup) :
    (listPop link list).1 = some node ∧
      (listPop link list).2.2.Holds (listPop link list).2.1 nodes := by
  have hqueue : Linked.Queue link (some node) list.tail (node :: nodes) :=
    head_of_holds_cons h ▸ h
  obtain ⟨rest, heq, hrest⟩ := hqueue.pop hnodup
  obtain ⟨-, rfl⟩ := List.cons_eq_cons.mp heq
  rw [listPop, head_of_holds_cons h]
  exact ⟨rfl, hrest⟩

theorem Holds.listPop_of_disjoint (h' : list'.Holds link nodes')
    (h : list.Holds link (node :: nodes)) (hnode : node ∉ nodes') :
    list'.Holds (listPop link list).2.1 nodes' := by
  refine Linked.Queue.congr h' fun a ha => ?_
  have hne : a ≠ node := fun heq => hnode (heq ▸ ha)
  rw [listPop, head_of_holds_cons h]
  exact Function.update_of_ne hne _ _

/-- A node is inserted in front of the first one that is greater, and the links of nodes of the
list are all that changes. -/
theorem holds_listInsertOrdered {n : ℕ} (h : list.Holds link nodes) (cmp : P → P → ℤ)
    (hnode : node ∉ nodes) (hlen : nodes.length ≤ n) :
    (listInsertOrdered link list node cmp n).2.Holds (listInsertOrdered link list node cmp n).1
        (nodes.takeWhile (fun cur => cmp cur node ≤ 0) ++
          node :: nodes.dropWhile (fun cur => cmp cur node ≤ 0)) ∧
      ∀ a, a ≠ node → a ∉ nodes → (listInsertOrdered link list node cmp n).1 a = link a := by
  have hclear : Linked.Queue (Function.update link node none) list.head list.tail nodes :=
    Linked.Queue.congr h fun a ha => Function.update_of_ne (ne_of_mem_of_not_mem ha hnode) _ _
  have hseek := hclear.chain.seekWhile_eq (fun cur => decide (cmp cur node ≤ 0)) hlen none
  have hsplit := List.takeWhile_append_dropWhile
    (p := fun cur => decide (cmp cur node ≤ 0)) (l := nodes)
  rw [listInsertOrdered, hseek]
  dsimp only
  generalize nodes.takeWhile (fun cur => decide (cmp cur node ≤ 0)) = pre at *
  generalize nodes.dropWhile (fun cur => decide (cmp cur node ≤ 0)) = post at *
  subst hsplit
  have hqueue := hclear.insert h.chain.nodup hnode
  rw [Function.update_idem] at hqueue
  have hlink : ∀ cur, (if cur ≠ none then
      (Function.update (Function.update link node none) node cur, list)
      else (Function.update link node none, { list with tail := some node })) =
      (Function.update link node cur,
        { list with tail := if cur = none then some node else list.tail }) := by
    intro cur
    cases cur <;> simp
  rw [hlink]
  dsimp only
  cases hlast : pre.getLast? with
  | none =>
      rw [hlast] at hqueue
      exact ⟨hqueue, fun a hne _ => Function.update_of_ne hne _ _⟩
  | some last =>
      rw [hlast] at hqueue
      refine ⟨hqueue, fun a hne ha => ?_⟩
      have hmem : last ∈ pre ++ post := List.mem_append_left _ (List.mem_of_getLast? hlast)
      have hne' : a ≠ last := fun heq => ha (heq ▸ hmem)
      exact (Function.update_of_ne hne' _ _).trans (Function.update_of_ne hne _ _)

/-- The same from the head, whatever `tail` points to: `list_insert_ordered` does not read it. -/
theorem chain_listInsertOrdered {n : ℕ} (h : Linked.Chain link list.head nodes)
    (cmp : P → P → ℤ) (hnode : node ∉ nodes) (hlen : nodes.length ≤ n) :
    Linked.Chain (listInsertOrdered link list node cmp n).1
      (listInsertOrdered link list node cmp n).2.head
      (nodes.takeWhile (fun cur => cmp cur node ≤ 0) ++
        node :: nodes.dropWhile (fun cur => cmp cur node ≤ 0)) := by
  let list' : NodeList P := { list with tail := nodes.getLast? }
  have hholds : list'.Holds link nodes := ⟨h, rfl⟩
  have hchain := (holds_listInsertOrdered hholds cmp hnode hlen).1.chain
  have hlink : (listInsertOrdered link list' node cmp n).1 =
      (listInsertOrdered link list node cmp n).1 := by
    simp only [listInsertOrdered, list']
    split <;> split_ifs <;> rfl
  have hhead : (listInsertOrdered link list' node cmp n).2.head =
      (listInsertOrdered link list node cmp n).2.head := by
    simp only [listInsertOrdered, list']
    split <;> split_ifs <;> rfl
  rw [hlink, hhead] at hchain
  exact hchain

theorem spans_listPush (h : list.Spans link nodes) (hnodup : nodes.Nodup)
    (hnode : node ∉ nodes) :
    ∃ nodes', (nodes' = nodes ∨ nodes' = nodes ++ [node]) ∧
      (listPush link list node).2.Spans (listPush link list node).1 nodes' :=
  Linked.LooseQueue.push h hnodup hnode

theorem tail_listPush : (listPush link list node).2.tail = some node := rfl

theorem link_listPush_of_ne {a : P} (hne : a ≠ node)
    (htail : ∀ tail, list.tail = some tail → a ≠ tail) :
    (listPush link list node).1 a = link a := by
  rw [listPush]
  dsimp only
  cases heq : list.tail with
  | none => exact Function.update_of_ne hne _ _
  | some tail =>
      dsimp only
      rw [Function.update_of_ne (htail tail heq), Function.update_of_ne hne]

/-- The node is found behind the last one of `pre`, or at the head. -/
theorem listRm_of_chain {n : ℕ} (h : Linked.Chain link list.head nodes) (hnode : node ∈ nodes)
    (hlen : nodes.length ≤ n) :
    ∃ pre post, nodes = pre ++ node :: post ∧ nodes.erase node = pre ++ post ∧ node ∉ pre ∧
      listRm link list node n =
        match pre.getLast? with
        | some prev => (Function.update link prev (link node), list)
        | none =>
            (link,
              { head := link node, tail := if link node = none then none else list.tail }) := by
  obtain ⟨pre, post, rfl⟩ := List.mem_iff_append.mp hnode
  have hpre : node ∉ pre := fun hmem =>
    (List.nodup_append.mp h.nodup).2.2 node hmem node List.mem_cons_self rfl
  have hlt : pre.length < n := by
    rw [List.length_append, List.length_cons] at hlen
    omega
  refine ⟨pre, post, rfl, ?_, hpre, ?_⟩
  · rw [List.erase_append_right _ hpre, List.erase_cons_head]
  · rw [listRm, h.seek_eq_some hpre hlt]
    cases pre.getLast? <;> rfl

/-- Whatever `tail` points to, the nodes but the one that is removed are found from the head. -/
theorem chain_listRm {n : ℕ} (h : Linked.Chain link list.head nodes) (hnode : node ∈ nodes)
    (hlen : nodes.length ≤ n) :
    Linked.Chain (listRm link list node n).1 (listRm link list node n).2.head
        (nodes.erase node) ∧
      ∀ a, a ∉ nodes → (listRm link list node n).1 a = link a := by
  obtain ⟨pre, post, rfl, herase, -, hrm⟩ := listRm_of_chain h hnode hlen
  rw [hrm, herase]
  cases hlast : pre.getLast? with
  | none =>
      rw [List.getLast?_eq_none_iff.mp hlast, List.nil_append] at h ⊢
      exact ⟨h.2, fun _ _ => rfl⟩
  | some prev =>
      refine ⟨h.unlink h.nodup hlast, fun a ha => ?_⟩
      have hmem : prev ∈ pre ++ node :: post :=
        List.mem_append_left _ (List.mem_of_getLast? hlast)
      have hne : a ≠ prev := fun heq => ha (heq ▸ hmem)
      exact Function.update_of_ne hne _ _

theorem tail_listRm {n : ℕ} (h : Linked.Chain link list.head nodes) (hnode : node ∈ nodes)
    (hlen : nodes.length ≤ n) :
    (listRm link list node n).2.tail = if nodes.erase node = [] then none else list.tail := by
  obtain ⟨pre, post, rfl, herase, -, hrm⟩ := listRm_of_chain h hnode hlen
  rw [hrm, herase]
  cases hlast : pre.getLast? with
  | none =>
      rw [List.getLast?_eq_none_iff.mp hlast, List.nil_append] at h ⊢
      have hnext : link node = post.head? := h.2.eq_head?
      cases post <;> simp [hnext]
  | some prev =>
      have hne : pre ++ post ≠ [] := fun hnil => by
        rw [(List.append_eq_nil_iff.mp hnil).1] at hlast
        cases hlast
      rw [if_neg hne]

/-- The node is removed, and the links of other nodes of the list are all that changes. -/
theorem spans_listRm {n : ℕ} (h : list.Spans link nodes) (hnodup : nodes.Nodup)
    (hnode : node ∈ nodes) (hlen : nodes.length ≤ n) :
    (listRm link list node n).2.Spans (listRm link list node n).1 (nodes.erase node) ∧
      (∀ a, a ∉ nodes → (listRm link list node n).1 a = link a) ∧
        ∀ tail, (listRm link list node n).2.tail = some tail → list.tail = some tail := by
  refine ⟨?_, (chain_listRm h.chain hnode hlen).2, fun tail htail => ?_⟩
  · obtain ⟨pre, post, rfl, herase, -, hrm⟩ := listRm_of_chain h.chain hnode hlen
    rw [hrm, herase]
    cases hlast : pre.getLast? with
    | none =>
        rw [List.getLast?_eq_none_iff.mp hlast, List.nil_append] at h ⊢
        exact h.unlink_head
    | some prev => exact h.unlink hnodup hlast
  · rw [tail_listRm h.chain hnode hlen] at htail
    split_ifs at htail
    exact htail

/-- The `tail` of a list is right after a removal unless that took the last of several nodes. -/
theorem holds_listRm_iff {n : ℕ} (h : list.Holds link nodes) (hnode : node ∈ nodes)
    (hlen : nodes.length ≤ n) :
    (listRm link list node n).2.Holds (listRm link list node n).1 (nodes.erase node) ↔
      ¬ (nodes.getLast? = some node ∧ 1 < nodes.length) := by
  have hchain := (chain_listRm h.chain hnode hlen).1
  have htail := tail_listRm h.chain hnode hlen
  have hqueue : (listRm link list node n).2.Holds (listRm link list node n).1
      (nodes.erase node) ↔ (listRm link list node n).2.tail = (nodes.erase node).getLast? :=
    ⟨Linked.Queue.tail_eq, fun heq => ⟨hchain, heq⟩⟩
  have hnodup := h.chain.nodup
  obtain ⟨pre, post, rfl, herase, hpre, -⟩ := listRm_of_chain h.chain hnode hlen
  rw [hqueue, htail, herase, h.tail_eq, List.getLast?_append_cons]
  cases post with
  | nil =>
      cases hlast : pre.getLast? with
      | none =>
          rw [List.getLast?_eq_none_iff.mp hlast]
          simp
      | some last =>
          have hmem : last ∈ pre := List.mem_of_getLast? hlast
          have hne : pre ≠ [] := List.ne_nil_of_mem hmem
          have hlt : 1 < (pre ++ [node]).length := by
            rw [List.length_append, List.length_singleton]
            exact Nat.lt_add_of_pos_left (List.length_pos_of_ne_nil hne)
          rw [List.append_nil, if_neg hne, hlast, List.getLast?_singleton]
          refine iff_of_false (fun heq => ?_) (fun hnot => hnot ⟨rfl, hlt⟩)
          cases heq
          exact hpre hmem
  | cons b post =>
      rw [if_neg (by simp), List.getLast?_cons_cons, List.getLast?_append_cons]
      refine iff_of_true rfl fun hlast => ?_
      have hnot : node ∉ b :: post :=
        (List.nodup_cons.mp (List.nodup_append.mp hnodup).2.1).1
      exact hnot (List.mem_of_getLast? hlast.1)

theorem listRm_of_not_mem {n : ℕ} (h : Linked.Chain link list.head nodes) (hnode : node ∉ nodes) :
    listRm link list node n = (link, list) := by
  rw [listRm, h.seek_eq_none hnode]

end Spec

end NodeList

end BaoHypervisor
