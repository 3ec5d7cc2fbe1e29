import BaoHypervisor.Lib.List
import BaoHypervisor.Theory.Run
import Mathlib.Data.Fintype.Card
import Mathlib.Data.List.Nodup
import Mathlib.Data.List.Perm.Lattice

/-!
# Lists as sequences

Several lists share a memory of nodes, and the operations of `lib/inc/list.h` are taken on them in
any order. Each list stands for the sequence of its nodes. Three of the operations keep to the
sequences: `list_push`, `list_pop` and, before the first node that is greater,
`list_insert_ordered`. The fourth one does not: `list_rm` leaves `tail` at the last of several
nodes when it takes that one, and the next node that is pushed is linked to it and lost.
-/

namespace BaoHypervisor

inductive ListOp (ι P : Type*)
  | push (i : ι) (node : P)
  | pop (i : ι)
  | rm (i : ι) (node : P)
  | insertOrdered (i : ι) (node : P) (cmp : P → P → ℤ)

/-- The lists, and the pointers that the nodes begin with. -/
structure NodeLists (ι P : Type*) where
  link : P → Option P
  lists : ι → NodeList P

abbrev NodeSeqs (ι P : Type*) := ι → List P

/-- A comparison that orders the nodes. -/
structure OrdersNodes {P : Type*} (cmp : P → P → ℤ) : Prop where
  total : ∀ a b, cmp a b ≤ 0 ∨ cmp b a ≤ 0
  trans : ∀ a b c, cmp a b ≤ 0 → cmp b c ≤ 0 → cmp a c ≤ 0

instance {P : Type*} [Fintype P] (cmp : P → P → ℤ) : Decidable (OrdersNodes cmp) :=
  decidable_of_iff ((∀ a b, cmp a b ≤ 0 ∨ cmp b a ≤ 0) ∧
    ∀ a b c, cmp a b ≤ 0 → cmp b c ≤ 0 → cmp a c ≤ 0)
    ⟨fun h => ⟨h.1, h.2⟩, fun h => ⟨h.total, h.trans⟩⟩

section Insertion

variable {P : Type*} (f : P → Bool) (node : P)

def insertBeforeFirst (nodes : List P) : List P :=
  nodes.takeWhile f ++ node :: nodes.dropWhile f

/-- Behind the last node with the property. -/
def insertAfterLast : List P → List P
  | [] => [node]
  | a :: nodes =>
      if (a :: nodes).any f then a :: insertAfterLast nodes else node :: a :: nodes

variable {f node} {a : P} {nodes : List P}

theorem insertBeforeFirst_cons_of_pos (h : f a = true) :
    insertBeforeFirst f node (a :: nodes) = a :: insertBeforeFirst f node nodes := by
  rw [insertBeforeFirst, List.takeWhile_cons_of_pos h, List.dropWhile_cons_of_pos h]
  rfl

theorem insertBeforeFirst_cons_of_neg (h : ¬ f a = true) :
    insertBeforeFirst f node (a :: nodes) = node :: a :: nodes := by
  rw [insertBeforeFirst, List.takeWhile_cons_of_neg h, List.dropWhile_cons_of_neg h]
  rfl

theorem perm_insertBeforeFirst : (insertBeforeFirst f node nodes).Perm (node :: nodes) := by
  rw [insertBeforeFirst]
  refine List.perm_middle.trans (List.Perm.cons node ?_)
  rw [List.takeWhile_append_dropWhile]

theorem perm_insertAfterLast : (insertAfterLast f node nodes).Perm (node :: nodes) := by
  induction nodes with
  | nil => exact List.Perm.refl _
  | cons a nodes ih =>
      rw [insertAfterLast]
      split
      · exact (ih.cons a).trans (List.Perm.swap node a nodes)
      · exact List.Perm.refl _

/-- The two places are the same if no node with the property is behind one without it. -/
theorem insertAfterLast_eq_iff (hnode : node ∉ nodes) :
    insertAfterLast f node nodes = insertBeforeFirst f node nodes ↔
      nodes.Pairwise fun a b => f b = true → f a = true := by
  induction nodes with
  | nil => exact iff_of_true rfl List.Pairwise.nil
  | cons a nodes ih =>
      obtain ⟨hne, hnode⟩ := List.ne_and_not_mem_of_not_mem_cons hnode
      rw [List.pairwise_cons, insertAfterLast, List.any_cons]
      cases hf : f a with
      | true =>
          rw [insertBeforeFirst_cons_of_pos hf, Bool.true_or, if_pos rfl, List.cons.injEq,
            and_iff_right rfl, ih hnode]
          simp
      | false =>
          have hneg : ¬ f a = true := by rw [hf]; exact Bool.false_ne_true
          rw [insertBeforeFirst_cons_of_neg hneg, Bool.false_or]
          by_cases hany : nodes.any f = true
          · rw [if_pos hany]
            refine iff_of_false (fun heq => hne (List.cons.inj heq).1.symm) fun h => ?_
            obtain ⟨b, hb, hfb⟩ := List.any_eq_true.mp hany
            exact Bool.false_ne_true (h.1 b hb hfb)
          · rw [if_neg hany]
            have hnone : ∀ b ∈ nodes, ¬ f b = true := fun b hb hfb =>
              hany (List.any_eq_true.mpr ⟨b, hb, hfb⟩)
            refine iff_of_true rfl ⟨fun b hb hfb => absurd hfb (hnone b hb), ?_⟩
            exact List.pairwise_of_forall_mem_list fun _ _ b hb hfb => absurd hfb (hnone b hb)

/-- In front of the first greater node a sorted list takes the node in. -/
theorem pairwise_insertBeforeFirst {cmp : P → P → ℤ} (hcmp : OrdersNodes cmp)
    (h : nodes.Pairwise fun a b => cmp a b ≤ 0) :
    (insertBeforeFirst (fun cur => cmp cur node ≤ 0) node nodes).Pairwise
      fun a b => cmp a b ≤ 0 := by
  induction nodes with
  | nil => exact List.pairwise_singleton _ _
  | cons a nodes ih =>
      obtain ⟨ha, hnodes⟩ := List.pairwise_cons.mp h
      by_cases hle : cmp a node ≤ 0
      · rw [insertBeforeFirst_cons_of_pos (f := fun cur => cmp cur node ≤ 0) (decide_eq_true hle),
          List.pairwise_cons]
        refine ⟨fun b hb => ?_, ih hnodes⟩
        rcases List.mem_cons.mp (perm_insertBeforeFirst.subset hb) with rfl | hb
        · exact hle
        · exact ha b hb
      · have hneg : ¬ decide (cmp a node ≤ 0) = true := by simpa using hle
        have hge : cmp node a ≤ 0 := (hcmp.total node a).resolve_right hle
        rw [insertBeforeFirst_cons_of_neg (f := fun cur => cmp cur node ≤ 0) hneg,
          List.pairwise_cons]
        refine ⟨fun b hb => ?_, h⟩
        rcases List.mem_cons.mp hb with rfl | hb
        · exact hge
        · exact hcmp.trans node a b hge (ha b hb)

end Insertion

namespace NodeSeqs

variable {ι P : Type*} [DecidableEq ι] [DecidableEq P]

/-- What an operation does to the sequences, for a place where a node is inserted. -/
def step (place : (P → Bool) → P → List P → List P) (t : NodeSeqs ι P) :
    ListOp ι P → NodeSeqs ι P
  | .push i node => Function.update t i (t i ++ [node])
  | .pop i => Function.update t i (t i).tail
  | .rm i node => Function.update t i ((t i).erase node)
  | .insertOrdered i node cmp =>
      Function.update t i (place (fun cur => cmp cur node ≤ 0) node (t i))

def popped (t : NodeSeqs ι P) : ListOp ι P → Option P
  | .pop i => (t i).head?
  | _ => none

def entering : ListOp ι P → ι → List P
  | .push i node, j => if j = i then [node] else []
  | .insertOrdered i node _, j => if j = i then [node] else []
  | _, _ => []

def leaving (t : NodeSeqs ι P) : ListOp ι P → ι → List P
  | .pop i, j => if j = i then (t i).head?.toList else []
  | .rm i node, j => if j = i ∧ node ∈ t i then [node] else []
  | _, _ => []

/-- No node is in two places. -/
structure Apart (t : NodeSeqs ι P) : Prop where
  nodup : ∀ i, (t i).Nodup
  disjoint : ∀ i j, i ≠ j → ∀ node ∈ t i, node ∉ t j

/-- A node is put into a list only while it is in none, and the comparisons order the nodes. -/
def Allowed (t : NodeSeqs ι P) : ListOp ι P → Prop
  | .push _ node => ∀ j, node ∉ t j
  | .insertOrdered _ node cmp => (∀ j, node ∉ t j) ∧ OrdersNodes cmp
  | _ => True

def KeepsLast (t : NodeSeqs ι P) : ListOp ι P → Prop
  | .rm i node => ¬ ((t i).getLast? = some node ∧ 1 < (t i).length)
  | _ => True

/-- The operation does not insert a node into a list where one that is not greater is behind a
greater one. -/
def MeetsOrder (t : NodeSeqs ι P) : ListOp ι P → Prop
  | .insertOrdered i node cmp => (t i).Pairwise fun a b => cmp b node ≤ 0 → cmp a node ≤ 0
  | _ => True

instance [Fintype ι] [Fintype P] (t : NodeSeqs ι P) : ∀ op, Decidable (Allowed t op)
  | .push _ node => inferInstanceAs (Decidable (∀ j, node ∉ t j))
  | .pop _ => isTrue trivial
  | .rm _ _ => isTrue trivial
  | .insertOrdered _ node cmp =>
      inferInstanceAs (Decidable ((∀ j, node ∉ t j) ∧ OrdersNodes cmp))

instance (t : NodeSeqs ι P) : ∀ op, Decidable (KeepsLast t op)
  | .push _ _ => isTrue trivial
  | .pop _ => isTrue trivial
  | .rm i node => inferInstanceAs (Decidable (¬ ((t i).getLast? = some node ∧ 1 < (t i).length)))
  | .insertOrdered _ _ _ => isTrue trivial

instance (t : NodeSeqs ι P) : ∀ op, Decidable (MeetsOrder t op)
  | .push _ _ => isTrue trivial
  | .pop _ => isTrue trivial
  | .rm _ _ => isTrue trivial
  | .insertOrdered i node cmp =>
      inferInstanceAs (Decidable ((t i).Pairwise fun a b => cmp b node ≤ 0 → cmp a node ≤ 0))

section Step

variable {place : (P → Bool) → P → List P → List P} {t : NodeSeqs ι P} {op : ListOp ι P}

/-- No node is lost or doubled. -/
theorem perm_step (hplace : ∀ f node nodes, (place f node nodes).Perm (node :: nodes)) (j : ι) :
    (leaving t op j ++ step place t op j).Perm (entering op j ++ t j) := by
  cases op with
  | push i node =>
      by_cases hj : j = i
      · subst hj
        simp [leaving, entering, step, List.perm_append_singleton]
      · simp [leaving, entering, step, hj]
  | pop i =>
      by_cases hj : j = i
      · subst hj
        cases h : t j <;> simp [leaving, entering, step, h]
      · simp [leaving, entering, step, hj]
  | rm i node =>
      by_cases hj : j = i
      · subst hj
        by_cases hmem : node ∈ t j
        · simpa [leaving, entering, step, hmem] using (List.perm_cons_erase hmem).symm
        · simp [leaving, entering, step, hmem, List.erase_of_not_mem hmem]
      · simp [leaving, entering, step, hj]
  | insertOrdered i node cmp =>
      by_cases hj : j = i
      · subst hj
        simpa [leaving, entering, step] using hplace _ node (t j)
      · simp [leaving, entering, step, hj]

omit [DecidableEq P] in
/-- A node is put into one list, and was in none. -/
theorem of_mem_entering (hallowed : Allowed t op) {node : P} {j : ι}
    (hmem : node ∈ entering op j) :
    entering op j = [node] ∧ (∀ i, node ∉ t i) ∧ ∀ i, i ≠ j → entering op i = [] := by
  cases op with
  | push i node' =>
      simp only [entering] at hmem ⊢
      split at hmem
      · rename_i hj
        subst hj
        rw [List.mem_singleton.mp hmem]
        exact ⟨if_pos rfl, hallowed, fun i hi => if_neg hi⟩
      · cases hmem
  | pop i => cases hmem
  | rm i node' => cases hmem
  | insertOrdered i node' cmp =>
      simp only [entering] at hmem ⊢
      split at hmem
      · rename_i hj
        subst hj
        rw [List.mem_singleton.mp hmem]
        exact ⟨if_pos rfl, hallowed.1, fun i hi => if_neg hi⟩
      · cases hmem

theorem apart_step (hplace : ∀ f node nodes, (place f node nodes).Perm (node :: nodes))
    (h : Apart t) (hallowed : Allowed t op) : Apart (step place t op) := by
  have hmem : ∀ i node, node ∈ step place t op i → node ∈ entering op i ∨ node ∈ t i :=
    fun i node hnode =>
      List.mem_append.mp ((perm_step hplace i).subset (List.mem_append_right _ hnode))
  refine ⟨fun i => ?_, fun i j hij node hi hj => ?_⟩
  · have hnodup : (entering op i ++ t i).Nodup := by
      cases hin : entering op i with
      | nil => exact h.nodup i
      | cons a as =>
          obtain ⟨heq, hnot, -⟩ := of_mem_entering hallowed (hin ▸ List.mem_cons_self)
          rw [← hin, heq]
          exact List.nodup_cons.mpr ⟨hnot i, h.nodup i⟩
    exact ((perm_step hplace i).nodup_iff.mpr hnodup).of_append_right
  · rcases hmem i node hi with hi | hi
    · obtain ⟨-, hnot, hother⟩ := of_mem_entering hallowed hi
      rcases hmem j node hj with hj | hj
      · rw [hother j hij.symm] at hj
        cases hj
      · exact hnot j hj
    · rcases hmem j node hj with hj | hj
      · exact (of_mem_entering hallowed hj).2.1 i hi
      · exact h.disjoint i j hij node hi hj

end Step

end NodeSeqs

namespace NodeLists

variable {ι P : Type*} [DecidableEq ι]

/-- An operation has left these links and this list. -/
def set (s : NodeLists ι P) (i : ι) (r : (P → Option P) × NodeList P) : NodeLists ι P :=
  ⟨r.1, Function.update s.lists i r.2⟩

/-- The lists after `list_init`, with any pointers in the nodes. -/
def init (link : P → Option P) : NodeLists ι P := ⟨link, fun _ => NodeList.listInit⟩

/-- Each list, read from its head, is its sequence, and its `tail` points to the last node. -/
def Implements (s : NodeLists ι P) (t : NodeSeqs ι P) : Prop :=
  ∀ i, (s.lists i).Holds s.link (t i)

variable {s : NodeLists ι P} {t : NodeSeqs ι P} {i : ι}

theorem set_lists_self {r : (P → Option P) × NodeList P} : (s.set i r).lists i = r.2 :=
  Function.update_self ..

theorem set_lists_of_ne {j : ι} (hj : j ≠ i) {r : (P → Option P) × NodeList P} :
    (s.set i r).lists j = s.lists j :=
  Function.update_of_ne hj ..

theorem implements_set_iff {r : (P → Option P) × NodeList P} {nodes : List P}
    (hframe : ∀ j, j ≠ i → (s.lists j).Holds r.1 (t j)) :
    (s.set i r).Implements (Function.update t i nodes) ↔ r.2.Holds r.1 nodes := by
  constructor
  · intro h
    have hi := h i
    rw [set_lists_self, Function.update_self] at hi
    exact hi
  · intro h j
    by_cases hj : j = i
    · rw [hj, set_lists_self, Function.update_self]
      exact h
    · rw [set_lists_of_ne hj, Function.update_of_ne hj]
      exact hframe j hj

variable [DecidableEq P] [Fintype P]

open NodeList in
/-- What an operation does to the lists. There are no more nodes to visit than there are. -/
def step (s : NodeLists ι P) : ListOp ι P → NodeLists ι P
  | .push i node => s.set i (listPush s.link (s.lists i) node)
  | .pop i => s.set i (listPop s.link (s.lists i)).2
  | .rm i node => s.set i (listRm s.link (s.lists i) node (Fintype.card P))
  | .insertOrdered i node cmp =>
      s.set i (listInsertOrdered s.link (s.lists i) node cmp (Fintype.card P))

def popped (s : NodeLists ι P) : ListOp ι P → Option P
  | .pop i => (NodeList.listPop s.link (s.lists i)).1
  | _ => none

/-- An operation keeps the lists to their sequences exactly if it removes no last node of several,
and inserts a node where the sequence has it. -/
theorem implements_step_iff {place : (P → Bool) → P → List P → List P} {op : ListOp ι P}
    (h : s.Implements t) (hapart : t.Apart) (hallowed : t.Allowed op) :
    (s.step op).Implements (NodeSeqs.step place t op) ↔
      t.KeepsLast op ∧ ∀ i node cmp, op = .insertOrdered i node cmp →
        place (fun cur => cmp cur node ≤ 0) node (t i) =
          insertBeforeFirst (fun cur => cmp cur node ≤ 0) node (t i) := by
  have hlen : ∀ i, (t i).length ≤ Fintype.card P := fun i =>
    (hapart.nodup i).length_le_card
  cases op with
  | push i node =>
      rw [step, NodeSeqs.step, implements_set_iff fun j hj =>
        (h j).listPush_of_disjoint (h i) (hallowed j) fun a ha =>
          hapart.disjoint i j (Ne.symm hj) a ha]
      refine iff_of_true ?_ ⟨trivial, fun _ _ _ heq => by cases heq⟩
      exact NodeList.holds_listPush (h i) (hapart.nodup i) (hallowed i)
  | pop i =>
      refine iff_of_true ?_ ⟨trivial, fun _ _ _ heq => by cases heq⟩
      have hi := h i
      have hnodup := hapart.nodup i
      have hdisjoint := fun j hj => hapart.disjoint i j (Ne.symm hj)
      rw [step, NodeSeqs.step]
      cases hnodes : t i with
      | nil =>
          rw [hnodes] at hi
          rw [NodeList.listPop_of_holds_nil hi, implements_set_iff fun j _ => h j]
          exact hi
      | cons node nodes =>
          rw [hnodes] at hi hnodup hdisjoint
          rw [implements_set_iff fun j hj => (h j).listPop_of_disjoint hi
            (hdisjoint j hj node List.mem_cons_self)]
          exact (NodeList.holds_listPop hi hnodup).2
  | rm i node =>
      refine Iff.trans ?_ (and_iff_left fun _ _ _ heq => by cases heq).symm
      rw [step, NodeSeqs.step, NodeSeqs.KeepsLast]
      by_cases hmem : node ∈ t i
      · have hframe := (NodeList.chain_listRm (h i).chain hmem (hlen i)).2
        rw [implements_set_iff fun j hj => (h j).congr fun a ha =>
          hframe a (hapart.disjoint j i hj a ha)]
        exact NodeList.holds_listRm_iff (h i) hmem (hlen i)
      · rw [NodeList.listRm_of_not_mem (h i).chain hmem, List.erase_of_not_mem hmem,
          implements_set_iff fun j _ => h j]
        exact iff_of_true (h i) fun hlast => hmem (List.mem_of_getLast? hlast.1)
  | insertOrdered i node cmp =>
      have hcode := NodeList.holds_listInsertOrdered (h i) cmp (hallowed.1 i) (hlen i)
      rw [step, NodeSeqs.step, implements_set_iff fun j hj => (h j).congr fun a ha =>
        hcode.2 a (fun heq => hallowed.1 j (heq ▸ ha)) (hapart.disjoint j i hj a ha)]
      constructor
      · intro hspec
        refine ⟨trivial, fun _ _ _ heq => ?_⟩
        cases heq
        exact hspec.chain.unique hcode.1.chain
      · rintro ⟨-, heq⟩
        rw [heq i node cmp rfl]
        exact hcode.1

omit [DecidableEq ι] [Fintype P] in
/-- A pop returns the first node. -/
theorem popped_eq (h : s.Implements t) (hapart : t.Apart) (op : ListOp ι P) :
    s.popped op = t.popped op := by
  cases op with
  | pop i =>
      rw [popped, NodeSeqs.popped]
      have hi := h i
      cases hnodes : t i with
      | nil =>
          rw [hnodes] at hi
          rw [NodeList.listPop_of_holds_nil hi]
          rfl
      | cons node nodes =>
          rw [hnodes] at hi
          exact (NodeList.holds_listPop hi (hnodes ▸ hapart.nodup i)).1
  | push i node => rfl
  | rm i node => rfl
  | insertOrdered i node cmp => rfl

section Run

variable (place : (P → Bool) → P → List P → List P)

def stepBoth (st : NodeLists ι P × NodeSeqs ι P) (op : ListOp ι P) :
    NodeLists ι P × NodeSeqs ι P :=
  (st.1.step op, NodeSeqs.step place st.2 op)

/-- After the operation the lists are the sequences, with the right `tail`. It returns what it
does for the sequences, no node is lost or in two places, and a sorted list in which it inserts a
node is sorted again. -/
structure StepRight (st : NodeLists ι P × NodeSeqs ι P) (op : ListOp ι P) : Prop where
  implements : (stepBoth place st op).1.Implements (stepBoth place st op).2
  popped : st.1.popped op = st.2.popped op
  apart : (stepBoth place st op).2.Apart
  perm : ∀ j, (st.2.leaving op j ++ (stepBoth place st op).2 j).Perm
    (NodeSeqs.entering op j ++ st.2 j)
  sorted : ∀ i node cmp, op = .insertOrdered i node cmp →
    (st.2 i).Pairwise (fun a b => cmp a b ≤ 0) →
      ((stepBoth place st op).2 i).Pairwise fun a b => cmp a b ≤ 0

variable {place}

theorem stepRight_iff (hplace : ∀ f node nodes, (place f node nodes).Perm (node :: nodes))
    {st : NodeLists ι P × NodeSeqs ι P} {op : ListOp ι P} (h : st.1.Implements st.2)
    (hapart : st.2.Apart) (hallowed : st.2.Allowed op) :
    StepRight place st op ↔
      st.2.KeepsLast op ∧ ∀ i node cmp, op = .insertOrdered i node cmp →
        place (fun cur => cmp cur node ≤ 0) node (st.2 i) =
          insertBeforeFirst (fun cur => cmp cur node ≤ 0) node (st.2 i) := by
  rw [← implements_step_iff h hapart hallowed]
  constructor
  · exact StepRight.implements
  · intro himpl
    refine ⟨himpl, popped_eq h hapart op, NodeSeqs.apart_step hplace hapart hallowed,
      NodeSeqs.perm_step hplace, fun i node cmp heq hsorted => ?_⟩
    have hinsert := ((implements_step_iff h hapart hallowed).mp himpl).2 i node cmp heq
    subst heq
    rw [stepBoth, NodeSeqs.step]
    dsimp only
    rw [Function.update_self, hinsert]
    exact pairwise_insertBeforeFirst hallowed.2 hsorted

variable (link : P → Option P) (ops : List (ListOp ι P))

theorem along_stepRight_iff
    (hplace : ∀ f node nodes, (place f node nodes).Perm (node :: nodes))
    (hallowed : Run.Along (stepBoth place) (fun st op => st.2.Allowed op)
      (init link, fun _ => []) ops) :
    Run.Along (stepBoth place) (StepRight place) (init link, fun _ => []) ops ↔
      Run.Along (stepBoth place)
        (fun st op => st.2.KeepsLast op ∧ ∀ i node cmp, op = .insertOrdered i node cmp →
          place (fun cur => cmp cur node ≤ 0) node (st.2 i) =
            insertBeforeFirst (fun cur => cmp cur node ≤ 0) node (st.2 i))
        (init link, fun _ => []) ops := by
  refine hallowed.iff_of_carry (I := fun st => st.1.Implements st.2 ∧ st.2.Apart)
    ⟨fun _ => NodeList.holds_listInit link, ?_⟩ ?_ ?_
  · exact ⟨fun _ => List.nodup_nil, fun _ _ _ _ hmem => by cases hmem⟩
  · exact fun st op hst hop => stepRight_iff hplace hst.1 hst.2 hop
  · exact fun st op _ _ hright => ⟨hright.implements, hright.apart⟩

/-- The lists are the sequences all along a run in which nodes are inserted while they are in no
list, exactly if no step removes the last one of several nodes and none inserts a node where one
that is not greater is behind a greater one. Where a node belongs in front of the first one that is
greater, the last proviso falls away. -/
theorem along_refines_iff :
    (Run.Along (stepBoth insertAfterLast) (fun st op => st.2.Allowed op)
        (init link, fun _ => []) ops →
      (Run.Along (stepBoth insertAfterLast) (StepRight insertAfterLast)
          (init link, fun _ => []) ops ↔
        Run.Along (stepBoth insertAfterLast)
          (fun st op => st.2.KeepsLast op ∧ st.2.MeetsOrder op) (init link, fun _ => []) ops)) ∧
    (Run.Along (stepBoth insertBeforeFirst) (fun st op => st.2.Allowed op)
        (init link, fun _ => []) ops →
      (Run.Along (stepBoth insertBeforeFirst) (StepRight insertBeforeFirst)
          (init link, fun _ => []) ops ↔
        Run.Along (stepBoth insertBeforeFirst) (fun st op => st.2.KeepsLast op)
          (init link, fun _ => []) ops)) := by
  constructor
  · intro hallowed
    rw [along_stepRight_iff link ops (fun _ _ _ => perm_insertAfterLast) hallowed]
    refine hallowed.iff_of_carry (I := fun _ => True) trivial (fun st op _ hop => ?_)
      fun _ _ _ _ _ => trivial
    refine and_congr_right fun _ => ?_
    cases op with
    | insertOrdered i node cmp =>
        have hiff := insertAfterLast_eq_iff (f := fun cur => cmp cur node ≤ 0) (hop.1 i)
        simp only [decide_eq_true_eq] at hiff
        rw [NodeSeqs.MeetsOrder, ← hiff]
        constructor
        · exact fun h => h i node cmp rfl
        · intro h _ _ _ heq
          cases heq
          exact h
    | push i node => exact iff_of_true (fun _ _ _ heq => by cases heq) trivial
    | pop i => exact iff_of_true (fun _ _ _ heq => by cases heq) trivial
    | rm i node => exact iff_of_true (fun _ _ _ heq => by cases heq) trivial
  · intro hallowed
    rw [along_stepRight_iff link ops (fun _ _ _ => perm_insertBeforeFirst) hallowed]
    simp

def byNumber (a b : Fin 3) : ℤ := a.val - b.val

def mixedRun (i : ι) (a b c : P) (cmp : P → P → ℤ) : List (ListOp ι P) :=
  [.push i b, .insertOrdered i a cmp, .insertOrdered i c cmp, .rm i b, .push i b, .pop i]

theorem along_refines_mixedRun :
    Run.Along (stepBoth insertAfterLast) (StepRight insertAfterLast)
      (init fun _ => none, fun _ => []) (mixedRun (0 : Fin 1) (0 : Fin 3) 1 2 byNumber) :=
  ((along_refines_iff (fun _ => none) _).1 (by decide)).mpr (by decide)

def staleRun (i : ι) (a b c : P) : List (ListOp ι P) :=
  [.push i a, .push i b, .rm i b, .push i c]

/-- The node that is pushed is linked to the one that was removed, and is not found. -/
theorem not_along_refines_staleRun :
    let ops := staleRun (0 : Fin 1) (0 : Fin 3) 1 2
    Run.Along (stepBoth insertAfterLast) (fun st op => st.2.Allowed op)
        (init fun _ => none, fun _ => []) ops ∧
      ¬ Run.Along (stepBoth insertAfterLast) (StepRight insertAfterLast)
        (init fun _ => none, fun _ => []) ops := by
  intro ops
  refine ⟨by decide, fun h => ?_⟩
  have hlink : (Run.exec step (init fun _ => none) ops).link 0 = some 2 :=
    (h.2.2.2.1.implements 0).chain.2.1
  exact absurd hlink (by decide)

end Run

end NodeLists

end BaoHypervisor
