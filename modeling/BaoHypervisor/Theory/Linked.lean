import Mathlib.Data.List.Basic
import Mathlib.Logic.Function.Basic

/-!
# Linked lists in memory

`Chain next p as` says that the links in `next` lead from the pointer `p` through
the nodes `as` in order and end there. A queue keeps a pointer to its first node and
one to its last (`Queue`). Appending a node (`Queue.push`) and taking the first one
off (`Queue.pop`) change the links of the nodes of the queue only, so that two
queues without a common node do not disturb each other (`Queue.congr`). A queue whose
last node was unlinked without a change to the pointer to it is a `LooseQueue`: nodes
that are appended to it may not be found from its head.
-/

namespace Linked

variable {P : Type*}

/-- The links lead from `p` through the nodes and end. -/
def Chain (next : P → Option P) : Option P → List P → Prop
  | p, [] => p = none
  | p, a :: as => p = some a ∧ Chain next (next a) as

theorem Chain.congr {next next' : P → Option P} {p : Option P} {as : List P}
    (h : Chain next p as) (heq : ∀ a ∈ as, next' a = next a) : Chain next' p as := by
  induction as generalizing p with
  | nil => exact h
  | cons a as ih =>
      refine ⟨h.1, ?_⟩
      rw [heq a List.mem_cons_self]
      exact ih h.2 fun b hb => heq b (List.mem_cons_of_mem a hb)

theorem Chain.unique {next : P → Option P} {p : Option P} {as bs : List P}
    (h : Chain next p as) (h' : Chain next p bs) : as = bs := by
  induction as generalizing p bs with
  | nil =>
      cases bs with
      | nil => rfl
      | cons b bs => cases h.symm.trans h'.1
  | cons a as ih =>
      cases bs with
      | nil => cases h.1.symm.trans h'
      | cons b bs =>
          obtain rfl : a = b := Option.some.inj (h.1.symm.trans h'.1)
          rw [ih h.2 h'.2]

/-- No node is come to twice. -/
theorem Chain.nodup {next : P → Option P} {p : Option P} {as : List P} (h : Chain next p as) :
    as.Nodup := by
  induction as generalizing p with
  | nil => exact List.nodup_nil
  | cons a as ih =>
      refine List.nodup_cons.mpr ⟨fun hmem => ?_, ih h.2⟩
      have hfrom : ∀ (bs : List P) (q : Option P), Chain next q bs → a ∈ bs →
          ∃ cs, cs.length ≤ bs.length ∧ Chain next (some a) cs := by
        intro bs
        induction bs with
        | nil => exact fun _ _ hmem => absurd hmem List.not_mem_nil
        | cons b bs ihb =>
            intro q hq hmem
            rcases List.mem_cons.mp hmem with rfl | hmem
            · exact ⟨a :: bs, Nat.le_refl _, rfl, hq.2⟩
            · obtain ⟨cs, hlen, hcs⟩ := ihb _ hq.2 hmem
              exact ⟨cs, Nat.le_succ_of_le hlen, hcs⟩
      obtain ⟨cs, hlen, hcs⟩ := hfrom as _ h.2 hmem
      have hall : Chain next (some a) (a :: as) := ⟨rfl, h.2⟩
      rw [hcs.unique hall, List.length_cons] at hlen
      exact absurd hlen (Nat.not_succ_le_self _)

theorem Chain.next_ne_self {next : P → Option P} {a : P} {as : List P}
    (h : Chain next (some a) as) : next a ≠ some a := by
  intro heq
  cases as with
  | nil => cases h
  | cons b as =>
      obtain rfl : a = b := Option.some.inj h.1
      have hrest : Chain next (some a) as := heq ▸ h.2
      exact absurd (congrArg List.length (hrest.unique h)) (by simp)

/-- The first nodes that the links lead through, at most `n` of them. -/
def walk (next : P → Option P) : ℕ → Option P → List P
  | n + 1, some a => a :: walk next n (next a)
  | _, _ => []

theorem Chain.walk_eq {next : P → Option P} {p : Option P} {as : List P} {n : ℕ}
    (h : Chain next p as) (hlen : as.length ≤ n) : walk next n p = as := by
  induction as generalizing p n with
  | nil =>
      have hp : p = none := h
      rw [hp, walk]
      exact fun _ _ _ heq => nomatch heq
  | cons a as ih =>
      obtain ⟨m, rfl⟩ : ∃ m, n = m + 1 := ⟨n - 1, by rw [List.length_cons] at hlen; omega⟩
      rw [h.1, walk, ih h.2 (Nat.le_of_succ_le_succ hlen)]

theorem Chain.eq_head? {next : P → Option P} {p : Option P} {as : List P}
    (h : Chain next p as) : p = as.head? := by
  cases as with
  | nil => exact h
  | cons a as => exact h.1

/-- The first node without a property, among the first `n`, behind the one before it. -/
def seekWhile (next : P → Option P) (f : P → Bool) : ℕ → Option P → Option P → Option P × Option P
  | n + 1, prev, some a => if f a then seekWhile next f n (some a) (next a) else (prev, some a)
  | _, prev, cur => (prev, cur)

theorem Chain.seekWhile_eq {next : P → Option P} {p : Option P} {as : List P}
    (h : Chain next p as) (f : P → Bool) {n : ℕ} (hlen : as.length ≤ n) (prev : Option P) :
    seekWhile next f n prev p =
      ((as.takeWhile f).getLast?.or prev, (as.dropWhile f).head?) := by
  induction as generalizing p n prev with
  | nil =>
      have hp : p = none := h
      rw [hp]
      cases n <;> rfl
  | cons a as ih =>
      obtain ⟨m, rfl⟩ : ∃ m, n = m + 1 := ⟨n - 1, by rw [List.length_cons] at hlen; omega⟩
      rw [h.1, seekWhile, ih h.2 (Nat.le_of_succ_le_succ hlen)]
      cases hf : f a with
      | false => simp [hf]
      | true =>
          rw [if_pos rfl, List.takeWhile_cons_of_pos hf, List.dropWhile_cons_of_pos hf]
          cases as.takeWhile f with
          | nil => rfl
          | cons b bs =>
              rw [List.getLast?_cons_cons, List.getLast?_eq_some_getLast (List.cons_ne_nil b bs)]
              rfl

section Seek

variable [DecidableEq P]

/-- The node that links to a node, if it is found among the first `n`: `some none` for the
first one of all. -/
def seek (next : P → Option P) (node : P) : ℕ → Option P → Option P → Option (Option P)
  | n + 1, prev, some a => if a = node then some prev else seek next node n (some a) (next a)
  | _, _, _ => none

theorem Chain.seek_eq_some {next : P → Option P} {node : P} {p : Option P} {pre post : List P}
    (h : Chain next p (pre ++ node :: post)) (hnode : node ∉ pre) {n : ℕ}
    (hlen : pre.length < n) (prev : Option P) :
    seek next node n prev p = some (pre.getLast?.or prev) := by
  induction pre generalizing p n prev with
  | nil =>
      obtain ⟨m, rfl⟩ : ∃ m, n = m + 1 := ⟨n - 1, by omega⟩
      rw [h.1, seek, if_pos rfl]
      rfl
  | cons a pre ih =>
      rw [List.mem_cons, not_or] at hnode
      obtain ⟨m, rfl⟩ : ∃ m, n = m + 1 := ⟨n - 1, by omega⟩
      rw [h.1, seek, if_neg (Ne.symm hnode.1),
        ih h.2 hnode.2 (Nat.lt_of_succ_lt_succ hlen) (some a)]
      cases pre with
      | nil => rfl
      | cons b pre =>
          rw [List.getLast?_cons_cons]
          cases hlast : (b :: pre).getLast? with
          | none => cases List.getLast?_eq_none_iff.mp hlast
          | some c => rfl

theorem Chain.seek_eq_none {next : P → Option P} {node : P} {p : Option P} {as : List P}
    (h : Chain next p as) (hnode : node ∉ as) (n : ℕ) (prev : Option P) :
    seek next node n prev p = none := by
  induction as generalizing p n prev with
  | nil =>
      have hp : p = none := h
      rw [hp]
      cases n <;> rfl
  | cons a as ih =>
      rw [List.mem_cons, not_or] at hnode
      cases n with
      | zero => rfl
      | succ n => rw [h.1, seek, if_neg (Ne.symm hnode.1), ih h.2 hnode.2]

/-- The links of a chain from which the node after the last one of `pre` is taken. -/
theorem Chain.unlink {next : P → Option P} {node last : P} {p : Option P} {pre post : List P}
    (h : Chain next p (pre ++ node :: post)) (hnodup : (pre ++ node :: post).Nodup)
    (hlast : pre.getLast? = some last) :
    Chain (Function.update next last (next node)) p (pre ++ post) := by
  induction pre generalizing p with
  | nil => cases hlast
  | cons a pre ih =>
      obtain ⟨ha, hnodup⟩ := List.nodup_cons.mp hnodup
      refine ⟨h.1, ?_⟩
      cases pre with
      | nil =>
          obtain rfl : a = last := by simpa using hlast
          rw [Function.update_self]
          refine h.2.2.congr fun b hb => Function.update_of_ne ?_ _ _
          rintro rfl
          exact ha (List.mem_append_right _ (List.mem_cons_of_mem _ hb))
      | cons b pre =>
          have hlast' : (b :: pre).getLast? = some last := by simpa using hlast
          have hne : a ≠ last := by
            rintro rfl
            exact ha (List.mem_append_left _ (List.mem_of_getLast? hlast'))
          rw [Function.update_of_ne hne]
          exact ih h.2 hnodup hlast'

end Seek

/-- A pointer to the first node and one to the last. -/
structure Queue (next : P → Option P) (head tail : Option P) (as : List P) : Prop where
  chain : Chain next head as
  tail_eq : tail = as.getLast?

section Queue

variable {next next' : P → Option P} {head tail : Option P} {a : P} {as : List P}

theorem Queue.congr (h : Queue next head tail as) (heq : ∀ a ∈ as, next' a = next a) :
    Queue next' head tail as :=
  ⟨h.chain.congr heq, h.tail_eq⟩

theorem queue_nil : Queue next none none [] := ⟨rfl, rfl⟩

variable [DecidableEq P]

theorem Chain.insert_head {p : Option P} (h : Chain next p as) (ha : a ∉ as) :
    Chain (Function.update next a as.head?) (some a) (a :: as) := by
  refine ⟨rfl, ?_⟩
  rw [Function.update_self, ← h.eq_head?]
  refine h.congr fun b hb => Function.update_of_ne ?_ _ _
  rintro rfl
  exact ha hb

/-- The links of a chain into which a node is linked behind the last one of `pre`. -/
theorem Chain.insert {p : Option P} {pre post : List P} {last : P}
    (h : Chain next p (pre ++ post)) (hnodup : (pre ++ post).Nodup) (ha : a ∉ pre ++ post)
    (hlast : pre.getLast? = some last) :
    Chain (Function.update (Function.update next a post.head?) last (some a)) p
      (pre ++ a :: post) := by
  induction pre generalizing p with
  | nil => cases hlast
  | cons b pre ih =>
      obtain ⟨hb, hnodup⟩ := List.nodup_cons.mp hnodup
      obtain ⟨hab, ha⟩ := List.ne_and_not_mem_of_not_mem_cons ha
      refine ⟨h.1, ?_⟩
      cases pre with
      | nil =>
          obtain rfl : b = last := by simpa using hlast
          rw [Function.update_self]
          have hrest : Chain next (next b) post := h.2
          refine (hrest.insert_head ha).congr fun c hc => Function.update_of_ne ?_ _ _
          rintro rfl
          rcases List.mem_cons.mp hc with heq | hc
          · exact hab heq.symm
          · exact hb hc
      | cons c pre =>
          have hlast' : (c :: pre).getLast? = some last := by simpa using hlast
          have hne : b ≠ last := fun heq =>
            hb (List.mem_append_left _ (heq ▸ List.mem_of_getLast? hlast'))
          rw [Function.update_of_ne hne, Function.update_of_ne hab.symm]
          exact ih h.2 hnodup ha hlast'

/-- A new node is linked in behind `pre`. -/
theorem Queue.insert {pre post : List P} (h : Queue next head tail (pre ++ post))
    (hnodup : (pre ++ post).Nodup) (ha : a ∉ pre ++ post) :
    Queue
      (match pre.getLast? with
        | some last => Function.update (Function.update next a post.head?) last (some a)
        | none => Function.update next a post.head?)
      (if pre.getLast? = none then some a else head)
      (if post.head? = none then some a else tail) (pre ++ a :: post) := by
  refine ⟨?_, ?_⟩
  · cases hlast : pre.getLast? with
    | none =>
        rw [List.getLast?_eq_none_iff.mp hlast, List.nil_append] at h ha ⊢
        rw [if_pos rfl]
        exact h.chain.insert_head ha
    | some last =>
        rw [if_neg (Option.some_ne_none last)]
        exact h.chain.insert hnodup ha hlast
  · rw [List.getLast?_append_cons]
    cases post with
    | nil => rfl
    | cons b post =>
        rw [List.getLast?_cons_cons, h.tail_eq, List.getLast?_append_cons]
        rfl

/-- A new node is linked to the last one, or becomes the first one. -/
theorem Queue.push (h : Queue next head tail as) (hnodup : as.Nodup) (ha : a ∉ as) :
    Queue
      (match tail with
        | some last => Function.update (Function.update next a none) last (some a)
        | none => Function.update next a none)
      (if head = none then some a else head) (some a) (as ++ [a]) := by
  refine ⟨?_, by simp⟩
  cases as with
  | nil =>
      have hhead : head = none := h.chain
      have htail : tail = none := h.tail_eq
      subst hhead htail
      exact ⟨rfl, Function.update_self ..⟩
  | cons b bs =>
      have hhead : head = some b := h.chain.1
      obtain ⟨last, hlast⟩ : ∃ last, (b :: bs).getLast? = some last :=
        ⟨_, List.getLast?_eq_some_getLast (List.cons_ne_nil b bs)⟩
      rw [h.tail_eq, hlast, hhead, if_neg (by simp), ← hhead]
      have hchain : Chain next head (b :: bs ++ []) := by
        rw [List.append_nil]
        exact h.chain
      rw [← List.append_nil (b :: bs)] at hnodup ha
      exact hchain.insert hnodup ha hlast

/-- The first node is taken off. -/
theorem Queue.pop (h : Queue next (some a) tail as) (hnodup : as.Nodup) :
    ∃ bs, as = a :: bs ∧
      Queue (Function.update next a none) (next a) (if next a = none then none else tail) bs := by
  cases as with
  | nil => cases h.chain
  | cons b bs =>
      obtain rfl : a = b := Option.some.inj h.chain.1
      obtain ⟨ha, -⟩ := List.nodup_cons.mp hnodup
      have hchain : Chain (Function.update next a none) (next a) bs := by
        refine h.chain.2.congr fun c hc => Function.update_of_ne ?_ _ _
        rintro rfl
        exact ha hc
      refine ⟨bs, rfl, hchain, ?_⟩
      cases bs with
      | nil =>
          have hnext : next a = none := hchain
          rw [if_pos hnext]
          rfl
      | cons c cs =>
          have hnext : next a = some c := hchain.1
          rw [hnext, if_neg (by simp), h.tail_eq]
          simp

end Queue

/-- A queue whose pointer to the last node may have been left at a node that was unlinked. -/
structure LooseQueue (next : P → Option P) (head tail : Option P) (as : List P) : Prop where
  chain : Chain next head as
  tail_nil : as = [] → tail = none
  tail_cons : as ≠ [] → ∃ last, tail = some last ∧ (last ∈ as → as.getLast? = some last)

section LooseQueue

variable {next next' : P → Option P} {head tail : Option P} {a : P} {as pre post : List P}

theorem LooseQueue.congr (h : LooseQueue next head tail as) (heq : ∀ a ∈ as, next' a = next a) :
    LooseQueue next' head tail as :=
  ⟨h.chain.congr heq, h.tail_nil, h.tail_cons⟩

theorem looseQueue_nil : LooseQueue next none none [] :=
  ⟨rfl, fun _ => rfl, fun hne => absurd rfl hne⟩

theorem Queue.loose (h : Queue next head tail as) : LooseQueue next head tail as := by
  refine ⟨h.chain, fun hnil => ?_, fun hne => ?_⟩
  · rw [h.tail_eq, hnil, List.getLast?_nil]
  · have hlast := List.getLast?_eq_some_getLast hne
    exact ⟨_, h.tail_eq.trans hlast, fun _ => hlast⟩

/-- The first node is unlinked. -/
theorem LooseQueue.unlink_head (h : LooseQueue next head tail (a :: post)) :
    LooseQueue next (next a) (if next a = none then none else tail) post := by
  refine ⟨h.chain.2, fun hnil => ?_, fun hne => ?_⟩
  · have hnext : next a = none := by simpa [hnil, Chain] using h.chain.2
    rw [if_pos hnext]
  · have hnext : next a ≠ none := by
      intro hnone
      cases post with
      | nil => exact hne rfl
      | cons b post => cases hnone.symm.trans h.chain.2.1
    obtain ⟨last, hlast, hmem⟩ := h.tail_cons (List.cons_ne_nil a post)
    refine ⟨last, (if_neg hnext).trans hlast, fun hpost => ?_⟩
    have heq := hmem (List.mem_cons_of_mem a hpost)
    cases post with
    | nil => exact absurd rfl hne
    | cons b post => rwa [List.getLast?_cons_cons] at heq

variable [DecidableEq P]

/-- A node that is appended becomes the last one, or is not found from the head. -/
theorem LooseQueue.push (h : LooseQueue next head tail as) (hnodup : as.Nodup) (ha : a ∉ as) :
    ∃ bs, (bs = as ∨ bs = as ++ [a]) ∧
      LooseQueue
        (match tail with
          | some last => Function.update (Function.update next a none) last (some a)
          | none => Function.update next a none)
        (if head = none then some a else head) (some a) bs := by
  by_cases hqueue : tail = as.getLast?
  · exact ⟨as ++ [a], .inr rfl, (Queue.push ⟨h.chain, hqueue⟩ hnodup ha).loose⟩
  · have hne : as ≠ [] := fun hnil => hqueue (by rw [h.tail_nil hnil, hnil, List.getLast?_nil])
    obtain ⟨last, rfl, hlast⟩ := h.tail_cons hne
    have hnot : last ∉ as := fun hmem => hqueue (hlast hmem).symm
    have hhead : head ≠ none := by
      rintro rfl
      cases as with
      | nil => exact hne rfl
      | cons b bs => cases h.chain.1
    refine ⟨as, .inl rfl, ?_, fun hnil => absurd hnil hne, fun _ => ⟨a, rfl, ?_⟩⟩
    · rw [if_neg hhead]
      refine h.chain.congr fun b hb => ?_
      have hbl : b ≠ last := fun heq => hnot (heq ▸ hb)
      have hba : b ≠ a := fun heq => ha (heq ▸ hb)
      dsimp only
      rw [Function.update_of_ne hbl, Function.update_of_ne hba]
    · exact fun hmem => absurd hmem ha

/-- A node behind the first one is unlinked, and the pointer to the last node stays. -/
theorem LooseQueue.unlink {last : P} (h : LooseQueue next head tail (pre ++ a :: post))
    (hnodup : (pre ++ a :: post).Nodup) (hlast : pre.getLast? = some last) :
    LooseQueue (Function.update next last (next a)) head tail (pre ++ post) := by
  have hpre : pre ≠ [] := by
    rintro rfl
    cases hlast
  refine ⟨h.chain.unlink hnodup hlast, fun hnil => ?_, fun _ => ?_⟩
  · exact absurd (List.append_eq_nil_iff.mp hnil).1 hpre
  · obtain ⟨b, hb, hmem⟩ := h.tail_cons (by simp)
    refine ⟨b, hb, fun hmem' => ?_⟩
    have hend := hmem (by
      rcases List.mem_append.mp hmem' with hmem' | hmem'
      · exact List.mem_append_left _ hmem'
      · exact List.mem_append_right _ (List.mem_cons_of_mem _ hmem'))
    rw [List.getLast?_append_cons] at hend
    cases post with
    | nil =>
        obtain rfl : a = b := by simpa using hend
        rw [List.append_nil] at hmem'
        exact absurd hmem' fun hin => by
          rw [List.nodup_append] at hnodup
          exact hnodup.2.2 a hin a List.mem_cons_self rfl
    | cons c post =>
        rw [List.getLast?_cons_cons] at hend
        rw [List.getLast?_append_cons, hend]

end LooseQueue

end Linked
