import BaoHypervisor.Theory.Run
import Mathlib.Logic.Function.Basic

/-!
# Programs that share an object

A program calls an object and goes on with the answer. Programs that call the same object do so in
any order, a call at a time. What holds of a program whatever the answers are (`Sat`) holds of it
among others, for the answers that it has had (`sat_exec`), and the answers are those of the object
to the calls of all of them, one after the other (`replays_exec`). A program that has the object for
itself comes to its end (`alone`).
-/

inductive Client (κ β α : Type*)
  | ret (a : α)
  | call (c : κ) (next : β → Client κ β α)

namespace Client

variable {κ β α γ : Type*}

def result : Client κ β α → Option α
  | ret a => some a
  | call _ _ => none

theorem eq_ret_of_result {x : Client κ β α} {a : α} (h : x.result = some a) : x = ret a := by
  cases x with
  | ret b => rw [Option.some.inj h]
  | call c next => cases h

def bind : Client κ β α → (α → Client κ β γ) → Client κ β γ
  | ret a, f => f a
  | call c next, f => call c fun b => (next b).bind f

/-- What the program returns, and what the object is then, if nobody else calls it. -/
def alone {σ : Type*} (answer : σ → κ → β × σ) : Client κ β α → σ → α × σ
  | ret a, s => (a, s)
  | call c next, s => (next (answer s c).1).alone answer (answer s c).2

/-- What the program returns meets `Q`, with its calls and whatever answers it has had to them. -/
def Sat (Q : List (κ × β) → α → Prop) : List (κ × β) → Client κ β α → Prop
  | log, ret a => Q log a
  | log, call c next => ∀ b, Sat Q (log ++ [(c, b)]) (next b)

variable {Q : List (κ × β) → α → Prop} {log : List (κ × β)} {x : Client κ β α}

theorem sat_true (log : List (κ × β)) (x : Client κ β α) : Sat (fun _ _ => True) log x := by
  induction x generalizing log with
  | ret a => trivial
  | call c next ih => exact fun b => ih b _

@[simp] theorem sat_ret {a : α} : Sat Q log (ret a) ↔ Q log a := Iff.rfl

@[simp] theorem sat_call {c : κ} {next : β → Client κ β α} :
    Sat Q log (call c next) ↔ ∀ b, Sat Q (log ++ [(c, b)]) (next b) := Iff.rfl

theorem Sat.mono {Q' : List (κ × β) → α → Prop} (h : Sat Q log x)
    (hQ : ∀ log a, Q log a → Q' log a) : Sat Q' log x := by
  induction x generalizing log with
  | ret a => exact hQ log a h
  | call c next ih => exact fun b => ih b (h b)

theorem sat_bind {Q : List (κ × β) → γ → Prop} {f : α → Client κ β γ} :
    Sat Q log (x.bind f) ↔ Sat (fun log a => Sat Q log (f a)) log x := by
  induction x generalizing log with
  | ret a => rfl
  | call c next ih => exact forall_congr' fun b => ih b

/-! ## Programs that stop -/

/-- A program that may stop without a result is followed by another one. -/
def bindSome (x : Client κ β (Option α)) (f : α → Client κ β (Option γ)) :
    Client κ β (Option γ) :=
  x.bind fun
    | none => ret none
    | some a => f a

/-- What the program returns meets `P`, if it does not stop. -/
def SatSome (P : List (κ × β) → α → Prop) (log : List (κ × β)) (x : Client κ β (Option α)) : Prop :=
  Sat (fun log r => ∀ a ∈ r, P log a) log x

section Stops

variable {P : List (κ × β) → α → Prop} {x : Client κ β (Option α)}

@[simp] theorem satSome_none : SatSome P log (ret none) := fun _ h => nomatch h

@[simp] theorem satSome_some {a : α} : SatSome P log (ret (some a)) ↔ P log a := by
  simp [SatSome]

theorem SatSome.mono {P' : List (κ × β) → α → Prop} (h : SatSome P log x)
    (hP : ∀ log a, P log a → P' log a) : SatSome P' log x :=
  Sat.mono h fun log _ hr a ha => hP log a (hr a ha)

theorem SatSome.bindSome {P' : List (κ × β) → γ → Prop} {f : α → Client κ β (Option γ)}
    (h : SatSome P log x) (hf : ∀ log a, P log a → SatSome P' log (f a)) :
    SatSome P' log (x.bindSome f) := by
  refine sat_bind.mpr (Sat.mono h fun log r hr => ?_)
  cases r with
  | none => exact satSome_none
  | some a => exact hf log a (hr a rfl)

/-- The same as `alone`, for a program that does not stop. -/
def aloneSome {σ : Type*} (answer : σ → κ → β × σ) (x : Client κ β (Option α)) (s : σ) :
    Option (α × σ) :=
  (x.alone answer s).1.map (·, (x.alone answer s).2)

variable {σ : Type*} {answer : σ → κ → β × σ} {s : σ}

@[simp] theorem aloneSome_none : (ret none : Client κ β (Option α)).aloneSome answer s = none := rfl

@[simp] theorem aloneSome_some {a : α} :
    (ret (some a) : Client κ β (Option α)).aloneSome answer s = some (a, s) := rfl

theorem aloneSome_bind {δ : Type*} {x : Client κ β δ} {f : δ → Client κ β (Option γ)} :
    (x.bind f).aloneSome answer s =
      (f (x.alone answer s).1).aloneSome answer (x.alone answer s).2 := by
  induction x generalizing s with
  | ret a => rfl
  | call c next ih => exact ih _

theorem aloneSome_bindSome {f : α → Client κ β (Option γ)} :
    (x.bindSome f).aloneSome answer s =
      (x.aloneSome answer s).bind fun r => (f r.1).aloneSome answer r.2 := by
  rw [bindSome, aloneSome_bind, aloneSome.eq_1 answer x s]
  cases (x.alone answer s).1 with
  | none => rfl
  | some a => rfl

variable {δ ε : Type*} {R : α × σ → δ → Prop} {R' : γ × σ → ε → Prop}

/-- Alone, the program stops iff there is no result to compare it with, and else returns one that is
related to it. -/
def Agrees (answer : σ → κ → β × σ) (R : α × σ → δ → Prop) (x : Client κ β (Option α)) (s : σ)
    (y : Option δ) : Prop :=
  Option.Rel R (x.aloneSome answer s) y

theorem agrees_none : Agrees answer R (ret none) s none := .none

theorem agrees_some {a : α} {b : δ} (h : R (a, s) b) :
    Agrees answer R (ret (some a)) s (some b) := .some h

theorem agrees_ret {r : Option α} {y : Option δ} (h : Option.Rel (fun a b => R (a, s) b) r y) :
    Agrees answer R (ret r) s y := by
  cases h with
  | some h => exact agrees_some h
  | none => exact agrees_none

theorem Agrees.map {R' : α × σ → ε → Prop} {y : Option δ} {g : δ → ε}
    (h : Agrees answer R x s y) (hR : ∀ r b, R r b → R' r (g b)) :
    Agrees answer R' x s (y.map g) := by
  rw [Agrees] at h ⊢
  generalize x.aloneSome answer s = r at h ⊢
  cases h with
  | some hr => exact .some (hR _ _ hr)
  | none => exact .none

theorem Agrees.bindSome {y : Option δ} {z : Option ε} {f : α → Client κ β (Option γ)}
    (h : Agrees answer R x s y) (hnone : y = none → z = none)
    (hsome : ∀ a s' b, y = some b → R (a, s') b → Agrees answer R' (f a) s' z) :
    Agrees answer R' (x.bindSome f) s z := by
  rw [Agrees, aloneSome_bindSome]
  rw [Agrees] at h
  generalize x.aloneSome answer s = r at h ⊢
  cases h with
  | some hr => exact hsome _ _ _ rfl hr
  | none =>
      rw [hnone rfl]
      exact .none

end Stops

/-! ## Calls in any order -/

structure Shared (ι σ κ β α : Type*) where
  obj : σ
  clients : ι → Client κ β α

section Runs

variable {ι σ : Type*} [DecidableEq ι] (answer : σ → κ → β × σ)

def step (s : Shared ι σ κ β α) (i : ι) : Shared ι σ κ β α :=
  match s.clients i with
  | ret _ => s
  | call c next =>
      ⟨(answer s.obj c).2, Function.update s.clients i (next (answer s.obj c).1)⟩

def stepCalls (s : Shared ι σ κ β α) (i : ι) : List (ι × κ × β) :=
  match s.clients i with
  | ret _ => []
  | call c _ => [(i, c, (answer s.obj c).1)]

def calls (s : Shared ι σ κ β α) (schedule : List ι) : List (ι × κ × β) :=
  Run.emitted (step answer) (stepCalls answer) s schedule

def callsOf (i : ι) (log : List (ι × κ × β)) : List (κ × β) :=
  (log.filter fun e => e.1 = i).map Prod.snd

def Replays : σ → List (κ × β) → σ → Prop
  | s, [], s' => s' = s
  | s, (c, b) :: log, s' => b = (answer s c).1 ∧ Replays (answer s c).2 log s'

variable {answer}

omit [DecidableEq ι] in
theorem Replays.append {s s' s'' : σ} {log log' : List (κ × β)} (h : Replays answer s log s')
    (h' : Replays answer s' log' s'') : Replays answer s (log ++ log') s'' := by
  induction log generalizing s with
  | nil =>
      obtain rfl : s' = s := h
      exact h'
  | cons e log ih => exact ⟨h.1, ih h.2⟩

variable {s : Shared ι σ κ β α}

theorem sat_step {Q : ι → List (κ × β) → α → Prop} {before : ι → List (κ × β)}
    (h : ∀ i, Sat (Q i) (before i) (s.clients i)) (j i : ι) :
    Sat (Q i) (before i ++ callsOf i (stepCalls answer s j)) ((step answer s j).clients i) := by
  rw [step, stepCalls]
  have hi := h i
  have hj := h j
  cases hclient : s.clients j with
  | ret a => simpa [callsOf] using hi
  | call c next =>
      rw [hclient] at hj
      by_cases hij : i = j
      · subst hij
        simpa [callsOf] using hj (answer s.obj c).1
      · have hji : j ≠ i := Ne.symm hij
        simpa [callsOf, hij, hji] using hi

/-- What holds of the programs whatever the answers are holds of each of them after any calls of
them all. -/
theorem sat_exec {Q : ι → List (κ × β) → α → Prop} (h : ∀ i, Sat (Q i) [] (s.clients i))
    (schedule : List ι) (i : ι) :
    Sat (Q i) (callsOf i (calls answer s schedule))
      ((Run.exec (step answer) s schedule).clients i) := by
  suffices hrun : ∀ (schedule : List ι) (s : Shared ι σ κ β α) (before : ι → List (κ × β)),
      (∀ i, Sat (Q i) (before i) (s.clients i)) → ∀ i,
        Sat (Q i) (before i ++ callsOf i (calls answer s schedule))
          ((Run.exec (step answer) s schedule).clients i) by
    simpa using hrun schedule s (fun _ => []) h i
  intro schedule
  induction schedule with
  | nil =>
      intro s before hs i
      simpa [calls, callsOf, Run.emitted] using hs i
  | cons j schedule ih =>
      intro s before hs i
      have hnext := ih (step answer s j) (fun i => before i ++ callsOf i (stepCalls answer s j))
        (sat_step hs j) i
      simpa [calls, callsOf, Run.emitted] using hnext

/-- The answers are those of the object, whose calls they are. -/
theorem replays_exec (s : Shared ι σ κ β α) (schedule : List ι) :
    Replays answer s.obj ((calls answer s schedule).map Prod.snd)
      (Run.exec (step answer) s schedule).obj := by
  induction schedule generalizing s with
  | nil => rfl
  | cons j schedule ih =>
      have hnext := ih (step answer s j)
      rw [calls, Run.emitted, List.map_append, Run.exec_cons]
      rw [step] at hnext ⊢
      rw [stepCalls]
      cases hclient : s.clients j with
      | ret a =>
          simp only [hclient] at hnext ⊢
          exact hnext
      | call c next =>
          simp only [hclient] at hnext ⊢
          exact ⟨rfl, hnext⟩

/-- A program that takes all the steps returns what it returns alone. -/
theorem exists_exec_alone (s : Shared ι σ κ β α) (i : ι) :
    ∃ n, Run.exec (step answer) s (List.replicate n i) =
      ⟨((s.clients i).alone answer s.obj).2,
        Function.update s.clients i (ret ((s.clients i).alone answer s.obj).1)⟩ := by
  suffices hrun : ∀ (x : Client κ β α) (s : Shared ι σ κ β α), s.clients i = x →
      ∃ n, Run.exec (step answer) s (List.replicate n i) =
        ⟨(x.alone answer s.obj).2, Function.update s.clients i (ret (x.alone answer s.obj).1)⟩ from
    hrun _ s rfl
  intro x
  induction x with
  | ret a =>
      intro s hclient
      refine ⟨0, ?_⟩
      rw [List.replicate_zero, Run.exec_nil, alone, ← hclient, Function.update_eq_self]
  | call c next ih =>
      intro s hclient
      have hstep : step answer s i =
          ⟨(answer s.obj c).2, Function.update s.clients i (next (answer s.obj c).1)⟩ := by
        rw [step, hclient]
      have hnext : (step answer s i).clients i = next (answer s.obj c).1 := by
        rw [hstep]
        exact Function.update_self ..
      obtain ⟨n, hn⟩ := ih (answer s.obj c).1 (step answer s i) hnext
      refine ⟨n + 1, ?_⟩
      rw [List.replicate_succ, Run.exec_cons, hn, hstep, Function.update_idem]
      rfl

/-- So it returns what it agrees with. -/
theorem Agrees.exists_exec {δ : Type*} {R : α × σ → δ → Prop} {y : Option δ} {i : ι}
    {s : Shared ι σ κ β (Option α)} (h : Agrees answer R (s.clients i) s.obj y) :
    ∃ n s' r, Run.exec (step answer) s (List.replicate n i) = s' ∧ s'.clients i = ret r ∧
      Option.Rel (fun a b => R (a, s'.obj) b) r y := by
  obtain ⟨n, hn⟩ := @exists_exec_alone κ β (Option α) ι σ _ answer s i
  refine ⟨n, _, _, hn, Function.update_self .., ?_⟩
  rw [Agrees, aloneSome] at h
  dsimp only
  generalize (s.clients i).alone answer s.obj = r at h ⊢
  obtain ⟨a, s'⟩ := r
  cases a with
  | none =>
      cases h
      exact .none
  | some a =>
      cases h with
      | some h => exact .some h

end Runs

end Client
