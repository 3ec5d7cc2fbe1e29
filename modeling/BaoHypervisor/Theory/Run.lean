import Mathlib.Data.List.Basic
import Mathlib.Logic.Function.Iterate

/-!
# Runs of a deterministic machine

A machine is a function `step : σ → α → σ`, and a run is a list of actions.
`exec` is the state a run ends in; `Along` says that a property of a state and
the action taken in it holds at every step of a run. One machine simulates
another when its steps emit the actions that the other one takes
(`exec_simulates`).

An invariant is carried along a run once, in `Along.exec_invariant`. The
results `along_iff`, `along_iff_of_carry` and `along_invariant_iff` compare two
properties step by step: if every step taken from a good state keeps the state
good exactly when it meets a condition, then a run stays good exactly when all
its steps meet the condition.
-/

namespace Run

variable {σ α : Type*} (step : σ → α → σ)

def exec (s : σ) (as : List α) : σ := as.foldl step s

@[simp] theorem exec_nil (s : σ) : exec step s [] = s := rfl

@[simp] theorem exec_cons (s : σ) (a : α) (as : List α) :
    exec step s (a :: as) = exec step (step s a) as := rfl

theorem exec_append (s : σ) (as bs : List α) :
    exec step s (as ++ bs) = exec step (exec step s as) bs :=
  List.foldl_append

theorem exec_concat (s : σ) (as : List α) (a : α) :
    exec step s (as ++ [a]) = step (exec step s as) a := by
  rw [exec_append, exec_cons, exec_nil]

theorem exec_replicate (s : σ) (a : α) (n : ℕ) :
    exec step s (List.replicate n a) = (fun s => step s a)^[n] s := by
  induction n generalizing s with
  | zero => rfl
  | succ n ih => rw [List.replicate_succ, exec_cons, ih, Function.iterate_succ_apply]

/-- A loop that is given the number of rounds, and of which each round is a step of the machine,
ends where a run of such steps does. -/
theorem exists_exec_of_loop {τ β : Type*} (loop : ℕ → τ → Option β) (embed : τ → σ)
    (done : β → σ) (a : α) (hzero : ∀ t, loop 0 t = none)
    (hsucc : ∀ n t b, loop (n + 1) t = some b →
      step (embed t) a = done b ∨ ∃ t', step (embed t) a = embed t' ∧ loop n t' = some b)
    {n : ℕ} {t : τ} {b : β} (h : loop n t = some b) :
    ∃ k, exec step (embed t) (List.replicate k a) = done b := by
  induction n generalizing t with
  | zero => cases (hzero t).symm.trans h
  | succ n ih =>
      rcases hsucc n t b h with hdone | ⟨t', hnext, hloop⟩
      · exact ⟨1, by rw [List.replicate_one, exec_cons, hdone, exec_nil]⟩
      · obtain ⟨k, hk⟩ := ih hloop
        exact ⟨k + 1, by rw [List.replicate_succ, exec_cons, hnext, hk]⟩

def emitted {β : Type*} (emit : σ → α → List β) : σ → List α → List β
  | _, [] => []
  | s, a :: as => emit s a ++ emitted emit (step s a) as

def total (f : σ → α → ℕ) : σ → List α → ℕ
  | _, [] => 0
  | s, a :: as => f s a + total f (step s a) as

def rise (b b' : Bool) : ℕ := if b = false ∧ b' = true then 1 else 0

/-- `P` holds at every step of the run. -/
def Along (P : σ → α → Prop) : σ → List α → Prop
  | _, [] => True
  | s, a :: as => P s a ∧ Along P (step s a) as

instance decidableAlong {P : σ → α → Prop} [∀ s a, Decidable (P s a)] :
    ∀ s as, Decidable (Along step P s as)
  | _, [] => isTrue trivial
  | s, a :: as =>
      have := decidableAlong (P := P) (step s a) as
      inferInstanceAs (Decidable (P s a ∧ Along step P (step s a) as))

variable {step} {P Q : σ → α → Prop} {I : σ → Prop}

/-- A relation to another machine that every step keeps, when the other machine
takes the actions that the step emits, is kept by every run. -/
theorem exec_simulates {τ β : Type*} {step' : τ → β → τ} {emit : σ → α → List β}
    {R : σ → τ → Prop} (h : ∀ s t a, R s t → R (step s a) (exec step' t (emit s a)))
    {s : σ} {t : τ} (hR : R s t) (as : List α) :
    R (exec step s as) (exec step' t (emitted step emit s as)) := by
  induction as generalizing s t with
  | nil => exact hR
  | cons a as ih =>
      rw [exec_cons, emitted, exec_append]
      exact ih (h s t a hR)

theorem append_simulates {β : Type*} {emit : σ → α → List β} {R : σ → List β → Prop}
    (h : ∀ s bs a, R s bs → R (step s a) (bs ++ emit s a)) {s : σ} (hR : R s []) (as : List α) :
    R (exec step s as) (emitted step emit s as) := by
  have hall : ∀ {s : σ} {bs : List β}, R s bs →
      R (exec step s as) (bs ++ emitted step emit s as) := by
    induction as with
    | nil =>
        intro s bs hR
        rwa [exec_nil, emitted, List.append_nil]
    | cons a as ih =>
        intro s bs hR
        rw [exec_cons, emitted, ← List.append_assoc]
        exact ih (h s bs a hR)
  exact hall hR

theorem observe_exec {β : Type*} (observe : σ → β) (writes : σ → α → Option β)
    (h : ∀ s a, observe (step s a) = (writes s a).getD (observe s)) (s : σ) (as : List α) :
    observe (exec step s as) =
      (emitted step (fun s a => (writes s a).toList) s as).getLast?.getD (observe s) := by
  induction as generalizing s with
  | nil => rfl
  | cons a as ih =>
      rw [exec_cons, ih, emitted, List.getLast?_append, h]
      cases (emitted step (fun s a => (writes s a).toList) (step s a) as).getLast? with
      | some b => rfl
      | none => cases writes s a <;> rfl

theorem toNat_le_rise (b b' : Bool) : b'.toNat ≤ b.toNat + rise b b' := by
  cases b <;> cases b' <;> decide

theorem toNat_exec_le (flag : σ → Bool) (s : σ) (as : List α) :
    (flag (exec step s as)).toNat ≤
      (flag s).toNat + total step (fun s a => rise (flag s) (flag (step s a))) s as := by
  induction as generalizing s with
  | nil => exact Nat.le_add_right _ _
  | cons a as ih =>
      have hstep := toNat_le_rise (flag s) (flag (step s a))
      have hrun := ih (step s a)
      rw [exec_cons, total]
      omega

@[simp] theorem along_nil (s : σ) : Along step P s [] := trivial

@[simp] theorem along_cons {s : σ} {a : α} {as : List α} :
    Along step P s (a :: as) ↔ P s a ∧ Along step P (step s a) as := Iff.rfl

theorem along_append {s : σ} {as bs : List α} :
    Along step P s (as ++ bs) ↔ Along step P s as ∧ Along step P (exec step s as) bs := by
  induction as generalizing s with
  | nil => simp
  | cons a as ih => rw [List.cons_append, along_cons, along_cons, ih, exec_cons, and_assoc]

theorem forall_mem_emitted {β : Type*} {emit : σ → α → List β} {p : β → Prop} {s : σ}
    {as : List α} :
    (∀ b ∈ emitted step emit s as, p b) ↔
      Along step (fun s a => ∀ b ∈ emit s a, p b) s as := by
  induction as generalizing s with
  | nil => exact iff_of_true (fun _ hmem => absurd hmem List.not_mem_nil) trivial
  | cons a as ih => rw [emitted, List.forall_mem_append, along_cons, ih]

theorem filter_emitted {β : Type*} (emit : σ → α → List β) (p : β → Bool) (s : σ) (as : List α) :
    (emitted step emit s as).filter p = emitted step (fun s a => (emit s a).filter p) s as := by
  induction as generalizing s with
  | nil => rfl
  | cons a as ih => rw [emitted, emitted, List.filter_append, ih]

/-- What comes in during a run and what goes out, when every step keeps the balance of what is
left in the state. -/
theorem append_emitted {β : Type*} {input output : σ → α → List β} {rest : σ → List β}
    {s : σ} (hI : I s) (hstep : ∀ s a, I s → I (step s a) ∧
      rest s ++ input s a = output s a ++ rest (step s a)) (as : List α) :
    rest s ++ emitted step input s as = emitted step output s as ++ rest (exec step s as) := by
  induction as generalizing s with
  | nil => simp [emitted]
  | cons a as ih =>
      obtain ⟨hI', hbalance⟩ := hstep s a hI
      rw [emitted, emitted, exec_cons, List.append_assoc, ← ih hI', ← List.append_assoc,
        hbalance, List.append_assoc]

theorem along_of_forall {as : List α} (h : ∀ a ∈ as, ∀ s, P s a) (s : σ) :
    Along step P s as := by
  induction as generalizing s with
  | nil => trivial
  | cons a as ih =>
      exact ⟨h a List.mem_cons_self s, ih (fun b hb => h b (List.mem_cons_of_mem _ hb)) _⟩

theorem Along.mono {s : σ} {as : List α} (h : Along step P s as)
    (hPQ : ∀ s a, P s a → Q s a) : Along step Q s as := by
  induction as generalizing s with
  | nil => trivial
  | cons a as ih => exact ⟨hPQ _ _ h.1, ih h.2⟩

theorem Along.and {s : σ} {as : List α} (h : Along step P s as) (h' : Along step Q s as) :
    Along step (fun s a => P s a ∧ Q s a) s as := by
  induction as generalizing s with
  | nil => trivial
  | cons a as ih => exact ⟨⟨h.1, h'.1⟩, ih h.2 h'.2⟩

theorem Along.exec_invariant {s : σ} {as : List α} (h : Along step P s as)
    (hI : I s) (hstep : ∀ s a, I s → P s a → I (step s a)) :
    I (exec step s as) := by
  induction as generalizing s with
  | nil => exact hI
  | cons a as ih => exact ih h.2 (hstep s a hI h.1)

theorem Along.exec_refines {τ : Type*} {step' : τ → α → τ} {R : τ → σ → Prop} {t : τ} {s : σ}
    {as : List α} (h : Along step P s as) (hR : R t s)
    (hstep : ∀ t s a, R t s → P s a → R (step' t a) (step s a)) :
    R (exec step' t as) (exec step s as) := by
  induction as generalizing t s with
  | nil => exact hR
  | cons a as ih => exact ih h.2 (hstep t s a hR h.1)

theorem exec_invariant {s : σ} (hI : I s) (hstep : ∀ s a, I s → I (step s a))
    (as : List α) : I (exec step s as) := by
  have halong : Along step (fun _ _ => True) s as := along_of_forall (fun _ _ _ => trivial) s
  exact halong.exec_invariant hI fun s a hs _ => hstep s a hs

theorem Along.imp_of_invariant {s : σ} {as : List α} (h : Along step P s as)
    (hI : I s) (hstep : ∀ s a, I s → P s a → I (step s a) ∧ Q s a) :
    Along step Q s as := by
  induction as generalizing s with
  | nil => trivial
  | cons a as ih =>
      obtain ⟨hI', hQ⟩ := hstep s a hI h.1
      exact ⟨hQ, ih h.2 hI'⟩

/-- Two properties that agree at the steps from a good state that meet a third one agree along
every run of such steps, when the steps that meet the first one end in a good state. -/
theorem Along.iff_of_carry {R : σ → α → Prop} {s : σ} {as : List α} (h : Along step R s as)
    (hI : I s) (hPQ : ∀ s a, I s → R s a → (P s a ↔ Q s a))
    (hstep : ∀ s a, I s → R s a → P s a → I (step s a)) :
    Along step P s as ↔ Along step Q s as := by
  induction as generalizing s with
  | nil => exact Iff.rfl
  | cons a as ih =>
      rw [along_cons, along_cons, ← hPQ s a hI h.1]
      exact and_congr_right fun ha => ih h.2 (hstep s a hI h.1 ha)

theorem along_iff_of_carry {s : σ} (hI : I s) (hPQ : ∀ s a, I s → (P s a ↔ Q s a))
    (hstep : ∀ s a, I s → P s a → I (step s a)) (as : List α) :
    Along step P s as ↔ Along step Q s as := by
  have halong : Along step (fun _ _ => True) s as := along_of_forall (fun _ _ _ => trivial) s
  exact halong.iff_of_carry hI (fun s a hs _ => hPQ s a hs) fun s a hs _ => hstep s a hs

theorem along_iff {s : σ} (hI : I s) (hstep : ∀ s a, I s → I (step s a))
    (hPQ : ∀ s a, I s → (P s a ↔ Q s a)) (as : List α) :
    Along step P s as ↔ Along step Q s as :=
  along_iff_of_carry hI hPQ (fun s a hs _ => hstep s a hs) as

/-- If a step from a good state ends in a good state exactly when it meets `Q`, then
all states of a run are good exactly when all its steps meet `Q`. The steps of the run
all meet `P` and so keep another invariant `J`. -/
theorem Along.invariant_iff {J : σ → Prop} {s : σ} {as : List α} (h : Along step P s as)
    (hJ : J s) (hJstep : ∀ s a, J s → P s a → J (step s a)) (hI : I s)
    (hstep : ∀ s a, J s → I s → P s a → (I (step s a) ↔ Q s a)) :
    Along step (fun s a => I (step s a)) s as ↔ Along step Q s as := by
  induction as generalizing s with
  | nil => exact Iff.rfl
  | cons a as ih =>
      have hJ' := hJstep s a hJ h.1
      rw [along_cons, along_cons, hstep s a hJ hI h.1]
      constructor
      · rintro ⟨ha, has⟩
        exact ⟨ha, (ih h.2 hJ' ((hstep s a hJ hI h.1).mpr ha)).mp has⟩
      · rintro ⟨ha, has⟩
        exact ⟨ha, (ih h.2 hJ' ((hstep s a hJ hI h.1).mpr ha)).mpr has⟩

theorem along_invariant_iff {s : σ} (hI : I s)
    (hstep : ∀ s a, I s → (I (step s a) ↔ Q s a)) (as : List α) :
    Along step (fun s a => I (step s a)) s as ↔ Along step Q s as := by
  have halong : Along step (fun _ _ => True) s as := along_of_forall (fun _ _ _ => trivial) s
  exact halong.invariant_iff (J := fun _ => True) trivial (fun _ _ _ _ => trivial) hI
    fun s a _ hs _ => hstep s a hs

end Run
