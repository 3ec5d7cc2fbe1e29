import BaoHypervisor.Theory.Run
import BaoHypervisor.Theory.Serial

/-!
# Spinlocks

`spin_lock` is a loop of a few instructions around an exclusive load and an exclusive store, and
`spin_unlock` is one store. CPUs run them an instruction at a time and in any order, an exclusive
store may fail for no reason, and a reservation may get lost. The sections that they guard are
carried out one after the other all the same (`serial_exec`).

It is assumed that all CPUs see the instructions of each one in program order. The loops have
acquire loads and release stores for that; `spin_unlock` of RISC-V has its fence behind the store.
-/

namespace BaoHypervisor

abbrev Spinlock := BitVec 32

/-- The instructions of the loops of `spin_lock`. A branch goes back to the first one. -/
inductive LockInstr where
  | loadExclusive
  | storeExclusive
  | storeExclusiveEq
  | cmp
  | cmpEq
  | branchNonzero
  | branchNe
  deriving DecidableEq, Repr

inductive LockArch where
  | riscv
  | aarch64
  | aarch32
  deriving DecidableEq, Repr

/-- `spin_lock` of RISC-V: `lr.w.aq`, `bne`, `sc.w.rl`, `bne`. -/
def riscvSpinLock : List LockInstr :=
  [.loadExclusive, .branchNonzero, .storeExclusive, .branchNonzero]

/-- `spin_lock` of AArch64: `ldaxr`, `cbnz`, `stxr`, `cbnz`. -/
def aarch64SpinLock : List LockInstr :=
  [.loadExclusive, .branchNonzero, .storeExclusive, .branchNonzero]

/-- `spin_lock` of AArch32: `ldaex`, `cmp`, `strexeq`, `cmpeq`, `bne`. -/
def aarch32SpinLock : List LockInstr :=
  [.loadExclusive, .cmp, .storeExclusiveEq, .cmpEq, .branchNe]

def LockArch.spinLock : LockArch → List LockInstr
  | .riscv => riscvSpinLock
  | .aarch64 => aarch64SpinLock
  | .aarch32 => aarch32SpinLock

/-- What a CPU uses in the loop: the next instruction, the register `tmp` and the flag for equal. -/
structure LockRegs where
  pc : ℕ
  tmp : Spinlock
  z : Bool
  deriving DecidableEq, Repr

inductive LockAccess where
  | none
  | load
  | store
  deriving DecidableEq, Repr

namespace LockInstr

def access (regs : LockRegs) : LockInstr → LockAccess
  | .loadExclusive => .load
  | .storeExclusive => .store
  | .storeExclusiveEq => if regs.z then .store else .none
  | _ => .none

/-- The registers after an instruction. The word is what the access has put into `tmp`: the value
of the lock, or zero if the exclusive store was made. -/
def next (regs : LockRegs) (word : Spinlock) : LockInstr → LockRegs
  | .loadExclusive => { regs with pc := regs.pc + 1, tmp := word }
  | .storeExclusive => { regs with pc := regs.pc + 1, tmp := word }
  | .storeExclusiveEq =>
      { regs with pc := regs.pc + 1, tmp := if regs.z then word else regs.tmp }
  | .cmp => { regs with pc := regs.pc + 1, z := regs.tmp = 0#32 }
  | .cmpEq => { regs with pc := regs.pc + 1, z := regs.z && regs.tmp = 0#32 }
  | .branchNonzero => { regs with pc := if regs.tmp = 0#32 then regs.pc + 1 else 0 }
  | .branchNe => { regs with pc := if regs.z then regs.pc + 1 else 0 }

end LockInstr

/-- Where a CPU is: outside, in `spin_lock` for a section, or in the section. -/
inductive SpinPhase (σ : Type*) where
  | outside
  | locking (regs : LockRegs) (steps : List (σ → σ))
  | critical (rest : List (σ → σ))

/-- The steps that are left of the section. -/
def SpinPhase.rest {σ : Type*} : SpinPhase σ → Option (List (σ → σ))
  | .critical rest => some rest
  | _ => none

/-- The steps of the section that the CPU has before it. -/
def SpinPhase.steps {σ : Type*} : SpinPhase σ → List (σ → σ)
  | .outside => []
  | .locking _ steps => steps
  | .critical rest => rest

@[simp] theorem SpinPhase.rest_locking {σ : Type*} (regs : LockRegs) (steps : List (σ → σ)) :
    (SpinPhase.locking regs steps).rest = none := rfl

@[simp] theorem SpinPhase.rest_critical {σ : Type*} (rest : List (σ → σ)) :
    (SpinPhase.critical rest).rest = some rest := rfl

/-- The word of the lock, the CPUs that have it reserved, and the data that it guards. -/
structure SpinState (ι σ : Type*) where
  lock : Spinlock
  reserved : ι → Bool
  cpus : ι → SpinPhase σ
  data : σ

/-- A CPU calls `spin_lock` for a section, it executes the next instruction or takes the next step
of its section, or it loses its reservation. The flag is false where the instruction is an exclusive
store that fails although the CPU has the reservation. -/
inductive SpinAct (ι σ : Type*) where
  | call (i : ι) (regs : LockRegs) (steps : List (σ → σ))
  | tick (i : ι) (allowed : Bool)
  | drop (i : ι)

namespace SpinState

variable {ι σ : Type*} [DecidableEq ι] (arch : LockArch) (s : SpinState ι σ) (i : ι)

/-- `SPINLOCK_INITVAL`, before any CPU has called `spin_lock`. -/
def start (x : σ) : SpinState ι σ where
  lock := 0#32
  reserved := fun _ => false
  cpus := fun _ => .outside
  data := x

/-- An exclusive store is made if the CPU still has the lock reserved. It ends all reservations. -/
def storeExclusive (allowed : Bool) : Spinlock × SpinState ι σ :=
  if s.reserved i && allowed then
    (0#32, { s with lock := 1#32, reserved := fun _ => false })
  else (1#32, { s with reserved := Function.update s.reserved i false })

/-- What an instruction puts into `tmp`, if anything, and what it does to the lock. -/
def accessLock (allowed : Bool) : LockAccess → Spinlock × SpinState ι σ
  | .none => (0#32, s)
  | .load => (s.lock, { s with reserved := Function.update s.reserved i true })
  | .store => s.storeExclusive i allowed

/-- A CPU that comes to the end of `spin_lock` is in its section. -/
def settle (regs : LockRegs) (steps : List (σ → σ)) : SpinPhase σ :=
  if regs.pc < arch.spinLock.length then .locking regs steps else .critical steps

/-- One instruction of the loop. -/
def tickLock (allowed : Bool) (regs : LockRegs) (steps : List (σ → σ)) : SpinState ι σ :=
  match arch.spinLock[regs.pc]? with
  | none => s
  | some instr =>
      let (word, s') := s.accessLock i allowed (instr.access regs)
      { s' with cpus := Function.update s'.cpus i (settle arch (instr.next regs word) steps) }

/-- `spin_unlock`: the store of zero. -/
def spinUnlock : SpinState ι σ :=
  { s with
    lock := 0#32
    reserved := fun _ => false
    cpus := Function.update s.cpus i .outside }

def step : SpinAct ι σ → SpinState ι σ
  | .call i regs steps =>
      match s.cpus i with
      | .outside =>
          { s with cpus := Function.update s.cpus i (.locking { regs with pc := 0 } steps) }
      | _ => s
  | .tick i allowed =>
      match s.cpus i with
      | .outside => s
      | .locking regs steps => s.tickLock arch i allowed regs steps
      | .critical [] => s.spinUnlock i
      | .critical (f :: rest) =>
          { s with data := f s.data, cpus := Function.update s.cpus i (.critical rest) }
  | .drop i => { s with reserved := Function.update s.reserved i false }

/-- The steps that the CPUs have left of their sections. -/
def inside (i : ι) : Option (List (σ → σ)) := (s.cpus i).rest

/-- The section that a CPU gets into by an action. -/
def enters (a : SpinAct ι σ) : List (ι × List (σ → σ)) :=
  match a with
  | .tick i _ =>
      match s.inside i, (s.step arch a).inside i with
      | none, some steps => [(i, steps)]
      | _, _ => []
  | _ => []

/-- The section that a CPU calls `spin_lock` for by an action. -/
def calls (a : SpinAct ι σ) : List (ι × List (σ → σ)) :=
  match a with
  | .call i _ steps =>
      match s.cpus i with
      | .outside => [(i, steps)]
      | _ => []
  | _ => []

/-- The sections that CPUs wait for. -/
def waits (i : ι) : List (ι × List (σ → σ)) :=
  match s.cpus i with
  | .locking _ steps => [(i, steps)]
  | _ => []

end SpinState

/-- What a CPU in the loop knows of the lock: nothing, the value that it has loaded and that is
still there if its reservation is, or that it has taken it. -/
inductive LockView where
  | retry
  | loaded (word : Spinlock)
  | won
  deriving DecidableEq

namespace LockArch

/-- A branch that is not taken tells that the loaded value, or the result of the store, is zero. -/
def view (regs : LockRegs) : LockArch → LockView
  | .riscv | .aarch64 =>
      match regs.pc with
      | 0 => .retry
      | 1 => .loaded regs.tmp
      | 2 => .loaded 0#32
      | 3 => if regs.tmp = 0#32 then .won else .retry
      | _ => .won
  | .aarch32 =>
      match regs.pc with
      | 0 => .retry
      | 1 => .loaded regs.tmp
      | 2 => if regs.z then .loaded 0#32 else .retry
      | 3 => if regs.z && regs.tmp = 0#32 then .won else .retry
      | 4 => if regs.z then .won else .retry
      | _ => .won

variable {arch : LockArch} {regs : LockRegs} {instr : LockInstr}

theorem view_start (h : regs.pc = 0) : arch.view regs = .retry := by
  cases arch <;> simp [view, h]

theorem view_done (h : arch.spinLock.length ≤ regs.pc) : arch.view regs = .won := by
  obtain ⟨pc, tmp, z⟩ := regs
  cases arch <;>
    simp only [spinLock, riscvSpinLock, aarch64SpinLock, aarch32SpinLock, List.length_cons,
      List.length_nil] at h <;>
    obtain ⟨k, rfl⟩ := Nat.exists_eq_add_of_le' h <;>
    rfl

/-- What the next instruction does to the view: only a load finds out what the lock is, a store is
made with the lock known to be free, and the rest learns nothing new. -/
theorem view_next (hinstr : arch.spinLock[regs.pc]? = some instr) :
    match instr.access regs with
    | .none => ∀ word, (arch.view (instr.next regs word) = .won ↔ arch.view regs = .won) ∧
        ∀ w, arch.view (instr.next regs word) = .loaded w → arch.view regs = .loaded w
    | .load => arch.view regs ≠ .won ∧ ∀ word, arch.view (instr.next regs word) = .loaded word
    | .store => arch.view regs = .loaded 0#32 ∧ arch.view (instr.next regs 0#32) = .won ∧
        arch.view (instr.next regs 1#32) = .retry := by
  obtain ⟨pc, tmp, z⟩ := regs
  have hpc : pc < 5 := by
    have hlt := (List.getElem?_eq_some_iff.mp hinstr).1
    cases arch <;>
      simp [spinLock, riscvSpinLock, aarch64SpinLock, aarch32SpinLock] at hlt <;> omega
  have hcases : pc = 0 ∨ pc = 1 ∨ pc = 2 ∨ pc = 3 ∨ pc = 4 := by omega
  cases arch <;> rcases hcases with rfl | rfl | rfl | rfl | rfl <;>
    simp [spinLock, riscvSpinLock, aarch64SpinLock, aarch32SpinLock] at hinstr <;>
    subst hinstr <;> by_cases htmp : tmp = 0#32 <;> cases z <;>
    simp [LockInstr.access, LockInstr.next, view, htmp]

end LockArch

/-- The CPU has taken the lock: it is in its section, or an exclusive store has been made for it. -/
def SpinPhase.Owns {σ : Type*} (arch : LockArch) : SpinPhase σ → Prop
  | .outside => False
  | .locking regs _ => arch.view regs = .won
  | .critical _ => True

namespace SpinState

variable {ι σ : Type*} {arch : LockArch} {s : SpinState ι σ} {i j : ι}
  {regs : LockRegs} {steps : List (σ → σ)} {allowed : Bool} {x : σ}

/-- What holds between any two instructions. -/
structure Inv (arch : LockArch) (s : SpinState ι σ) : Prop where
  alone : ∀ i j, (s.cpus i).Owns arch → (s.cpus j).Owns arch → i = j
  free : s.lock = 0#32 ↔ ∀ i, ¬ (s.cpus i).Owns arch
  loaded : ∀ i regs steps word, s.cpus i = .locking regs steps → s.reserved i = true →
    arch.view regs = .loaded word → s.lock = word
  pc_lt : ∀ i regs steps, s.cpus i = .locking regs steps → regs.pc < arch.spinLock.length

theorem inv_start (arch : LockArch) (x : σ) : (start x : SpinState ι σ).Inv arch where
  alone := by simp [start, SpinPhase.Owns]
  free := by simp [start, SpinPhase.Owns]
  loaded := by simp [start]
  pc_lt := by simp [start]

@[simp] theorem owns_settle : (settle arch regs steps).Owns arch ↔ arch.view regs = .won := by
  rw [settle]
  split
  · rfl
  · simp [SpinPhase.Owns, LockArch.view_done (Nat.le_of_not_lt ‹_›)]

theorem settle_eq_locking {regs' : LockRegs} {steps' : List (σ → σ)}
    (h : settle arch regs steps = .locking regs' steps') :
    regs' = regs ∧ regs.pc < arch.spinLock.length := by
  rw [settle] at h
  split at h
  · cases h
    exact ⟨rfl, ‹_›⟩
  · cases h

theorem inside_of_owns (arch : LockArch) (h : (s.inside i).isSome) : (s.cpus i).Owns arch := by
  rw [inside] at h
  cases hi : s.cpus i <;> simp [hi, SpinPhase.rest, SpinPhase.Owns] at h ⊢

variable [DecidableEq ι]

/-- A CPU that does not own the lock changes its phase, and still does not own it. -/
theorem Inv.update_phase {s' : SpinState ι σ} {phase : SpinPhase σ} (h : s.Inv arch)
    (hlock : s'.lock = s.lock) (hcpus : s'.cpus = Function.update s.cpus i phase)
    (howns : phase.Owns arch ↔ (s.cpus i).Owns arch)
    (hreserved : ∀ j, j ≠ i → s'.reserved j = true → s.reserved j = true)
    (hphase : ∀ regs steps, phase = .locking regs steps → regs.pc < arch.spinLock.length ∧
      ∀ word, s'.reserved i = true → arch.view regs = .loaded word → s.lock = word) :
    s'.Inv arch := by
  have hall : ∀ j, (s'.cpus j).Owns arch ↔ (s.cpus j).Owns arch := by
    intro j
    by_cases hj : j = i
    · simp [hcpus, hj, howns]
    · simp [hcpus, hj]
  refine ⟨?_, ?_, ?_, ?_⟩
  · simpa only [hall] using h.alone
  · simpa only [hall, hlock] using h.free
  · intro j regs steps word hj hres hview
    rw [hlock]
    by_cases hji : j = i
    · rw [hcpus, hji, Function.update_self] at hj
      exact (hphase regs steps hj).2 word (hji ▸ hres) hview
    · rw [hcpus, Function.update_of_ne hji] at hj
      exact h.loaded j regs steps word hj (hreserved j hji hres) hview
  · intro j regs steps hj
    by_cases hji : j = i
    · rw [hcpus, hji, Function.update_self] at hj
      exact (hphase regs steps hj).1
    · rw [hcpus, Function.update_of_ne hji] at hj
      exact h.pc_lt j regs steps hj

/-- The exclusive store is made: the lock was free, and now it is the CPU's. -/
theorem Inv.take {s' : SpinState ι σ} (h : s.Inv arch)
    (hfree : s.lock = 0#32) (hlock : s'.lock = 1#32) (hreserved : ∀ j, s'.reserved j = false)
    {regs' : LockRegs} (hview : arch.view regs' = .won)
    (hcpus : s'.cpus = Function.update s.cpus i (settle arch regs' steps)) : s'.Inv arch := by
  have hnone := h.free.mp hfree
  have hown : ∀ j, (s'.cpus j).Owns arch → j = i := by
    intro j hj
    by_contra hji
    rw [hcpus, Function.update_of_ne hji] at hj
    exact hnone j hj
  refine ⟨fun j k hj hk => (hown j hj).trans (hown k hk).symm, ?_, ?_, ?_⟩
  · refine iff_of_false (by simp [hlock]) fun hall => hall i ?_
    simp [hcpus, hview]
  · intro j _ _ _ _ hres
    simp [hreserved j] at hres
  · intro j regs₁ steps₁ hj
    by_cases hji : j = i
    · rw [hcpus, hji, Function.update_self] at hj
      obtain ⟨rfl, hlt⟩ := settle_eq_locking hj
      exact hlt
    · rw [hcpus, Function.update_of_ne hji] at hj
      exact h.pc_lt j regs₁ steps₁ hj

/-- An instruction of `spin_lock` keeps the invariant. The CPU may get to its section by it, and
there is no other one in a section then. -/
theorem Inv.tickLock (h : s.Inv arch) (hi : s.cpus i = .locking regs steps) (allowed : Bool) :
    (s.tickLock arch i allowed regs steps).Inv arch ∧
      (s.tickLock arch i allowed regs steps).data = s.data ∧
      ∃ regs', (s.tickLock arch i allowed regs steps).cpus =
          Function.update s.cpus i (settle arch regs' steps) ∧
        (arch.view regs' = .won → ∀ j, s.inside j = none) := by
  have hlt := h.pc_lt i regs steps hi
  have hinstr : arch.spinLock[regs.pc]? = some arch.spinLock[regs.pc] :=
    List.getElem?_eq_getElem hlt
  have howns : (s.cpus i).Owns arch ↔ arch.view regs = .won := by
    rw [hi]
    rfl
  have hinside : s.inside i = none := by
    rw [inside, hi]
    rfl
  generalize arch.spinLock[regs.pc] = instr at hinstr
  have hnext := LockArch.view_next hinstr
  rw [SpinState.tickLock, hinstr]
  dsimp only
  cases hacc : instr.access regs with
  | none =>
      rw [hacc] at hnext
      obtain ⟨hwon, hloaded⟩ := hnext 0#32
      refine ⟨h.update_phase rfl rfl ?_ (fun _ _ => id) ?_, rfl, _, rfl, fun hview j => ?_⟩
      · rw [owns_settle, howns]
        exact hwon
      · intro regs₁ steps₁ hphase
        obtain ⟨rfl, hlt'⟩ := settle_eq_locking hphase
        exact ⟨hlt', fun word hres hview => h.loaded i _ _ word hi hres (hloaded word hview)⟩
      · -- it has owned the lock before
        by_contra hne
        have hj := inside_of_owns arch (Option.ne_none_iff_isSome.mp hne)
        rw [h.alone j i hj (howns.mpr (hwon.mp hview))] at hne
        exact hne hinside
  | load =>
      rw [hacc] at hnext
      obtain ⟨hwon, hloaded⟩ := hnext
      have hview := hloaded s.lock
      refine ⟨h.update_phase rfl rfl ?_ (fun j hj hres => ?_) ?_, rfl, _, rfl, fun hview' => ?_⟩
      · rw [owns_settle, howns, accessLock, hview]
        simp [hwon]
      · simpa [accessLock, hj] using hres
      · intro regs₁ steps₁ hphase
        obtain ⟨rfl, hlt'⟩ := settle_eq_locking hphase
        refine ⟨hlt', fun word _ hword => ?_⟩
        rw [accessLock, hview] at hword
        exact LockView.loaded.inj hword
      · rw [accessLock, hview] at hview'
        cases hview'
  | store =>
      rw [hacc] at hnext
      obtain ⟨hview, hmade, hfailed⟩ := hnext
      rw [accessLock, storeExclusive]
      split
      · rename_i hboth
        obtain ⟨hres, -⟩ := Bool.and_eq_true_iff.mp hboth
        have hfree := h.loaded i regs steps 0#32 hi hres hview
        refine ⟨h.take hfree rfl (fun _ => rfl) hmade rfl, rfl, _, rfl, fun _ j => ?_⟩
        by_contra hne
        exact h.free.mp hfree j (inside_of_owns arch (Option.ne_none_iff_isSome.mp hne))
      · refine ⟨h.update_phase rfl rfl ?_ (fun j hj hres => ?_) ?_, rfl, _, rfl, fun hwon => ?_⟩
        · rw [owns_settle, howns, hview, hfailed]
          simp
        · simpa [hj] using hres
        · intro regs₁ steps₁ hphase
          obtain ⟨rfl, hlt'⟩ := settle_eq_locking hphase
          refine ⟨hlt', fun word _ hword => ?_⟩
          rw [hfailed] at hword
          cases hword
        · rw [hfailed] at hwon
          cases hwon

@[simp] theorem cpus_spinUnlock :
    (s.spinUnlock i).cpus = Function.update s.cpus i .outside := rfl

theorem Inv.spinUnlock {rest : List (σ → σ)} (h : s.Inv arch) (hi : s.cpus i = .critical rest) :
    (s.spinUnlock i).Inv arch := by
  have hnone : ∀ j, ¬ ((s.spinUnlock i).cpus j).Owns arch := by
    intro j hj
    by_cases hji : j = i
    · simp [hji, SpinPhase.Owns] at hj
    · rw [cpus_spinUnlock, Function.update_of_ne hji] at hj
      exact hji (h.alone j i hj (by simp [hi, SpinPhase.Owns]))
  refine ⟨fun j _ hj => absurd hj (hnone j), iff_of_true rfl hnone, ?_, ?_⟩
  · intro j _ _ _ _ hres
    cases hres
  · intro j regs₁ steps₁ hj
    by_cases hji : j = i
    · simp [hji] at hj
    · rw [cpus_spinUnlock, Function.update_of_ne hji] at hj
      exact h.pc_lt j regs₁ steps₁ hj

theorem inside_update {s' : SpinState ι σ} {phase : SpinPhase σ}
    (h : s'.cpus = Function.update s.cpus i phase) :
    s'.inside = Function.update s.inside i phase.rest := by
  funext j
  by_cases hj : j = i
  · simp [inside, h, hj]
  · simp [inside, h, hj]

theorem enters_eq_nil (h : s.inside i ≠ none ∨ (s.step arch (.tick i allowed)).inside i = none) :
    s.enters arch (.tick i allowed) = [] := by
  rw [enters]
  split
  · rename_i hbefore hafter
    simp [hbefore, hafter] at h
  · rfl

theorem Inv.call (h : s.Inv arch) (hi : s.cpus i = .outside) (regs : LockRegs)
    (steps : List (σ → σ)) :
    Inv arch { s with
      cpus := Function.update s.cpus i (.locking { regs with pc := 0 } steps) } := by
  refine h.update_phase rfl rfl ?_ (fun _ _ => id) fun regs₁ steps₁ hphase => ?_
  · simp [hi, SpinPhase.Owns, LockArch.view_start]
  · cases hphase
    refine ⟨by cases arch <;> exact Nat.zero_lt_succ _, fun word _ hview => ?_⟩
    rw [LockArch.view_start rfl] at hview
    cases hview

theorem Inv.work {f : σ → σ} (h : s.Inv arch) (hi : s.cpus i = .critical (f :: steps)) (x : σ) :
    Inv arch { s with data := x, cpus := Function.update s.cpus i (.critical steps) } := by
  refine h.update_phase rfl rfl ?_ (fun _ _ => id) fun _ _ hphase => ?_
  · simp [hi, SpinPhase.Owns]
  · cases hphase

theorem Inv.drop (h : s.Inv arch) (i : ι) :
    Inv arch { s with reserved := Function.update s.reserved i false } := by
  refine h.update_phase rfl (Function.update_eq_self i _).symm Iff.rfl (fun j hj hres => ?_)
    fun regs₁ steps₁ hphase => ?_
  · simpa [hj] using hres
  · exact ⟨h.pc_lt i _ _ hphase, by simp⟩

/-- What an action does to the phases of the CPUs and to the data. -/
inductive Moves (s s' : SpinState ι σ) (called entered : List (ι × List (σ → σ))) : Prop where
  | stay (hcpus : s'.cpus = s.cpus) (hdata : s'.data = s.data)
      (hcalled : called = []) (hentered : entered = [])
  | call (i : ι) (regs : LockRegs) (steps : List (σ → σ)) (hi : s.cpus i = .outside)
      (hcpus : s'.cpus = Function.update s.cpus i (.locking regs steps)) (hdata : s'.data = s.data)
      (hcalled : called = [(i, steps)]) (hentered : entered = [])
  | spin (i : ι) (regs regs' : LockRegs) (steps : List (σ → σ))
      (hi : s.cpus i = .locking regs steps)
      (hcpus : s'.cpus = Function.update s.cpus i (.locking regs' steps))
      (hdata : s'.data = s.data) (hcalled : called = []) (hentered : entered = [])
  | enter (i : ι) (regs : LockRegs) (steps : List (σ → σ)) (hi : s.cpus i = .locking regs steps)
      (hcpus : s'.cpus = Function.update s.cpus i (.critical steps)) (hdata : s'.data = s.data)
      (halone : ∀ j, s.inside j = none) (hcalled : called = []) (hentered : entered = [(i, steps)])
  | work (i : ι) (f : σ → σ) (rest : List (σ → σ)) (hi : s.cpus i = .critical (f :: rest))
      (hcpus : s'.cpus = Function.update s.cpus i (.critical rest)) (hdata : s'.data = f s.data)
      (hcalled : called = []) (hentered : entered = [])
  | leave (i : ι) (hi : s.cpus i = .critical [])
      (hcpus : s'.cpus = Function.update s.cpus i .outside) (hdata : s'.data = s.data)
      (hcalled : called = []) (hentered : entered = [])

theorem moves_step (h : s.Inv arch) (a : SpinAct ι σ) :
    (s.step arch a).Inv arch ∧ s.Moves (s.step arch a) (s.calls a) (s.enters arch a) := by
  cases a with
  | call i regs steps =>
      cases hi : s.cpus i with
      | outside =>
          rw [step, calls, hi]
          exact ⟨h.call hi regs steps, .call i _ steps hi rfl rfl rfl rfl⟩
      | locking _ _ | critical _ =>
          rw [step, calls, hi]
          exact ⟨h, .stay rfl rfl rfl rfl⟩
  | tick i allowed =>
      cases hi : s.cpus i with
      | outside =>
          have hstep : s.step arch (.tick i allowed) = s := by rw [step, hi]
          rw [enters_eq_nil (.inr (by simp [hstep, inside, hi, SpinPhase.rest])), hstep]
          exact ⟨h, .stay rfl rfl rfl rfl⟩
      | locking regs steps =>
          have hstep : s.step arch (.tick i allowed) = s.tickLock arch i allowed regs steps := by
            rw [step, hi]
          have hnone : s.inside i = none := by simp [inside, hi]
          obtain ⟨hinv, hdata, regs', hcpus, halone⟩ := h.tickLock hi allowed
          have hinside := inside_update hcpus
          refine ⟨hstep ▸ hinv, ?_⟩
          rw [settle] at hcpus hinside
          split at hcpus
          · rename_i hlt
            rw [if_pos hlt] at hinside
            rw [enters_eq_nil (.inr (by simp [hstep, hinside])), hstep]
            exact .spin i regs regs' steps hi hcpus hdata rfl rfl
          · rename_i hlt
            rw [if_neg hlt] at hinside
            have henters : s.enters arch (.tick i allowed) = [(i, steps)] := by
              simp [enters, hstep, hinside, hnone]
            rw [hstep, henters]
            exact .enter i regs steps hi hcpus hdata
              (halone (LockArch.view_done (Nat.le_of_not_lt hlt))) rfl rfl
      | critical rest =>
          rw [enters_eq_nil (.inl (by simp [inside, hi]))]
          cases rest with
          | nil =>
              rw [step, hi]
              exact ⟨h.spinUnlock hi, .leave i hi rfl rfl rfl rfl⟩
          | cons f rest =>
              rw [step, hi]
              exact ⟨h.work hi _, .work i f rest hi rfl rfl rfl rfl⟩
  | drop i => exact ⟨h.drop i, .stay rfl rfl rfl rfl⟩

/-- The data is that of the sections that CPUs have got into. -/
theorem Moves.serial {s' : SpinState ι σ} {called entered : List (ι × List (σ → σ))}
    (h : s.Moves s' called entered) {before : List (ι × List (σ → σ))}
    (hserial : Serial.Is x before s.inside s.data) :
    Serial.Is x (before ++ entered) s'.inside s'.data := by
  cases h with
  | stay hcpus hdata _ hentered =>
      have hinside : s'.inside = s.inside := by
        funext i
        rw [inside, inside, hcpus]
      rw [hinside, hdata, hentered, List.append_nil]
      exact hserial
  | call i regs steps hi hcpus hdata _ hentered =>
      have hnone : s.inside i = none := by simp [inside, hi, SpinPhase.rest]
      rw [inside_update hcpus, SpinPhase.rest_locking, ← hnone, Function.update_eq_self, hdata,
        hentered, List.append_nil]
      exact hserial
  | spin i regs regs' steps hi hcpus hdata _ hentered =>
      have hnone : s.inside i = none := by simp [inside, hi]
      rw [inside_update hcpus, SpinPhase.rest_locking, ← hnone, Function.update_eq_self, hdata,
        hentered, List.append_nil]
      exact hserial
  | enter i regs steps hi hcpus hdata halone _ hentered =>
      rw [inside_update hcpus, hdata, hentered]
      exact hserial.enter halone steps
  | work i f rest hi hcpus hdata _ hentered =>
      rw [inside_update hcpus, hdata, hentered, List.append_nil]
      exact hserial.work (by simp [inside, hi])
  | leave i hi hcpus hdata _ hentered =>
      rw [inside_update hcpus, hdata, hentered, List.append_nil]
      exact hserial.leave (by simp [inside, hi])

/-- A CPU gets into the sections that it has called for, in order. -/
theorem Moves.waits {s' : SpinState ι σ} {called entered : List (ι × List (σ → σ))}
    (h : s.Moves s' called entered) (j : ι) :
    s.waits j ++ called.filter (·.1 = j) = entered.filter (·.1 = j) ++ s'.waits j := by
  cases h with
  | stay hcpus _ hcalled hentered => simp [SpinState.waits, hcpus, hcalled, hentered]
  | call i regs steps hi hcpus _ hcalled hentered =>
      by_cases hj : j = i
      · simp [SpinState.waits, hcpus, hcalled, hentered, hj, hi]
      · simp [SpinState.waits, hcpus, hcalled, hentered, hj, Ne.symm hj]
  | spin i regs regs' steps hi hcpus _ hcalled hentered =>
      by_cases hj : j = i
      · simp [SpinState.waits, hcpus, hcalled, hentered, hj, hi]
      · simp [SpinState.waits, hcpus, hcalled, hentered, hj]
  | enter i regs steps hi hcpus _ _ hcalled hentered =>
      by_cases hj : j = i
      · simp [SpinState.waits, hcpus, hcalled, hentered, hj, hi]
      · simp [SpinState.waits, hcpus, hcalled, hentered, hj, Ne.symm hj]
  | work i f rest hi hcpus _ hcalled hentered =>
      by_cases hj : j = i
      · simp [SpinState.waits, hcpus, hcalled, hentered, hj, hi]
      · simp [SpinState.waits, hcpus, hcalled, hentered, hj]
  | leave i hi hcpus _ hcalled hentered =>
      by_cases hj : j = i
      · simp [SpinState.waits, hcpus, hcalled, hentered, hj, hi]
      · simp [SpinState.waits, hcpus, hcalled, hentered, hj]

/-- The data is that of sections that CPUs have got into. -/
def Serves (arch : LockArch) (x : σ) (s : SpinState ι σ) (entered : List (ι × List (σ → σ))) :
    Prop :=
  s.Inv arch ∧ Serial.Is x entered s.inside s.data

theorem serves_exec (arch : LockArch) (x : σ) (as : List (SpinAct ι σ)) :
    Serves arch x (Run.exec (step arch) (start x) as)
      (Run.emitted (step arch) (enters arch) (start x) as) := by
  have hstep : ∀ (s : SpinState ι σ) before a, Serves arch x s before →
      Serves arch x (s.step arch a) (before ++ s.enters arch a) := fun s before a h =>
    ⟨(moves_step h.1 a).1, (moves_step h.1 a).2.serial h.2⟩
  exact Run.append_simulates hstep ⟨inv_start arch x, Serial.is_start x⟩ as

theorem waits_exec (arch : LockArch) (x : σ) (as : List (SpinAct ι σ)) (i : ι) :
    (Run.emitted (step arch) calls (start x) as).filter (·.1 = i) =
      (Run.emitted (step arch) (enters arch) (start x) as).filter (·.1 = i) ++
        (Run.exec (step arch) (start x) as).waits i := by
  have hwaits := Run.append_emitted (inv_start arch x)
    (fun s a h => ⟨(moves_step h a).1, (moves_step h a).2.waits i⟩) as
  rw [Run.filter_emitted, Run.filter_emitted, ← hwaits]
  rfl

/-- What holds of all sections that are called for holds of those that CPUs get into. -/
theorem forall_mem_enters (arch : LockArch) {P : ι × List (σ → σ) → Prop} {x : σ}
    {as : List (SpinAct ι σ)}
    (h : ∀ i regs steps, .call i regs steps ∈ as → P (i, steps)) :
    ∀ e ∈ Run.emitted (step arch) (enters arch) (start x) as, P e := by
  intro e he
  have hcalled : ∀ e ∈ Run.emitted (step arch) calls (start x) as, P e := by
    refine Run.forall_mem_emitted.mpr (Run.along_of_forall (fun a ha s => ?_) _)
    cases a with
    | call i regs steps =>
        rw [calls]
        split
        · simpa using h i regs steps ha
        · simp
    | tick _ _ | drop _ => simp [calls]
  have hmem : e ∈ (Run.emitted (step arch) calls (start x) as).filter (·.1 = e.1) := by
    rw [waits_exec]
    exact List.mem_append_left _ (by simpa using he)
  exact hcalled e (List.mem_filter.mp hmem).1

/-- The steps that a CPU has before it are steps of the section it has called for. -/
theorem Moves.forall_mem_steps {s' : SpinState ι σ} {called entered : List (ι × List (σ → σ))}
    {P : ι → (σ → σ) → Prop} (h : s.Moves s' called entered)
    (hs : ∀ j, ∀ f ∈ (s.cpus j).steps, P j f) (hcalled : ∀ e ∈ called, ∀ f ∈ e.2, P e.1 f) (j : ι) :
    ∀ f ∈ (s'.cpus j).steps, P j f := by
  have hupdate : ∀ i phase, (∀ f ∈ phase.steps, P i f) →
      ∀ f ∈ (Function.update s.cpus i phase j).steps, P j f := by
    intro i phase hphase
    by_cases hj : j = i
    · rw [hj, Function.update_self]
      exact hphase
    · rw [Function.update_of_ne hj]
      exact hs j
  cases h with
  | stay hcpus => exact hcpus ▸ hs j
  | call i regs steps _ hcpus _ hcall =>
      rw [hcpus]
      exact hupdate i _ (hcalled (i, steps) (by simp [hcall]))
  | spin i _ _ _ hi hcpus | enter i _ _ hi hcpus =>
      rw [hcpus]
      exact hupdate i _ (by simpa [hi, SpinPhase.steps] using hs i)
  | work i f rest hi hcpus =>
      have hall : ∀ g ∈ f :: rest, P i g := by simpa [hi, SpinPhase.steps] using hs i
      rw [hcpus]
      exact hupdate i _ fun g hg => hall g (List.mem_cons_of_mem f hg)
  | leave i _ hcpus =>
      rw [hcpus]
      exact hupdate i _ (by simp [SpinPhase.steps])

/-- What holds of all steps of the sections that are called for holds of those that are left. -/
theorem forall_mem_inside {P : ι → (σ → σ) → Prop} {x : σ} {as : List (SpinAct ι σ)}
    (h : ∀ i regs steps, .call i regs steps ∈ as → ∀ f ∈ steps, P i f) {rest : List (σ → σ)}
    (hi : (Run.exec (step arch) (start x) as).inside i = some rest) : ∀ f ∈ rest, P i f := by
  have hcalled : Run.Along (step arch) (fun s a => ∀ e ∈ s.calls a, ∀ f ∈ e.2, P e.1 f)
      (start x) as := by
    refine Run.along_of_forall (fun a ha s => ?_) _
    cases a with
    | call i regs steps =>
        rw [calls]
        split
        · simpa using h i regs steps ha
        · simp
    | tick _ _ | drop _ => simp [calls]
  have hall := hcalled.exec_invariant
    (I := fun s => s.Inv arch ∧ ∀ j, ∀ f ∈ (s.cpus j).steps, P j f)
    ⟨inv_start arch x, by simp [start, SpinPhase.steps]⟩ fun s a hs ha =>
      ⟨(moves_step hs.1 a).1, (moves_step hs.1 a).2.forall_mem_steps hs.2 ha⟩
  rw [inside] at hi
  intro f hf
  refine hall.2 i f ?_
  cases hphase : (Run.exec (step arch) (start x) as).cpus i with
  | outside | locking _ _ => simp [hphase, SpinPhase.rest] at hi
  | critical rest' =>
      rw [hphase, SpinPhase.rest_critical, Option.some.injEq] at hi
      rw [SpinPhase.steps, hi]
      exact hf

/-- Whatever CPUs do and in what order, one at most is in a section, the data is what the sections
that CPUs have got into make of it one after the other, the last one as far as its CPU has come, and
every CPU has got into all sections that it has called for, in order, but for the one that it waits
for. -/
theorem serial_exec (arch : LockArch) (x : σ) (as : List (SpinAct ι σ)) :
    let s := Run.exec (step arch) (start x) as
    let entered := Run.emitted (step arch) (enters arch) (start x) as
    Serial.Is x entered s.inside s.data ∧
      ∀ i, (Run.emitted (step arch) calls (start x) as).filter (·.1 = i) =
        entered.filter (·.1 = i) ++ s.waits i :=
  ⟨(serves_exec arch x as).2, waits_exec arch x as⟩

end SpinState

end BaoHypervisor
