import BaoHypervisor.Core.Vm
import BaoHypervisor.Theory.Run

/-!
# Assignment of CPUs to VMs

At boot every CPU runs `vmm_assign_vcpu`. In a first loop it looks for a VM
with affinity to it that has no master yet or a CPU to spare, and behind a
barrier the CPUs left over fill up what is missing. The first CPU to take the
lock of a VM becomes its master, so the master depends on the order in which the
CPUs get there.

A schedule is a list of CPUs; the CPU whose turn it is makes one round of its
loop, the critical section included, or passes the barrier.
-/

namespace BaoHypervisor

/-- `struct vm_assignment`, as far as `vmm_assign_vcpu` uses it. -/
structure VmAssignment where
  master : Bool
  ncpus : ℕ
  cpus : CpuMap
deriving DecidableEq, Repr, Inhabited

/-- The VM that a CPU was assigned to, and whether it is the master. -/
structure Assigned where
  vmId : ℕ
  master : Bool
deriving DecidableEq, Repr, Inhabited

/-- Where a CPU is in `vmm_assign_vcpu`: in a round of one of the two loops, at
the barrier between them, or at the end. -/
inductive AssignStage
  | affinity (i : ℕ)
  | barrier (assigned : Option Assigned)
  | rest (i : ℕ)
  | done (assigned : Option Assigned)
deriving DecidableEq, Repr

def AssignStage.place : AssignStage → Option Assigned
  | .barrier assigned | .done assigned => assigned
  | .affinity _ | .rest _ => none

/-- How many VMs a CPU has found full behind the barrier. -/
def AssignStage.passed (config : Config) : AssignStage → ℕ
  | .rest i => i
  | .done none => config.vmlist.length
  | _ => 0

/-- The assignments, and the stages of the CPUs. -/
structure AssignState where
  vmAssign : ℕ → VmAssignment
  stage : ℕ → AssignStage

namespace VmAssignment

/-- The CPU is added to the VM. Whichever CPU it is, the VM has a master then. -/
def add (assign : VmAssignment) (cpu : ℕ) : VmAssignment :=
  { master := true
    ncpus := assign.ncpus + 1
    cpus := assign.cpus ||| cpuBit cpu }

end VmAssignment

namespace AssignState

/-- All CPUs enter `vmm_assign_vcpu`. -/
def init : AssignState :=
  { vmAssign := fun _ => { master := false, ncpus := 0, cpus := 0#64 }
    stage := fun _ => .affinity 0 }

section Functions

variable (config : Config) (s : AssignState) (cpu i : ℕ)

def setStage (stage : AssignStage) : AssignState :=
  { s with stage := Function.update s.stage cpu stage }

def assign : AssignState :=
  { s with vmAssign := Function.update s.vmAssign i ((s.vmAssign i).add cpu) }

def affinityRound : AssignState :=
  match config.vmlist[i]? with
  | none => s.setStage cpu (.barrier none)
  | some vmConfig =>
      if vmConfig.cpuAffinity &&& cpuBit cpu ≠ 0#64 then
        if (s.vmAssign i).master = false then
          (s.assign cpu i).setStage cpu (.barrier (some ⟨i, true⟩))
        else if (s.vmAssign i).ncpus < vmConfig.cpuNum then
          (s.assign cpu i).setStage cpu (.barrier (some ⟨i, false⟩))
        else s.setStage cpu (.affinity (i + 1))
      else s.setStage cpu (.affinity (i + 1))

def restRound : AssignState :=
  match config.vmlist[i]? with
  | none => s.setStage cpu (.done none)
  | some vmConfig =>
      if (s.vmAssign i).ncpus < vmConfig.cpuNum then
        (s.assign cpu i).setStage cpu (.done (some ⟨i, !(s.vmAssign i).master⟩))
      else s.setStage cpu (.rest (i + 1))

def AtBarrier : Prop := ∀ i, s.stage cpu ≠ .affinity i

instance : Decidable (s.AtBarrier cpu) :=
  match h : s.stage cpu with
  | .affinity i => isFalse fun hpast => hpast i h
  | .barrier _ => isTrue fun _ heq => by rw [h] at heq; cases heq
  | .rest _ => isTrue fun _ heq => by rw [h] at heq; cases heq
  | .done _ => isTrue fun _ heq => by rw [h] at heq; cases heq

end Functions

/-- One turn of a CPU, on a platform of `cpuNum` CPUs. -/
def step (config : Config) (cpuNum : ℕ) (s : AssignState) (cpu : ℕ) : AssignState :=
  if cpu < cpuNum then
    match s.stage cpu with
    | .affinity i => s.affinityRound config cpu i
    | .barrier assigned =>
        if ∀ c < cpuNum, s.AtBarrier c then
          match assigned with
          | some assigned => s.setStage cpu (.done (some assigned))
          | none => s.setStage cpu (.rest 0)
        else s
    | .rest i => s.restRound config cpu i
    | .done _ => s
  else s

abbrev after (config : Config) (cpuNum : ℕ) (schedule : List ℕ) : AssignState :=
  Run.exec (step config cpuNum) init schedule

/-- The CPU left `vmm_assign_vcpu` with a place in the VM. -/
def AssignedTo (s : AssignState) (i cpu : ℕ) : Prop :=
  s.stage cpu = .done (some ⟨i, true⟩) ∨ s.stage cpu = .done (some ⟨i, false⟩)

instance (s : AssignState) (i cpu : ℕ) : Decidable (s.AssignedTo i cpu) :=
  inferInstanceAs (Decidable (_ ∨ _))

/-- The `cpus` of a VM once `vm_cpu_init` has run on each of its CPUs. The `cpus` of
`struct vm_assignment` get their bits at other steps, those of the assignment. -/
def vmCpus (s : AssignState) (i : ℕ) : ℕ → CpuMap
  | 0 => 0#64
  | cpuNum + 1 =>
      if s.AssignedTo i cpuNum then s.vmCpus i cpuNum ||| cpuBit cpuNum
      else s.vmCpus i cpuNum

theorem getLsbD_vmCpus (s : AssignState) (i : ℕ) {cpuNum : ℕ} (hcpus : cpuNum ≤ 64)
    (cpu : ℕ) :
    (s.vmCpus i cpuNum).getLsbD cpu = true ↔ cpu < cpuNum ∧ s.AssignedTo i cpu := by
  induction cpuNum with
  | zero => simp [vmCpus]
  | succ n ih =>
      have hbit : (cpuBit n).getLsbD cpu = decide (cpu = n) := by
        rw [getLsbD_cpuBit, Nat.mod_eq_of_lt hcpus]
      rw [vmCpus]
      split_ifs with hn
      · rw [BitVec.getLsbD_or, hbit, Bool.or_eq_true, ih (by omega), decide_eq_true_eq]
        constructor
        · rintro (⟨hlt, hassigned⟩ | rfl)
          · exact ⟨by omega, hassigned⟩
          · exact ⟨by omega, hn⟩
        · rintro ⟨hlt, hassigned⟩
          rcases Nat.lt_succ_iff_lt_or_eq.mp hlt with hlt | heq
          · exact .inl ⟨hlt, hassigned⟩
          · exact .inr heq
      · rw [ih (by omega)]
        constructor
        · rintro ⟨hlt, hassigned⟩
          exact ⟨by omega, hassigned⟩
        · rintro ⟨hlt, hassigned⟩
          rcases Nat.lt_succ_iff_lt_or_eq.mp hlt with hlt | rfl
          · exact ⟨hlt, hassigned⟩
          · exact absurd hassigned hn

/-- The effect of a turn: the CPU takes a place in a VM, or goes on without one. -/
inductive Turn (config : Config) (s : AssignState) (cpu : ℕ) (s' : AssignState) : Prop
  | takes (i : ℕ) (vmConfig : VmConfig) (stage : AssignStage)
      (vmConfig_eq : config.vmlist[i]? = some vmConfig)
      (free : (s.vmAssign i).master = false ∨ (s.vmAssign i).ncpus < vmConfig.cpuNum)
      (before : (s.stage cpu).place = none)
      (place : stage.place = some ⟨i, !(s.vmAssign i).master⟩)
      (passed : stage.passed config = 0)
      (eq : s' = (s.assign cpu i).setStage cpu stage)
  | moves (stage : AssignStage)
      (place : stage.place = (s.stage cpu).place)
      (passed : ∀ i < stage.passed config, i < (s.stage cpu).passed config ∨
        ∀ vmConfig ∈ config.vmlist[i]?, vmConfig.cpuNum ≤ (s.vmAssign i).ncpus)
      (eq : s' = s.setStage cpu stage)

section Turn

variable {config : Config} {cpuNum cpu i : ℕ} {s : AssignState}

theorem turn_affinityRound (hstage : s.stage cpu = .affinity i) :
    Turn config s cpu (s.affinityRound config cpu i) := by
  have hbefore : (s.stage cpu).place = none := by rw [hstage, AssignStage.place]
  rw [affinityRound]
  cases hvm : config.vmlist[i]? with
  | none =>
      exact .moves (.barrier none) hbefore.symm (fun j hj => absurd hj (Nat.not_lt_zero j)) rfl
  | some vmConfig =>
      dsimp only
      split_ifs with haffinity hmaster hfree
      · exact .takes i vmConfig _ hvm (.inl hmaster) hbefore (by rw [hmaster]; rfl) rfl rfl
      · rw [Bool.not_eq_false] at hmaster
        exact .takes i vmConfig _ hvm (.inr hfree) hbefore (by rw [hmaster]; rfl) rfl rfl
      · exact .moves (.affinity (i + 1)) hbefore.symm
          (fun j hj => absurd hj (Nat.not_lt_zero j)) rfl
      · exact .moves (.affinity (i + 1)) hbefore.symm
          (fun j hj => absurd hj (Nat.not_lt_zero j)) rfl

theorem turn_restRound (hstage : s.stage cpu = .rest i) :
    Turn config s cpu (s.restRound config cpu i) := by
  have hbefore : (s.stage cpu).place = none := by rw [hstage, AssignStage.place]
  have hpassed : (s.stage cpu).passed config = i := by rw [hstage, AssignStage.passed]
  rw [restRound]
  cases hvm : config.vmlist[i]? with
  | none =>
      refine .moves (.done none) hbefore.symm (fun j hj => .inl ?_) rfl
      rw [hpassed]
      exact lt_of_lt_of_le hj (List.getElem?_eq_none_iff.mp hvm)
  | some vmConfig =>
      dsimp only
      split_ifs with hfree
      · exact .takes i vmConfig _ hvm (.inr hfree) hbefore rfl rfl rfl
      · refine .moves (.rest (i + 1)) hbefore.symm (fun j hj => ?_) rfl
        rw [hpassed]
        rcases Nat.lt_succ_iff_lt_or_eq.mp hj with hlt | rfl
        · exact .inl hlt
        · refine .inr fun vmConfig' hmem => ?_
          rw [hvm] at hmem
          rw [← Option.some.inj hmem]
          exact Nat.not_lt.mp hfree

theorem turn_self (s : AssignState) (cpu : ℕ) : Turn config s cpu s :=
  .moves (s.stage cpu) rfl (fun _ h => .inl h)
    (by rw [setStage, Function.update_eq_self])

theorem turn_step (config : Config) (cpuNum : ℕ) (s : AssignState) (cpu : ℕ) :
    Turn config s cpu (step config cpuNum s cpu) := by
  rw [step]
  by_cases hcpu : cpu < cpuNum
  · rw [if_pos hcpu]
    cases hstage : s.stage cpu with
    | affinity i => exact turn_affinityRound hstage
    | barrier assigned =>
        dsimp only
        by_cases hall : ∀ c < cpuNum, s.AtBarrier c
        · rw [if_pos hall]
          cases assigned with
          | none =>
              refine .moves (.rest 0) ?_ (fun j hj => absurd hj (Nat.not_lt_zero j)) rfl
              rw [hstage]
              rfl
          | some assigned =>
              refine .moves (.done (some assigned)) ?_ (fun j hj => absurd hj (Nat.not_lt_zero j))
                rfl
              rw [hstage]
              rfl
        · rw [if_neg hall]
          exact turn_self s cpu
    | rest i => exact turn_restRound hstage
    | done assigned => exact turn_self s cpu
  · rw [if_neg hcpu]
    exact turn_self s cpu

theorem stage_step_of_ne {c : ℕ} (hne : c ≠ cpu) :
    (step config cpuNum s cpu).stage c = s.stage c := by
  rcases turn_step config cpuNum s cpu with ⟨i, vmConfig, stage, -, -, -, -, -, heq⟩ |
    ⟨stage, -, -, heq⟩
  · rw [heq]
    exact Function.update_of_ne hne _ _
  · rw [heq]
    exact Function.update_of_ne hne _ _

end Turn

theorem stage_after_of_le (config : Config) {cpuNum cpu : ℕ} (h : cpuNum ≤ cpu)
    (schedule : List ℕ) : (after config cpuNum schedule).stage cpu = .affinity 0 := by
  refine Run.exec_invariant (I := fun s : AssignState => s.stage cpu = .affinity 0) rfl ?_
    schedule
  intro s c hs
  by_cases hc : c = cpu
  · rw [step, if_neg (by omega)]
    exact hs
  · rw [stage_step_of_ne fun heq => hc heq.symm]
    exact hs

theorem lt_of_assignedTo {config : Config} {cpuNum i cpu : ℕ} {schedule : List ℕ}
    (h : (after config cpuNum schedule).AssignedTo i cpu) : cpu < cpuNum := by
  by_contra hge
  have hstage := stage_after_of_le config (Nat.not_lt.mp hge) schedule
  rcases h with heq | heq
  · rw [hstage] at heq
    cases heq
  · rw [hstage] at heq
    cases heq

end AssignState

end BaoHypervisor
