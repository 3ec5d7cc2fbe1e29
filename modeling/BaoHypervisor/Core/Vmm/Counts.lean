import BaoHypervisor.Core.Vmm.Assign
import Mathlib.Algebra.BigOperators.Group.Finset.Basic
import Mathlib.Algebra.Order.BigOperators.Group.Finset

/-!
# How many CPUs the VMs get

Whatever the order in which the CPUs run `vmm_assign_vcpu`, the counter of a VM is the
number of CPUs that have a place in it, and one of these is its master. A CPU that ends
without a place has found all VMs full behind the barrier. So when there are enough CPUs,
all VMs are full in the end.
-/

namespace BaoHypervisor

namespace AssignState

def PlacedIn (s : AssignState) (i cpu : ℕ) : Prop :=
  (s.stage cpu).place.map Assigned.vmId = some i

def MasterOf (s : AssignState) (i cpu : ℕ) : Prop :=
  (s.stage cpu).place = some ⟨i, true⟩

instance (s : AssignState) (i cpu : ℕ) : Decidable (s.PlacedIn i cpu) :=
  inferInstanceAs (Decidable (_ = _))

instance (s : AssignState) (i cpu : ℕ) : Decidable (s.MasterOf i cpu) :=
  inferInstanceAs (Decidable (_ = _))

def cpusOf (s : AssignState) (cpuNum i : ℕ) : Finset ℕ :=
  (Finset.range cpuNum).filter (s.PlacedIn i)

section Places

variable {s : AssignState} {i j cpu c : ℕ}

theorem MasterOf.placedIn (h : s.MasterOf i c) : s.PlacedIn i c := by
  rw [PlacedIn, h]
  rfl

theorem PlacedIn.unique (h : s.PlacedIn i c) (h' : s.PlacedIn j c) : i = j :=
  Option.some.inj (h.symm.trans h')

theorem not_placedIn_of_none (h : (s.stage c).place = none) : ¬ s.PlacedIn i c := by
  rw [PlacedIn, h]
  exact fun h => by cases h

theorem stage_assign_of_ne {stage : AssignStage} (hne : c ≠ cpu) :
    ((s.assign cpu i).setStage cpu stage).stage c = s.stage c :=
  Function.update_of_ne hne _ _

theorem stage_assign_self {stage : AssignStage} :
    ((s.assign cpu i).setStage cpu stage).stage cpu = stage :=
  Function.update_self _ _ _

theorem vmAssign_assign_self {stage : AssignStage} :
    ((s.assign cpu i).setStage cpu stage).vmAssign i = (s.vmAssign i).add cpu :=
  Function.update_self _ _ _

theorem vmAssign_assign_of_ne {stage : AssignStage} (hne : j ≠ i) :
    ((s.assign cpu i).setStage cpu stage).vmAssign j = s.vmAssign j :=
  Function.update_of_ne hne _ _

variable {stage : AssignStage} {master : Bool} {cpuNum : ℕ}

theorem placedIn_assign_self (hplace : stage.place = some ⟨i, master⟩) :
    ((s.assign cpu i).setStage cpu stage).PlacedIn j cpu ↔ j = i := by
  rw [PlacedIn, stage_assign_self, hplace]
  exact ⟨fun heq => (Option.some.inj heq).symm, fun heq => congrArg some heq.symm⟩

theorem placedIn_assign_of_ne (hne : c ≠ cpu) :
    ((s.assign cpu i).setStage cpu stage).PlacedIn j c ↔ s.PlacedIn j c := by
  rw [PlacedIn, stage_assign_of_ne hne, PlacedIn]

theorem masterOf_assign_self (hplace : stage.place = some ⟨i, master⟩) :
    ((s.assign cpu i).setStage cpu stage).MasterOf j cpu ↔ j = i ∧ master = true := by
  rw [MasterOf, stage_assign_self, hplace, Option.some.injEq, Assigned.mk.injEq]
  exact and_congr_left fun _ => eq_comm

theorem masterOf_assign_of_ne (hne : c ≠ cpu) :
    ((s.assign cpu i).setStage cpu stage).MasterOf j c ↔ s.MasterOf j c := by
  rw [MasterOf, stage_assign_of_ne hne, MasterOf]

theorem cpusOf_assign_self (hcpu : cpu < cpuNum) (hplace : stage.place = some ⟨i, master⟩) :
    ((s.assign cpu i).setStage cpu stage).cpusOf cpuNum i = insert cpu (s.cpusOf cpuNum i) := by
  ext c
  simp only [cpusOf, Finset.mem_filter, Finset.mem_insert, Finset.mem_range]
  by_cases hc : c = cpu
  · rw [hc, placedIn_assign_self hplace]
    exact iff_of_true ⟨hcpu, rfl⟩ (.inl rfl)
  · rw [placedIn_assign_of_ne hc]
    exact (or_iff_right hc).symm

theorem cpusOf_assign_of_ne (hbefore : (s.stage cpu).place = none)
    (hplace : stage.place = some ⟨i, master⟩) (hne : j ≠ i) :
    ((s.assign cpu i).setStage cpu stage).cpusOf cpuNum j = s.cpusOf cpuNum j := by
  refine Finset.filter_congr fun c _ => ?_
  by_cases hc : c = cpu
  · rw [hc, placedIn_assign_self hplace]
    exact iff_of_false hne (not_placedIn_of_none hbefore)
  · exact placedIn_assign_of_ne hc

end Places

/-- The counters count the CPUs and the flags tell whether there is a master. -/
structure Counted (config : Config) (cpuNum : ℕ) (s : AssignState) : Prop where
  outside : ∀ c, cpuNum ≤ c → (s.stage c).place = none
  ncpus_eq : ∀ i, (s.vmAssign i).ncpus = (s.cpusOf cpuNum i).card
  ncpus_le : ∀ i, ∀ vmConfig ∈ config.vmlist[i]?, (s.vmAssign i).ncpus ≤ vmConfig.cpuNum
  lt_length : ∀ i c, s.PlacedIn i c → i < config.vmlist.length
  master_of_placed : ∀ i c, s.PlacedIn i c → (s.vmAssign i).master = true
  exists_master : ∀ i, (s.vmAssign i).master = true → ∃ c, s.MasterOf i c
  master_unique : ∀ i c d, s.MasterOf i c → s.MasterOf i d → c = d
  full : ∀ c, ∀ i < (s.stage c).passed config, ∀ vmConfig ∈ config.vmlist[i]?,
    vmConfig.cpuNum ≤ (s.vmAssign i).ncpus

section Counted

variable {config : Config} {cpuNum cpu : ℕ} {s : AssignState}

theorem counted_init (config : Config) (cpuNum : ℕ) : Counted config cpuNum init := by
  have hnone : ∀ i c, ¬ init.PlacedIn i c := fun i c => not_placedIn_of_none rfl
  refine ⟨fun _ _ => rfl, fun i => ?_, fun _ _ _ => Nat.zero_le _,
    fun i c h => absurd h (hnone i c), fun i c h => absurd h (hnone i c),
    fun i h => (by cases h), fun i c d h => absurd h.placedIn (hnone i c),
    fun c i hi => absurd hi (Nat.not_lt_zero i)⟩
  rw [cpusOf, Finset.filter_false_of_mem fun c _ => hnone i c]
  rfl

theorem Counted.ncpus_lt (h : Counted config cpuNum s) {i : ℕ} {vmConfig : VmConfig}
    (hpos : 1 ≤ vmConfig.cpuNum)
    (hfree : (s.vmAssign i).master = false ∨ (s.vmAssign i).ncpus < vmConfig.cpuNum) :
    (s.vmAssign i).ncpus < vmConfig.cpuNum := by
  rcases hfree with hmaster | hlt
  · rw [h.ncpus_eq, cpusOf, Finset.filter_false_of_mem fun c _ hc => ?_]
    · exact hpos
    · rw [h.master_of_placed i c hc] at hmaster
      cases hmaster
  · exact hlt

theorem ncpus_le_assign {stage : AssignStage} (i j : ℕ) :
    (s.vmAssign j).ncpus ≤ (((s.assign cpu i).setStage cpu stage).vmAssign j).ncpus := by
  by_cases hji : j = i
  · rw [hji, vmAssign_assign_self]
    exact Nat.le_succ _
  · rw [vmAssign_assign_of_ne hji]

/-- The first CPU of a VM becomes its master, and it stays the only one. -/
theorem Counted.masters (h : Counted config cpuNum s) {i : ℕ} {stage : AssignStage}
    (hbefore : (s.stage cpu).place = none)
    (hplace : stage.place = some ⟨i, !(s.vmAssign i).master⟩) :
    let s' := (s.assign cpu i).setStage cpu stage
    (∀ j, (s'.vmAssign j).master = true → ∃ c, s'.MasterOf j c) ∧
      ∀ j c d, s'.MasterOf j c → s'.MasterOf j d → c = d := by
  intro s'
  have hno : ∀ j e, s.MasterOf j e → ¬ s'.MasterOf j cpu := by
    intro j e he hcpu
    obtain ⟨rfl, hfalse⟩ := (masterOf_assign_self hplace).mp hcpu
    rw [h.master_of_placed j e he.placedIn] at hfalse
    cases hfalse
  refine ⟨fun j hj => ?_, fun j c d hc hd => ?_⟩
  · by_cases hold : (s.vmAssign j).master = true
    · obtain ⟨c, hc⟩ := h.exists_master j hold
      have hne : c ≠ cpu := fun heq => not_placedIn_of_none hbefore (heq ▸ hc.placedIn)
      exact ⟨c, (masterOf_assign_of_ne hne).mpr hc⟩
    · by_cases hji : j = i
      · refine ⟨cpu, (masterOf_assign_self hplace).mpr ⟨hji, ?_⟩⟩
        rw [← hji, Bool.eq_false_iff.mpr hold]
        rfl
      · rw [vmAssign_assign_of_ne hji] at hj
        exact absurd hj hold
  · by_cases hc' : c = cpu
    · by_cases hd' : d = cpu
      · rw [hc', hd']
      · exact absurd (hc' ▸ hc) (hno j d ((masterOf_assign_of_ne hd').mp hd))
    · have hcold := (masterOf_assign_of_ne hc').mp hc
      by_cases hd' : d = cpu
      · exact absurd (hd' ▸ hd) (hno j c hcold)
      · exact h.master_unique j c d hcold ((masterOf_assign_of_ne hd').mp hd)

/-- A CPU takes a place. -/
theorem Counted.takes (h : Counted config cpuNum s) (hcpu : cpu < cpuNum) {i : ℕ}
    {vmConfig : VmConfig} {stage : AssignStage} (hvm : config.vmlist[i]? = some vmConfig)
    (hlt : (s.vmAssign i).ncpus < vmConfig.cpuNum) (hbefore : (s.stage cpu).place = none)
    (hplace : stage.place = some ⟨i, !(s.vmAssign i).master⟩)
    (hpassed : stage.passed config = 0) :
    Counted config cpuNum ((s.assign cpu i).setStage cpu stage) := by
  obtain ⟨hexists, hunique⟩ := h.masters hbefore hplace
  refine ⟨fun c hc => ?_, fun j => ?_, fun j vmConfig' hmem => ?_, fun j c hc => ?_,
    fun j c hc => ?_, hexists, hunique, fun c j hj vmConfig' hmem => ?_⟩
  · rw [stage_assign_of_ne (by omega)]
    exact h.outside c hc
  · by_cases hji : j = i
    · rw [hji, vmAssign_assign_self, cpusOf_assign_self hcpu hplace,
        Finset.card_insert_of_notMem, ← h.ncpus_eq, VmAssignment.add]
      rw [cpusOf, Finset.mem_filter]
      exact fun hmem => not_placedIn_of_none hbefore hmem.2
    · rw [vmAssign_assign_of_ne hji, cpusOf_assign_of_ne hbefore hplace hji, h.ncpus_eq]
  · by_cases hji : j = i
    · rw [hji, hvm] at hmem
      rw [hji, vmAssign_assign_self, ← Option.some.inj hmem]
      exact hlt
    · rw [vmAssign_assign_of_ne hji]
      exact h.ncpus_le j vmConfig' hmem
  · by_cases hc' : c = cpu
    · rw [hc', placedIn_assign_self hplace] at hc
      rw [hc]
      exact (List.getElem?_eq_some_iff.mp hvm).1
    · exact h.lt_length j c ((placedIn_assign_of_ne hc').mp hc)
  · by_cases hji : j = i
    · rw [hji, vmAssign_assign_self, VmAssignment.add]
    · rw [vmAssign_assign_of_ne hji]
      by_cases hc' : c = cpu
      · rw [hc', placedIn_assign_self hplace] at hc
        exact absurd hc hji
      · exact h.master_of_placed j c ((placedIn_assign_of_ne hc').mp hc)
  · by_cases hc' : c = cpu
    · rw [hc', stage_assign_self, hpassed] at hj
      exact absurd hj (Nat.not_lt_zero j)
    · rw [stage_assign_of_ne hc'] at hj
      exact (h.full c j hj vmConfig' hmem).trans (ncpus_le_assign i j)

/-- A CPU goes on with the place it has. -/
theorem Counted.moves (h : Counted config cpuNum s) {stage : AssignStage}
    (hplace : stage.place = (s.stage cpu).place)
    (hpassed : ∀ i < stage.passed config, i < (s.stage cpu).passed config ∨
      ∀ vmConfig ∈ config.vmlist[i]?, vmConfig.cpuNum ≤ (s.vmAssign i).ncpus) :
    Counted config cpuNum (s.setStage cpu stage) := by
  have hsame : ∀ c, ((s.setStage cpu stage).stage c).place = (s.stage c).place := fun c => by
    rw [setStage]
    dsimp only
    by_cases hc : c = cpu
    · rw [hc, Function.update_self, hplace]
    · rw [Function.update_of_ne hc]
  have hplaced : ∀ i c, (s.setStage cpu stage).PlacedIn i c ↔ s.PlacedIn i c := fun i c => by
    rw [PlacedIn, hsame, PlacedIn]
  have hmaster : ∀ i c, (s.setStage cpu stage).MasterOf i c ↔ s.MasterOf i c := fun i c => by
    rw [MasterOf, hsame, MasterOf]
  refine ⟨fun c hc => (hsame c).trans (h.outside c hc), fun i => ?_, h.ncpus_le,
    fun i c hc => h.lt_length i c ((hplaced i c).mp hc),
    fun i c hc => h.master_of_placed i c ((hplaced i c).mp hc), fun i hi => ?_,
    fun i c d hc hd => h.master_unique i c d ((hmaster i c).mp hc) ((hmaster i d).mp hd),
    fun c i hi vmConfig hmem => ?_⟩
  · rw [show (s.setStage cpu stage).cpusOf cpuNum i = s.cpusOf cpuNum i from
      Finset.filter_congr fun c _ => hplaced i c]
    exact h.ncpus_eq i
  · obtain ⟨c, hc⟩ := h.exists_master i hi
    exact ⟨c, (hmaster i c).mpr hc⟩
  · rw [setStage] at hi
    dsimp only at hi
    by_cases hc : c = cpu
    · rw [hc, Function.update_self] at hi
      rcases hpassed i hi with hold | hfull
      · exact h.full cpu i hold vmConfig hmem
      · exact hfull vmConfig hmem
    · rw [Function.update_of_ne hc] at hi
      exact h.full c i hi vmConfig hmem

theorem Counted.step (hpos : ∀ vmConfig ∈ config.vmlist, 1 ≤ vmConfig.cpuNum)
    (h : Counted config cpuNum s) (cpu : ℕ) :
    Counted config cpuNum (AssignState.step config cpuNum s cpu) := by
  by_cases hcpu : cpu < cpuNum
  · rcases turn_step config cpuNum s cpu with
      ⟨i, vmConfig, stage, hvm, hfree, hbefore, hplace, hpassed, heq⟩ |
      ⟨stage, hplace, hpassed, heq⟩
    · rw [heq]
      have hlt := h.ncpus_lt (hpos vmConfig (List.mem_of_getElem? hvm)) hfree
      exact h.takes hcpu hvm hlt hbefore hplace hpassed
    · rw [heq]
      exact h.moves hplace hpassed
  · rw [AssignState.step, if_neg hcpu]
    exact h

theorem counted_after (hpos : ∀ vmConfig ∈ config.vmlist, 1 ≤ vmConfig.cpuNum)
    (schedule : List ℕ) : Counted config cpuNum (after config cpuNum schedule) :=
  Run.exec_invariant (counted_init config cpuNum) (fun _ cpu hs => hs.step hpos cpu) schedule

/-- When all CPUs have a place, the counters of the VMs add up to their number. -/
theorem Counted.sum_ncpus (h : Counted config cpuNum s)
    (hplaced : ∀ c < cpuNum, (s.stage c).place ≠ none) :
    ∑ i ∈ Finset.range config.vmlist.length, (s.vmAssign i).ncpus = cpuNum := by
  have hmaps : ∀ c ∈ Finset.range cpuNum,
      ((s.stage c).place.map Assigned.vmId).getD 0 ∈ Finset.range config.vmlist.length := by
    intro c hc
    cases hplace : (s.stage c).place with
    | none => exact absurd hplace (hplaced c (Finset.mem_range.mp hc))
    | some assigned =>
        exact Finset.mem_range.mpr (h.lt_length _ c (by rw [PlacedIn, hplace]; rfl))
  have hcard := Finset.card_eq_sum_card_fiberwise hmaps
  rw [Finset.card_range] at hcard
  rw [hcard]
  refine Finset.sum_congr rfl fun i _ => ?_
  rw [h.ncpus_eq, cpusOf]
  congr 1
  refine Finset.filter_congr fun c hc => ?_
  rw [PlacedIn]
  cases hplace : (s.stage c).place with
  | none => exact absurd hplace (hplaced c (Finset.mem_range.mp hc))
  | some assigned => exact Option.some_inj

def Masked (s : AssignState) : Prop :=
  ∀ i b, (s.vmAssign i).cpus.getLsbD b = true ↔ ∃ c, s.PlacedIn i c ∧ b = c % 64

theorem getLsbD_add (assign : VmAssignment) (cpu b : ℕ) :
    (assign.add cpu).cpus.getLsbD b = true ↔ assign.cpus.getLsbD b = true ∨ b = cpu % 64 := by
  rw [VmAssignment.add]
  dsimp only
  rw [BitVec.getLsbD_or, Bool.or_eq_true, getLsbD_cpuBit, decide_eq_true_iff]

theorem Masked.step (h : s.Masked) (cpu : ℕ) :
    (AssignState.step config cpuNum s cpu).Masked := by
  rcases turn_step config cpuNum s cpu with
    ⟨i, vmConfig, stage, -, -, hbefore, hplace, -, heq⟩ | ⟨stage, hplace, -, heq⟩
  · rw [heq]
    intro j b
    have hother : ∀ c, s.PlacedIn j c → c ≠ cpu := fun c hc hcpu =>
      not_placedIn_of_none hbefore (hcpu ▸ hc)
    have hplaced : ∀ c, ((s.assign cpu i).setStage cpu stage).PlacedIn j c ↔
        s.PlacedIn j c ∨ c = cpu ∧ j = i := by
      intro c
      by_cases hc : c = cpu
      · rw [hc, placedIn_assign_self hplace]
        exact ⟨fun hji => .inr ⟨rfl, hji⟩, fun hor => hor.elim
          (fun hcpu => absurd hcpu (not_placedIn_of_none hbefore)) And.right⟩
      · rw [placedIn_assign_of_ne hc]
        exact (or_iff_left fun hor => hc hor.1).symm
    simp only [hplaced, or_and_right, exists_or]
    by_cases hji : j = i
    · rw [hji, vmAssign_assign_self, getLsbD_add, h i b]
      simp
    · rw [vmAssign_assign_of_ne hji, h j b]
      simp [hji]
  · rw [heq]
    intro j b
    rw [setStage]
    have hplaced : ∀ c, PlacedIn { s with stage := Function.update s.stage cpu stage } j c ↔
        s.PlacedIn j c := by
      intro c
      rw [PlacedIn, PlacedIn]
      dsimp only
      by_cases hc : c = cpu
      · rw [hc, Function.update_self, hplace]
      · rw [Function.update_of_ne hc]
    simp only [hplaced]
    exact h j b

theorem masked_after (config : Config) (cpuNum : ℕ) (schedule : List ℕ) :
    (after config cpuNum schedule).Masked := by
  refine Run.exec_invariant (fun i b => ?_) (fun _ cpu hs => hs.step cpu) schedule
  refine iff_of_false (by simp [init]) ?_
  rintro ⟨c, hc, -⟩
  exact not_placedIn_of_none rfl hc

end Counted

/-- All CPUs have left `vmm_assign_vcpu`, with the place they have. -/
def Complete (s : AssignState) (cpuNum : ℕ) : Prop :=
  ∀ c < cpuNum, s.stage c = .done (s.stage c).place

instance (s : AssignState) (cpuNum : ℕ) : Decidable (s.Complete cpuNum) :=
  inferInstanceAs (Decidable (∀ c < cpuNum, _ = _))

section Complete

variable {config : Config} {cpuNum i : ℕ} {s : AssignState}

theorem assignedTo_iff_placedIn (h : Counted config cpuNum s) (hdone : s.Complete cpuNum)
    (c : ℕ) : s.AssignedTo i c ↔ s.PlacedIn i c := by
  by_cases hc : c < cpuNum
  · rw [AssignedTo, PlacedIn, hdone c hc, AssignStage.place]
    cases (s.stage c).place with
    | none => simp
    | some assigned =>
        obtain ⟨vmId, master⟩ := assigned
        cases master <;> simp
  · refine iff_of_false (fun hassigned => ?_)
      (not_placedIn_of_none (h.outside c (Nat.not_lt.mp hc)))
    have hplace := h.outside c (Nat.not_lt.mp hc)
    rcases hassigned with hstage | hstage
    · rw [hstage] at hplace
      cases hplace
    · rw [hstage] at hplace
      cases hplace

theorem sum_range_getD (l : List ℕ) : ∑ i ∈ Finset.range l.length, l.getD i 0 = l.sum := by
  induction l with
  | nil => rfl
  | cons a l ih =>
      rw [List.length_cons, Finset.sum_range_succ', List.sum_cons, Nat.add_comm, ← ih]
      rfl

/-- With enough CPUs no VM lacks one in the end. -/
theorem Counted.ncpus_eq_of_complete (h : Counted config cpuNum s)
    (hdone : s.Complete cpuNum)
    (henough : (config.vmlist.map VmConfig.cpuNum).sum ≤ cpuNum) :
    ∀ i, ∀ vmConfig ∈ config.vmlist[i]?, (s.vmAssign i).ncpus = vmConfig.cpuNum := by
  by_cases hall : ∀ c < cpuNum, (s.stage c).place ≠ none
  · -- all CPUs have a place, so the VMs have as many as they may have together
    have hle : ∀ i ∈ Finset.range config.vmlist.length,
        (s.vmAssign i).ncpus ≤ (config.vmlist.map VmConfig.cpuNum).getD i 0 := by
      intro i hi
      have hvm := List.getElem?_eq_getElem (Finset.mem_range.mp hi)
      rw [List.getD_eq_getElem?_getD, List.getElem?_map, hvm]
      exact h.ncpus_le i _ hvm
    have hsum := Finset.sum_le_sum hle
    rw [h.sum_ncpus hall, ← List.length_map (f := VmConfig.cpuNum), sum_range_getD] at hsum
    have heq := (Finset.sum_eq_sum_iff_of_le hle).mp (by
      rw [h.sum_ncpus hall, ← List.length_map (f := VmConfig.cpuNum), sum_range_getD]
      omega)
    intro i vmConfig hmem
    have hlt := (List.getElem?_eq_some_iff.mp hmem).1
    rw [heq i (Finset.mem_range.mpr hlt), List.getD_eq_getElem?_getD, List.getElem?_map, hmem]
    rfl
  · rw [not_forall] at hall
    obtain ⟨c, hall⟩ := hall
    obtain ⟨hc, hnone⟩ := Classical.not_imp.mp hall
    rw [not_not] at hnone
    intro i vmConfig hmem
    refine (h.ncpus_le i vmConfig hmem).antisymm (h.full c i ?_ vmConfig hmem)
    rw [hdone c hc, hnone, AssignStage.passed]
    exact (List.getElem?_eq_some_iff.mp hmem).1

end Complete

/-- The CPUs that left `vmm_assign_vcpu` with a place in the VM. -/
def assignedCpus (s : AssignState) (cpuNum i : ℕ) : Finset ℕ :=
  (Finset.range cpuNum).filter (s.AssignedTo i)

/-- When all CPUs have left `vmm_assign_vcpu`, each belongs to at most one VM, each VM has at
most the CPUs it may have and one master among them, its assignment counts them and has the bits
of their numbers modulo 64, which on up to 64 CPUs is the set of them, and all VMs are full if
there are enough CPUs. -/
theorem assignment_complete (config : Config)
    (hpos : ∀ vmConfig ∈ config.vmlist, 1 ≤ vmConfig.cpuNum) (cpuNum : ℕ)
    (schedule : List ℕ) (hdone : (after config cpuNum schedule).Complete cpuNum) :
    let s := after config cpuNum schedule
    (∀ c i j, s.AssignedTo i c → s.AssignedTo j c → i = j) ∧
    ∀ i, ∀ vmConfig ∈ config.vmlist[i]?,
      (s.assignedCpus cpuNum i).card ≤ vmConfig.cpuNum ∧
      ((s.assignedCpus cpuNum i).Nonempty → ∃! c, s.stage c = .done (some ⟨i, true⟩)) ∧
      (s.vmAssign i).ncpus = (s.assignedCpus cpuNum i).card ∧
      (∀ b, (s.vmAssign i).cpus.getLsbD b = true ↔
        ∃ c ∈ s.assignedCpus cpuNum i, b = c % 64) ∧
      (cpuNum ≤ 64 → ∀ c, (s.vmAssign i).cpus.getLsbD c = true ↔
        c ∈ s.assignedCpus cpuNum i) ∧
      ((config.vmlist.map VmConfig.cpuNum).sum ≤ cpuNum →
        (s.assignedCpus cpuNum i).card = vmConfig.cpuNum) := by
  intro s
  have h : Counted config cpuNum s := counted_after hpos schedule
  have hplaced := fun i c => assignedTo_iff_placedIn (i := i) h hdone c
  have hcpus : ∀ i, s.assignedCpus cpuNum i = s.cpusOf cpuNum i := fun i =>
    Finset.filter_congr fun c _ => hplaced i c
  refine ⟨fun c i j hi hj => ?_, fun i vmConfig hmem => ?_⟩
  · exact ((hplaced i c).mp hi).unique ((hplaced j c).mp hj)
  · rw [hcpus, ← h.ncpus_eq]
    have hmem_cpusOf : ∀ c, c ∈ s.cpusOf cpuNum i ↔ s.PlacedIn i c := by
      intro c
      rw [cpusOf, Finset.mem_filter, Finset.mem_range]
      refine and_iff_right_of_imp fun hplaced => ?_
      by_contra hge
      exact not_placedIn_of_none (h.outside c (Nat.not_lt.mp hge)) hplaced
    have hmask : ∀ b, (s.vmAssign i).cpus.getLsbD b = true ↔
        ∃ c ∈ s.cpusOf cpuNum i, b = c % 64 := fun b => by
      simp only [hmem_cpusOf]
      exact masked_after config cpuNum schedule i b
    refine ⟨h.ncpus_le i vmConfig hmem, fun hne => ?_, rfl, hmask, fun hle c => ?_,
      fun henough => ?_⟩
    · obtain ⟨c, hc⟩ := hne
      obtain ⟨m, hm⟩ := h.exists_master i
        (h.master_of_placed i c (Finset.mem_filter.mp hc).2)
      have hmaster : ∀ c, s.stage c = .done (some ⟨i, true⟩) ↔ s.MasterOf i c := by
        intro c
        refine ⟨fun hstage => by rw [MasterOf, hstage, AssignStage.place], fun hc => ?_⟩
        have hlt : c < cpuNum := by
          by_contra hge
          exact not_placedIn_of_none (h.outside c (Nat.not_lt.mp hge)) hc.placedIn
        rw [hdone c hlt, hc]
      refine ⟨m, (hmaster m).mpr hm, fun c hc => ?_⟩
      exact h.master_unique i c m ((hmaster c).mp hc) hm
    · rw [hmask]
      have hlt : ∀ d ∈ s.cpusOf cpuNum i, d % 64 = d := fun d hd =>
        Nat.mod_eq_of_lt ((Finset.mem_range.mp (Finset.mem_filter.mp hd).1).trans_le hle)
      constructor
      · rintro ⟨d, hd, rfl⟩
        rwa [hlt d hd]
      · exact fun hc => ⟨c, hc, (hlt c hc).symm⟩
    · exact h.ncpus_eq_of_complete hdone henough i vmConfig hmem

def twoVms : Config :=
  { shmemlist := []
    vmlist := [{ (default : VmConfig) with cpuNum := 2, cpuAffinity := 0b011#64 },
      { (default : VmConfig) with cpuNum := 1, cpuAffinity := 0b001#64 }] }

theorem assignment_complete_three :
    let s := after twoVms 3 [0, 1, 2, 2, 2, 2, 2, 2, 0, 1]
    s.Complete 3 ∧ (s.assignedCpus 3 0).card = 2 ∧ (s.assignedCpus 3 1).card = 1 := by
  have hcomplete := (assignment_complete twoVms (by decide) 3
    [0, 1, 2, 2, 2, 2, 2, 2, 0, 1] (by decide)).2
  exact ⟨by decide, (hcomplete 0 _ rfl).2.2.2.2.2 (by decide),
    (hcomplete 1 _ rfl).2.2.2.2.2 (by decide)⟩

def lateConfig : Config :=
  { shmemlist := []
    vmlist := [{ (default : VmConfig) with cpuNum := 1 }] }

def lateSchedule : List ℕ :=
  (List.range 65).flatMap (fun c => [c, c]) ++ [64, 64] ++
    (List.range 64).flatMap fun c => [c, c, c]

/-- The VM has the CPU 64 and not the CPU 0, and its mask is that of the CPU 0. -/
theorem assignment_incomplete :
    let s := after lateConfig 65 lateSchedule
    s.Complete 65 ∧ 64 ∈ s.assignedCpus 65 0 ∧ 0 ∉ s.assignedCpus 65 0 ∧
      (s.vmAssign 0).ncpus = 1 ∧ (s.vmAssign 0).cpus = 0x1#64 := by
  decide +kernel

end AssignState

end BaoHypervisor
