import BaoHypervisor.Arch.Armv8.Vgic.Handlers
import BaoHypervisor.Theory.Run

/-!
# Runs of the vGIC

A run takes the handlers of all vCPUs of a VM, the rounds of their loops and what guests do
with list registers in any order. In a run whose steps all find what the conditions of the
handlers ask for, no interrupt is ever in two places.
-/

namespace BaoHypervisor

variable {cpuNum intNum : ℕ}

/-- What may happen next on the CPU of a vCPU. Messages are handled whoever sent them. -/
inductive VgicAction (cpuNum intNum : ℕ)
  | inject (v : Fin cpuNum) (id source : ℕ)
  | injectHw (v : Fin cpuNum) (id : ℕ)
  | setField (v : Fin cpuNum) (r : IntRef cpuNum intNum) (reg : VgicReg) (data : BitVec 64)
  | ipi (v : Fin cpuNum) (msg : VgicMsg)
  | trappedEoir (v : Fin cpuNum)
  | refill (v : Fin cpuNum) (flags : IntState)
  | eoirSpilled (v : Fin cpuNum)
  | guestAck (v : Fin cpuNum) (i : ℕ)
  | guestDeactivate (v : Fin cpuNum) (i : ℕ)
deriving DecidableEq, Repr

namespace VgicState

section Step

variable (vm : VgicVm cpuNum intNum) (s : VgicState cpuNum intNum)

def guestAck (v : Fin cpuNum) (i : ℕ) : VgicState cpuNum intNum :=
  if (s.lrs v i).state = .pending then
    s.gichWriteLr v i { s.lrs v i with state := .active }
  else s

def guestDeactivate (v : Fin cpuNum) (i : ℕ) : VgicState cpuNum intNum :=
  s.gichWriteLr v i
    { s.lrs v i with state := { (s.lrs v i).state with act := false } }

def step : VgicAction cpuNum intNum → VgicState cpuNum intNum
  | .inject v id source => s.vgicInject vm v id source
  | .injectHw v id => s.vgicInjectHw vm v id
  | .setField v r reg data => s.vgicIntSetField vm v r reg data
  | .ipi v msg => s.vgicIpiHandler vm v msg
  | .trappedEoir v => s.trappedEoirRound vm v
  | .refill v flags => s.refillRound vm v flags
  | .eoirSpilled v => s.vgicEoirHighestSpilledActive vm v
  | .guestAck v i => s.guestAck v i
  | .guestDeactivate v i => s.guestDeactivate v i

/-- The action finds what its handler asks for. -/
def Clean : VgicAction cpuNum intNum → Prop
  | .inject v id source => s.InjectClean vm v id source
  | .injectHw v id => ∀ r, vgicGetInt id v = some r → s.HwClean r
  | .setField v r reg data => s.FieldClean vm v r reg data
  | .ipi v msg => s.IpiClean vm v msg
  | .trappedEoir v => s.TrappedClean vm v
  | .refill _ _ => True
  | .eoirSpilled v => s.EoirClean vm v
  | .guestAck _ _ => True
  | .guestDeactivate _ _ => True

end Step

/-! ## Loops of the handlers -/

section Loops

variable (vm : VgicVm cpuNum intNum) (v : Fin cpuNum)

theorem vgicRefillLrs_eq_exec (n : ℕ) (flags : IntState) (s : VgicState cpuNum intNum) :
    ∃ rounds : List IntState,
      vgicRefillLrs vm v n flags s = Run.exec (step vm) s (rounds.map (.refill v)) := by
  induction n generalizing flags s with
  | zero => exact ⟨[], rfl⟩
  | succ n ih =>
      unfold vgicRefillLrs
      split
      · obtain ⟨rounds, hrounds⟩ := ih _ (s.refillRound vm v flags)
        exact ⟨flags :: rounds, hrounds⟩
      · exact ⟨[], rfl⟩

theorem vgicHandleTrappedEoir_eq_exec (n : ℕ) (s : VgicState cpuNum intNum) :
    ∃ rounds, vgicHandleTrappedEoir vm v n s =
      Run.exec (step vm) s (List.replicate rounds (.trappedEoir v)) := by
  induction n generalizing s with
  | zero => exact ⟨0, rfl⟩
  | succ n ih =>
      rw [vgicHandleTrappedEoir]
      split
      · obtain ⟨rounds, hrounds⟩ := ih (s.trappedEoirRound vm v)
        exact ⟨rounds + 1, hrounds⟩
      · exact ⟨0, rfl⟩

/-- A maintenance interrupt that nothing comes between is a run of the rounds of its loops. -/
theorem gicMaintenanceHandler_eq_exec (misr : Misr) (eoiCount fuel : ℕ)
    (s : VgicState cpuNum intNum) :
    ∃ (trapped : ℕ) (refills : List IntState) (ended : ℕ),
      gicMaintenanceHandler vm v misr eoiCount fuel s =
        Run.exec (step vm) s
          (List.replicate trapped (.trappedEoir v) ++ refills.map (.refill v) ++
            List.replicate ended (.eoirSpilled v)) := by
  obtain ⟨trapped, htrapped⟩ : ∃ trapped,
      (if misr.eoi then vgicHandleTrappedEoir vm v fuel s else s) =
        Run.exec (step vm) s (List.replicate trapped (.trappedEoir v)) := by
    split_ifs
    · exact vgicHandleTrappedEoir_eq_exec vm v fuel s
    · exact ⟨0, rfl⟩
  rw [gicMaintenanceHandler, htrapped]
  generalize hs : Run.exec (step vm) s (List.replicate trapped (.trappedEoir v)) = s'
  obtain ⟨refills, hrefills⟩ : ∃ refills : List IntState,
      (if misr.np || misr.u then
        vgicRefillLrs vm v fuel (if misr.np then .pending else .pendAct) s'
      else s') = Run.exec (step vm) s' (refills.map (.refill v)) := by
    split_ifs
    · exact vgicRefillLrs_eq_exec vm v fuel _ s'
    · exact vgicRefillLrs_eq_exec vm v fuel _ s'
    · exact ⟨[], rfl⟩
  rw [hrefills]
  generalize hs' : Run.exec (step vm) s' (refills.map (.refill v)) = s''
  refine ⟨trapped, refills, if misr.lrenp then eoiCount else 0, ?_⟩
  rw [Run.exec_append, Run.exec_append, hs, hs']
  split_ifs
  · exact (Run.exec_replicate (step vm) s'' (.eoirSpilled v) eoiCount).symm
  · rfl

end Loops

/-! ## Single placement -/

/-- The vGIC of a VM after `vgic_init` and the `vgic_cpu_init` of its vCPUs, where `hw` are the
interrupts that the VM was given by `vgic_set_hw`. -/
def start (vm : VgicVm cpuNum intNum) (hw : IntRef cpuNum intNum → Bool) :
    VgicState cpuNum intNum where
  ints r :=
    { owner :=
        match vm.version, r with
        | .gicv2, .priv v _ => some v
        | _, _ => none
      route := VgicVm.gicdIrouterInv
      phys :=
        match r with
        | .priv v _ => BitVec.ofNat 64 (vm.physId v)
        | .spi _ => VgicVm.gicdIrouterInv
      state := .inv
      prio := 0xff#8
      cfg := if vm.version = .gicv3 ∧ gicIsSgi r.id then 0b10#8 else 0#8
      lr := 0
      targets := 0#8
      sgiAct := 0#8
      sgiPend := 0#8
      hw := hw r
      inLr := false
      enabled := decide (vm.version = .gicv2) && gicIsSgi r.id }
  link _ := none
  lrs _ _ := .zero
  currLrs _ _ := 0
  spilled _ := NodeList.listInit
  sent := []

/-- No interrupt is in two places: in two list registers, twice in the spilled lists, which have
no cycle, or in a list register and a spilled list. -/
structure SinglePlacement (s : VgicState cpuNum intNum) : Prop where
  held : ∀ r v i w j, s.Holds v i r → s.Holds w j r → v = w ∧ i = j
  spilled : ∃ nodes : SpilledList cpuNum → List (IntRef cpuNum intNum),
    (∀ q, Linked.Chain s.link (s.spilled q).head (nodes q) ∧ (nodes q).Nodup) ∧
      (∀ q q' r, r ∈ nodes q → r ∈ nodes q' → q = q') ∧ ∀ q, ∀ r ∈ nodes q, ¬ s.Held r

variable {s : VgicState cpuNum intNum} {vm : VgicVm cpuNum intNum}

theorem Inv.singlePlacement (h : s.Inv vm) : s.SinglePlacement := by
  refine ⟨fun r v i w j hv hw => ?_, s.spilledNodes, fun q => ⟨(h.listed.spans q).chain,
    h.listed.nodup q⟩, fun q q' r hq hq' => ?_, fun q r hr => h.placed.apart hr⟩
  · obtain ⟨hov, -, hi⟩ := h.placed.recorded v i r hv
    obtain ⟨how, -, hj⟩ := h.placed.recorded w j r hw
    exact ⟨Option.some.inj (hov.symm.trans how), hi.symm.trans hj⟩
  · exact (h.listed.own q r hq).symm.trans (h.listed.own q' r hq')

theorem inv_start (vm : VgicVm cpuNum intNum) (hw : IntRef cpuNum intNum → Bool) :
    (start vm hw).Inv vm := by
  have hspans : ∀ q, ((start vm hw).spilled q).Spans (start vm hw).link [] :=
    fun _ => NodeList.spans_listInit _
  have hnodes : ∀ q, (start vm hw).spilledNodes q = [] :=
    fun q => spilledNodes_eq (hspans q) List.nodup_nil
  refine ⟨⟨fun q => ?_, fun q => ?_, fun q r hr => ?_, fun q r htail => ?_⟩,
    ⟨fun v i r hholds => ?_, fun q r hr => ?_⟩, ⟨fun hversion v id => ?_, fun _ _ _ => rfl,
    fun v _ => ⟨.priv v 0, IntRef.vgicGetInt_zero v⟩, fun _ _ _ heoi => ?_⟩⟩
  · rw [hnodes q]
    exact hspans q
  · rw [hnodes q]
    exact List.nodup_nil
  · rw [hnodes q] at hr
    cases hr
  · cases htail
  · exact absurd rfl hholds.1
  · rw [hnodes q] at hr
    cases hr
  · rw [start]
    dsimp only
    rw [hversion]
  · cases heoi

/-- A step that finds what its handler asks for keeps the invariant. -/
theorem Inv.step (h : s.Inv vm) {a : VgicAction cpuNum intNum} (hclean : s.Clean vm a) :
    (s.step vm a).Inv vm := by
  cases a with
  | inject v id source => exact h.vgicInject hclean
  | injectHw v id => exact h.vgicInjectHw hclean
  | setField v r reg data => exact h.vgicIntSetField hclean
  | ipi v msg => exact h.vgicIpiHandler hclean
  | trappedEoir v => exact h.trappedEoirRound hclean
  | refill v flags => exact h.refillRound flags
  | eoirSpilled v => exact h.vgicEoirHighestSpilledActive hclean
  | guestAck v i =>
      rw [VgicState.step, guestAck]
      split_ifs with hpending
      · refine h.setLrState fun hinv => ?_
        rw [hinv] at hpending
        cases hpending
      · exact h
  | guestDeactivate v i =>
      refine h.setLrState fun hinv => ?_
      rw [hinv]
      rfl

/-- In a run whose steps find what their handlers ask for, no interrupt is ever in two
places. -/
theorem singlePlacement_of_clean (vm : VgicVm cpuNum intNum) (hw : IntRef cpuNum intNum → Bool)
    (as : List (VgicAction cpuNum intNum))
    (hclean : Run.Along (step vm) (Clean vm) (start vm hw) as) :
    (Run.exec (step vm) (start vm hw) as).SinglePlacement := by
  have hinv : (Run.exec (step vm) (start vm hw) as).Inv vm :=
    Run.Along.exec_invariant (I := fun s => s.Inv vm) hclean (inv_start vm hw)
      fun _ _ h hstep => h.step hstep
  exact hinv.singlePlacement

theorem singlePlacement_gicMaintenanceHandler (h : s.Inv vm) (v : Fin cpuNum) (misr : Misr)
    (eoiCount fuel : ℕ) :
    ∃ as, gicMaintenanceHandler vm v misr eoiCount fuel s = Run.exec (step vm) s as ∧
      (Run.Along (step vm) (Clean vm) s as →
        (gicMaintenanceHandler vm v misr eoiCount fuel s).SinglePlacement) := by
  obtain ⟨_, _, _, heq⟩ := gicMaintenanceHandler_eq_exec vm v misr eoiCount fuel s
  refine ⟨_, heq, fun hclean => ?_⟩
  rw [heq]
  have hinv : (Run.exec (step vm) s _).Inv vm :=
    Run.Along.exec_invariant (I := fun s => s.Inv vm) hclean h fun _ _ h hstep => h.step hstep
  exact hinv.singlePlacement

def oneVcpu (numLrs : ℕ) : VgicVm 1 64 where
  version := .gicv2
  numLrs := numLrs
  platformCpuNum := 1
  vm := default
  physId _ := 0
  mpidr _ := 0#64
  cpuIdToMpidr _ := 0#64
  vmpidr _ := 0#64
  physId_lt _ := by decide
  physId_injective _ _ _ := Subsingleton.elim _ _
  intNum_le := by decide

/-- The first shared interrupt is enabled and injected. -/
theorem singlePlacement_injected :
    (Run.exec (step (oneVcpu 4)) (start (oneVcpu 4) fun _ => false)
      [.setField 0 (.spi 0) .isenabler 1#64, .injectHw 0 32]).SinglePlacement := by
  have henable : (start (oneVcpu 4) fun _ => false).Clean (oneVcpu 4)
      (.setField 0 (.spi 0) .isenabler 1#64) := fun hspilled => absurd hspilled (by decide)
  refine singlePlacement_of_clean _ _ _ ⟨henable, fun r hget => ?_, trivial⟩
  obtain rfl : r = .spi 0 := Option.some.inj (hget.symm.trans rfl)
  have hinv := (inv_start (oneVcpu 4) fun _ => false).step henable
  exact ⟨hinv.placed.not_held (by decide), fun _ => by decide⟩

/-- An interrupt that is injected while it is pending gets into a second list register. With no
list register left, it is put into its spilled list twice, which has a cycle then. -/
theorem injected_twice :
    ¬ (Run.exec (step (oneVcpu 4)) (start (oneVcpu 4) fun _ => false)
        [.setField 0 (.spi 0) .isenabler 1#64, .injectHw 0 32,
          .injectHw 0 32]).SinglePlacement ∧
      ¬ (Run.exec (step (oneVcpu 1)) (start (oneVcpu 1) fun _ => false)
        [.setField 0 (.spi 0) .isenabler 1#64, .setField 0 (.spi 1) .isenabler 1#64,
          .injectHw 0 32, .injectHw 0 33, .injectHw 0 33]).SinglePlacement := by
  constructor
  · intro h
    have hheld := h.held (.spi 0) 0 0 0 1 ⟨by decide, by decide⟩ ⟨by decide, by decide⟩
    cases hheld.2
  · intro h
    obtain ⟨nodes, hnodes, -⟩ := h.spilled
    have hchain := (hnodes .vm).1
    rw [show NodeList.head _ = some (.spi 1) by decide] at hchain
    exact hchain.next_ne_self (by decide)

end VgicState

end BaoHypervisor
