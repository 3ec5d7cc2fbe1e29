import BaoHypervisor.Arch.Armv8.Vgic.Handlers

/-!
# The fields of interrupts

A register of the vGIC shows one field of each interrupt. Only a write to the register
changes what is configured of an interrupt: to route it, to put it into a list register and
to spill it changes where it is, who owns it and its state.
-/

namespace BaoHypervisor

variable {cpuNum intNum : ℕ}

/-- The `field_width` of the handlers of a register. -/
def VgicReg.fieldWidth : VgicReg → ℕ
  | isenabler | ispendr | isactiver | icenabler | icpendr | icactiver => 1
  | icfgr => 2
  | ipriorityr | itargetsr => 8
  | irouter => 64

def VgicReg.IsState (reg : VgicReg) : Prop :=
  reg = ispendr ∨ reg = icpendr ∨ reg = isactiver ∨ reg = icactiver

namespace VgicInt

/-- The interrupts have the same value in the field of a register. That of `IROUTER` is kept
as the guest wrote it and as the physical GIC knows it. -/
def SameField (reg : VgicReg) (i j : VgicInt cpuNum) : Prop :=
  match reg with
  | .isenabler | .icenabler => i.enabled = j.enabled
  | .ispendr | .icpendr => i.state.pend = j.state.pend
  | .isactiver | .icactiver => i.state.act = j.state.act
  | .icfgr => i.cfg = j.cfg
  | .ipriorityr => i.prio = j.prio
  | .irouter => i.route = j.route ∧ i.phys = j.phys
  | .itargetsr => i.targets = j.targets

def config (i : VgicInt cpuNum) : VgicInt cpuNum :=
  { i with
    owner := none, state := .inv, lr := 0, sgiAct := 0#8, sgiPend := 0#8, inLr := false }

theorem SameField.congr {reg : VgicReg} (hreg : ¬ reg.IsState) {i j i' j' : VgicInt cpuNum}
    (h : SameField reg i j) (hi : i'.config = i.config) (hj : j'.config = j.config) :
    SameField reg i' j' := by
  simp only [config, VgicInt.mk.injEq] at hi hj
  obtain ⟨-, hiroute, hiphys, -, hiprio, hicfg, -, hitargets, -, -, -, -, hienabled⟩ := hi
  obtain ⟨-, hjroute, hjphys, -, hjprio, hjcfg, -, hjtargets, -, -, -, -, hjenabled⟩ := hj
  cases reg with
  | isenabler | icenabler => exact hienabled.trans (h.trans hjenabled.symm)
  | ispendr | icpendr | isactiver | icactiver => exact absurd (by simp [VgicReg.IsState]) hreg
  | icfgr => exact hicfg.trans (h.trans hjcfg.symm)
  | ipriorityr => exact hiprio.trans (h.trans hjprio.symm)
  | irouter =>
      exact ⟨hiroute.trans (h.1.trans hjroute.symm), hiphys.trans (h.2.trans hjphys.symm)⟩
  | itargetsr => exact hitargets.trans (h.trans hjtargets.symm)

end VgicInt

namespace VgicState

def SameConfig (s s' : VgicState cpuNum intNum) : Prop :=
  ∀ r, (s'.ints r).config = (s.ints r).config

variable {s s' s'' : VgicState cpuNum intNum} {vm : VgicVm cpuNum intNum} {v : Fin cpuNum}
  {r : IntRef cpuNum intNum}

namespace SameConfig

theorem refl (s : VgicState cpuNum intNum) : SameConfig s s := fun _ => rfl

theorem trans (h : SameConfig s s') (h' : SameConfig s' s'') : SameConfig s s'' :=
  fun r => (h' r).trans (h r)

theorem setInt {interrupt : VgicInt cpuNum} (h : interrupt.config = (s.ints r).config) :
    SameConfig s (s.setInt r interrupt) := by
  intro r'
  by_cases hr : r' = r
  · subst hr
    rw [ints_setInt_self, h]
  · rw [ints_setInt_of_ne hr]

end SameConfig

theorem sameConfig_vgicYieldOwnership : SameConfig s (s.vgicYieldOwnership vm v r) := by
  rw [vgicYieldOwnership]
  split_ifs
  · exact .refl s
  · exact .setInt rfl

theorem sameConfig_vgicRemoveLr : SameConfig s (s.vgicRemoveLr vm v r) := by
  rw [vgicRemoveLr]
  split_ifs
  · exact .refl s
  · split
    · refine SameConfig.setInt (s := s.gichWriteLr v _ _) ?_
      rw [takenBack]
      dsimp only
      split_ifs <;> rfl
    · exact .setInt rfl

theorem sameConfig_vgicWriteLr {i : ℕ} : SameConfig s (s.vgicWriteLr vm v r i) := by
  have hprev : SameConfig s (s.forgetPrev vm v r i) := by
    rw [forgetPrev]
    dsimp only
    split_ifs
    · split
      · rename_i prev _
        split_ifs
        · have hin : SameConfig s (s.setInt prev { s.ints prev with inLr := false }) := .setInt rfl
          exact hin.trans sameConfig_vgicYieldOwnership
        · exact .refl s
      · exact .refl s
    · exact .refl s
  exact hprev.trans (SameConfig.setInt (s := s.forgetPrev vm v r i) rfl)

theorem sameConfig_vgicSpillLr {i : ℕ} : SameConfig s (s.vgicSpillLr vm v i) := by
  rw [vgicSpillLr]
  split
  · rename_i spilled _
    have hremove : SameConfig s (s.vgicRemoveLr vm v spilled) := sameConfig_vgicRemoveLr
    have hadd : SameConfig s ((s.vgicRemoveLr vm v spilled).vgicAddSpilled v spilled) := hremove
    exact hadd.trans sameConfig_vgicYieldOwnership
  · exact .refl s

theorem sameConfig_vgicAddLr : SameConfig s (s.vgicAddLr vm v r) := by
  rw [vgicAddLr]
  split_ifs
  · exact .refl s
  · split
    · exact sameConfig_vgicWriteLr
    · split
      · exact sameConfig_vgicSpillLr.trans sameConfig_vgicWriteLr
      · exact .refl s

theorem sameConfig_vgicRoute : SameConfig s (s.vgicRoute vm v r) := by
  rw [vgicRoute]
  split_ifs with hskip htarget
  · exact .refl s
  · have hadd : SameConfig s (s.vgicAddLr vm v r) := sameConfig_vgicAddLr
    dsimp only
    split_ifs
    · exact hadd.trans sameConfig_vgicYieldOwnership
    · exact hadd
  · dsimp only
    split_ifs
    · exact sameConfig_vgicYieldOwnership
    · exact .refl s

/-! ## Writes -/

/-- The state in which `vgic_int_set_field` has called `update_field`, or has found that
another vCPU owns the interrupt. -/
def fieldWritten (s : VgicState cpuNum intNum) (vm : VgicVm cpuNum intNum) (v : Fin cpuNum)
    (r : IntRef cpuNum intNum) (reg : VgicReg) (data : BitVec 64) : VgicState cpuNum intNum :=
  let (owned, s) := s.vgicGetOwnership v r
  if owned then s.writeField vm v r reg data else s

/-- The interrupt that `update_field` is called for, with the state that its list register
holds. -/
def fetched (s : VgicState cpuNum intNum) (vm : VgicVm cpuNum intNum) (v : Fin cpuNum)
    (r : IntRef cpuNum intNum) : VgicInt cpuNum :=
  ((s.vgicGetOwnership v r).2.vgicRemoveLr vm v r).ints r

theorem vgicGetOwnership_of_ownable (h : s.Ownable v r) : (s.vgicGetOwnership v r).1 = true := by
  rw [vgicGetOwnership]
  rcases h with hnone | hown
  · rw [hnone]
  · rw [hown]
    exact beq_self_eq_true v

theorem ints_fieldWritten (h : s.Ownable v r) (reg : VgicReg) (data : BitVec 64) :
    (s.fieldWritten vm v r reg data).ints r =
      vm.updateField v r reg (s.fetched vm v r) data := by
  rw [fieldWritten]
  dsimp only
  rw [if_pos (vgicGetOwnership_of_ownable h)]
  exact ints_setInt_self

theorem sameConfig_vgicIntSetField (h : s.Ownable v r) (reg : VgicReg) (data : BitVec 64) :
    SameConfig (s.fieldWritten vm v r reg data) (s.vgicIntSetField vm v r reg data) := by
  rw [fieldWritten, vgicIntSetField]
  dsimp only
  rw [if_pos (vgicGetOwnership_of_ownable h), if_pos (vgicGetOwnership_of_ownable h)]
  exact sameConfig_vgicRoute.trans sameConfig_vgicYieldOwnership

end VgicState

end BaoHypervisor
