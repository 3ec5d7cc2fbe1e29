import BaoHypervisor.Arch.Armv8.Vgic.Moves

/-!
# What the handlers keep

Injections, writes of registers, messages and maintenance interrupts keep the invariant
unless they take an interrupt for one that is in no list register while some list register
holds it, or add one that waits in a spilled list. The conditions below say this of the state
that a handler finds.
-/

namespace BaoHypervisor

variable {cpuNum intNum : ℕ}

namespace VgicState

section Clean

variable (s : VgicState cpuNum intNum) (vm : VgicVm cpuNum intNum) (v : Fin cpuNum)
  (r : IntRef cpuNum intNum)

def Spilled : Prop := r ∈ s.spilledNodes r.list

instance : Decidable (s.Spilled r) := inferInstanceAs (Decidable (_ ∈ _))

def Ownable : Prop := (s.ints r).owner = none ∨ (s.ints r).owner = some v

/-- `vgic_inject_hw` finds an interrupt that no list register holds, and that is not spilled
unless it is disabled. -/
def HwClean : Prop := ¬ s.Held r ∧ ((s.ints r).enabled = true → ¬ s.Spilled r)

/-- `vgic_inject_sgi` finds an interrupt that is not spilled, unless it is disabled or the
source is pending already. -/
def SgiClean (source : ℕ) : Prop :=
  s.Spilled r → (s.ints r).enabled = true →
    (s.ints r).sgiPend ||| 1#8 <<< source = (s.ints r).sgiPend

/-- `vgic_int_set_field` finds an interrupt that is not spilled, unless another vCPU owns it or
it is not to be added to a list register with the field written. -/
def FieldClean (reg : VgicReg) (data : BitVec 64) : Prop :=
  s.Spilled r → s.Ownable v r →
    let interrupt := vm.updateField v r reg { s.ints r with owner := some v } data
    interrupt.state = .inv ∨ interrupt.enabled = false ∨
      vm.vgicIntVcpuIsTarget v r interrupt = false

/-- `VGIC_ROUTE` finds an interrupt that is not spilled, unless another vCPU owns it or it is
not to be added to a list register. -/
def RouteClean : Prop :=
  s.Spilled r → s.Ownable v r →
    (s.ints r).enabled = false ∨ vm.vgicIntVcpuIsTarget v r (s.ints r) = false

/-- The same of `vgic_inject`, which does one of three things. -/
def InjectClean (id source : ℕ) : Prop :=
  ∀ r, vgicGetInt id v = some r →
    if VgicVm.vgicIntIsHw r (s.ints r) then s.HwClean r
    else if vm.version = .gicv2 ∧ gicIsSgi id then s.SgiClean r source
    else s.FieldClean vm v r .ispendr 1#64

/-- The same of `vgic_ipi_handler`. -/
def IpiClean (msg : VgicMsg) : Prop :=
  match msg.event with
  | .route => ∀ r, vgicGetInt msg.intId.toNat v = some r → s.RouteClean vm v r
  | .inject => s.InjectClean vm v msg.intId.toNat msg.val.toNat
  | .setReg =>
      ∀ reg r, VgicReg.table[msg.reg.toNat]? = some reg →
        vgicGetInt msg.intId.toNat msg.vgicrId.toNat = some r →
          s.FieldClean vm v r reg (msg.val.setWidth 64)

/-- `vgic_handle_trapped_eoir` finds that no list register holds the interrupt that has ended,
and that it is not spilled if it is an SGI that is to be added again. -/
def TrappedClean : Prop :=
  ∀ i r, vm.firstLr (s.gichGetEisr v) = some i → vgicGetInt (s.lrs v i).vid v = some r →
    ¬ s.Held r ∧ (gicIsSgi r.id = true → (s.ints r).enabled = true → ¬ s.Spilled r)

/-- `vgic_eoir_highest_spilled_active` finds an interrupt that it is not to add, since it leaves
it in its spilled list. -/
def EoirClean : Prop :=
  ∀ r q, s.vgicHighestPrioSpilled vm v .active = some (r, q) → s.Ownable v r →
    VgicVm.vgicIntIsHw r (s.ints r) = true ∨ (s.ints r).state.pend = false ∨
      (s.ints r).enabled = false

end Clean

variable {s : VgicState cpuNum intNum} {vm : VgicVm cpuNum intNum} {v : Fin cpuNum}
  {r r' : IntRef cpuNum intNum} {i : ℕ}

theorem SamePlaces.spilled_iff {s' : VgicState cpuNum intNum} (h : SamePlaces s s') :
    s'.Spilled r ↔ s.Spilled r := by
  rw [Spilled, Spilled, h.spilledNodes_eq]

theorem gicIsPriv_of_gicIsSgi {id : ℕ} (h : gicIsSgi id = true) : gicIsPriv id = true := by
  rw [gicIsSgi, decide_eq_true_eq] at h
  exact decide_eq_true (h.trans (by decide))

/-! ## Registers and routes -/

/-- A field that is written leaves where the interrupt is, and whose a private one is. -/
theorem updateField_eq (vm : VgicVm cpuNum intNum) (v : Fin cpuNum) (r : IntRef cpuNum intNum)
    (reg : VgicReg) (interrupt : VgicInt cpuNum) (data : BitVec 64) :
    (vm.updateField v r reg interrupt data).owner = interrupt.owner ∧
      (vm.updateField v r reg interrupt data).inLr = interrupt.inLr ∧
        (vm.updateField v r reg interrupt data).lr = interrupt.lr ∧
          (gicIsPriv r.id = true →
            (vm.updateField v r reg interrupt data).phys = interrupt.phys) := by
  cases reg with
  | isenabler | icenabler =>
      rw [VgicVm.updateField, VgicVm.vgicIntUpdateEnable]
      split_ifs <;> exact ⟨rfl, rfl, rfl, fun _ => rfl⟩
  | ispendr | icpendr =>
      rw [VgicVm.updateField, VgicVm.vgicIntUpdatePend]
      split_ifs <;> exact ⟨rfl, rfl, rfl, fun _ => rfl⟩
  | isactiver | icactiver =>
      rw [VgicVm.updateField, VgicVm.vgicIntUpdateAct]
      split_ifs <;> exact ⟨rfl, rfl, rfl, fun _ => rfl⟩
  | icfgr | ipriorityr => exact ⟨rfl, rfl, rfl, fun _ => rfl⟩
  | irouter =>
      rw [VgicVm.updateField, VgicVm.vgicIntSetRoute]
      split_ifs with hversion hpriv
      · exact ⟨rfl, rfl, rfl, fun _ => rfl⟩
      · exact ⟨rfl, rfl, rfl, fun htrue => absurd htrue hpriv⟩
      · exact ⟨rfl, rfl, rfl, fun htrue => absurd htrue hpriv⟩
      · exact ⟨rfl, rfl, rfl, fun _ => rfl⟩
  | itargetsr =>
      rw [VgicVm.updateField, VgicVm.vgicdSetTrgt]
      split_ifs <;> exact ⟨rfl, rfl, rfl, fun _ => rfl⟩

/-- A vCPU that owns an interrupt and is its target has it. -/
theorem Fixed.at_of_target (h : s.Fixed vm) (howner : (s.ints r).owner = some v)
    (htarget : vm.vgicIntVcpuIsTarget v r (s.ints r) = true) : r.At v := by
  cases r with
  | spi i => trivial
  | priv w id =>
      cases hversion : vm.version with
      | gicv2 => exact Option.some.inj ((h.owner hversion w id).symm.trans howner)
      | gicv3 =>
          have hpriv : gicIsPriv (IntRef.priv w id : IntRef cpuNum intNum).id = true :=
            (IntRef.gicIsPriv_id _).mpr fun hq => by cases hq
          rw [VgicVm.vgicIntVcpuIsTarget, hversion] at htarget
          have hphys : BitVec.ofNat 64 (vm.physId w) = BitVec.ofNat 64 (vm.physId v) := by
            simpa [hpriv, h.phys hversion w id] using htarget
          have heq := congrArg BitVec.toNat hphys
          rw [Vm.toNat_cpuid (vm.physId_lt w).le, Vm.toNat_cpuid (vm.physId_lt v).le] at heq
          exact vm.physId_injective heq

theorem Inv.send (h : s.Inv vm) (sent : List (ℕ × VgicMsg)) : Inv { s with sent := sent } vm :=
  ⟨⟨h.listed.spans, h.listed.nodup, h.listed.own, h.listed.tail⟩,
    ⟨h.placed.recorded, h.placed.waiting⟩, ⟨h.fixed.owner, h.fixed.phys, h.fixed.vid, h.fixed.eoi⟩⟩

/-- An interrupt that is not spilled, or that is not to be added, is routed. -/
theorem Inv.vgicRoute (h : s.Inv vm) (howner : (s.ints r).owner = some v)
    (hclean : s.Spilled r → (s.ints r).state = .inv ∨ (s.ints r).enabled = false ∨
      vm.vgicIntVcpuIsTarget v r (s.ints r) = false) : (s.vgicRoute vm v r).Inv vm := by
  rw [VgicState.vgicRoute]
  by_cases hskip : (s.ints r).state = .inv ∨ (s.ints r).enabled = false
  · rwa [if_pos hskip]
  rw [if_neg hskip]
  have hadd : (if vm.vgicIntVcpuIsTarget v r (s.ints r) then s.vgicAddLr vm v r else s).Inv vm := by
    split_ifs with htarget
    · refine h.vgicAddLr (h.fixed.at_of_target howner htarget) howner fun _ _ hspilled => ?_
      rcases hclean hspilled with hinv | hdisabled | hnot
      · exact hskip (.inl hinv)
      · exact hskip (.inr hdisabled)
      · cases htarget.symm.trans hnot
    · exact h
  generalize (if vm.vgicIntVcpuIsTarget v r (s.ints r) then s.vgicAddLr vm v r else s) = s'
    at hadd ⊢
  dsimp only
  split_ifs
  · exact hadd.vgicYieldOwnership.send _
  · exact hadd

theorem Inv.writeField (h : s.Inv vm) (reg : VgicReg) (data : BitVec 64) :
    (s.writeField vm v r reg data).Inv vm := by
  obtain ⟨hinv, -⟩ := h.vgicRemoveLr (v := v) (r := r)
  obtain ⟨howner, hin, hlr, hphys⟩ :=
    updateField_eq vm v r reg ((s.vgicRemoveLr vm v r).ints r) data
  exact hinv.setInt (fun hr => hin.trans (hinv.placed.waiting _ r hr))
    (fun _ => ⟨howner, hin, hlr⟩)
    (fun _ _ => howner) hphys

/-- A field of an interrupt is written, which is routed then. -/
theorem Inv.vgicIntSetField (h : s.Inv vm) {reg : VgicReg} {data : BitVec 64}
    (hclean : s.FieldClean vm v r reg data) : (s.vgicIntSetField vm v r reg data).Inv vm := by
  rw [VgicState.vgicIntSetField]
  rcases h.vgicGetOwnership v r with hnot | ⟨s', hget, hinv, howned⟩
  · rw [hnot]
    dsimp only
    rw [if_neg (by decide)]
    cases (s.ints r).owner with
    | none => exact h
    | some w => exact h.send _
  · rw [hget]
    dsimp only
    rw [if_pos rfl]
    have hremoved := (hinv.vgicRemoveLr (v := v) (r := r)).2
    refine ((hinv.writeField reg data).vgicRoute ?_ fun hspilled => ?_).vgicYieldOwnership
    · rw [VgicState.writeField, ints_setInt_self, (updateField_eq ..).1, hremoved.owner,
        howned.ints]
    · have hspilled' : s'.Spilled r := by
        rwa [Spilled, ← hremoved.spilledNodes_eq]
      rw [VgicState.writeField, ints_setInt_self, hinv.placed.vgicRemoveLr hspilled', howned.ints]
      exact hclean (howned.same.spilled_iff.mp hspilled') howned.ownable

/-! ## Injections -/

theorem Inv.vgicInjectHw (h : s.Inv vm) {id : ℕ}
    (hclean : ∀ r, vgicGetInt id v = some r → s.HwClean r) : (s.vgicInjectHw vm v id).Inv vm := by
  rw [VgicState.vgicInjectHw]
  cases hget : vgicGetInt id v with
  | none => exact h
  | some r =>
      obtain ⟨hnot, hspilled⟩ := hclean r hget
      have hat : r.At v := (IntRef.of_vgicGetInt hget).1
      have hpending : (s.makePending v r).Inv vm :=
        h.setInt (fun _ => rfl) (fun hheld => absurd hheld hnot)
          (fun hversion hpriv => (h.fixed.owner_of_priv hversion hat hpriv).symm) fun _ => rfl
      refine hpending.vgicAddLr hat ?_ fun henabled _ => ?_
      · rw [makePending, ints_setInt_self]
      · rw [makePending, ints_setInt_self] at henabled
        exact hspilled henabled

/-- A source is added to an SGI of the GICv2. -/
theorem Inv.vgicInjectSgi (h : s.Inv vm) {source : ℕ} (hversion : vm.version = .gicv2)
    (hat : r.At v) (hsgi : gicIsSgi r.id = true) (hclean : s.SgiClean r source) :
    (s.vgicInjectSgi vm v r source).Inv vm := by
  have hpriv := gicIsPriv_of_gicIsSgi hsgi
  obtain ⟨hinv, hremoved⟩ := h.vgicRemoveLr (v := v) (r := r)
  rw [VgicState.vgicInjectSgi]
  dsimp only
  split_ifs with hpend hskip
  · exact hinv
  all_goals
    have hadded : ((s.vgicRemoveLr vm v r).addSource r source).Inv vm :=
      hinv.setInt (hinv.placed.waiting r.list r) (fun _ => ⟨rfl, rfl, rfl⟩) (fun _ _ => rfl)
        fun _ => rfl
  · exact hadded
  · refine hadded.vgicAddLr hat (hadded.fixed.owner_of_priv hversion hat hpriv)
      fun henabled _ hspilled => ?_
    have hspilled' : s.Spilled r := by
      rwa [Spilled, ← hremoved.spilledNodes_eq]
    rw [addSource, ints_setInt_self, h.placed.vgicRemoveLr hspilled'] at henabled
    rw [h.placed.vgicRemoveLr hspilled'] at hpend
    exact hpend (hclean hspilled' henabled)

theorem Inv.vgicInject (h : s.Inv vm) {id source : ℕ}
    (hclean : s.InjectClean vm v id source) : (s.vgicInject vm v id source).Inv vm := by
  rw [VgicState.vgicInject]
  cases hget : vgicGetInt id v with
  | none => exact h
  | some r =>
      have hr := hclean r hget
      obtain ⟨hat, hid⟩ := IntRef.of_vgicGetInt hget
      dsimp only
      split_ifs at hr ⊢ with hhw hsgi
      · refine h.vgicInjectHw fun r' hget' => ?_
        rwa [← Option.some.inj (hget.symm.trans hget')]
      · exact h.vgicInjectSgi hsgi.1 hat (by rw [hid]; exact hsgi.2) hr
      · exact h.vgicIntSetField hr

/-! ## Messages -/

theorem Inv.handleRoute (h : s.Inv vm) (hat : r.At v) (hclean : s.RouteClean vm v r) :
    (s.handleRoute vm v r).Inv vm := by
  rw [VgicState.handleRoute]
  rcases h.vgicGetOwnership v r with hnot | ⟨s', hget, hinv, howned⟩
  · rwa [hnot]
  · rw [hget]
    dsimp only
    rw [if_pos rfl]
    split_ifs with htarget
    · refine (hinv.vgicAddLr hat ?_ fun henabled _ hspilled => ?_).vgicYieldOwnership
      · rw [howned.ints]
      · rw [howned.ints] at henabled htarget
        rcases hclean (howned.same.spilled_iff.mp hspilled) howned.ownable with hdis | hnot
        · cases henabled.symm.trans hdis
        · exact absurd htarget (Bool.not_eq_true _ ▸ hnot)
    · exact hinv.vgicYieldOwnership

/-- A message is handled, whoever sent it. -/
theorem Inv.vgicIpiHandler (h : s.Inv vm) {msg : VgicMsg} (hclean : s.IpiClean vm v msg) :
    (s.vgicIpiHandler vm v msg).Inv vm := by
  rw [VgicState.vgicIpiHandler]
  rw [IpiClean] at hclean
  cases hevent : msg.event with
  | route =>
      rw [hevent] at hclean
      dsimp only at hclean ⊢
      cases hget : vgicGetInt msg.intId.toNat v with
      | none => exact h
      | some r => exact h.handleRoute (IntRef.of_vgicGetInt hget).1 (hclean r hget)
  | inject =>
      rw [hevent] at hclean
      exact h.vgicInject hclean
  | setReg =>
      rw [hevent] at hclean
      dsimp only at hclean ⊢
      split
      · next reg r hreg hget => exact h.vgicIntSetField (hclean reg r hreg hget)
      · exact h

/-! ## Maintenance interrupts -/

theorem mem_of_foldl_higherPrio {flags : IntState}
    {entries : List (IntRef cpuNum intNum × SpilledList cpuNum)}
    {found : Option (IntRef cpuNum intNum × SpilledList cpuNum)}
    {irq : IntRef cpuNum intNum × SpilledList cpuNum}
    (h : entries.foldl (s.higherPrio vm v flags) found = some irq) :
    irq ∈ entries ∨ found = some irq := by
  induction entries generalizing found with
  | nil => exact .inr h
  | cons next entries ih =>
      rcases ih h with hmem | heq
      · exact .inl (List.mem_cons_of_mem _ hmem)
      · rw [higherPrio] at heq
        split_ifs at heq
        · exact .inr heq
        · exact .inl (List.mem_cons.mpr (.inl (Option.some.inj heq).symm))
        · exact .inr heq

/-- The interrupt that is found waits in the list that it is found in, and is one of the
vCPU's. -/
theorem Listed.of_vgicHighestPrioSpilled (h : s.Listed) {flags : IntState}
    {q : SpilledList cpuNum} (hfound : s.vgicHighestPrioSpilled vm v flags = some (r, q)) :
    r ∈ s.spilledNodes q ∧ r.At v := by
  rcases mem_of_foldl_higherPrio hfound with hmem | hnone
  · have hcases : ∀ q', (r, q) ∈ (s.spilledNodes q').map (fun irq => (irq, q')) →
        q' = q ∧ r ∈ s.spilledNodes q := by
      intro q' hin
      obtain ⟨irq, hirq, heq⟩ := List.mem_map.mp hin
      obtain ⟨rfl, rfl⟩ := Prod.mk.inj heq
      exact ⟨rfl, hirq⟩
    rcases List.mem_append.mp hmem with hin | hin
    · obtain ⟨rfl, hr⟩ := hcases _ hin
      exact ⟨hr, IntRef.at_of_list (.inl (h.own _ r hr))⟩
    · obtain ⟨rfl, hr⟩ := hcases _ hin
      exact ⟨hr, IntRef.at_of_list (.inr (h.own _ r hr))⟩
  · cases hnone

/-- An empty list register is refilled from a spilled list. -/
theorem Inv.refillRound (h : s.Inv vm) (flags : IntState) : (s.refillRound vm v flags).Inv vm := by
  rw [VgicState.refillRound]
  split
  · next i r q hfirst hfound =>
      obtain ⟨hr, hat⟩ := h.listed.of_vgicHighestPrioSpilled hfound
      rcases h.vgicGetOwnership v r with hnot | ⟨s', hget, hinv, howned⟩
      · rwa [hnot]
      · rw [hget]
        dsimp only
        rw [if_pos rfl]
        rw [← howned.same.spilledNodes_eq] at hr
        obtain ⟨hremoved, hnotin⟩ := hinv.removeSpilled hr
        have hempty := VgicVm.of_firstLr hfirst
        rw [gichGetElrsr, ListReg.isEmpty, Bool.and_eq_true, beq_iff_eq,
          ← howned.same.lrs] at hempty
        refine hremoved.vgicWriteLr hat ?_ hnotin (hinv.placed.apart hr)
          fun r' hholds => hholds.1 hempty.1
        change (s'.ints r).owner = some v
        rw [howned.ints]
  · exact h

/-- The end of an interrupt that was spilled is handled. -/
theorem Inv.vgicEoirHighestSpilledActive (h : s.Inv vm) (hclean : s.EoirClean vm v) :
    (s.vgicEoirHighestSpilledActive vm v).Inv vm := by
  unfold VgicState.vgicEoirHighestSpilledActive
  split
  · next r q hfound =>
      rcases h.vgicGetOwnership v r with hnot | ⟨s', hget, hinv, howned⟩
      · rwa [hnot]
      · rw [hget]
        dsimp only
        rw [if_pos rfl]
        have hended : (s'.setInt r
            { s'.ints r with state := { (s'.ints r).state with act := false } }).Inv vm :=
          hinv.setInt (hinv.placed.waiting r.list r) (fun _ => ⟨rfl, rfl, rfl⟩)
            (fun _ _ => rfl) fun _ => rfl
        split_ifs with hadd
        · refine hended.vgicAddLr (h.listed.of_vgicHighestPrioSpilled hfound).2 ?_
            fun henabled _ _ => ?_
          · rw [ints_setInt_self, howned.ints]
          · rw [ints_setInt_self, howned.ints] at hadd henabled
            rcases hclean r q hfound howned.ownable with hhw | hpend | hdisabled
            · cases hadd.1.symm.trans hhw
            · cases hadd.2.symm.trans hpend
            · cases henabled.symm.trans hdisabled
        · exact hended
  · exact h

/-- The end of an interrupt that no list register holds is handled. -/
theorem Inv.trappedEoirRound (h : s.Inv vm) (hclean : s.TrappedClean vm v) :
    (s.trappedEoirRound vm v).Inv vm := by
  rw [VgicState.trappedEoirRound]
  cases hfirst : vm.firstLr (s.gichGetEisr v) with
  | none => exact h
  | some i =>
      obtain ⟨r, hget⟩ := h.fixed.vid v i
      obtain ⟨hnot, hsgi⟩ := hclean i r hfirst hget
      dsimp only
      rw [hget, Option.getD_some]
      have hcleared : (s.gichWriteLr v i .zero).Inv vm := h.clear
      have hended : (s.endedLr v r i).Inv vm := by
        refine hcleared.setInt (fun _ => rfl) (fun hheld => ?_) (fun _ _ => rfl) fun _ => rfl
        obtain ⟨w, j, hholds⟩ := hheld
        exact absurd ⟨w, j, (holds_clear_iff.mp hholds).2⟩ hnot
      split_ifs with hissgi
      · obtain ⟨hat, hid⟩ := IntRef.of_vgicGetInt hget
        have hpriv := gicIsPriv_of_gicIsSgi hissgi
        -- Only the GICv2 asks for a maintenance interrupt at the end of an SGI.
        have hversion : vm.version = .gicv2 := by
          cases hversion : vm.version with
          | gicv2 => rfl
          | gicv3 =>
              have heisr := VgicVm.of_firstLr hfirst
              rw [gichGetEisr, ListReg.isEnded, Bool.and_eq_true] at heisr
              have hnotpriv := h.fixed.eoi hversion v i heisr.2
              rw [← hid] at hnotpriv
              cases hpriv.symm.trans hnotpriv
        refine hended.vgicAddLr hat (hended.fixed.owner_of_priv hversion hat hpriv)
          fun henabled _ => ?_
        rw [endedLr, ints_setInt_self] at henabled
        exact hsgi hissgi henabled
      · exact hended.vgicYieldOwnership

/-! ## Guests -/

theorem Inv.setLrState (h : s.Inv vm) {state : IntState}
    (hstate : (s.lrs v i).state = .inv → state = .inv) :
    (s.gichWriteLr v i { s.lrs v i with state := state }).Inv vm :=
  h.gichWriteLr (h.fixed.vid v i) (fun hversion => h.fixed.eoi hversion v i)
    fun r hne hget => h.placed.recorded v i r ⟨fun hinv => hne (hstate hinv), hget⟩

end VgicState

end BaoHypervisor
