import BaoHypervisor.Arch.Armv8.Vgic.Fields
import BaoHypervisor.Arch.Armv8.Vgic.Runs

/-!
# Writes to interrupts of other vCPUs

A vCPU that may not write a register of an interrupt sends the write to the owner. The
message has the number of the interrupt, the register and eight bits of the value. It names
the redistributor of vCPU 0, so the owner takes a private interrupt for that of vCPU 0.
-/

namespace BaoHypervisor

variable {cpuNum intNum : ℕ}

namespace VgicState

/-- The write that the handling of `VGIC_SET_REG` makes. -/
def setRegTarget (msg : VgicMsg) : Option (IntRef cpuNum intNum × VgicReg × BitVec 64) :=
  match VgicReg.table[msg.reg.toNat]?, vgicGetInt msg.intId.toNat msg.vgicrId.toNat with
  | some reg, some r => some (r, reg, msg.val.setWidth 64)
  | _, _ => none

/-- vCPU `a` sends a write to the owner `b` of an interrupt. When `b` handles the message it
gives the same field of the same interrupt the value that a write of `a` itself gives it. -/
def RemoteAgrees (vm : VgicVm cpuNum intNum) (a b : Fin cpuNum) (r : IntRef cpuNum intNum)
    (reg : VgicReg) (data : BitVec 64) : Prop :=
  ∀ s there here : VgicState cpuNum intNum, (s.ints r).owner = some b →
    there.Ownable b r → here.Ownable a r →
    VgicInt.SameField reg (there.fetched vm b r) (here.fetched vm a r) →
    ∃ msg data', s.vgicIntSetField vm a r reg data =
        { s with sent := s.sent ++ [(vm.physId b, msg)] } ∧
      msg.event = .setReg ∧ setRegTarget msg = some (r, reg, data') ∧
      VgicInt.SameField reg ((there.fieldWritten vm b r reg data').ints r)
        ((here.fieldWritten vm a r reg data).ints r) ∧
      (¬ reg.IsState → VgicInt.SameField reg ((there.vgicIpiHandler vm b msg).ints r)
        ((here.vgicIntSetField vm a r reg data).ints r))

/-- The interrupt is not private to a vCPU other than the first, and a route has nothing in
the bits that the message leaves out. -/
def Carried : IntRef cpuNum intNum → VgicReg → BitVec 64 → Prop
  | .priv w _, _, _ => (w : ℕ) = 0
  | .spi _, reg, data => reg = .irouter → data &&& 0xffffffff00#64 = 0#64

def setRegMsg (r : IntRef cpuNum intNum) (reg : VgicReg) (data : BitVec 64) : VgicMsg :=
  { event := .setReg, vgicrId := 0#16, intId := BitVec.ofNat 15 r.id
    reg := BitVec.ofNat 8 reg.regid, val := data.setWidth 8 }

variable {vm : VgicVm cpuNum intNum} {a b : Fin cpuNum} {r : IntRef cpuNum intNum}
  {reg : VgicReg} {data : BitVec 64}

theorem vgicIntSetField_of_owner {s : VgicState cpuNum intNum} (hab : a ≠ b)
    (howner : (s.ints r).owner = some b) :
    s.vgicIntSetField vm a r reg data =
      { s with sent := s.sent ++ [(vm.physId b, setRegMsg r reg data)] } := by
  have hown : s.vgicGetOwnership a r = (false, s) := by
    rw [vgicGetOwnership, howner]
    exact Prod.ext (beq_false_of_ne fun heq => hab heq.symm) rfl
  rw [vgicIntSetField, hown]
  dsimp only
  rw [if_neg Bool.false_ne_true, howner]
  rfl

theorem table_regid (reg : VgicReg) :
    VgicReg.table[(BitVec.ofNat 8 reg.regid).toNat]? = some reg := by
  cases reg <;> rfl

/-- The owner finds the register and the low bits of the value, and looks the interrupt up as
one of vCPU 0. -/
theorem setRegTarget_setRegMsg (hle : intNum ≤ 1024) :
    setRegTarget (setRegMsg r reg data) =
      (vgicGetInt r.id 0).map fun found : IntRef cpuNum intNum =>
        (found, reg, (data.setWidth 8).setWidth 64) := by
  have hid : (BitVec.ofNat 15 r.id).toNat = r.id := by
    have hlt := IntRef.id_lt hle r
    rw [BitVec.toNat_ofNat]
    exact Nat.mod_eq_of_lt (by omega)
  have hzero : (0#16).toNat = 0 := rfl
  rw [setRegTarget, setRegMsg]
  dsimp only
  rw [table_regid, hid, hzero]
  cases (vgicGetInt r.id 0 : Option (IntRef cpuNum intNum)) <;> rfl

/-- It finds the interrupt itself if this is not private to another vCPU. -/
theorem vgicGetInt_zero_eq_iff :
    vgicGetInt r.id 0 = some r ↔ ∀ w id, r = .priv w id → (w : ℕ) = 0 := by
  cases r with
  | priv w id =>
      have hpos : 0 < cpuNum := w.pos
      have hget : vgicGetInt id 0 = some (.priv ⟨0, hpos⟩ id : IntRef cpuNum intNum) := by
        rw [vgicGetInt, dif_pos id.isLt, dif_pos hpos]
      rw [IntRef.id, hget]
      constructor
      · intro hsome w' id' heq
        cases heq
        cases Option.some.inj hsome
        rfl
      · intro h
        have hw : (⟨0, hpos⟩ : Fin cpuNum) = w := Fin.ext (h w id rfl).symm
        rw [hw]
  | spi i =>
      have hget : vgicGetInt (i + 32) 0 = some (.spi i : IntRef cpuNum intNum) := by
        have hi := i.isLt
        rw [vgicGetInt, dif_neg (by omega), dif_pos (by omega)]
        simp
      rw [IntRef.id, hget]
      refine ⟨fun _ w' id' heq => ?_, fun _ => rfl⟩
      cases heq

theorem vgicIpiHandler_of_setRegTarget {s : VgicState cpuNum intNum} {v : Fin cpuNum}
    {msg : VgicMsg} (hevent : msg.event = .setReg)
    (htarget : setRegTarget msg = some (r, reg, data)) :
    s.vgicIpiHandler vm v msg = s.vgicIntSetField vm v r reg data := by
  rw [vgicIpiHandler, hevent]
  rw [setRegTarget] at htarget
  cases htable : VgicReg.table[msg.reg.toNat]? with
  | none =>
      rw [htable] at htarget
      cases htarget
  | some reg' =>
      rw [htable] at htarget
      cases hget :
        (vgicGetInt msg.intId.toNat msg.vgicrId.toNat : Option (IntRef cpuNum intNum)) with
      | none =>
          rw [hget] at htarget
          cases htarget
      | some r' =>
          rw [hget] at htarget
          cases htarget
          rfl

/-! ## Values -/

theorem setWidth_setWidth_of_lt (h : data.toNat < 2 ^ 8) :
    (data.setWidth 8).setWidth 64 = data := by
  apply BitVec.eq_of_toNat_eq
  rw [BitVec.toNat_setWidth, BitVec.toNat_setWidth, Nat.mod_eq_of_lt h,
    Nat.mod_eq_of_lt data.isLt]

theorem getLsbD_routeMask : ∀ i < 64, (0xffffffffff#64).getLsbD i = decide (i < 40) := by
  decide

theorem getLsbD_lostMask :
    ∀ i < 64, (0xffffffff00#64).getLsbD i = decide (8 ≤ i ∧ i < 40) := by
  decide

/-- The message keeps what a route takes of a value when the bits in between are 0. -/
theorem route_iff :
    (data.setWidth 8).setWidth 64 &&& 0xffffffffff#64 = data &&& 0xffffffffff#64 ↔
      data &&& 0xffffffff00#64 = 0#64 := by
  constructor
  · intro h
    apply BitVec.eq_of_getLsbD_eq
    intro i hi
    have hbit := congrArg (fun x => x.getLsbD i) h
    simp only [BitVec.getLsbD_and, BitVec.getLsbD_setWidth, getLsbD_routeMask i hi] at hbit
    rw [BitVec.getLsbD_and, getLsbD_lostMask i hi, BitVec.getLsbD_zero]
    by_cases hlost : 8 ≤ i ∧ i < 40
    · simpa [hlost, hi, Nat.not_lt.mpr hlost.1] using hbit
    · simp [hlost]
  · intro h
    apply BitVec.eq_of_getLsbD_eq
    intro i hi
    have hbit := congrArg (fun x => x.getLsbD i) h
    simp only [BitVec.getLsbD_and, getLsbD_lostMask i hi, BitVec.getLsbD_zero] at hbit
    simp only [BitVec.getLsbD_and, BitVec.getLsbD_setWidth, getLsbD_routeMask i hi]
    by_cases hlow : i < 8
    · simp [hlow, hi]
    · by_cases hhigh : i < 40
      · simpa [hlow, hhigh, Nat.le_of_not_lt hlow] using hbit
      · simp [hhigh]

theorem routing_eq {x y : BitVec 64} (h : x &&& 0xffffffffff#64 = y &&& 0xffffffffff#64) :
    x.getLsbD 31 = y.getLsbD 31 ∧ x &&& 0xffff#64 = y &&& 0xffff#64 := by
  constructor
  · have hbit := congrArg (fun z => z.getLsbD 31) h
    simpa [BitVec.getLsbD_and] using hbit
  · have hsub : 0xffff#64 = 0xffffffffff#64 &&& 0xffff#64 := by decide
    rw [hsub, ← BitVec.and_assoc, h, BitVec.and_assoc]

/-- The written fields are the same when the message carries the write. A route with
`GICD_IROUTER_IRM_BIT` would be set for the vCPU that writes it, but this bit is not sent. -/
theorem sameField_updateField (hreg : reg ≠ .itargetsr) (hdata : data.toNat < 2 ^ reg.fieldWidth)
    (hcarried : Carried r reg data) {i j : VgicInt cpuNum} (h : VgicInt.SameField reg i j) :
    VgicInt.SameField reg (vm.updateField b r reg i ((data.setWidth 8).setWidth 64))
      (vm.updateField a r reg j data) := by
  have hsmall : reg ≠ .irouter → (data.setWidth 8).setWidth 64 = data := by
    intro hne
    refine setWidth_setWidth_of_lt (hdata.trans_le (Nat.pow_le_pow_right (by decide) ?_))
    cases reg <;> first | exact absurd rfl hne | decide
  cases reg with
  | isenabler | icenabler | ispendr | icpendr =>
      rw [hsmall (by decide), VgicVm.updateField, VgicVm.updateField]
      split
      · exact h
      · first
          | rw [VgicVm.vgicIntUpdateEnable, VgicVm.vgicIntUpdateEnable]
          | rw [VgicVm.vgicIntUpdatePend, VgicVm.vgicIntUpdatePend]
        split
        · exact h
        · rfl
  | isactiver | icactiver =>
      rw [hsmall (by decide), VgicVm.updateField, VgicVm.updateField]
      split
      · exact h
      · rfl
  | icfgr | ipriorityr =>
      rw [hsmall (by decide)]
      rfl
  | itargetsr => exact absurd rfl hreg
  | irouter =>
      rw [VgicVm.updateField, VgicVm.updateField]
      split
      · rw [VgicVm.vgicIntSetRoute, VgicVm.vgicIntSetRoute]
        cases r with
        | priv w id =>
            have hpriv : gicIsPriv (IntRef.priv w id : IntRef cpuNum intNum).id = true :=
              decide_eq_true id.isLt
            rw [if_pos hpriv, if_pos hpriv]
            exact h
        | spi n =>
            have hpriv : ¬ gicIsPriv (IntRef.spi n : IntRef cpuNum intNum).id = true := by
              rw [gicIsPriv, decide_eq_true_eq, IntRef.id]
              omega
            have hroute := route_iff.mpr (hcarried rfl)
            obtain ⟨hirm, haff⟩ := routing_eq hroute
            have hnoirm : ((data.setWidth 8).setWidth 64).getLsbD 31 = false := by simp
            rw [if_neg hpriv, if_neg hpriv]
            refine ⟨hroute, ?_⟩
            dsimp only
            rw [← hirm, hnoirm, haff]
            rfl
      · exact h

/-- A state in which all interrupts are the same, and none is in a list register. -/
def uniform (i : VgicInt cpuNum) : VgicState cpuNum intNum where
  ints _ := i
  link _ := none
  lrs _ _ := .zero
  currLrs _ _ := 0
  spilled _ := NodeList.listInit
  sent := []

/-- An interrupt as `vgic_init` makes it, with an owner. -/
def initialInt (owner : Option (Fin cpuNum)) : VgicInt cpuNum where
  owner := owner
  route := VgicVm.gicdIrouterInv
  phys := VgicVm.gicdIrouterInv
  state := .inv
  prio := 0xff#8
  cfg := 0#8
  lr := 0
  targets := 0#8
  sgiAct := 0#8
  sgiPend := 0#8
  hw := false
  inLr := false
  enabled := false

theorem fetched_uniform (v : Fin cpuNum) :
    (uniform (initialInt none)).fetched vm v r = initialInt (some v) := by
  have howned : (uniform (initialInt none)).vgicGetOwnership v r =
      (true, (uniform (initialInt none)).setInt r (initialInt (some v))) := rfl
  rw [fetched, howned, vgicRemoveLr]
  dsimp only
  rw [if_pos (.inr (by rw [ints_setInt_self]; rfl)), ints_setInt_self]

/-- The message of a write that agrees carries it. -/
theorem RemoteAgrees.carried (hversion : vm.version = .gicv3) (hab : a ≠ b)
    (h : RemoteAgrees vm a b r reg data) : Carried r reg data := by
  have hbefore : VgicInt.SameField reg (initialInt (some b)) (initialInt (some a)) := by
    cases reg <;> first | rfl | exact ⟨rfl, rfl⟩
  have hfetched : ∀ v, (uniform (initialInt none)).fetched vm v r = initialInt (some v) :=
    fetched_uniform
  rw [← hfetched b, ← hfetched a] at hbefore
  obtain ⟨msg, data', hsent, -, htarget, hsame, -⟩ := h (uniform (initialInt (some b)))
    (uniform (initialInt none)) (uniform (initialInt none)) rfl (.inl rfl) (.inl rfl) hbefore
  rw [vgicIntSetField_of_owner hab rfl] at hsent
  have hmsg : setRegMsg r reg data = msg :=
    congrArg Prod.snd (List.head_eq_of_cons_eq (congrArg VgicState.sent hsent))
  subst hmsg
  rw [setRegTarget_setRegMsg vm.intNum_le, Option.map_eq_some_iff] at htarget
  obtain ⟨found, hfound, htarget⟩ := htarget
  cases htarget
  cases r with
  | priv w id => exact vgicGetInt_zero_eq_iff.mp hfound w id rfl
  | spi n =>
      rintro rfl
      rw [ints_fieldWritten (.inl rfl), ints_fieldWritten (.inl rfl), fetched_uniform,
        fetched_uniform, VgicVm.updateField, VgicVm.updateField, if_pos hversion,
        if_pos hversion] at hsame
      have hpriv : ¬ gicIsPriv (IntRef.spi n : IntRef cpuNum intNum).id = true := by
        rw [gicIsPriv, decide_eq_true_eq, IntRef.id]
        omega
      rw [VgicVm.vgicIntSetRoute, VgicVm.vgicIntSetRoute, if_neg hpriv, if_neg hpriv] at hsame
      exact route_iff.mp hsame.1

/-- A write that its message carries agrees. -/
theorem Carried.remoteAgrees (hab : a ≠ b) (hreg : reg ≠ .itargetsr)
    (hdata : data.toNat < 2 ^ reg.fieldWidth) (hcarried : Carried r reg data) :
    RemoteAgrees vm a b r reg data := by
  intro s there here howner hthere hhere hsame
  have hfound : vgicGetInt r.id 0 = some r := by
    rw [vgicGetInt_zero_eq_iff]
    rintro w id rfl
    exact hcarried
  have htarget : setRegTarget (setRegMsg r reg data) =
      some (r, reg, (data.setWidth 8).setWidth 64) := by
    rw [setRegTarget_setRegMsg vm.intNum_le, hfound]
    rfl
  have hwritten : VgicInt.SameField reg
      ((there.fieldWritten vm b r reg ((data.setWidth 8).setWidth 64)).ints r)
      ((here.fieldWritten vm a r reg data).ints r) := by
    rw [ints_fieldWritten hthere, ints_fieldWritten hhere]
    exact sameField_updateField hreg hdata hcarried hsame
  refine ⟨setRegMsg r reg data, _, vgicIntSetField_of_owner hab howner, rfl, htarget, hwritten,
    fun hstate => ?_⟩
  rw [vgicIpiHandler_of_setRegTarget rfl htarget]
  exact hwritten.congr hstate (sameConfig_vgicIntSetField hthere reg _ r)
    (sameConfig_vgicIntSetField hhere reg data r)

/-- Remote and local writes on the GICv3 agree exactly when the message carries the write. -/
theorem remoteAgrees_iff (vm : VgicVm cpuNum intNum) (hversion : vm.version = .gicv3)
    {a b : Fin cpuNum} (hab : a ≠ b) (r : IntRef cpuNum intNum) {reg : VgicReg}
    (hreg : reg ≠ .itargetsr) {data : BitVec 64} (hdata : data.toNat < 2 ^ reg.fieldWidth) :
    RemoteAgrees vm a b r reg data ↔ Carried r reg data :=
  ⟨fun h => h.carried hversion hab, fun h => h.remoteAgrees hab hreg hdata⟩

section Runs

def twoVcpus : VgicVm 2 96 where
  version := .gicv3
  numLrs := 4
  platformCpuNum := 2
  vm := default
  physId v := v
  mpidr v := BitVec.ofNat 64 v
  cpuIdToMpidr n := BitVec.ofNat 64 n
  vmpidr v := BitVec.ofNat 64 v
  physId_lt v := by omega
  physId_injective _ _ h := Fin.ext h
  intNum_le := by decide

/-- The priority of a shared interrupt. -/
theorem remoteAgrees_ipriorityr :
    RemoteAgrees twoVcpus 0 1 (.spi 0) .ipriorityr 0x20#64 ↔
      Carried (.spi 0 : IntRef 2 96) .ipriorityr 0x20#64 :=
  remoteAgrees_iff twoVcpus rfl (by decide) (.spi 0) (by decide) (by decide)

/-- vCPU `b` has a shared interrupt and a private one in list registers. vCPU `a` routes the
first to all vCPUs and disables the second. -/
def remoteRun (a b : Fin cpuNum) (shared banked : IntRef cpuNum intNum) :
    List (VgicAction cpuNum intNum) :=
  [.setField b shared .irouter 1#64, .setField b shared .isenabler 1#64,
    .setField b shared .ispendr 1#64, .setField b banked .isenabler 1#64,
    .setField b banked .ispendr 1#64, .setField a shared .irouter 0x80000000#64,
    .setField a banked .icenabler 1#64]

/-- When vCPU 1 has handled the messages it routes the shared interrupt to vCPU 0, and its
private interrupt is still enabled. -/
theorem remoteRun_differs :
    (¬ RemoteAgrees twoVcpus 0 1 (.spi 0) .irouter 0x80000000#64 ∧
      ¬ RemoteAgrees twoVcpus 0 1 (.priv 1 20) .icenabler 1#64) ∧
    let s := Run.exec (step twoVcpus) (start twoVcpus fun _ => false)
      (remoteRun 0 1 (.spi 0) (.priv 1 20))
    s.sent = [(1, setRegMsg (.spi 0 : IntRef 2 96) .irouter 0x80000000#64),
        (1, setRegMsg (.priv 1 20 : IntRef 2 96) .icenabler 1#64)] ∧
      let s' := Run.exec (step twoVcpus) s (s.sent.map fun sent => .ipi 1 sent.2)
      (s'.ints (.spi 0)).route = 0#64 ∧ (s'.ints (.priv 1 20)).enabled = true := by
  refine ⟨⟨fun h => ?_, fun h => ?_⟩, by decide +kernel, by decide +kernel, by decide +kernel⟩
  · exact absurd (h.carried rfl (by decide) rfl) (by decide)
  · exact absurd (h.carried rfl (by decide)) (by decide : ¬ ((1 : Fin 2) : ℕ) = 0)

end Runs

end VgicState

end BaoHypervisor
