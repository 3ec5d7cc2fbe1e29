import BaoHypervisor.Arch.Armv8.Vgic

/-!
# Injection, spilling and refilling

The functions of `vgic.c` that move interrupts between list registers and spilled lists, as
they run on the CPU of a vCPU. The bits of `GICH_HCR` by which they ask for maintenance
interrupts are left out, since a maintenance interrupt may come at any time here, and so are
their effects on the physical GIC.
-/

namespace BaoHypervisor

variable {cpuNum intNum : ℕ}

namespace VgicState

variable (s : VgicState cpuNum intNum) (vm : VgicVm cpuNum intNum) (v : Fin cpuNum)
  (r : IntRef cpuNum intNum)

def setInt (interrupt : VgicInt cpuNum) : VgicState cpuNum intNum :=
  { s with ints := Function.update s.ints r interrupt }

def gichWriteLr (i : ℕ) (lr : ListReg) : VgicState cpuNum intNum :=
  { s with lrs := Function.update s.lrs v (Function.update (s.lrs v) i lr) }

def gichGetEisr (i : ℕ) : Bool := (s.lrs v i).isEnded

def gichGetElrsr (i : ℕ) : Bool := (s.lrs v i).isEmpty

/-- `gich_get_lr`: the value of the list register `interrupt->lr`. An interrupt that is
`in_lr` has an owner, which is not compared with `NULL`. -/
def gichGetLr : Option ListReg :=
  let interrupt := s.ints r
  if interrupt.inLr = false ∨ interrupt.owner.map vm.physId ≠ some (vm.physId v) then none
  else
    let lr := s.lrs v interrupt.lr
    if lr.vid = r.id ∧ lr.state ≠ .inv then some lr else none

def vgicGetState : IntState :=
  let interrupt := s.ints r
  let state := ((s.gichGetLr vm v r).map ListReg.state).getD interrupt.state
  if vm.version = .gicv2 ∧ gicIsSgi r.id ∧ interrupt.sgiPend ≠ 0#8 then { state with pend := true }
  else state

def vgicGetOwnership : Bool × VgicState cpuNum intNum :=
  match (s.ints r).owner with
  | some w => (w == v, s)
  | none => (true, s.setInt r { s.ints r with owner := some v })

def vgicYieldOwnership : VgicState cpuNum intNum :=
  let interrupt := s.ints r
  if (vm.version = .gicv2 ∧ gicIsPriv r.id) ∨ interrupt.owner ≠ some v ∨ interrupt.inLr ∨
      (s.vgicGetState vm v r).act then s
  else s.setInt r { interrupt with owner := none }

/-- The first part of `vgic_write_lr`: the interrupt that was in the list register before. -/
def forgetPrev (i : ℕ) : VgicState cpuNum intNum :=
  let prevIntId := s.currLrs v i
  if prevIntId ≠ r.id ∧ gicIsPriv prevIntId = false then
    match vgicGetInt prevIntId v with
    | some prev =>
        let prevInt := s.ints prev
        if prevInt.owner = some v ∧ prevInt.inLr ∧ prevInt.lr = i then
          (s.setInt prev { prevInt with inLr := false }).vgicYieldOwnership vm v prev
        else s
    | none => s
  else s

/-- The rest of `vgic_write_lr`. -/
def placeInt (i : ℕ) : VgicState cpuNum intNum :=
  let interrupt := s.ints r
  let value := vm.vgicLr r interrupt (s.vgicGetState vm v r)
  { (s.setInt r
      { interrupt with state := .inv, inLr := true, lr := i, sgiPend := value.2 }).gichWriteLr v i
        value.1 with
    currLrs := Function.update s.currLrs v (Function.update (s.currLrs v) i r.id) }

def vgicWriteLr (i : ℕ) : VgicState cpuNum intNum := (s.forgetPrev vm v r i).placeInt vm v r i

/-- The interrupt as `vgic_remove_lr` leaves it, when its list register held `lr`. -/
def takenBack (interrupt : VgicInt cpuNum) (lr : ListReg) : VgicInt cpuNum :=
  let interrupt := { interrupt with inLr := false, state := lr.state }
  if vm.version = .gicv2 ∧ gicIsSgi r.id then
    if lr.state.act then { interrupt with sgiAct := BitVec.ofNat 8 lr.cpuid }
    else if lr.state.pend then
      { interrupt with sgiPend := interrupt.sgiPend ||| 1#8 <<< lr.cpuid }
    else interrupt
  else interrupt

/-- `vgic_remove_lr`, whose result no caller looks at. -/
def vgicRemoveLr : VgicState cpuNum intNum :=
  let interrupt := s.ints r
  if interrupt.owner ≠ some v ∨ interrupt.inLr = false then s
  else
    match s.gichGetLr vm v r with
    | some lr => (s.gichWriteLr v interrupt.lr .zero).setInt r (takenBack vm r interrupt lr)
    | none => s.setInt r { interrupt with inLr := false }

def vgicAddSpilled : VgicState cpuNum intNum :=
  let list : SpilledList cpuNum := if gicIsPriv r.id then .vcpu v else .vm
  let pushed := NodeList.listPush s.link (s.spilled list) r
  { s with link := pushed.1, spilled := Function.update s.spilled list pushed.2 }

def vgicSpillLr (i : ℕ) : VgicState cpuNum intNum :=
  match vgicGetInt (s.lrs v i).vid v with
  | some spilled =>
      let s := s.vgicRemoveLr vm v spilled
      let s := s.vgicAddSpilled v spilled
      s.vgicYieldOwnership vm v spilled
  | none => s

/-- `vgic_add_lr`, whose result no caller looks at. -/
def vgicAddLr : VgicState cpuNum intNum :=
  if (s.ints r).enabled = false ∨ (s.ints r).inLr then s
  else
    match vm.firstLr (s.gichGetElrsr v) with
    | some i => s.vgicWriteLr vm v r i
    | none =>
        match vm.spillInd r (s.lrs v) (s.ints r) with
        | some i => (s.vgicSpillLr vm v i).vgicWriteLr vm v r i
        | none => s.vgicAddSpilled v r

/-- The loop of `vgic_route` that sends `VGIC_ROUTE`. -/
def sendRoute : VgicState cpuNum intNum :=
  let targets := vm.vgicIntPtargetMask v (s.ints r)
  let msg : VgicMsg :=
    { event := .route, vgicrId := BitVec.ofNat 16 v, intId := BitVec.ofNat 15 r.id, reg := 0#8
      val := 0#8 }
  { s with
    sent := s.sent ++ ((List.range vm.platformCpuNum).filter fun cpu =>
      targets.getLsbD cpu && cpu != vm.physId v).map fun cpu => (cpu, msg) }

def vgicRoute : VgicState cpuNum intNum :=
  if (s.ints r).state = .inv ∨ (s.ints r).enabled = false then s
  else
    let s := if vm.vgicIntVcpuIsTarget v r (s.ints r) then s.vgicAddLr vm v r else s
    if (s.ints r).inLr = false ∧ vm.vgicIntHasOtherTarget v r (s.ints r) then
      (s.vgicYieldOwnership vm v r).sendRoute vm v r
    else s

def writeField (reg : VgicReg) (data : BitVec 64) : VgicState cpuNum intNum :=
  let s := s.vgicRemoveLr vm v r
  s.setInt r (vm.updateField v r reg (s.ints r) data)

def vgicIntSetField (reg : VgicReg) (data : BitVec 64) : VgicState cpuNum intNum :=
  let (owned, s) := s.vgicGetOwnership v r
  if owned then
    ((s.writeField vm v r reg data).vgicRoute vm v r).vgicYieldOwnership vm v r
  else
    match (s.ints r).owner with
    | some w =>
        let msg : VgicMsg :=
          { event := .setReg, vgicrId := 0#16, intId := BitVec.ofNat 15 r.id
            reg := BitVec.ofNat 8 reg.regid, val := data.setWidth 8 }
        { s with sent := s.sent ++ [(vm.physId w, msg)] }
    | none => s

/-- The interrupt as `vgic_inject_hw` makes it before it adds it. -/
def makePending : VgicState cpuNum intNum :=
  s.setInt r { s.ints r with owner := some v, state := .pending, inLr := false }

/-- `vgic_inject_hw`. It is called for interrupts that the VM has. -/
def vgicInjectHw (id : ℕ) : VgicState cpuNum intNum :=
  match vgicGetInt id v with
  | some r => (s.makePending v r).vgicAddLr vm v r
  | none => s

/-- The interrupt as `vgic_inject_sgi` makes it before it adds it. -/
def addSource (source : ℕ) : VgicState cpuNum intNum :=
  let interrupt := s.ints r
  let newPendstate := interrupt.sgiPend ||| 1#8 <<< source
  s.setInt r
    { interrupt with
      sgiPend := newPendstate
      state := { interrupt.state with pend := newPendstate != 0#8 } }

def vgicInjectSgi (source : ℕ) : VgicState cpuNum intNum :=
  let s := s.vgicRemoveLr vm v r
  if (s.ints r).sgiPend ||| 1#8 <<< source = (s.ints r).sgiPend then s
  else
    let s := s.addSource r source
    if (s.ints r).state = .inv then s else s.vgicAddLr vm v r

def vgicInject (id source : ℕ) : VgicState cpuNum intNum :=
  match vgicGetInt id v with
  | some r =>
      if VgicVm.vgicIntIsHw r (s.ints r) then s.vgicInjectHw vm v id
      else if vm.version = .gicv2 ∧ gicIsSgi id then s.vgicInjectSgi vm v r source
      else s.vgicIntSetField vm v r .ispendr 1#64
  | none => s

/-- The handling of `VGIC_ROUTE`. -/
def handleRoute : VgicState cpuNum intNum :=
  let (owned, s) := s.vgicGetOwnership v r
  if owned then
    let s := if vm.vgicIntVcpuIsTarget v r (s.ints r) then s.vgicAddLr vm v r else s
    s.vgicYieldOwnership vm v r
  else s

def vgicIpiHandler (msg : VgicMsg) : VgicState cpuNum intNum :=
  match msg.event with
  | .route =>
      match vgicGetInt msg.intId.toNat v with
      | some r => s.handleRoute vm v r
      | none => s
  | .inject => s.vgicInject vm v msg.intId.toNat msg.val.toNat
  | .setReg =>
      match VgicReg.table[msg.reg.toNat]?, vgicGetInt msg.intId.toNat msg.vgicrId.toNat with
      | some reg, some r => s.vgicIntSetField vm v r reg (msg.val.setWidth 64)
      | _, _ => s

/-! ## Maintenance -/

/-- The number of nodes that a walk through a list visits at most: no list without a cycle
has more. -/
def maxNodes (_ : VgicState cpuNum intNum) : ℕ := cpuNum * 32 + (intNum - 32)

def spilledNodes (list : SpilledList cpuNum) : List (IntRef cpuNum intNum) :=
  (s.spilled list).listForeach s.link s.maxNodes

/-- A round of the loops of `vgic_highest_prio_spilled`. -/
def higherPrio (flags : IntState) (found : Option (IntRef cpuNum intNum × SpilledList cpuNum))
    (next : IntRef cpuNum intNum × SpilledList cpuNum) :
    Option (IntRef cpuNum intNum × SpilledList cpuNum) :=
  let irqPrio := (found.map fun irq => (s.ints irq.1).prio.toNat).getD 0xff
  let irqId := (found.map fun irq => irq.1.id).getD 1020
  let prio := (s.ints next.1).prio.toNat
  if (s.vgicGetState vm v next.1).meets flags = false then found
  else if prio < irqPrio ∨ prio = irqPrio ∧ next.1.id < irqId then some next
  else found

def vgicHighestPrioSpilled (flags : IntState) :
    Option (IntRef cpuNum intNum × SpilledList cpuNum) :=
  let entries (list : SpilledList cpuNum) := (s.spilledNodes list).map fun irq => (irq, list)
  (entries (.vcpu v) ++ entries .vm).foldl (s.higherPrio vm v flags) none

/-- `list_rm` on a spilled list. -/
def removeSpilled (list : SpilledList cpuNum) : VgicState cpuNum intNum :=
  let removed := NodeList.listRm s.link (s.spilled list) r s.maxNodes
  { s with link := removed.1, spilled := Function.update s.spilled list removed.2 }

/-- A round of `vgic_refill_lrs`. -/
def refillRound (flags : IntState) : VgicState cpuNum intNum :=
  match vm.firstLr (s.gichGetElrsr v), s.vgicHighestPrioSpilled vm v flags with
  | some i, some (irq, list) =>
      let (owned, s) := s.vgicGetOwnership v irq
      if owned then (s.removeSpilled irq list).vgicWriteLr vm v irq i else s
  | _, _ => s

/-- A call of `vgic_eoir_highest_spilled_active`. -/
def vgicEoirHighestSpilledActive : VgicState cpuNum intNum :=
  match s.vgicHighestPrioSpilled vm v .active with
  | some (r, _) =>
      let (owned, s) := s.vgicGetOwnership v r
      if owned then
        let s := s.setInt r
          { s.ints r with state := { (s.ints r).state with act := false } }
        if VgicVm.vgicIntIsHw r (s.ints r) = false ∧ (s.ints r).state.pend then s.vgicAddLr vm v r
        else s
      else s
  | none => s

/-- The end of an interrupt in the list register `i`, which is cleared. -/
def endedLr (i : ℕ) : VgicState cpuNum intNum :=
  let s := s.gichWriteLr v i .zero
  s.setInt r { s.ints r with inLr := false }

/-- A round of `vgic_handle_trapped_eoir`. -/
def trappedEoirRound : VgicState cpuNum intNum :=
  match vm.firstLr (s.gichGetEisr v) with
  | some i =>
      -- Without such an interrupt the list register is read again, which is 0 by then.
      let r := (vgicGetInt (s.lrs v i).vid v).getD (.priv v 0)
      let s := s.endedLr v r i
      if gicIsSgi r.id then s.vgicAddLr vm v r else s.vgicYieldOwnership vm v r
  | none => s

end VgicState

section Maintenance

variable (vm : VgicVm cpuNum intNum) (v : Fin cpuNum)

/-- The loop of `vgic_refill_lrs`, for at most so many rounds: a round in which another vCPU
owns the interrupt is taken again. -/
def vgicRefillLrs : ℕ → IntState → VgicState cpuNum intNum → VgicState cpuNum intNum
  | n + 1, flags, s =>
      match vm.firstLr (s.gichGetElrsr v), s.vgicHighestPrioSpilled vm v flags with
      | some _, some (irq, _) =>
          vgicRefillLrs n (if (s.vgicGetOwnership v irq).1 then .pendAct else flags)
            (s.refillRound vm v flags)
      | _, _ => s
  | 0, _, s => s

/-- The loop of `vgic_handle_trapped_eoir`, for at most so many rounds. -/
def vgicHandleTrappedEoir : ℕ → VgicState cpuNum intNum → VgicState cpuNum intNum
  | n + 1, s =>
      match vm.firstLr (s.gichGetEisr v) with
      | some _ => vgicHandleTrappedEoir n (s.trappedEoirRound vm v)
      | none => s
  | 0, s => s

/-- The bits of `GICH_MISR` that `gic_maintenance_handler` looks at. -/
structure Misr where
  eoi : Bool
  np : Bool
  u : Bool
  lrenp : Bool

/-- `gic_maintenance_handler`, for a count of ends of spilled interrupts. -/
def gicMaintenanceHandler (misr : Misr) (eoiCount fuel : ℕ) (s : VgicState cpuNum intNum) :
    VgicState cpuNum intNum :=
  let s := if misr.eoi then vgicHandleTrappedEoir vm v fuel s else s
  let s :=
    if misr.np || misr.u then vgicRefillLrs vm v fuel (if misr.np then .pending else .pendAct) s
    else s
  if misr.lrenp then (fun s => s.vgicEoirHighestSpilledActive vm v)^[eoiCount] s else s

end Maintenance

end BaoHypervisor
