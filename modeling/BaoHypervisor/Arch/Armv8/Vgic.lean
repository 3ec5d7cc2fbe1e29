import BaoHypervisor.Arch.Armv8.Platform
import BaoHypervisor.Core.Vm.Ids
import BaoHypervisor.Lib.List

/-!
# The virtual GIC

An interrupt of a guest that is pending or active is put into a list register of the GIC,
from where the guest takes it, or is spilled into a list when there is no list register
left. An interrupt of the VM is handled by the vCPU that owns it; others ask that one, or
tell the targets of the interrupt, by messages. The state is that of all vCPUs of a VM,
each with its own list registers.
-/

namespace BaoHypervisor

inductive GicVersion
  | gicv2
  | gicv3
deriving DecidableEq, Repr

/-- How many numbers fit in the field of a list register, by `GICH_LR_VID_MSK`. -/
def GicVersion.vids : GicVersion → ℕ
  | gicv2 => 2 ^ 10
  | gicv3 => 2 ^ 32

def gicIsSgi (id : ℕ) : Bool := id < 16

def gicIsPriv (id : ℕ) : Bool := id < 32

/-- `enum int_state`, by its two bits. -/
structure IntState where
  pend : Bool
  act : Bool
deriving DecidableEq, Repr

namespace IntState

def inv : IntState := { pend := false, act := false }

/-- `PEND`. -/
def pending : IntState := { pend := true, act := false }

/-- `ACT`. -/
def active : IntState := { pend := false, act := true }

def pendAct : IntState := { pend := true, act := true }

/-- The states have a bit in common. -/
def meets (state flags : IntState) : Bool := state.pend && flags.pend || state.act && flags.act

end IntState

/-- An interrupt of a VM with this number of vCPUs and of interrupts: one of the private
ones of a vCPU, or one of those that the vCPUs share, by its place in `vgicd.interrupts`. -/
inductive IntRef (cpuNum intNum : ℕ)
  | priv (vcpu : Fin cpuNum) (id : Fin 32)
  | spi (i : Fin (intNum - 32))
deriving DecidableEq, Repr

/-- The lists of spilled interrupts: one for each vCPU, and one of the VM. -/
inductive SpilledList (cpuNum : ℕ)
  | vcpu (v : Fin cpuNum)
  | vm
deriving DecidableEq, Repr

/-- `struct vgic_int`, without its node. `phys` is the redistributor of a private
interrupt. -/
structure VgicInt (cpuNum : ℕ) where
  owner : Option (Fin cpuNum)
  route : BitVec 64
  phys : BitVec 64
  state : IntState
  prio : BitVec 8
  cfg : BitVec 8
  lr : ℕ
  targets : BitVec 8
  sgiAct : BitVec 8
  sgiPend : BitVec 8
  hw : Bool
  inLr : Bool
  enabled : Bool
deriving DecidableEq, Repr

/-- The fields of a list register that are read back. -/
structure ListReg where
  vid : ℕ
  prio : BitVec 8
  state : IntState
  hw : Bool
  eoi : Bool
  cpuid : ℕ
deriving DecidableEq, Repr

/-- A list register that is written with 0. -/
def ListReg.zero : ListReg :=
  { vid := 0, prio := 0#8, state := .inv, hw := false, eoi := false, cpuid := 0 }

/-- The bit of the list register in `GICH_ELRSR`. -/
def ListReg.isEmpty (lr : ListReg) : Bool := lr.state == .inv && (lr.hw || !lr.eoi)

/-- The bit of the list register in `GICH_EISR`: its interrupt has ended with a maintenance
interrupt. -/
def ListReg.isEnded (lr : ListReg) : Bool := lr.state == .inv && !lr.hw && lr.eoi

/-- `VGIC_EVENTS`, without `VGIC_UPDATE_ENABLE`. -/
inductive VgicEvent
  | route
  | inject
  | setReg
deriving DecidableEq, Repr

/-- A message between the vCPUs, by the fields of `VGIC_MSG_DATA`. -/
structure VgicMsg where
  event : VgicEvent
  vgicrId : BitVec 16
  intId : BitVec 15
  reg : BitVec 8
  val : BitVec 8
deriving DecidableEq, Repr

inductive VgicReg
  | isenabler
  | ispendr
  | isactiver
  | icenabler
  | icpendr
  | icactiver
  | icfgr
  | irouter
  | ipriorityr
  | itargetsr
deriving DecidableEq, Repr

namespace VgicReg

/-- `enum vgic_reg_handler_info_id`. -/
def table : List VgicReg :=
  [isenabler, ispendr, isactiver, icenabler, icpendr, icactiver, icfgr, irouter, ipriorityr,
    itargetsr]

/-- The `regid` of the handlers of a register. -/
def regid (reg : VgicReg) : ℕ := table.idxOf reg

end VgicReg

/-- What is fixed of a VM and of the CPUs that its vCPUs run on. `mpidr` is the MPIDR of the CPU of
a vCPU, masked with `MPIDR_AFF_MSK`. -/
structure VgicVm (cpuNum intNum : ℕ) where
  version : GicVersion
  numLrs : ℕ
  platformCpuNum : ℕ
  vm : Vm
  physId : Fin cpuNum → ℕ
  mpidr : Fin cpuNum → BitVec 64
  cpuIdToMpidr : ℕ → BitVec 64
  vmpidr : Fin cpuNum → BitVec 64
  physId_lt : ∀ v, physId v < 64
  physId_injective : Function.Injective physId
  intNum_le : intNum ≤ 1024

/-- The interrupts with their links, and for each vCPU its list registers and
`curr_lrs`; the spilled lists, and the messages sent so far with their CPUs. -/
structure VgicState (cpuNum intNum : ℕ) where
  ints : IntRef cpuNum intNum → VgicInt cpuNum
  link : IntRef cpuNum intNum → Option (IntRef cpuNum intNum)
  lrs : Fin cpuNum → ℕ → ListReg
  currLrs : Fin cpuNum → ℕ → ℕ
  spilled : SpilledList cpuNum → NodeList (IntRef cpuNum intNum)
  sent : List (ℕ × VgicMsg)

variable {cpuNum intNum : ℕ}

def IntRef.id : IntRef cpuNum intNum → ℕ
  | .priv _ id => id
  | .spi i => i + 32

def vgicGetInt (intId vgicrId : ℕ) : Option (IntRef cpuNum intNum) :=
  if hpriv : intId < 32 then
    if hvcpu : vgicrId < cpuNum then some (.priv ⟨vgicrId, hvcpu⟩ ⟨intId, hpriv⟩) else none
  else if h : intId < intNum then some (.spi ⟨intId - 32, by omega⟩) else none

namespace VgicVm

variable (vm : VgicVm cpuNum intNum) (v : Fin cpuNum) (r : IntRef cpuNum intNum)

def vgicIntIsHw (interrupt : VgicInt cpuNum) : Bool := !gicIsSgi r.id && interrupt.hw

def vgicBroadcast (interrupt : VgicInt cpuNum) : Bool := interrupt.route.getLsbD 31

def vgicIntVcpuIsTarget (interrupt : VgicInt cpuNum) : Bool :=
  let priv := gicIsPriv r.id
  match vm.version with
  | .gicv2 => priv || interrupt.targets.getLsbD (vm.physId v)
  | .gicv3 =>
      priv && interrupt.phys == BitVec.ofNat 64 (vm.physId v) ||
        !priv && interrupt.phys == vm.mpidr v || !priv && vgicBroadcast interrupt

def gicdIrouterInv : BitVec 64 := ~~~ 0xffff#64

def vgicIntHasOtherTarget (interrupt : VgicInt cpuNum) : Bool :=
  let priv := gicIsPriv r.id
  match vm.version with
  | .gicv2 => !priv && (interrupt.targets &&& ~~~ (1#8 <<< vm.physId v)) != 0#8
  | .gicv3 =>
      !priv && vgicBroadcast interrupt ||
        !(!priv && interrupt.phys == vm.mpidr v) && interrupt.phys != gicdIrouterInv

def vgicIntPtargetMask (interrupt : VgicInt cpuNum) : BitVec 8 :=
  match vm.version with
  | .gicv2 => interrupt.targets
  | .gicv3 =>
      if vgicBroadcast interrupt then (vm.vm.cpus &&& ~~~ cpuBit (vm.physId v)).setWidth 8
      else 1#8 <<< interrupt.phys.toNat

def vgicIntSetRoute (interrupt : VgicInt cpuNum) (route : BitVec 64) : VgicInt cpuNum :=
  if gicIsPriv r.id then interrupt
  else
    let phys :=
      if route.getLsbD 31 then vm.cpuIdToMpidr (vm.physId v)
      else
        match vmGetVcpuByMpidr vm.vmpidr (route &&& 0xffff#64) with
        | some w => vm.cpuIdToMpidr (vm.physId w) &&& 0xffff#64
        | none => gicdIrouterInv
    { interrupt with phys := phys, route := route &&& 0xffffffffff#64 }

def vgicdSetTrgt (interrupt : VgicInt cpuNum) (targets : BitVec 64) : VgicInt cpuNum :=
  if gicIsPriv r.id then interrupt
  else { interrupt with targets := (vm.vm.translateToPcpuMask targets 8#64).setWidth 8 }

def vgicIntSetPrio (interrupt : VgicInt cpuNum) (prio : BitVec 64) : VgicInt cpuNum :=
  { interrupt with
    prio := prio.setWidth 8 &&&
      match vm.version with
      | .gicv2 => 0xf8#8
      | .gicv3 => 0xff#8 }

def vgicIntUpdateEnable (interrupt : VgicInt cpuNum) (enable : Bool) : VgicInt cpuNum :=
  if vm.version = .gicv2 ∧ gicIsSgi r.id then interrupt else { interrupt with enabled := enable }

def vgicIntUpdatePend (interrupt : VgicInt cpuNum) (pend : Bool) : VgicInt cpuNum :=
  if vm.version = .gicv2 ∧ gicIsSgi r.id then interrupt
  else { interrupt with state := { interrupt.state with pend := pend } }

def vgicIntUpdateAct (interrupt : VgicInt cpuNum) (act : Bool) : VgicInt cpuNum :=
  { interrupt with state := { interrupt.state with act := act } }

/-- The `update_field` of a register. A version of the GIC has no `update_field` for the
registers that it does not have. -/
def updateField (reg : VgicReg) (interrupt : VgicInt cpuNum) (data : BitVec 64) :
    VgicInt cpuNum :=
  match reg with
  | .isenabler =>
      if data = 0#64 then interrupt else vm.vgicIntUpdateEnable r interrupt true
  | .icenabler =>
      if data = 0#64 then interrupt else vm.vgicIntUpdateEnable r interrupt false
  | .ispendr => if data = 0#64 then interrupt else vm.vgicIntUpdatePend r interrupt true
  | .icpendr => if data = 0#64 then interrupt else vm.vgicIntUpdatePend r interrupt false
  | .isactiver => if data = 0#64 then interrupt else vgicIntUpdateAct interrupt true
  | .icactiver => if data = 0#64 then interrupt else vgicIntUpdateAct interrupt false
  | .icfgr => { interrupt with cfg := data.setWidth 8 }
  | .ipriorityr => vm.vgicIntSetPrio interrupt data
  | .irouter => if vm.version = .gicv3 then vm.vgicIntSetRoute v r interrupt data else interrupt
  | .itargetsr => if vm.version = .gicv2 then vm.vgicdSetTrgt r interrupt data else interrupt

/-- The highest of the first `n` numbers that is marked. -/
def highestSet (marked : ℕ → Bool) (n : ℕ) : Option ℕ := (List.range n).reverse.find? marked

/-- The value that `vgic_write_lr` writes to a list register for an interrupt in a state, and
the `sgi.pend` that it leaves. -/
def vgicLr (interrupt : VgicInt cpuNum) (state : IntState) : ListReg × BitVec 8 :=
  let lr : ListReg :=
    { ListReg.zero with
      vid := r.id % vm.version.vids
      prio :=
        match vm.version with
        | .gicv2 => (interrupt.prio >>> 3) <<< 3
        | .gicv3 => interrupt.prio }
  if vgicIntIsHw r interrupt then
    ({ lr with hw := true, state := if state = .pendAct then .active else state },
      interrupt.sgiPend)
  else if vm.version = .gicv2 ∧ gicIsSgi r.id then
    let (lr, sgiPend) :=
      if state.act then
        ({ lr with cpuid := interrupt.sgiAct.toNat % 8, state := .active }, interrupt.sgiPend)
      else
        match highestSet interrupt.sgiPend.getLsbD 8 with
        | some i =>
            ({ lr with cpuid := i, state := .pending }, interrupt.sgiPend &&& ~~~ (1#8 <<< i))
        | none => (lr, interrupt.sgiPend)
    ({ lr with eoi := sgiPend != 0#8 }, sgiPend)
  else ({ lr with eoi := !gicIsPriv r.id, state := state }, interrupt.sgiPend)

/-- What the loop of `vgic_add_lr` has found so far. -/
structure Scan where
  minPrioPend : ℕ
  minPrioAct : ℕ
  minIdPend : ℕ
  minIdAct : ℕ
  pendFound : ℕ
  pendInd : Option ℕ
  actInd : Option ℕ

/-- A round of that loop. `lr_state` is an `unsigned`, which the state bits of a list
register of the GICv3 do not fit in. -/
def scanLr (lrs : ℕ → ListReg) (scan : Scan) (i : ℕ) : Scan :=
  let lr := lrs i
  let lrState : IntState :=
    match vm.version with
    | .gicv2 => lr.state
    | .gicv3 => .inv
  let lrPrio := lr.prio.toNat
  if lrState.act then
    if scan.minPrioAct < lrPrio ∨ lrPrio = scan.minPrioAct ∧ scan.minIdAct < lr.vid then
      { scan with minIdAct := lr.vid, minPrioAct := lrPrio, actInd := some i }
    else scan
  else if lrState.pend then
    let scan := { scan with pendFound := scan.pendFound + 1 }
    if scan.minPrioPend < lrPrio ∨ lrPrio = scan.minPrioPend ∧ scan.minIdPend < lr.vid then
      { scan with minIdPend := lr.vid, minPrioPend := lrPrio, pendInd := some i }
    else scan
  else scan

/-- The list register that `vgic_add_lr` takes from another interrupt. -/
def spillInd (lrs : ℕ → ListReg) (interrupt : VgicInt cpuNum) : Option ℕ :=
  let scan := (List.range vm.numLrs).foldl (vm.scanLr lrs)
    { minPrioPend := interrupt.prio.toNat, minPrioAct := interrupt.prio.toNat
      minIdPend := r.id, minIdAct := r.id, pendFound := 0, pendInd := none, actInd := none }
  if 1 < scan.pendFound then scan.pendInd else scan.actInd

def firstLr (marked : ℕ → Bool) : Option ℕ := (List.range vm.numLrs).find? marked

end VgicVm

end BaoHypervisor
