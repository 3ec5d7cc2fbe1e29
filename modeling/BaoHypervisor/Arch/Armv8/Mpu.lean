import BaoHypervisor.Core.Mpu.Mem
import Mathlib.Data.List.Sort

/-!
# The MPU of Armv8-R

An entry has a base register and a limit register. Beside them the CPU keeps which entries are in
use, which are locked, the permissions that the hypervisor and the guest have, and the order of
the entries by address. Entries of this MPU must not overlap: `mpu_map` cuts an entry that has the
new region in it into pieces, and merges a region that no entry has with its neighbours. The order
is a list that is only ever read from its head.
-/

namespace BaoHypervisor

abbrev Perms := BitVec 3

def permNone : Perms := 0#3

def permX : Perms := 1#3

def permR : Perms := 2#3

def permW : Perms := 4#3

def permRw : Perms := permR ||| permW

structure MpuPerms where
  el2 : Perms
  el1 : Perms
deriving DecidableEq, Repr

def prbarXn : BitVec 16 := 0x2#16

def prbarEl1Bit : BitVec 16 := 0x4#16

def prbarNwrBit : BitVec 16 := 0x8#16

def prbarApRwEl2 : BitVec 16 := 0x0#16

def prbarApRoEl2 : BitVec 16 := 0x8#16

def prbarPermsFlagsMsk : BitVec 16 := 0xf#16

def prbarMemAttrFlagsMsk : BitVec 16 := 0x30#16

def prlarMemAttrFlagsMsk : BitVec 16 := 0x0e#16

/-- `PRBAR_FLAGS_MSK` and `PRLAR_FLAGS_MSK`. -/
def regFlagsMsk : BitVec 64 := 0x3f#64

def memVmpuEntryPerms (mpr : MpRegion) : Perms :=
  permR ||| (if mpr.memFlags.prbar &&& prbarXn = 0#16 then permX else 0#3) |||
    (if mpr.memFlags.prbar &&& prbarNwrBit = 0#16 then permW else 0#3)

def mpuEntrySetPerms (mpr : MpRegion) (mpuPerms : MpuPerms) : MpRegion :=
  let perms := mpuPerms.el1 ||| mpuPerms.el2
  let prbar := mpr.memFlags.prbar &&& ~~~prbarPermsFlagsMsk
  let prbar := prbar ||| if perms &&& permW ≠ 0#3 then prbarApRwEl2 else prbarApRoEl2
  let prbar := if perms &&& permX = 0#3 then prbar ||| prbarXn else prbar
  let prbar := if mpuPerms.el1 ≠ permNone then prbar ||| prbarEl1Bit else prbar
  { mpr with memFlags := { mpr.memFlags with prbar } }

/-- `mpu_entry_attrs`. Both masks are for `prbar`, and `prlar` is kept whole. The upper half of the
word that the code compares is left out: the two fields do not cover it, and nothing writes it. -/
def mpuEntryAttrs (mpr : MpRegion) : MemFlags :=
  { mpr.memFlags with
    prbar := mpr.memFlags.prbar &&& prbarMemAttrFlagsMsk &&& prlarMemAttrFlagsMsk }

def MpuPerms.setPriv (perms : MpuPerms) (priv : Priv) (new : Perms) : MpuPerms :=
  if priv = .vm then { perms with el1 := new } else { perms with el2 := new }

/-- The registers of the MPU and the part of `struct cpu_arch_profile` about it. -/
structure Armv8Mpu (n : ℕ) where
  prbar : Fin n → BitVec 64
  prlar : Fin n → BitVec 64
  bitmap : Fin n → Bool
  locked : Fin n → Bool
  perms : Fin n → MpuPerms
  order : List (Fin n)

namespace Armv8Mpu

variable {n : ℕ} (m : Armv8Mpu n) (mpid : Fin n)

def entryGetRegion : MpRegion :=
  let base := m.prbar mpid &&& ~~~regFlagsMsk
  ⟨base, (m.prlar mpid &&& ~~~regFlagsMsk ||| regFlagsMsk) + 1#64 - base,
    ⟨(m.prbar mpid &&& regFlagsMsk).setWidth 16, (m.prlar mpid &&& regFlagsMsk).setWidth 16⟩,
    .unknown⟩

/-- `list_insert_ordered` with `mpu_node_cmp`: before the first entry with a higher base. -/
def insertOrdered : Armv8Mpu n :=
  { m with
    order := m.order.orderedInsert
      (fun i j => (m.entryGetRegion i).base < (m.entryGetRegion j).base) mpid }

def entrySet (mpr : MpRegion) : Armv8Mpu n :=
  let lim := mpr.base + mpr.size - 1#64
  let prbar := mpr.base &&& ~~~regFlagsMsk ||| mpr.memFlags.prbar.setWidth 64
  let prlar := lim &&& ~~~regFlagsMsk ||| mpr.memFlags.prlar.setWidth 64
  insertOrdered { m with
    prbar := Function.update m.prbar mpid prbar
    prlar := Function.update m.prlar mpid prlar } mpid

def entryModify (mpr : MpRegion) : Armv8Mpu n :=
  entrySet { m with order := m.order.erase mpid } mpid mpr

/-- `mpu_entry_free`, with `mpu_entry_clear`. -/
def entryFree : Armv8Mpu n :=
  { m with
    order := m.order.erase mpid
    prlar := Function.update m.prlar mpid 0#64
    prbar := Function.update m.prbar mpid 0#64
    bitmap := Function.update m.bitmap mpid false }

def privPerms (priv : Priv) : Perms :=
  if priv = .vm then (m.perms mpid).el1 else (m.perms mpid).el2

def entryHasPriv (priv : Priv) : Bool := m.privPerms mpid priv ≠ permNone

def entryUpdatePrivPerms (priv : Priv) (perms : Perms) : Armv8Mpu n :=
  { m with perms := Function.update m.perms mpid ((m.perms mpid).setPriv priv perms) }

/-- The entry that `mpu_entry_allocate` finds. -/
def findFree : Option (Fin n) := (List.finRange n).find? fun i => !m.bitmap i

def entryAllocate : Option (Fin n × Armv8Mpu n) :=
  m.findFree.map fun i => (i, { m with bitmap := Function.update m.bitmap i true })

def allocatePiece (size : SizeT) : Option (Option (Fin n) × Armv8Mpu n) :=
  if 0#64 < size then m.entryAllocate.map fun p => (some p.1, p.2) else some (none, m)

/-- What the loop over the ordered entries finds for a region: an entry that has the region in
it, or the entries before and after the gap where it belongs. -/
inductive Place (n : ℕ)
  | overlap (mpid : Fin n)
  | gap (prev next : Option (Fin n))
deriving DecidableEq, Repr

/-- The loop over the ordered entries. -/
def place (newReg : MpRegion) (prev : Option (Fin n)) : List (Fin n) → Place n
  | [] => .gap prev none
  | mpid :: entries =>
      let overlappedReg := m.entryGetRegion mpid
      if newReg.base + newReg.size ≤ overlappedReg.base then .gap prev (some mpid)
      else if memRegionsOverlap newReg overlappedReg then .overlap mpid
      else place newReg (some mpid) entries

/-- The checks of an entry that has the new region in it: no entry of the same privilege, no
read-only guest region that the hypervisor may write, no other right to execute, no other
attributes. -/
def conflicts (priv : Priv) (newReg : MpRegion) : Bool :=
  let overlapPerms := (m.perms mpid).setPriv priv (memVmpuEntryPerms newReg)
  m.entryHasPriv mpid priv ||
    (overlapPerms.el1 &&& permRw == permR && overlapPerms.el2 &&& permW != permNone) ||
    overlapPerms.el1 &&& permX != overlapPerms.el2 &&& permX ||
    mpuEntryAttrs newReg != mpuEntryAttrs (m.entryGetRegion mpid)

end Armv8Mpu

def overlapTopSize (newReg overlapped : MpRegion) : SizeT :=
  MemState.topSize overlapped newReg.base newReg.size

def overlapBottomSize (newReg overlapped : MpRegion) : SizeT :=
  MemState.bottomSize overlapped newReg.base

/-- The local variables of `mpu_map` that a round leaves to the next one. -/
structure MpuMap (n : ℕ) where
  mpu : Armv8Mpu n
  sizeLeft : SizeT
  reg1 : MpRegion
  reg2 : MpRegion
  reg1Valid : Bool
  reg2Valid : Bool

/-- The end of a round: the next one, a failure with the entries taken for the pieces, or the
`ERROR` where no entry is left for the region. -/
inductive MpuRound (n : ℕ)
  | next (s : MpuMap n)
  | failed (mpu : Armv8Mpu n) (bottomMpid topMpid : Option (Fin n))
  | error

namespace MpuMap

variable {n : ℕ} (priv : Priv) (s : MpuMap n)

def newReg : Option MpRegion :=
  if s.reg1Valid then some s.reg1 else if s.reg2Valid then some s.reg2 else none

def setNewReg (reg : MpRegion) : MpuMap n :=
  if s.reg1Valid then { s with reg1 := reg } else { s with reg2 := reg }

/-- A piece of a cut entry keeps the permissions that the entry had. -/
def setPiece (m : Armv8Mpu n) (mpid : Option (Fin n)) (piece : MpRegion) (perms : MpuPerms) :
    Armv8Mpu n :=
  match mpid with
  | none => m
  | some mpid =>
      let overlappedPriv := if priv = .vm then Priv.hyp else Priv.vm
      let overlappedPerms := if priv = .vm then perms.el2 else perms.el1
      (m.entryUpdatePrivPerms mpid overlappedPriv overlappedPerms).entrySet mpid
        (mpuEntrySetPerms piece perms)

/-- What is left to map after a round that found the entry. -/
def leave (newReg overlapped middle : MpRegion) (mpu : Armv8Mpu n) : MpuMap n :=
  let newRegLimit := newReg.base + newReg.size
  let overlappedLimit := overlapped.base + overlapped.size
  let topLeft := if newRegLimit ≤ overlappedLimit then 0#64 else newRegLimit - overlappedLimit
  let bottomLeft :=
    if overlapped.base ≤ newReg.base then 0#64 else overlapped.base - newReg.base
  let subset := overlapped.base ≤ newReg.base ∧ newRegLimit ≤ overlappedLimit
  let superset := 0#64 < bottomLeft ∨ 0#64 < topLeft
  { mpu
    sizeLeft :=
      if superset then topLeft + bottomLeft
      else if subset then 0#64
      else s.sizeLeft - middle.size
    reg1 :=
      if 0#64 < bottomLeft then { s.reg1 with base := newReg.base, size := bottomLeft }
      else s.reg1
    reg2 :=
      if 0#64 < topLeft then { s.reg2 with base := overlappedLimit, size := topLeft } else s.reg2
    reg1Valid := 0#64 < bottomLeft
    reg2Valid := true }

/-- A round for a region that the entry has in it. -/
def mapOverlap (newReg : MpRegion) (mpid : Fin n) : MpuRound n :=
  let m := s.mpu
  let overlapped := m.entryGetRegion mpid
  if m.conflicts mpid priv newReg then .failed m none none
  else
    let perms := m.perms mpid
    let newPerms := memVmpuEntryPerms newReg
    let topSize := overlapTopSize newReg overlapped
    let bottomSize := overlapBottomSize newReg overlapped
    let middle := mpuEntrySetPerms
      { overlapped with
        base := overlapped.base + bottomSize
        size := overlapped.size - (topSize + bottomSize) } (perms.setPriv priv newPerms)
    match m.allocatePiece bottomSize with
    | none => .failed m none none
    | some (bottomMpid, m) =>
        match m.allocatePiece topSize with
        | none => .failed m bottomMpid none
        | some (topMpid, m) =>
            let m := (m.entryUpdatePrivPerms mpid priv newPerms).entryModify mpid middle
            let m := setPiece priv m bottomMpid { overlapped with size := bottomSize } perms
            let m := setPiece priv m topMpid
              { overlapped with base := newReg.base + newReg.size, size := topSize } perms
            .next (s.leave newReg overlapped middle m)

def mergeable (newReg : MpRegion) (perms : MpuPerms) (mpid : Fin n) : Bool :=
  !s.mpu.locked mpid && mpuEntryAttrs (s.mpu.entryGetRegion mpid) == mpuEntryAttrs newReg &&
    s.mpu.perms mpid == perms

def mapGap (newReg : MpRegion) (prev next : Option (Fin n)) : MpuRound n :=
  let m := s.mpu
  let memSize := newReg.size
  let newPerms := memVmpuEntryPerms newReg
  let newRegPerms := (MpuPerms.mk permNone permNone).setPriv priv newPerms
  let prevMerge := prev.filter fun mpid =>
    let r := m.entryGetRegion mpid
    s.mergeable newReg newRegPerms mpid && r.base + r.size == newReg.base
  let newReg :=
    match prevMerge with
    | none => newReg
    | some mpid =>
        let r := m.entryGetRegion mpid
        { newReg with base := r.base, size := newReg.size + r.size }
  let nextMerge := next.filter fun mpid =>
    s.mergeable newReg newRegPerms mpid &&
      newReg.base + newReg.size == (m.entryGetRegion mpid).base
  let newReg :=
    match nextMerge with
    | none => newReg
    | some mpid => { newReg with size := newReg.size + (m.entryGetRegion mpid).size }
  let s := s.setNewReg newReg
  let s := { s with sizeLeft := s.sizeLeft - memSize }
  match prevMerge, nextMerge with
  | some mpid, nextMerge =>
      let m := nextMerge.elim m m.entryFree
      .next { s with mpu := (m.entryUpdatePrivPerms mpid priv newPerms).entryModify mpid newReg }
  | none, some mpid =>
      .next { s with mpu := (m.entryUpdatePrivPerms mpid priv newPerms).entryModify mpid newReg }
  | none, none =>
      match m.entryAllocate with
      | none => .error
      | some (mpid, m) =>
          .next { s with mpu := (m.entryUpdatePrivPerms mpid priv newPerms).entrySet mpid newReg }

def round (newReg : MpRegion) : MpuRound n :=
  match s.mpu.place newReg none s.mpu.order with
  | .overlap mpid => s.mapOverlap priv newReg mpid
  | .gap prev next => s.mapGap priv newReg prev next

/-- The loop of `mpu_map` and what follows it, where `none` is an `ERROR` or a loop that goes on
for more rounds than this. -/
def loop : ℕ → MpuMap n → Option (Bool × Armv8Mpu n)
  | 0, _ => none
  | fuel + 1, s =>
      if s.sizeLeft = 0#64 then some (true, s.mpu)
      else
        match s.newReg with
        | none => some (true, s.mpu)
        | some newReg =>
            match s.round priv newReg with
            | .next s => loop fuel s
            | .failed m bottomMpid topMpid =>
                let m := bottomMpid.elim m m.entryFree
                some (false, topMpid.elim m m.entryFree)
            | .error => none

/-- The local variables of `mpu_map` before the first round. -/
def start (m : Armv8Mpu n) (mpr : MpRegion) : MpuMap n :=
  ⟨m, mpr.size, mpr, mpr, true, false⟩

end MpuMap

namespace Armv8Mpu

def mpuMap {n : ℕ} (fuel : ℕ) (m : Armv8Mpu n) (priv : Priv) (mpr : MpRegion) :
    Option (Bool × Armv8Mpu n) :=
  MpuMap.loop priv fuel (.start m mpr)

end Armv8Mpu

end BaoHypervisor
