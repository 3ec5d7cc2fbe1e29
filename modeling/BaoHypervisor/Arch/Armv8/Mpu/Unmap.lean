import BaoHypervisor.Arch.Armv8.Mpu

/-!
# Start and unmapping of the MPU of Armv8-R

`mpu_init` takes over the entries that are enabled when the hypervisor starts. `mpu_unmap` takes a
privilege away from the part of each entry that the region overlaps: what is left of the entry above
and below the region goes to entries of its own. Whether there are any is not checked, and an
`INVALID_MPID` is used like any other index.
-/

namespace BaoHypervisor

def prlarEn : BitVec 64 := 0x1#64

def permRwx : Perms := permRw ||| permX

namespace Armv8Mpu

variable {n : ℕ} (m : Armv8Mpu n) (mpid : Fin n)

def entryValid : Bool := m.prlar mpid &&& prlarEn ≠ 0#64

/-- One round of the loop of `mpu_init`. -/
def initEntry : Armv8Mpu n :=
  if m.entryValid mpid then
    insertOrdered { m with
      bitmap := Function.update m.bitmap mpid true
      locked := Function.update m.locked mpid true
      perms := Function.update m.perms mpid { el1 := permNone, el2 := permRwx } } mpid
  else m

def mpuInit : Armv8Mpu n :=
  (List.finRange n).foldl initEntry { m with bitmap := fun _ => false, order := [] }

/-- The entry that a round of `mpu_unmap` is about. -/
def findPriv (priv : Priv) (mpr : MpRegion) : List (Fin n) → Option (Fin n)
  | [] => none
  | mpid :: entries =>
      let reg := m.entryGetRegion mpid
      if mpr.base + mpr.size < reg.base then none
      else if !m.entryHasPriv mpid priv then findPriv priv mpr entries
      else if memRegionsOverlap reg mpr then some mpid
      else findPriv priv mpr entries

/-- An entry for what is left of a region, unless nothing is, where `none` is the use of
`INVALID_MPID`. -/
def setRest (size : SizeT) (rest : MpRegion) (origPerms : MpuPerms) : Option (Armv8Mpu n) :=
  (m.allocatePiece size).map fun p =>
    p.1.elim p.2 fun mpid =>
      entrySet { p.2 with perms := Function.update p.2.perms mpid origPerms } mpid rest

/-- An entry without the permissions of the privilege: it is free, or it has only what the region
overlaps. -/
def dropPriv (priv : Priv) (mpr : MpRegion) : Armv8Mpu n :=
  let reg := m.entryGetRegion mpid
  let topSize := overlapTopSize mpr reg
  let bottomSize := overlapBottomSize mpr reg
  let m := m.entryUpdatePrivPerms mpid priv permNone
  if (m.perms mpid).el1 = permNone ∧ (m.perms mpid).el2 = permNone then m.entryFree mpid
  else
    m.entryModify mpid (mpuEntrySetPerms
      { reg with
        base := if 0#64 < bottomSize then mpr.base else reg.base
        size := reg.size - topSize - bottomSize } (m.perms mpid))

end Armv8Mpu

/-- The variables of `mpu_unmap` that a round leaves to the next one. -/
structure MpuUnmap (n : ℕ) where
  mpu : Armv8Mpu n
  sizeLeft : SizeT

namespace MpuUnmap

variable {n : ℕ} (priv : Priv) (mpr : MpRegion) (s : MpuUnmap n)

/-- A round for the entry, where `none` is the use of `INVALID_MPID`. -/
def unmapEntry (mpid : Fin n) : Option (MpuUnmap n) :=
  let reg := s.mpu.entryGetRegion mpid
  let topSize := overlapTopSize mpr reg
  let bottomSize := overlapBottomSize mpr reg
  let origPerms := s.mpu.perms mpid
  let m := s.mpu.dropPriv mpid priv mpr
  let top := { reg with base := mpr.base + mpr.size, size := topSize }
  let bottom := { reg with size := bottomSize }
  (m.setRest topSize top origPerms).bind fun m =>
    (m.setRest bottomSize bottom origPerms).map fun m =>
      ⟨m, s.sizeLeft - (reg.size - topSize - bottomSize)⟩

/-- The loop of `mpu_unmap`, where `none` is the use of `INVALID_MPID` or a loop that goes on for
more rounds than this. -/
def loop : ℕ → MpuUnmap n → Option (Bool × Armv8Mpu n)
  | 0, _ => none
  | fuel + 1, s =>
      if s.sizeLeft = 0#64 then some (true, s.mpu)
      else
        match s.mpu.findPriv priv mpr s.mpu.order with
        | none => some (false, s.mpu)
        | some mpid =>
            match s.unmapEntry priv mpr mpid with
            | none => none
            | some s => loop fuel s

/-- The variables before the first round. -/
def start (m : Armv8Mpu n) (mpr : MpRegion) : MpuUnmap n := ⟨m, mpr.size⟩

end MpuUnmap

namespace Armv8Mpu

def mpuUnmap {n : ℕ} (fuel : ℕ) (m : Armv8Mpu n) (priv : Priv) (mpr : MpRegion) :
    Option (Bool × Armv8Mpu n) :=
  MpuUnmap.loop priv mpr fuel (.start m mpr)

end Armv8Mpu

end BaoHypervisor
