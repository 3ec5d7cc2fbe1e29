import BaoHypervisor.Core.Mpu.Region
import Mathlib.Data.List.FinRange

/-!
# The virtual MPU of an address space

An address space has a table of 64 entries, each with a region that the physical MPU was
asked to map. The physical MPU is a parameter: a state and the two functions that the
architecture gives. What is shared with other CPUs is recorded in the order of the calls of
`mem_region_broadcast`.
-/

namespace BaoHypervisor

abbrev vmpuNumEntries : ℕ := 64

inductive Priv
  | none
  | hyp
  | vm
deriving DecidableEq, Repr

/-- The states of a `struct mpe`. -/
inductive MpeState
  | free
  | invalid
  | valid
deriving DecidableEq, Repr

structure Mpe where
  state : MpeState
  region : MpRegion
deriving DecidableEq, Repr

/-- The array `vmpu` of a `struct addr_space`. -/
abbrev Vmpu := Fin vmpuNumEntries → Mpe

/-- `mpu_map` and `mpu_unmap`, on the state of the physical MPU. -/
structure PhysMpu (P : Type*) where
  mpuMap : P → Priv → MpRegion → Bool × P
  mpuUnmap : P → Priv → MpRegion → Bool × P

/-- The events of `MEM_PROT_SYNC` messages. -/
inductive ShareOp
  | insertRegion
  | removeRegion
deriving DecidableEq, Repr

/-- The table of an address space, the physical MPU of the CPU and the calls of
`mem_region_broadcast`. -/
structure MemState (P : Type*) where
  vmpu : Vmpu
  phys : P
  broadcasts : List (ShareOp × MpRegion)

def asPriv : AsType → Priv
  | .hyp | .hypCpy => .hyp
  | .vm => .vm

namespace Vmpu

variable (vmpu : Vmpu) (mpid : Fin vmpuNumEntries)

def setEntry (mpr : MpRegion) : Vmpu :=
  Function.update vmpu mpid ⟨.valid, mpr⟩

def freeEntry : Vmpu :=
  Function.update vmpu mpid ⟨.free, ⟨0#64, 0#64, .invalid, .unknown⟩⟩

/-- The entry that `mem_vmpu_allocate_entry` finds. -/
def findFree : Option (Fin vmpuNumEntries) :=
  (List.finRange vmpuNumEntries).find? fun i => (vmpu i).state == .free

/-- `mem_vmpu_allocate_entry`, on the table. -/
def allocateEntry : Vmpu :=
  match vmpu.findFree with
  | some i => Function.update vmpu i { vmpu i with state := .invalid }
  | none => vmpu

def findOverlappingRegion (region : MpRegion) : Option (Fin vmpuNumEntries) :=
  (List.finRange vmpuNumEntries).find? fun i =>
    (vmpu i).state == .valid && memRegionsOverlap region (vmpu i).region

/-- The table after `as_init`. -/
def asInit : Vmpu := fun _ => ⟨.free, ⟨0#64, 0#64, .invalid, .unknown⟩⟩

end Vmpu

namespace MemState

variable {P : Type*} (mpu : PhysMpu P) (type : AsType) (s : MemState P)

def regionBroadcast (mpr : MpRegion) (op : ShareOp) : MemState P :=
  { s with broadcasts := s.broadcasts ++ [(op, mpr)] }

def insertRegion (mpid : Option (Fin vmpuNumEntries)) (mpr : MpRegion) (broadcast : Bool) :
    Bool × MemState P :=
  match mpid with
  | none => (false, s)
  | some mpid =>
      let (mapped, phys) := mpu.mpuMap s.phys (asPriv type) mpr
      if mapped then
        let s := { s with vmpu := s.vmpu.setEntry mpid mpr, phys }
        (true, if broadcast then s.regionBroadcast mpr .insertRegion else s)
      else (false, { s with phys })

/-- `mem_vmpu_allocate_entry` and `mem_vmpu_insert_region`. -/
def allocateInsert (mpr : MpRegion) (broadcast : Bool) : Bool × MemState P :=
  insertRegion mpu type { s with vmpu := s.vmpu.allocateEntry } s.vmpu.findFree mpr broadcast

def removeRegion (mpid : Fin vmpuNumEntries) (broadcast : Bool) : MemState P :=
  if (s.vmpu mpid).state = .valid then
    let reg := (s.vmpu mpid).region
    let s := if broadcast then s.regionBroadcast reg .removeRegion else s
    let phys := (mpu.mpuUnmap s.phys (asPriv type) reg).2
    { s with phys, vmpu := s.vmpu.freeEntry mpid }
  else s

/-- `mem_map`, where `none` is the `ERROR` for a size that is not made of granules. -/
def memMap (mpr : MpRegion) (broadcast : Bool) : Option (Bool × MemState P) :=
  if mpr.size = 0#64 then some (true, s)
  else if mpr.size.toNat % mpuGranularity ≠ 0 then none
  else
    match s.vmpu.findOverlappingRegion mpr with
    | some _ => some (false, s)
    | none => some (allocateInsert mpu type s mpr broadcast)

def topSize (reg : MpRegion) (vaddr : Addr) (size : SizeT) : SizeT :=
  if reg.base + reg.size ≤ vaddr + size then 0#64 else reg.base + reg.size - (vaddr + size)

def bottomSize (reg : MpRegion) (vaddr : Addr) : SizeT :=
  if vaddr ≤ reg.base then 0#64 else vaddr - reg.base

/-- One round of the loop of `mem_unmap_range`, for the entry it has found. -/
def unmapEntry (vaddr : Addr) (size : SizeT) (mpid : Fin vmpuNumEntries) : MemState P :=
  let reg := (s.vmpu mpid).region
  let top := topSize reg vaddr size
  let bottom := bottomSize reg vaddr
  let s := removeRegion mpu type s mpid true
  let s :=
    if 0#64 < top then
      (allocateInsert mpu type s { reg with base := vaddr + size, size := top } true).2
    else s
  if 0#64 < bottom then (allocateInsert mpu type s { reg with size := bottom } true).2 else s

/-- The loop of `mem_unmap_range`, with the size that is left. -/
def unmapLoop (vaddr : Addr) (size : SizeT) : ℕ → SizeT → MemState P → Option (Bool × MemState P)
  | 0, _, _ => none
  | fuel + 1, sizeLeft, s =>
      if sizeLeft = 0#64 then some (true, s)
      else
        match s.vmpu.findOverlappingRegion ⟨vaddr, size, .invalid, .hypGlobal⟩ with
        | none => some (false, s)
        | some mpid =>
            let reg := (s.vmpu mpid).region
            let overlapSize := reg.size - topSize reg vaddr size - bottomSize reg vaddr
            unmapLoop vaddr size fuel (sizeLeft - overlapSize)
              (unmapEntry mpu type s vaddr size mpid)

/-- `mem_unmap_range`, which makes no use of `broadcast`. Each round takes the range out of
one entry more. -/
def memUnmapRange (vaddr : Addr) (size : SizeT) (_broadcast : Bool) : Option (Bool × MemState P) :=
  unmapLoop mpu type vaddr size (vmpuNumEntries + 1) size s

end MemState

inductive MemAct
  | map (mpr : MpRegion) (broadcast : Bool)
  | unmapRange (vaddr : Addr) (size : SizeT) (broadcast : Bool)
deriving DecidableEq, Repr

def MemAct.WellFormed : MemAct → Prop
  | .map mpr _ => mpr.WellFormed
  | .unmapRange vaddr size _ => (⟨vaddr, size, .invalid, .hypGlobal⟩ : MpRegion).WellFormed

/-- One call. After an `ERROR` nothing happens. -/
def MemState.step {P : Type*} (mpu : PhysMpu P) (type : AsType) (s : MemState P) :
    MemAct → MemState P
  | .map mpr broadcast => (s.memMap mpu type mpr broadcast).elim s Prod.snd
  | .unmapRange vaddr size broadcast =>
      (s.memUnmapRange mpu type vaddr size broadcast).elim s Prod.snd

end BaoHypervisor
