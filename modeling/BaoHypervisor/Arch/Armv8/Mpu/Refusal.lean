import BaoHypervisor.Arch.Armv8.Mpu
import Mathlib.Data.Finset.Card
import Mathlib.Data.Fintype.Basic
import Mathlib.Data.Set.Basic

/-!
# Regions that the MPU refuses

`mem_map` takes an entry of the virtual MPU before it asks the physical one for the region. Where
`mpu_map` refuses the region, it gives back the physical entries that it took, but `mem_map` does
not give back its own: the entry is neither free nor valid from then on (`failsClean_iff`). A
region is refused in the round that finds an entry around it, for a conflict or for want of
entries (`Refuses`).
-/

namespace BaoHypervisor

namespace MemState

variable {P V : Type*} (mpu : PhysMpu P) (view : P → Priv → V) (type : AsType) (s : MemState P)

/-- A `mem_map` that returns false leaves the entries of the address space, what the physical MPU
lets its privilege do, and the messages as they were. -/
def FailsClean (mpr : MpRegion) (broadcast : Bool) : Prop :=
  ∀ s', s.memMap mpu type mpr broadcast = some (false, s') →
    s'.vmpu = s.vmpu ∧ view s'.phys (asPriv type) = view s.phys (asPriv type) ∧
      s'.broadcasts = s.broadcasts

theorem allocateEntry_ne {vmpu : Vmpu} {i : Fin vmpuNumEntries} (h : vmpu.findFree = some i) :
    vmpu.allocateEntry ≠ vmpu := by
  intro heq
  have hfree : (vmpu i).state = .free := by
    simpa using List.find?_some h
  have hi := congrFun heq i
  rw [Vmpu.allocateEntry, h] at hi
  simp only [Function.update_self] at hi
  have hstate := congrArg Mpe.state hi
  rw [hfree] at hstate
  cases hstate

/-- A call fails cleanly unless it gets as far as the physical MPU, which refuses. -/
theorem failsClean_iff {mpr : MpRegion} {broadcast : Bool} :
    FailsClean mpu view type s mpr broadcast ↔
      mpr.size = 0#64 ∨ mpr.size.toNat % mpuGranularity ≠ 0 ∨
        (s.vmpu.findOverlappingRegion mpr).isSome ∨ s.vmpu.findFree = none ∨
          (mpu.mpuMap s.phys (asPriv type) mpr).1 = true := by
  rw [FailsClean, memMap]
  by_cases hsize : mpr.size = 0#64
  · rw [if_pos hsize]
    exact iff_of_true (fun s' hs' => by cases hs') (.inl hsize)
  rw [if_neg hsize]
  by_cases hmod : mpr.size.toNat % mpuGranularity ≠ 0
  · rw [if_pos hmod]
    exact iff_of_true (fun s' hs' => by cases hs') (.inr (.inl hmod))
  rw [if_neg hmod]
  cases hfind : s.vmpu.findOverlappingRegion mpr with
  | some i =>
      refine iff_of_true (fun s' hs' => ?_) (.inr (.inr (.inl rfl)))
      cases hs'
      exact ⟨rfl, rfl, rfl⟩
  | none =>
      rw [or_iff_right hsize, or_iff_right hmod, or_iff_right (by simp)]
      cases hfree : s.vmpu.findFree with
      | none =>
          simp only [allocateInsert, hfree, insertRegion]
          refine iff_of_true (fun s' hs' => ?_) (.inl trivial)
          cases hs'
          exact ⟨by rw [Vmpu.allocateEntry, hfree], rfl, rfl⟩
      | some i =>
          simp only [allocateInsert, hfree, insertRegion]
          rw [or_iff_right (by simp)]
          cases hmap : (mpu.mpuMap s.phys (asPriv type) mpr).1 with
          | true =>
              simp only [if_true]
              exact iff_of_true (fun s' hs' => by cases hs') trivial
          | false =>
              simp only [Bool.false_eq_true, if_false]
              refine iff_of_false (fun h => ?_) id
              exact allocateEntry_ne hfree (h _ rfl).1

end MemState

namespace Armv8Mpu

variable {n : ℕ} {m m' : Armv8Mpu n} {i : Fin n}

/-- What the entries in use let a privilege do: the addresses, with the permissions and the
flags. -/
def view (m : Armv8Mpu n) (priv : Priv) : Set (ℕ × Perms × MemFlags) :=
  {x | ∃ i, m.bitmap i = true ∧ (m.entryGetRegion i).Covers x.1 ∧
    m.privPerms i priv = x.2.1 ∧ x.2.1 ≠ permNone ∧ (m.entryGetRegion i).memFlags = x.2.2}

/-- The same entries are in use, with the same registers and permissions. -/
structure Agrees (m m' : Armv8Mpu n) : Prop where
  bitmap : m'.bitmap = m.bitmap
  perms : m'.perms = m.perms
  prbar : ∀ i, m.bitmap i = true → m'.prbar i = m.prbar i
  prlar : ∀ i, m.bitmap i = true → m'.prlar i = m.prlar i

theorem Agrees.refl (m : Armv8Mpu n) : Agrees m m := ⟨rfl, rfl, fun _ _ => rfl, fun _ _ => rfl⟩

theorem Agrees.view_eq (h : Agrees m m') (priv : Priv) : m'.view priv = m.view priv := by
  ext x
  have hregion : ∀ i, m.bitmap i = true → m'.entryGetRegion i = m.entryGetRegion i := by
    intro i hi
    rw [entryGetRegion, entryGetRegion, h.prbar i hi, h.prlar i hi]
  simp only [view, Set.mem_ofPred_eq, h.bitmap, privPerms, h.perms]
  refine exists_congr fun i => and_congr_right fun hi => ?_
  rw [hregion i hi]

theorem bitmap_of_entryAllocate (h : m.entryAllocate = some (i, m')) : m.bitmap i = false := by
  obtain ⟨j, hj, heq⟩ := Option.map_eq_some_iff.mp h
  cases heq
  simpa using List.find?_some hj

theorem eq_of_entryAllocate (h : m.entryAllocate = some (i, m')) :
    m' = { m with bitmap := Function.update m.bitmap i true } := by
  obtain ⟨j, -, heq⟩ := Option.map_eq_some_iff.mp h
  cases heq
  rfl

theorem agrees_entryFree (h : m.entryAllocate = some (i, m')) : Agrees m (m'.entryFree i) := by
  have hi := bitmap_of_entryAllocate h
  rw [eq_of_entryAllocate h]
  refine ⟨?_, rfl, fun j hj => ?_, fun j hj => ?_⟩
  · rw [entryFree, Function.update_idem, ← hi, Function.update_eq_self]
  · exact Function.update_of_ne (fun heq => by rw [heq, hi] at hj; cases hj) _ _
  · exact Function.update_of_ne (fun heq => by rw [heq, hi] at hj; cases hj) _ _

def freeEntries (m : Armv8Mpu n) : ℕ := (Finset.univ.filter fun i => m.bitmap i = false).card

theorem entryAllocate_eq_none_iff : m.entryAllocate = none ↔ m.freeEntries = 0 := by
  rw [entryAllocate, Option.map_eq_none_iff, findFree, List.find?_eq_none, freeEntries,
    Finset.card_eq_zero, Finset.filter_eq_empty_iff]
  simp

theorem freeEntries_of_entryAllocate (h : m.entryAllocate = some (i, m')) :
    m'.freeEntries + 1 = m.freeEntries := by
  have hi := bitmap_of_entryAllocate h
  have hmem : i ∈ Finset.univ.filter fun j => m.bitmap j = false :=
    Finset.mem_filter.mpr ⟨Finset.mem_univ i, hi⟩
  rw [freeEntries, freeEntries, ← Finset.card_erase_add_one hmem, eq_of_entryAllocate h]
  congr 2
  ext j
  simp only [Finset.mem_filter, Finset.mem_univ, true_and, Finset.mem_erase]
  by_cases hj : j = i
  · rw [hj, Function.update_self]
    simp
  · rw [Function.update_of_ne hj, and_iff_right hj]

/-- The number of entries for a piece. -/
def piece (size : SizeT) : ℕ := if 0#64 < size then 1 else 0

theorem allocatePiece_eq_none_iff {size : SizeT} :
    m.allocatePiece size = none ↔ m.freeEntries < piece size := by
  rw [allocatePiece, piece]
  split
  · rw [Option.map_eq_none_iff, entryAllocate_eq_none_iff, Nat.lt_one_iff]
  · simp

theorem freeEntries_of_allocatePiece {size : SizeT} {mpid : Option (Fin n)}
    (h : m.allocatePiece size = some (mpid, m')) :
    m'.freeEntries + piece size = m.freeEntries := by
  rw [allocatePiece] at h
  rw [piece]
  split at h
  · rename_i hsize
    rw [if_pos hsize]
    obtain ⟨⟨i, m''⟩, hm'', heq⟩ := Option.map_eq_some_iff.mp h
    cases heq
    exact freeEntries_of_entryAllocate hm''
  · rename_i hsize
    rw [if_neg hsize]
    cases h
    rfl

theorem agrees_of_allocatePiece {size : SizeT} {mpid : Option (Fin n)}
    (h : m.allocatePiece size = some (mpid, m')) : Agrees m (mpid.elim m' m'.entryFree) := by
  rw [allocatePiece] at h
  split at h
  · obtain ⟨⟨i, m''⟩, hm'', heq⟩ := Option.map_eq_some_iff.mp h
    cases heq
    exact agrees_entryFree hm''
  · cases h
    exact Agrees.refl m

/-- A round for the region is refused: an entry has it in it, and there is a conflict or the
pieces of that entry want more entries than there are. -/
def Refuses (m : Armv8Mpu n) (priv : Priv) (newReg : MpRegion) : Prop :=
  ∃ mpid, m.place newReg none m.order = .overlap mpid ∧
    (m.conflicts mpid priv newReg = true ∨
      m.freeEntries < piece (overlapBottomSize newReg (m.entryGetRegion mpid)) +
        piece (overlapTopSize newReg (m.entryGetRegion mpid)))

end Armv8Mpu

namespace MpuMap

open Armv8Mpu

variable {n : ℕ} {priv : Priv} {s s' : MpuMap n} {newReg : MpRegion} {mpid : Fin n}

theorem mapOverlap_failed_iff :
    (∃ m b t, s.mapOverlap priv newReg mpid = .failed m b t) ↔
      s.mpu.conflicts mpid priv newReg = true ∨
        s.mpu.freeEntries < piece (overlapBottomSize newReg (s.mpu.entryGetRegion mpid)) +
          piece (overlapTopSize newReg (s.mpu.entryGetRegion mpid)) := by
  simp only [mapOverlap]
  by_cases hconf : s.mpu.conflicts mpid priv newReg = true
  · rw [if_pos hconf]
    exact iff_of_true ⟨_, _, _, rfl⟩ (.inl hconf)
  rw [if_neg hconf, or_iff_right hconf]
  cases hbottom : s.mpu.allocatePiece
      (overlapBottomSize newReg (s.mpu.entryGetRegion mpid)) with
  | none =>
      rw [allocatePiece_eq_none_iff] at hbottom
      exact iff_of_true ⟨_, _, _, rfl⟩ (Nat.lt_add_right _ hbottom)
  | some p =>
      obtain ⟨b, m⟩ := p
      have hfree := freeEntries_of_allocatePiece hbottom
      dsimp only
      cases htop : m.allocatePiece (overlapTopSize newReg (s.mpu.entryGetRegion mpid)) with
      | none =>
          rw [allocatePiece_eq_none_iff] at htop
          exact iff_of_true ⟨_, _, _, rfl⟩ (by omega)
      | some p =>
          obtain ⟨t, m'⟩ := p
          have hfree' := freeEntries_of_allocatePiece htop
          exact iff_of_false (fun ⟨_, _, _, h⟩ => by cases h) (by omega)

/-- What a failed round took is given back. -/
theorem agrees_of_mapOverlap {m : Armv8Mpu n} {b t : Option (Fin n)}
    (h : s.mapOverlap priv newReg mpid = .failed m b t) :
    t = none ∧ Agrees s.mpu (b.elim m m.entryFree) := by
  simp only [mapOverlap] at h
  split at h
  · cases h
    exact ⟨rfl, Agrees.refl _⟩
  cases hbottom : s.mpu.allocatePiece
      (overlapBottomSize newReg (s.mpu.entryGetRegion mpid)) with
  | none =>
      rw [hbottom] at h
      cases h
      exact ⟨rfl, Agrees.refl _⟩
  | some p =>
      obtain ⟨b', m'⟩ := p
      rw [hbottom] at h
      dsimp only at h
      split at h
      · cases h
        exact ⟨rfl, agrees_of_allocatePiece hbottom⟩
      · cases h

theorem mapGap_ne_failed {prev next : Option (Fin n)} {m : Armv8Mpu n} {b t : Option (Fin n)} :
    s.mapGap priv newReg prev next ≠ .failed m b t := by
  intro h
  simp only [mapGap] at h
  split at h
  · cases h
  · cases h
  · split at h <;> cases h

theorem round_failed_iff :
    (∃ m b t, s.round priv newReg = .failed m b t) ↔ s.mpu.Refuses priv newReg := by
  rw [round, Refuses]
  cases hplace : s.mpu.place newReg none s.mpu.order with
  | gap prev next =>
      exact iff_of_false (fun ⟨_, _, _, h⟩ => mapGap_ne_failed h) (fun ⟨_, h, _⟩ => by cases h)
  | overlap mpid =>
      dsimp only
      rw [mapOverlap_failed_iff]
      constructor
      · intro h
        exact ⟨mpid, rfl, h⟩
      · rintro ⟨mpid', heq, h⟩
        cases heq
        exact h

def RefusedWithin (priv : Priv) : ℕ → MpuMap n → Prop
  | 0, _ => False
  | fuel + 1, s =>
      s.sizeLeft ≠ 0#64 ∧ ∃ newReg, s.newReg = some newReg ∧
        (s.mpu.Refuses priv newReg ∨
          ∃ s', s.round priv newReg = .next s' ∧ RefusedWithin priv fuel s')

/-- `mpu_map` returns false exactly if a round is refused. -/
theorem loop_eq_false_iff {fuel : ℕ} :
    (∃ m, s.loop priv fuel = some (false, m)) ↔ RefusedWithin priv fuel s := by
  induction fuel generalizing s with
  | zero => exact iff_of_false (fun ⟨_, h⟩ => by cases h) id
  | succ fuel ih =>
      rw [loop, RefusedWithin]
      by_cases hsize : s.sizeLeft = 0#64
      · rw [if_pos hsize]
        exact iff_of_false (fun ⟨_, h⟩ => by cases h) (fun h => h.1 hsize)
      rw [if_neg hsize, and_iff_right hsize]
      cases hreg : s.newReg with
      | none => exact iff_of_false (fun ⟨_, h⟩ => by cases h) (fun ⟨_, h, _⟩ => by cases h)
      | some newReg =>
          simp only [Option.some.injEq, exists_eq_left', ← round_failed_iff]
          cases hround : s.round priv newReg with
          | next s' => simpa using ih
          | failed m b t => simp
          | error => simp

theorem place_overlap {m : Armv8Mpu n} {entries : List (Fin n)} {prev : Option (Fin n)}
    (h : m.place newReg prev entries = .overlap mpid) :
    mpid ∈ entries ∧ memRegionsOverlap newReg (m.entryGetRegion mpid) = true := by
  induction entries generalizing prev with
  | nil => cases h
  | cons i entries ih =>
      simp only [place] at h
      split at h
      · cases h
      split at h
      · rename_i hoverlap
        cases h
        exact ⟨List.mem_cons_self, hoverlap⟩
      · exact ⟨List.mem_cons_of_mem i (ih h).1, (ih h).2⟩

theorem sizeLeft_leave {overlapped middle : MpRegion} {m : Armv8Mpu n}
    (hle : newReg.limit ≤ 2 ^ 64) (hlt : overlapped.limit < 2 ^ 64 - 1)
    (hoverlap : memRegionsOverlap newReg overlapped = true) :
    (s.leave newReg overlapped middle m).sizeLeft = 0#64 := by
  rw [memRegionsOverlap, rangeInRange_iff] at hoverlap
  rw [MpRegion.limit] at hle hlt
  have hbase : overlapped.base ≤ newReg.base := hoverlap.1
  have hlimit : newReg.base + newReg.size ≤ overlapped.base + overlapped.size := by
    rw [BitVec.le_def, BitVec.toNat_add, BitVec.toNat_add]
    omega
  simp [leave, hbase, hlimit]

/-- A round for the whole region that is left is the last one. -/
theorem sizeLeft_of_round (hleft : s.sizeLeft = newReg.size) (hle : newReg.limit ≤ 2 ^ 64)
    (hentries : ∀ i ∈ s.mpu.order, (s.mpu.entryGetRegion i).limit < 2 ^ 64 - 1)
    (h : s.round priv newReg = .next s') : s'.sizeLeft = 0#64 := by
  rw [round] at h
  cases hplace : s.mpu.place newReg none s.mpu.order with
  | gap prev next =>
      have hsize : ∀ reg, (s.setNewReg reg).sizeLeft - newReg.size = 0#64 := by
        intro reg
        rw [setNewReg]
        split <;> simp [hleft]
      rw [hplace] at h
      simp only [mapGap] at h
      split at h
      · cases h
        exact hsize _
      · cases h
        exact hsize _
      · split at h
        · cases h
        · cases h
          exact hsize _
  | overlap mpid =>
      obtain ⟨hmem, hoverlap⟩ := place_overlap hplace
      rw [hplace] at h
      simp only [mapOverlap] at h
      split at h
      · cases h
      split at h
      · cases h
      split at h
      · cases h
      · cases h
        exact sizeLeft_leave hle (hentries mpid hmem) hoverlap

variable {m : Armv8Mpu n} {mpr : MpRegion} {fuel : ℕ}

/-- A region that does not wrap around is mapped or refused in the first round, if no entry
reaches the top of the address space. -/
theorem refusedWithin_start_iff (hfuel : 0 < fuel) (hle : mpr.limit ≤ 2 ^ 64)
    (hentries : ∀ i ∈ m.order, (m.entryGetRegion i).limit < 2 ^ 64 - 1) :
    RefusedWithin priv fuel (start m mpr) ↔ mpr.size ≠ 0#64 ∧ m.Refuses priv mpr := by
  obtain ⟨fuel, rfl⟩ := Nat.exists_eq_succ_of_ne_zero hfuel.ne'
  rw [RefusedWithin]
  refine and_congr_right fun _ => ?_
  have hnew : (start m mpr).newReg = some mpr := rfl
  simp only [hnew, Option.some.injEq, exists_eq_left']
  refine or_iff_left ?_
  rintro ⟨s', hround, h⟩
  cases fuel with
  | zero => exact h
  | succ fuel => exact h.1 (sizeLeft_of_round rfl hle hentries hround)

/-- Such a region leaves what the physical MPU lets do as it was when it is refused. -/
theorem view_of_mpuMap {m' : Armv8Mpu n} (hle : mpr.limit ≤ 2 ^ 64)
    (hentries : ∀ i ∈ m.order, (m.entryGetRegion i).limit < 2 ^ 64 - 1)
    (h : m.mpuMap fuel priv mpr = some (false, m')) (priv' : Priv) :
    m'.view priv' = m.view priv' := by
  rw [mpuMap] at h
  cases fuel with
  | zero => cases h
  | succ fuel =>
      rw [loop] at h
      split at h
      · cases h
      have hnew : (start m mpr).newReg = some mpr := rfl
      rw [hnew] at h
      dsimp only at h
      split at h
      · rename_i s' hround
        have hleft := sizeLeft_of_round rfl hle hentries hround
        cases fuel with
        | zero => cases h
        | succ fuel =>
            rw [loop, if_pos hleft] at h
            cases h
      · rename_i mpu b t hround
        rw [round] at hround
        split at hround
        · obtain ⟨rfl, hagrees⟩ := agrees_of_mapOverlap hround
          cases h
          exact hagrees.view_eq priv'
        · exact absurd hround mapGap_ne_failed
      · cases h

end MpuMap

namespace Armv8Mpu

/-- The MPU as a part of the CPU, where none is a CPU that does not return from `mpu_map`: it is
stopped by an `ERROR`, or still in the loop after so many rounds. What `mpu_unmap` does is left
open. -/
def phys {n : ℕ} (fuel : ℕ)
    (mpuUnmap : Option (Armv8Mpu n) → Priv → MpRegion → Bool × Option (Armv8Mpu n)) :
    PhysMpu (Option (Armv8Mpu n)) where
  mpuMap m priv mpr :=
    match m.bind fun m => m.mpuMap fuel priv mpr with
    | none => (true, none)
    | some (mapped, m) => (mapped, some m)
  mpuUnmap := mpuUnmap

def physView {n : ℕ} (m : Option (Armv8Mpu n)) (priv : Priv) : Set (ℕ × Perms × MemFlags) :=
  m.elim ∅ fun m => m.view priv

end Armv8Mpu

namespace MemState

open Armv8Mpu

variable {n : ℕ}

/-- A failed `mem_map` changes nothing exactly if it does not get to the physical MPU, or no round
of `mpu_map` is refused. For a region that does not wrap around, on an MPU without an entry that
reaches the top of the address space, only the first round can be. -/
theorem failsClean_memMap_iff
    (mpuUnmap : Option (Armv8Mpu n) → Priv → MpRegion → Bool × Option (Armv8Mpu n))
    (fuel : ℕ) (type : AsType) (vmpu : Vmpu) (m : Armv8Mpu n)
    (broadcasts : List (ShareOp × MpRegion)) (mpr : MpRegion) (broadcast : Bool) :
    (FailsClean (Armv8Mpu.phys fuel mpuUnmap) physView type ⟨vmpu, some m, broadcasts⟩ mpr
        broadcast ↔
      mpr.size = 0#64 ∨ mpr.size.toNat % mpuGranularity ≠ 0 ∨
        (vmpu.findOverlappingRegion mpr).isSome ∨ vmpu.findFree = none ∨
          ¬ MpuMap.RefusedWithin (asPriv type) fuel (.start m mpr)) ∧
      (0 < fuel → mpr.limit ≤ 2 ^ 64 →
        (∀ i ∈ m.order, (m.entryGetRegion i).limit < 2 ^ 64 - 1) →
          (MpuMap.RefusedWithin (asPriv type) fuel (.start m mpr) ↔
            mpr.size ≠ 0#64 ∧ m.Refuses (asPriv type) mpr)) := by
  refine ⟨?_, MpuMap.refusedWithin_start_iff⟩
  rw [failsClean_iff, ← MpuMap.loop_eq_false_iff, ← mpuMap]
  have hmap : ((Armv8Mpu.phys fuel mpuUnmap).mpuMap (some m) (asPriv type) mpr).1 = true ↔
      ¬ ∃ m', m.mpuMap fuel (asPriv type) mpr = some (false, m') := by
    simp only [Armv8Mpu.phys, Option.bind_some]
    cases m.mpuMap fuel (asPriv type) mpr with
    | none => simp
    | some p =>
        obtain ⟨mapped, m'⟩ := p
        cases mapped <;> simp
  rw [hmap]

/-- An MPU of four entries after `mpu_init`, with the image of the hypervisor in the first one. -/
def hypImageMpu : Armv8Mpu 4 where
  prbar i := if i = 0 then 0x10000030#64 else 0#64
  prlar i := if i = 0 then 0x1000ffc3#64 else 0#64
  bitmap i := i == 0
  locked i := i == 0
  perms i := if i = 0 then ⟨permRw ||| permX, permNone⟩ else ⟨permNone, permNone⟩
  order := [0]

/-- A region with the flags `PTE_VM_DEV_FLAGS`. -/
def guestDevice (base : Addr) : MpRegion := ⟨base, 0x1000#64, ⟨0x36#16, 0x5#16⟩, .hypGlobal⟩

/-- A device of the guest that the image of the hypervisor has in it is refused, and the entry of
the address space is lost. -/
theorem not_failsClean_inImage :
    ¬ FailsClean (Armv8Mpu.phys 2 fun p _ _ => (true, p)) physView .vm
      ⟨Vmpu.asInit, some hypImageMpu, []⟩ (guestDevice 0x10001000#64) true := by
  rw [failsClean_iff]
  decide +kernel

/-- The same device above the image is not refused. -/
theorem failsClean_aboveImage :
    FailsClean (Armv8Mpu.phys 2 fun p _ _ => (true, p)) physView .vm
      ⟨Vmpu.asInit, some hypImageMpu, []⟩ (guestDevice 0x20000000#64) true := by
  have h := failsClean_memMap_iff (fun p _ _ => (true, p)) 2 .vm Vmpu.asInit hypImageMpu []
    (guestDevice 0x20000000#64) true
  refine h.1.mpr (.inr (.inr (.inr (.inr fun hrefused => ?_))))
  obtain ⟨-, mpid, hplace, -⟩ :=
    (h.2 (by decide) (by decide) (by decide +kernel)).mp hrefused
  have hgap : hypImageMpu.place (guestDevice 0x20000000#64) none hypImageMpu.order =
      .gap (some 0) none := by decide +kernel
  cases hgap.symm.trans hplace

end MemState

end BaoHypervisor
