import BaoHypervisor.Core.Mpu.Agreement
import BaoHypervisor.Core.Mpu.Disjoint

/-!
# What the calls do to the set of regions

With a physical MPU that maps every region that is apart from those it has, and with a free
entry, `mem_map` adds its region to those of the address space, and `mem_unmap_range`
replaces the region that the range lies within by the pieces beside the range.
-/

namespace BaoHypervisor

/-- What is relied on of the physical MPU of the hypervisor: it has a set of regions, to which
`mpu_map` adds one that is apart from all of them, and from which `mpu_unmap` takes one. -/
structure PhysMpu.Keeps {P : Type*} (mpu : PhysMpu P) (held : P → Finset MpRegion) : Prop where
  map : ∀ p r, r.WellFormed → (∀ q ∈ held p, r.Apart q) →
    (mpu.mpuMap p .hyp r).1 = true ∧ held (mpu.mpuMap p .hyp r).2 = insert r (held p)
  unmap : ∀ p r, r ∈ held p → held (mpu.mpuUnmap p .hyp r).2 = (held p).erase r

namespace Vmpu

variable {vmpu : Vmpu} {i : Fin vmpuNumEntries} {mpr : MpRegion}

def regions (vmpu : Vmpu) : Finset MpRegion :=
  (Finset.univ.filter vmpu.Valid).image fun i => (vmpu i).region

theorem mem_regions : mpr ∈ vmpu.regions ↔ ∃ i, vmpu.Valid i ∧ (vmpu i).region = mpr := by
  simp [regions]

theorem apartFrom_iff : vmpu.ApartFrom mpr ↔ ∀ q ∈ vmpu.regions, mpr.Apart q := by
  constructor
  · intro h q hq
    obtain ⟨i, hi, rfl⟩ := mem_regions.mp hq
    exact h i hi
  · intro h i hi
    exact h _ (mem_regions.mpr ⟨i, hi, rfl⟩)

theorem regions_setEntry (h : ¬ vmpu.Valid i) :
    (vmpu.setEntry i mpr).regions = insert mpr vmpu.regions := by
  ext r
  rw [Finset.mem_insert, mem_regions, mem_regions]
  constructor
  · rintro ⟨j, hj, rfl⟩
    rcases valid_update hj with ⟨rfl, -⟩ | ⟨hji, hvalid⟩
    · rw [setEntry, Function.update_self]
      exact .inl rfl
    · rw [setEntry, Function.update_of_ne hji]
      exact .inr ⟨j, hvalid, rfl⟩
  · rintro (rfl | ⟨j, hj, rfl⟩)
    · refine ⟨i, ?_, ?_⟩ <;> simp [Valid, setEntry]
    · have hji : j ≠ i := fun heq => h (heq ▸ hj)
      refine ⟨j, ?_, ?_⟩
      · rw [Valid, setEntry, Function.update_of_ne hji]
        exact hj
      · rw [setEntry, Function.update_of_ne hji]

/-- No two valid entries have the same region. -/
theorem regions_freeEntry (hgranular : vmpu.Granular) (hseparate : vmpu.Separate)
    (h : vmpu.Valid i) : (vmpu.freeEntry i).regions = vmpu.regions.erase (vmpu i).region := by
  ext r
  rw [Finset.mem_erase, mem_regions, mem_regions]
  constructor
  · rintro ⟨j, hj, rfl⟩
    rcases valid_update hj with ⟨-, hvalid⟩ | ⟨hji, hvalid⟩
    · cases hvalid
    · rw [freeEntry, Function.update_of_ne hji]
      refine ⟨fun heq => ?_, j, hvalid, rfl⟩
      have hapart := hseparate j i hji hvalid h
      rw [heq] at hapart
      exact (MpRegion.Within.refl _).not_apart (hgranular i h) hapart
  · rintro ⟨hne, j, hj, rfl⟩
    have hji : j ≠ i := fun heq => hne (heq ▸ rfl)
    refine ⟨j, ?_, ?_⟩
    · rw [Valid, freeEntry, Function.update_of_ne hji]
      exact hj
    · rw [freeEntry, Function.update_of_ne hji]

def freeEntries (vmpu : Vmpu) : Finset (Fin vmpuNumEntries) :=
  Finset.univ.filter fun i => (vmpu i).state = .free

theorem mem_freeEntries : i ∈ vmpu.freeEntries ↔ (vmpu i).state = .free :=
  Finset.mem_filter.trans (and_iff_right (Finset.mem_univ i))

theorem exists_findFree (h : 0 < vmpu.freeEntries.card) : ∃ i, vmpu.findFree = some i := by
  obtain ⟨i, hi⟩ := Finset.card_pos.mp h
  rw [← Option.isSome_iff_exists, findFree, List.find?_isSome]
  exact ⟨i, List.mem_finRange i, by simp [mem_freeEntries.mp hi]⟩

theorem freeEntries_setEntry : (vmpu.setEntry i mpr).freeEntries = vmpu.freeEntries.erase i := by
  ext j
  rw [Finset.mem_erase, mem_freeEntries, mem_freeEntries, setEntry, Function.update_apply]
  by_cases hji : j = i <;> simp [hji]

theorem freeEntries_freeEntry : (vmpu.freeEntry i).freeEntries = insert i vmpu.freeEntries := by
  ext j
  rw [Finset.mem_insert, mem_freeEntries, mem_freeEntries, freeEntry, Function.update_apply]
  by_cases hji : j = i <;> simp [hji]

end Vmpu

namespace MemState

variable {P : Type*} {mpu : PhysMpu P} {held : P → Finset MpRegion} {s : MemState P}
  {mpr : MpRegion} {broadcast : Bool}

/-- The table is of regions of granules that are apart, and the physical MPU has the same
regions. -/
structure Holds (held : P → Finset MpRegion) (s : MemState P) : Prop where
  granular : s.vmpu.Granular
  separate : s.vmpu.Separate
  phys : held s.phys = s.vmpu.regions

/-- A region that is apart from the others is mapped in a free entry. -/
theorem Holds.allocateInsert (h : s.Holds held) (hmpu : mpu.Keeps held)
    (hroom : 0 < s.vmpu.freeEntries.card) (hwf : mpr.WellFormed)
    (hapart : ∀ q ∈ s.vmpu.regions, mpr.Apart q) (broadcast : Bool) :
    ∃ i, s.vmpu.findFree = some i ∧
      (allocateInsert mpu .hyp s mpr broadcast).2.vmpu = s.vmpu.setEntry i mpr ∧
      (allocateInsert mpu .hyp s mpr broadcast).2.broadcasts =
        s.broadcasts ++ (if broadcast then [(.insertRegion, mpr)] else []) ∧
      (allocateInsert mpu .hyp s mpr broadcast).2.Holds held ∧
      (allocateInsert mpu .hyp s mpr broadcast).2.vmpu.regions = insert mpr s.vmpu.regions := by
  obtain ⟨i, hfree⟩ := Vmpu.exists_findFree hroom
  obtain ⟨hmap, hheld⟩ := hmpu.map s.phys mpr hwf (h.phys ▸ hapart)
  have hvmpu : (MemState.allocateInsert mpu .hyp s mpr broadcast).2.vmpu =
      s.vmpu.setEntry i mpr := by
    rw [MemState.allocateInsert, hfree, insertRegion]
    cases broadcast <;>
      simp [asPriv, hmap, Vmpu.allocateEntry, hfree, Vmpu.setEntry, regionBroadcast]
  have hphys : (MemState.allocateInsert mpu .hyp s mpr broadcast).2.phys =
      (mpu.mpuMap s.phys .hyp mpr).2 := by
    rw [MemState.allocateInsert, hfree, insertRegion]
    cases broadcast <;> simp [asPriv, hmap, regionBroadcast]
  have hbroadcasts : (MemState.allocateInsert mpu .hyp s mpr broadcast).2.broadcasts =
      s.broadcasts ++ (if broadcast then [(.insertRegion, mpr)] else []) := by
    rw [MemState.allocateInsert, hfree, insertRegion]
    cases broadcast <;> simp [asPriv, hmap, regionBroadcast]
  have hregions : (s.vmpu.setEntry i mpr).regions = insert mpr s.vmpu.regions :=
    Vmpu.regions_setEntry (Vmpu.not_valid_of_findFree hfree)
  refine ⟨i, hfree, hvmpu, hbroadcasts, ⟨granular_allocateInsert h.granular hwf,
    separate_allocateInsert h.separate (Vmpu.apartFrom_iff.mpr hapart), ?_⟩, ?_⟩
  · rw [hphys, hheld, hvmpu, hregions, h.phys]
  · rw [hvmpu, hregions]

/-- The region of a valid entry is unmapped. -/
theorem Holds.removeRegion (h : s.Holds held) (hmpu : mpu.Keeps held) {i : Fin vmpuNumEntries}
    (hi : s.vmpu.Valid i) :
    (removeRegion mpu .hyp s i true).Holds held ∧
      (removeRegion mpu .hyp s i true).vmpu.regions =
        s.vmpu.regions.erase (s.vmpu i).region ∧
      (removeRegion mpu .hyp s i true).broadcasts =
        s.broadcasts ++ [(.removeRegion, (s.vmpu i).region)] := by
  have hmem : (s.vmpu i).region ∈ held s.phys := by
    rw [h.phys]
    exact Vmpu.mem_regions.mpr ⟨i, hi, rfl⟩
  have hvmpu : (MemState.removeRegion mpu .hyp s i true).vmpu = s.vmpu.freeEntry i :=
    vmpu_removeRegion hi
  have hstate : (s.vmpu i).state = .valid := hi
  have hphys : (MemState.removeRegion mpu .hyp s i true).phys =
      (mpu.mpuUnmap s.phys .hyp (s.vmpu i).region).2 := by
    rw [MemState.removeRegion, if_pos hstate]
    rfl
  have hregions := Vmpu.regions_freeEntry h.granular h.separate hi
  refine ⟨⟨?_, ?_, ?_⟩, ?_, ?_⟩
  · rw [hvmpu]
    exact h.granular.update fun hvalid => MpeState.noConfusion hvalid
  · rw [hvmpu]
    exact h.separate.update fun hvalid => MpeState.noConfusion hvalid
  · rw [hphys, hmpu.unmap _ _ hmem, hvmpu, hregions, h.phys]
  · rw [hvmpu, hregions]
  · rw [MemState.removeRegion, if_pos hstate]
    rfl

/-- Regions that are apart are mapped one after the other. -/
theorem Holds.insertAll {regs : List MpRegion} (h : s.Holds held) (hmpu : mpu.Keeps held)
    (hroom : regs.length ≤ s.vmpu.freeEntries.card) (hwf : ∀ r ∈ regs, r.WellFormed)
    (hapart : ∀ r ∈ regs, ∀ q ∈ s.vmpu.regions, r.Apart q)
    (hpairwise : regs.Pairwise MpRegion.Apart) :
    (insertAll mpu .hyp s regs).Holds held ∧
      (insertAll mpu .hyp s regs).vmpu.regions =
        Run.exec applyMsg s.vmpu.regions (regs.map fun r => (.insertRegion, r)) ∧
      (insertAll mpu .hyp s regs).broadcasts =
        s.broadcasts ++ regs.map fun r => (.insertRegion, r) := by
  induction regs generalizing s with
  | nil => exact ⟨h, rfl, (List.append_nil _).symm⟩
  | cons mpr regs ih =>
      rw [List.forall_mem_cons] at hwf hapart
      rw [List.pairwise_cons] at hpairwise
      rw [List.length_cons] at hroom
      obtain ⟨i, hfree, hvmpu, hbroadcasts, hholds, hregions⟩ :=
        h.allocateInsert hmpu (by omega) hwf.1 hapart.1 true
      have hcard : (MemState.allocateInsert mpu .hyp s mpr true).2.vmpu.freeEntries.card + 1 =
          s.vmpu.freeEntries.card := by
        rw [hvmpu, Vmpu.freeEntries_setEntry]
        refine Finset.card_erase_add_one ?_
        exact Vmpu.mem_freeEntries.mpr (Vmpu.findFree_eq_some hfree)
      obtain ⟨hholds, hregions', hbroadcasts'⟩ := ih hholds (by omega) hwf.2 (fun r hr q hq => by
        rw [hregions] at hq
        rcases Finset.mem_insert.mp hq with rfl | hq
        · exact (hpairwise.1 r hr).symm
        · exact hapart.2 r hr q hq) hpairwise.2
      refine ⟨hholds, ?_, ?_⟩
      · exact hregions'.trans (by rw [hregions]; rfl)
      · exact hbroadcasts'.trans (by rw [hbroadcasts]; simp)

section Steps

variable {vaddr : Addr} {size : SizeT}

/-- `mem_map` of a region that is apart from the others. -/
theorem Holds.map (h : s.Holds held) (hmpu : mpu.Keeps held)
    (hroom : 0 < s.vmpu.freeEntries.card) (hwf : mpr.WellFormed)
    (hapart : ∀ q ∈ s.vmpu.regions, mpr.Apart q) (broadcast : Bool) :
    (s.step mpu .hyp (.map mpr broadcast)).Holds held ∧
      (s.step mpu .hyp (.map mpr broadcast)).vmpu.regions =
        applyMsg s.vmpu.regions (.insertRegion, mpr) ∧
      (s.step mpu .hyp (.map mpr broadcast)).broadcasts =
        s.broadcasts ++ if broadcast then [(.insertRegion, mpr)] else [] := by
  have hpos : mpr.size ≠ 0#64 := by
    intro hzero
    have hsize := hwf.pos
    rw [hzero] at hsize
    exact absurd hsize (lt_irrefl 0)
  have hdvd : ¬ mpr.size.toNat % mpuGranularity ≠ 0 :=
    not_not_intro (Nat.mod_eq_zero_of_dvd hwf.size_dvd)
  have hfind : s.vmpu.findOverlappingRegion mpr = none := by
    rw [Vmpu.findOverlappingRegion_eq_none_iff]
    intro i hi
    rw [Bool.eq_false_iff, Ne, memRegionsOverlap_iff hwf (h.granular i hi)]
    exact fun hwithin =>
      hwithin.not_apart hwf (hapart _ (Vmpu.mem_regions.mpr ⟨i, hi, rfl⟩))
  obtain ⟨i, -, -, hbroadcasts, hholds, hregions⟩ :=
    h.allocateInsert hmpu hroom hwf hapart broadcast
  have hstep : s.step mpu .hyp (.map mpr broadcast) =
      (MemState.allocateInsert mpu .hyp s mpr broadcast).2 := by
    rw [step, memMap, if_neg hpos, if_neg hdvd, hfind]
    rfl
  rw [hstep]
  exact ⟨hholds, hregions, hbroadcasts⟩

theorem Holds.unmapRange_of_forall (h : s.Holds held) (mpu : PhysMpu P)
    (hrange : (MpRegion.ofRange vaddr size).WellFormed)
    (hnot : ∀ q ∈ s.vmpu.regions, ¬ (MpRegion.ofRange vaddr size).Within q) (broadcast : Bool) :
    s.step mpu .hyp (.unmapRange vaddr size broadcast) = s := by
  have hpos : size ≠ 0#64 := by
    rintro rfl
    exact absurd hrange.pos (lt_irrefl 0)
  have hfind : s.vmpu.findOverlappingRegion (MpRegion.ofRange vaddr size) = none := by
    rw [Vmpu.findOverlappingRegion_eq_none_iff]
    intro i hi
    rw [Bool.eq_false_iff, Ne, memRegionsOverlap_iff hrange (h.granular i hi)]
    exact hnot _ (Vmpu.mem_regions.mpr ⟨i, hi, rfl⟩)
  rw [step, memUnmapRange, unmapLoop, if_neg hpos, hfind]
  rfl

def unmapMsgs (e : MpRegion) (vaddr : Addr) (size : SizeT) : List ShareMsg :=
  (.removeRegion, e) :: (pieces e vaddr size).map fun p => (.insertRegion, p)

theorem length_pieces_le (e : MpRegion) (vaddr : Addr) (size : SizeT) :
    (pieces e vaddr size).length ≤ 2 := by
  rw [pieces]
  split <;> split <;> simp

/-- `mem_unmap_range` of a range that lies within a region puts the pieces in its place. -/
theorem Holds.unmapRange (h : s.Holds held) (hmpu : mpu.Keeps held)
    (hroom : 0 < s.vmpu.freeEntries.card)
    (hrange : (MpRegion.ofRange vaddr size).WellFormed) {e : MpRegion}
    (he : e ∈ s.vmpu.regions) (hwithin : (MpRegion.ofRange vaddr size).Within e)
    (broadcast : Bool) :
    (s.step mpu .hyp (.unmapRange vaddr size broadcast)).Holds held ∧
      (s.step mpu .hyp (.unmapRange vaddr size broadcast)).vmpu.regions =
        Run.exec applyMsg s.vmpu.regions (unmapMsgs e vaddr size) ∧
      (s.step mpu .hyp (.unmapRange vaddr size broadcast)).broadcasts =
        s.broadcasts ++ unmapMsgs e vaddr size := by
  have hpos : size ≠ 0#64 := by
    rintro rfl
    exact absurd hrange.pos (lt_irrefl 0)
  -- The entry that is found is the one with the region.
  obtain ⟨j, hj, rfl⟩ := Vmpu.mem_regions.mp he
  have hfind : s.vmpu.findOverlappingRegion (MpRegion.ofRange vaddr size) = some j := by
    cases hfind : s.vmpu.findOverlappingRegion (MpRegion.ofRange vaddr size) with
    | none =>
        have hnone := Vmpu.findOverlappingRegion_eq_none_iff.mp hfind j hj
        rw [Bool.eq_false_iff] at hnone
        exact absurd ((memRegionsOverlap_iff hrange (h.granular j hj)).mpr hwithin) hnone
    | some i =>
        obtain ⟨hi, hwithin'⟩ := within_of_find h.granular hrange hfind
        by_contra hij
        have hapart := h.separate i j (fun heq => hij (heq ▸ rfl)) hi hj
        have hrange' := (hwithin'.apart hapart).symm
        exact hwithin.not_apart hrange hrange'.symm
  have hreg := h.granular j hj
  obtain ⟨hholds, hregions, hbroadcasts⟩ := h.removeRegion hmpu hj
  have hroom' : (pieces (s.vmpu j).region vaddr size).length ≤
      (MemState.removeRegion mpu .hyp s j true).vmpu.freeEntries.card := by
    have hnot : j ∉ s.vmpu.freeEntries := by
      intro hmem
      have hstate : (s.vmpu j).state = .valid := hj
      simp [Vmpu.mem_freeEntries, hstate] at hmem
    rw [vmpu_removeRegion hj, Vmpu.freeEntries_freeEntry, Finset.card_insert_of_notMem hnot]
    have hle := length_pieces_le (s.vmpu j).region vaddr size
    omega
  obtain ⟨hholds', hregions', hbroadcasts'⟩ := hholds.insertAll hmpu hroom'
    (fun p hp => (mem_pieces hreg hrange hwithin hp).1)
    (fun p hp q hq => by
      rw [hregions, Finset.mem_erase] at hq
      obtain ⟨i, hi, rfl⟩ := Vmpu.mem_regions.mp hq.2
      have hij : j ≠ i := fun heq => hq.1 (heq ▸ rfl)
      exact (mem_pieces hreg hrange hwithin hp).2.1.apart (h.separate j i hij hj hi))
    (pieces_pairwise hreg hrange hwithin)
  rw [← unmapEntry_eq] at hholds' hregions' hbroadcasts'
  have hregions'' : (unmapEntry mpu .hyp s vaddr size j).vmpu.regions =
      Run.exec applyMsg s.vmpu.regions (unmapMsgs (s.vmpu j).region vaddr size) := by
    rw [hregions', hregions]
    rfl
  -- No other entry has the range, so the loop ends after one round.
  have hnone : (unmapEntry mpu .hyp s vaddr size j).vmpu.findOverlappingRegion
      (MpRegion.ofRange vaddr size) = none := by
    rw [Vmpu.findOverlappingRegion_eq_none_iff]
    intro i hi
    rw [Bool.eq_false_iff, Ne, memRegionsOverlap_iff hrange (hholds'.granular i hi)]
    intro hwithin'
    have hmem := Vmpu.mem_regions.mpr ⟨i, hi, rfl⟩
    rw [hregions'] at hmem
    rcases mem_exec_applyMsg hmem with hmem | hmem
    · rw [hregions, Finset.mem_erase] at hmem
      obtain ⟨k, hk, heq⟩ := Vmpu.mem_regions.mp hmem.2
      have hjk : j ≠ k := by
        rintro rfl
        exact hmem.1 heq.symm
      have hapart := h.separate j k hjk hj hk
      rw [heq] at hapart
      exact hwithin'.not_apart hrange (hwithin.apart hapart)
    · rw [List.mem_map] at hmem
      obtain ⟨p, hp, heq⟩ := hmem
      cases heq
      exact not_within_piece hreg hrange hwithin hp hwithin'
  have hstep : s.step mpu .hyp (.unmapRange vaddr size broadcast) =
      unmapEntry mpu .hyp s vaddr size j := by
    rw [step, memUnmapRange, unmapLoop, if_neg hpos, hfind]
    dsimp only
    rw [unmapLoop, hnone]
    split <;> rfl
  rw [hstep]
  refine ⟨hholds', hregions'', ?_⟩
  rw [hbroadcasts', hbroadcasts, unmapMsgs, List.append_assoc]
  rfl

end Steps

end MemState

end BaoHypervisor
