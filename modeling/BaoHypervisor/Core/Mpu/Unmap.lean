import BaoHypervisor.Core.Mpu.Disjoint

/-!
# What unmapping a range does to an address space

`mem_unmap_range` looks for one region that `range_in_range` says holds the whole range, takes
it out and puts back what lies beside the range. When it finds none it stops, so a range that
is spread over several regions, or that is only mapped in part, stays as it is. Of a region
that reaches the end of the address space nothing is kept above the range, since its limit has
wrapped around, and the saturated limits of `range_in_range` let a region pass that ends one
address short of a range at the end.
-/

namespace BaoHypervisor

namespace MpRegion

variable {r q : MpRegion}

/-- A range at the end of the address space, and a region that ends one address short of it.
The saturated limits are the same. -/
def EndsShort (r q : MpRegion) : Prop :=
  r.limit = 2 ^ 64 ∧ q.base.toNat ≤ r.base.toNat ∧ q.limit = 2 ^ 64 - 1

instance (r q : MpRegion) : Decidable (r.EndsShort q) := inferInstanceAs (Decidable (_ ∧ _))

theorem memRegionsOverlap_iff_of_le (hr : r.limit ≤ 2 ^ 64) (hq : q.limit ≤ 2 ^ 64) :
    memRegionsOverlap r q = true ↔ r.Within q ∨ r.EndsShort q := by
  rw [memRegionsOverlap, rangeInRange_iff]
  simp only [Within, EndsShort, limit] at *
  omega

end MpRegion

namespace Vmpu

variable {vmpu : Vmpu} {i : Fin vmpuNumEntries} {range : MpRegion}

/-- The regions of the valid entries are ranges of the address space, and no two of them have
an address in common. -/
structure Laid (vmpu : Vmpu) : Prop where
  limit_le : ∀ i, vmpu.Valid i → (vmpu i).region.limit ≤ 2 ^ 64
  disjoint : ∀ i j, i ≠ j → vmpu.Valid i → vmpu.Valid j →
    ∀ a, ¬ ((vmpu i).region.Covers a ∧ (vmpu j).region.Covers a)

instance (vmpu : Vmpu) : Decidable vmpu.Separate :=
  inferInstanceAs (Decidable (∀ i j, i ≠ j → vmpu.Valid i → vmpu.Valid j → _))

theorem Separate.laid (h : vmpu.Separate)
    (hle : ∀ i, vmpu.Valid i → (vmpu i).region.limit ≤ 2 ^ 64) : vmpu.Laid := by
  refine ⟨hle, fun i j hij hi hj a hcovers => ?_⟩
  rcases h i j hij hi hj with hle | hle
  · exact absurd (hcovers.1.2.trans_le hle) (not_lt.mpr hcovers.2.1)
  · exact absurd (hcovers.2.2.trans_le hle) (not_lt.mpr hcovers.1.1)

/-- The address has the flags and the section of a valid entry. -/
def Maps (vmpu : Vmpu) (a : ℕ) (flags : MemFlags) (sec : AsSec) : Prop :=
  ∃ i, vmpu.Valid i ∧ (vmpu i).region.Covers a ∧ (vmpu i).region.memFlags = flags ∧
    (vmpu i).region.asSec = sec

/-- What `mem_unmap_range` asks of the table to do its work: there is nothing to unmap, or one
region has the whole range, and reaches the end of the address space with the range only, or
no region has an address of the range. A region that ends short of the range must not be taken
for one that has it. -/
def Unmaps (vmpu : Vmpu) (range : MpRegion) : Prop :=
  range.size = 0#64 ∨
    (∃ i, vmpu.Valid i ∧ range.Within (vmpu i).region ∧
      ((vmpu i).region.limit = 2 ^ 64 → range.limit = 2 ^ 64) ∧
      ∀ j, j < i → vmpu.Valid j → ¬ range.EndsShort (vmpu j).region) ∨
    ∀ i, vmpu.Valid i → ¬ range.EndsShort (vmpu i).region ∧
      ∀ a, ¬ (range.Covers a ∧ (vmpu i).region.Covers a)

theorem findOverlappingRegion_le {j : Fin vmpuNumEntries}
    (h : vmpu.findOverlappingRegion range = some i) (hj : vmpu.Valid j)
    (hoverlap : memRegionsOverlap range (vmpu j).region = true) : i ≤ j := by
  rw [findOverlappingRegion, List.find?_eq_some_iff_append] at h
  obtain ⟨-, before, after, hsplit, hbefore⟩ := h
  have hmem := List.mem_finRange j
  have hsorted := List.pairwise_lt_finRange vmpuNumEntries
  rw [hsplit] at hmem hsorted
  rcases List.mem_append.mp hmem with hmem | hmem
  · have hnot := hbefore j hmem
    have hstate : (vmpu j).state = .valid := hj
    simp [hstate, hoverlap] at hnot
  · rcases List.mem_cons.mp hmem with rfl | hmem
    · exact le_rfl
    · exact ((List.pairwise_cons.mp (List.pairwise_append.mp hsorted).2.1).1 j hmem).le

theorem exists_valid_setEntry {Q : MpRegion → Prop} {mpr : MpRegion} (h : ¬ vmpu.Valid i) :
    (∃ j, (vmpu.setEntry i mpr).Valid j ∧ Q (vmpu.setEntry i mpr j).region) ↔
      Q mpr ∨ ∃ j, vmpu.Valid j ∧ Q (vmpu j).region := by
  constructor
  · rintro ⟨j, hj, hQ⟩
    rcases valid_update hj with ⟨rfl, -⟩ | ⟨hji, hvalid⟩
    · rw [setEntry, Function.update_self] at hQ
      exact .inl hQ
    · rw [setEntry, Function.update_of_ne hji] at hQ
      exact .inr ⟨j, hvalid, hQ⟩
  · rintro (hQ | ⟨j, hj, hQ⟩)
    · refine ⟨i, ?_, ?_⟩
      · simp [Valid, setEntry]
      · rw [setEntry, Function.update_self]
        exact hQ
    · have hji : j ≠ i := fun heq => h (heq ▸ hj)
      refine ⟨j, ?_, ?_⟩
      · rw [Valid, setEntry, Function.update_of_ne hji]
        exact hj
      · rw [setEntry, Function.update_of_ne hji]
        exact hQ

theorem exists_valid_freeEntry {Q : MpRegion → Prop} :
    (∃ j, (vmpu.freeEntry i).Valid j ∧ Q (vmpu.freeEntry i j).region) ↔
      ∃ j, j ≠ i ∧ vmpu.Valid j ∧ Q (vmpu j).region := by
  constructor
  · rintro ⟨j, hj, hQ⟩
    rcases valid_update hj with ⟨-, hvalid⟩ | ⟨hji, hvalid⟩
    · cases hvalid
    · rw [freeEntry, Function.update_of_ne hji] at hQ
      exact ⟨j, hji, hvalid, hQ⟩
  · rintro ⟨j, hji, hj, hQ⟩
    refine ⟨j, ?_, ?_⟩
    · rw [Valid, freeEntry, Function.update_of_ne hji]
      exact hj
    · rw [freeEntry, Function.update_of_ne hji]
      exact hQ

end Vmpu

namespace MemState

variable {P : Type*} {mpu : PhysMpu P} {type : AsType} {s : MemState P}

/-- Each of the regions finds a free entry, and the physical MPU takes it. -/
def Taken (mpu : PhysMpu P) (type : AsType) : MemState P → List MpRegion → Prop
  | _, [] => True
  | s, mpr :: regs =>
      (allocateInsert mpu type s mpr true).1 = true ∧
        Taken mpu type (allocateInsert mpu type s mpr true).2 regs

instance decidableTaken (mpu : PhysMpu P) (type : AsType) :
    (s : MemState P) → (regs : List MpRegion) → Decidable (Taken mpu type s regs)
  | _, [] => inferInstanceAs (Decidable True)
  | s, mpr :: regs =>
      have := decidableTaken mpu type (allocateInsert mpu type s mpr true).2 regs
      inferInstanceAs (Decidable (_ ∧ Taken mpu type _ regs))

theorem vmpu_allocateInsert {mpr : MpRegion} {broadcast : Bool}
    (h : (allocateInsert mpu type s mpr broadcast).1 = true) :
    ∃ i, s.vmpu.findFree = some i ∧
      (allocateInsert mpu type s mpr broadcast).2.vmpu = s.vmpu.setEntry i mpr := by
  rcases allocateInsert_cases mpu type s mpr broadcast with ⟨hfail, -⟩ | ⟨-, hset⟩
  · rw [allocateInsert] at h
    cases hfree : s.vmpu.findFree with
    | none =>
        rw [hfree] at h
        cases h
    | some i =>
        have hmap := hfail.resolve_left (by simp [hfree])
        simp [hfree, insertRegion, hmap] at h
  · exact hset

theorem exists_valid_insertAll {Q : MpRegion → Prop} {regs : List MpRegion}
    (h : Taken mpu type s regs) :
    (∃ j, (insertAll mpu type s regs).vmpu.Valid j ∧
        Q ((insertAll mpu type s regs).vmpu j).region) ↔
      (∃ r ∈ regs, Q r) ∨ ∃ j, s.vmpu.Valid j ∧ Q (s.vmpu j).region := by
  induction regs generalizing s with
  | nil => simp [insertAll]
  | cons mpr regs ih =>
      obtain ⟨i, hfree, hvmpu⟩ := vmpu_allocateInsert h.1
      rw [insertAll, List.foldl_cons, ← insertAll, ih h.2, hvmpu,
        Vmpu.exists_valid_setEntry (Vmpu.not_valid_of_findFree hfree), List.exists_mem_cons_iff,
        or_left_comm, or_assoc]

variable {vaddr : Addr} {size : SizeT} {i : Fin vmpuNumEntries}

theorem exists_valid_unmapEntry {Q : MpRegion → Prop} (hi : s.vmpu.Valid i)
    (h : Taken mpu type (removeRegion mpu type s i true)
      (pieces (s.vmpu i).region vaddr size)) :
    (∃ j, (unmapEntry mpu type s vaddr size i).vmpu.Valid j ∧
        Q ((unmapEntry mpu type s vaddr size i).vmpu j).region) ↔
      (∃ p ∈ pieces (s.vmpu i).region vaddr size, Q p) ∨
        ∃ j, j ≠ i ∧ s.vmpu.Valid j ∧ Q (s.vmpu j).region := by
  rw [unmapEntry_eq, exists_valid_insertAll h, vmpu_removeRegion hi,
    Vmpu.exists_valid_freeEntry]

theorem mem_pieces_iff {reg p : MpRegion} :
    p ∈ pieces reg vaddr size ↔
      0#64 < topSize reg vaddr size ∧
          p = { reg with base := vaddr + size, size := topSize reg vaddr size } ∨
        0#64 < bottomSize reg vaddr ∧ p = { reg with size := bottomSize reg vaddr } := by
  rw [pieces, List.mem_append]
  split <;> split <;> simp_all

/-- The pieces are what the range leaves of a region, when the limit of the region has not
wrapped around. -/
theorem exists_mem_pieces_iff {reg : MpRegion} {flags : MemFlags} {sec : AsSec} {a : ℕ}
    (hle : reg.limit ≤ 2 ^ 64) (hwithin : (MpRegion.ofRange vaddr size).Within reg)
    (hend : reg.limit = 2 ^ 64 → (MpRegion.ofRange vaddr size).limit = 2 ^ 64) :
    (∃ p ∈ pieces reg vaddr size, p.Covers a ∧ p.memFlags = flags ∧ p.asSec = sec) ↔
      (reg.Covers a ∧ ¬ (MpRegion.ofRange vaddr size).Covers a) ∧
        reg.memFlags = flags ∧ reg.asSec = sec := by
  have htop := toNat_topSize_of_le hle (hwithin.2.trans hle) hwithin
  have hbottom := toNat_bottomSize hwithin
  have hbase : reg.base.toNat ≤ vaddr.toNat := hwithin.1
  have hlimit := hwithin.2
  have hreglim : reg.limit = reg.base.toNat + reg.size.toNat := rfl
  have hlim : (MpRegion.ofRange vaddr size).limit = vaddr.toNat + size.toNat := rfl
  have hsum : (vaddr + size).toNat = (vaddr.toNat + size.toNat) % 2 ^ 64 := BitVec.toNat_add _ _
  constructor
  · rintro ⟨p, hp, hcovers, hflags⟩
    rcases mem_pieces_iff.mp hp with ⟨hpos, rfl⟩ | ⟨hpos, rfl⟩
    · refine ⟨?_, hflags⟩
      rw [zero_lt_iff] at hpos
      simp only [MpRegion.Covers, MpRegion.limit] at hcovers ⊢
      split at htop <;> omega
    · refine ⟨?_, hflags⟩
      simp only [MpRegion.Covers, MpRegion.limit] at hcovers ⊢
      omega
  · rintro ⟨⟨hcovers, hnot⟩, hflags⟩
    simp only [MpRegion.Covers] at hcovers hnot
    rcases lt_or_ge a vaddr.toNat with hlt | hge
    · refine ⟨_, mem_pieces_iff.mpr (.inr ⟨?_, rfl⟩), ?_, hflags⟩
      · rw [zero_lt_iff]
        omega
      · simp only [MpRegion.Covers, MpRegion.limit]
        omega
    · refine ⟨_, mem_pieces_iff.mpr (.inl ⟨?_, rfl⟩), ?_, hflags⟩
      · rw [zero_lt_iff]
        split at htop <;> omega
      · simp only [MpRegion.Covers, MpRegion.limit]
        split at htop <;> omega

theorem overlapSize_of_within {reg : MpRegion} (hle : reg.limit ≤ 2 ^ 64)
    (hwithin : (MpRegion.ofRange vaddr size).Within reg)
    (hend : reg.limit = 2 ^ 64 → (MpRegion.ofRange vaddr size).limit = 2 ^ 64) :
    reg.size - topSize reg vaddr size - bottomSize reg vaddr = size := by
  have htop := toNat_topSize_of_le hle (hwithin.2.trans hle) hwithin
  have hbottom := toNat_bottomSize hwithin
  have hbase : reg.base.toNat ≤ vaddr.toNat := hwithin.1
  have hlimit := hwithin.2
  have hreglim : reg.limit = reg.base.toNat + reg.size.toNat := rfl
  have hlim : (MpRegion.ofRange vaddr size).limit = vaddr.toNat + size.toNat := rfl
  apply BitVec.eq_of_toNat_eq
  rw [BitVec.toNat_sub, BitVec.toNat_sub]
  have hsize := reg.size.isLt
  have hsize' := size.isLt
  split at htop <;> omega

/-- For a region that ends short of the range, the size that is taken out comes out right by
wrap-around. -/
theorem overlapSize_of_endsShort {reg : MpRegion}
    (hshort : (MpRegion.ofRange vaddr size).EndsShort reg) :
    reg.size - topSize reg vaddr size - bottomSize reg vaddr = size := by
  obtain ⟨hlimit, hbase, hreglimit⟩ := hshort
  have hlim : (MpRegion.ofRange vaddr size).limit = vaddr.toNat + size.toNat := rfl
  have hreglim : reg.limit = reg.base.toNat + reg.size.toNat := rfl
  have hbase' : reg.base.toNat ≤ vaddr.toNat := hbase
  have hsum : (reg.base + reg.size).toNat = (reg.base.toNat + reg.size.toNat) % 2 ^ 64 :=
    BitVec.toNat_add _ _
  have hsum' : (vaddr + size).toNat = (vaddr.toNat + size.toNat) % 2 ^ 64 :=
    BitVec.toNat_add _ _
  have htop : topSize reg vaddr size = reg.base + reg.size - (vaddr + size) := by
    rw [topSize, if_neg]
    rw [BitVec.le_def]
    omega
  have hbottom : (bottomSize reg vaddr).toNat = vaddr.toNat - reg.base.toNat := by
    rw [bottomSize]
    split
    · rename_i h
      rw [BitVec.le_def] at h
      rw [show (0#64).toNat = 0 from rfl]
      omega
    · rw [BitVec.toNat_sub]
      have hlt := vaddr.isLt
      omega
  apply BitVec.eq_of_toNat_eq
  rw [htop, BitVec.toNat_sub, BitVec.toNat_sub, BitVec.toNat_sub]
  have hsize := reg.size.isLt
  have hsize' := size.isLt
  have hlt := vaddr.isLt
  omega

/-- The call returns, no valid entry has an address of the range any more, every other address
has the flags and the section it had, and the call returns true if and only if all of the range
was mapped. -/
def UnmapLaw (mpu : PhysMpu P) (type : AsType) (s : MemState P) (vaddr : Addr) (size : SizeT)
    (broadcast : Bool) : Prop :=
  ∃ unmapped s', memUnmapRange mpu type s vaddr size broadcast = some (unmapped, s') ∧
    (∀ a, (MpRegion.ofRange vaddr size).Covers a → ∀ flags sec, ¬ s'.vmpu.Maps a flags sec) ∧
    (∀ a, ¬ (MpRegion.ofRange vaddr size).Covers a →
      ∀ flags sec, s'.vmpu.Maps a flags sec ↔ s.vmpu.Maps a flags sec) ∧
    (unmapped = true ↔
      ∀ a, (MpRegion.ofRange vaddr size).Covers a → ∃ flags sec, s.vmpu.Maps a flags sec)

variable {broadcast : Bool}

/-- The law for a call that returns. -/
theorem unmapLaw_iff {out : Bool × MemState P}
    (h : memUnmapRange mpu type s vaddr size broadcast = some out) :
    UnmapLaw mpu type s vaddr size broadcast ↔
      (∀ a, (MpRegion.ofRange vaddr size).Covers a →
        ∀ flags sec, ¬ out.2.vmpu.Maps a flags sec) ∧
      (∀ a, ¬ (MpRegion.ofRange vaddr size).Covers a →
        ∀ flags sec, out.2.vmpu.Maps a flags sec ↔ s.vmpu.Maps a flags sec) ∧
      (out.1 = true ↔
        ∀ a, (MpRegion.ofRange vaddr size).Covers a → ∃ flags sec, s.vmpu.Maps a flags sec) := by
  constructor
  · rintro ⟨unmapped, s', heq, hlaw⟩
    rw [h] at heq
    cases heq
    exact hlaw
  · intro hlaw
    exact ⟨out.1, out.2, h, hlaw⟩

theorem maps_of_covers {vmpu : Vmpu} {i : Fin vmpuNumEntries} {a : ℕ} (hi : vmpu.Valid i)
    (ha : (vmpu i).region.Covers a) :
    vmpu.Maps a (vmpu i).region.memFlags (vmpu i).region.asSec :=
  ⟨i, hi, ha, rfl, rfl⟩

theorem not_covers_of_size_eq_zero (vaddr : Addr) (h : size = 0#64) (a : ℕ) :
    ¬ (MpRegion.ofRange vaddr size).Covers a := by
  subst h
  rintro ⟨hle, hlt⟩
  exact absurd (hle.trans_lt hlt) (lt_irrefl _)

theorem unmapLaw_of_size_eq_zero (h : size = 0#64) :
    UnmapLaw mpu type s vaddr size broadcast := by
  have hcall : memUnmapRange mpu type s vaddr size broadcast = some (true, s) := by
    rw [memUnmapRange, unmapLoop, if_pos h]
  rw [unmapLaw_iff hcall]
  have hnot := not_covers_of_size_eq_zero vaddr h
  refine ⟨fun a ha => absurd ha (hnot a), fun a _ flags sec => Iff.rfl, ?_⟩
  exact iff_of_true rfl fun a ha => absurd ha (hnot a)

theorem covers_base_of_ne_zero (vaddr : Addr) (h : size ≠ 0#64) :
    (MpRegion.ofRange vaddr size).Covers vaddr.toNat := by
  refine ⟨le_rfl, Nat.lt_add_of_pos_right ?_⟩
  exact Nat.pos_of_ne_zero fun hzero => h (BitVec.eq_of_toNat_eq hzero)

/-- When no entry passes the test, nothing is unmapped. -/
theorem unmapLaw_iff_of_find_eq_none (hsize : size ≠ 0#64)
    (hfind : s.vmpu.findOverlappingRegion (MpRegion.ofRange vaddr size) = none) :
    UnmapLaw mpu type s vaddr size broadcast ↔
      ∀ i, s.vmpu.Valid i →
        ∀ a, ¬ ((MpRegion.ofRange vaddr size).Covers a ∧ (s.vmpu i).region.Covers a) := by
  have hcall : memUnmapRange mpu type s vaddr size broadcast = some (false, s) := by
    rw [memUnmapRange, unmapLoop, if_neg hsize, hfind]
  rw [unmapLaw_iff hcall]
  constructor
  · rintro ⟨hrange, -, -⟩ i hi a ⟨ha, hia⟩
    exact hrange a ha _ _ (maps_of_covers hi hia)
  · intro hapart
    refine ⟨?_, fun a _ flags sec => Iff.rfl, ?_⟩
    · rintro a ha flags sec ⟨i, hi, hia, -⟩
      exact hapart i hi a ⟨ha, hia⟩
    · refine iff_of_false Bool.false_ne_true fun hall => ?_
      obtain ⟨-, -, i, hi, hia, -⟩ := hall _ (covers_base_of_ne_zero vaddr hsize)
      exact hapart i hi _ ⟨covers_base_of_ne_zero vaddr hsize, hia⟩

section Found

/-- The call after the entry it has found was taken apart, when the size that is taken out is
that of the range. -/
theorem memUnmapRange_eq_of_overlapSize (hsize : size ≠ 0#64)
    (hfind : s.vmpu.findOverlappingRegion (MpRegion.ofRange vaddr size) = some i)
    (hoverlap : (s.vmpu i).region.size - topSize (s.vmpu i).region vaddr size -
      bottomSize (s.vmpu i).region vaddr = size) :
    memUnmapRange mpu type s vaddr size broadcast =
      some (true, unmapEntry mpu type s vaddr size i) := by
  rw [memUnmapRange, unmapLoop, if_neg hsize, hfind]
  dsimp only
  rw [hoverlap, BitVec.sub_self, unmapLoop, if_pos rfl]

/-- The range lies within the region that was found, and what lies beside it is kept. -/
theorem unmapLaw_of_within (hlaid : s.vmpu.Laid) (hsize : size ≠ 0#64)
    (hfind : s.vmpu.findOverlappingRegion (MpRegion.ofRange vaddr size) = some i)
    (htaken : Taken mpu type (removeRegion mpu type s i true)
      (pieces (s.vmpu i).region vaddr size))
    (hwithin : (MpRegion.ofRange vaddr size).Within (s.vmpu i).region)
    (hend : (s.vmpu i).region.limit = 2 ^ 64 → (MpRegion.ofRange vaddr size).limit = 2 ^ 64) :
    UnmapLaw mpu type s vaddr size broadcast := by
  obtain ⟨hi, -⟩ := Vmpu.findOverlappingRegion_eq_some hfind
  have hle := hlaid.limit_le i hi
  rw [unmapLaw_iff (memUnmapRange_eq_of_overlapSize hsize hfind
    (overlapSize_of_within hle hwithin hend))]
  have hcovers : ∀ a, (MpRegion.ofRange vaddr size).Covers a → (s.vmpu i).region.Covers a :=
    fun a ha => ⟨hwithin.1.trans ha.1, ha.2.trans_le hwithin.2⟩
  have hmaps : ∀ a flags sec, (unmapEntry mpu type s vaddr size i).vmpu.Maps a flags sec ↔
      (((s.vmpu i).region.Covers a ∧ ¬ (MpRegion.ofRange vaddr size).Covers a) ∧
          (s.vmpu i).region.memFlags = flags ∧ (s.vmpu i).region.asSec = sec) ∨
        ∃ j, j ≠ i ∧ s.vmpu.Valid j ∧ (s.vmpu j).region.Covers a ∧
          (s.vmpu j).region.memFlags = flags ∧ (s.vmpu j).region.asSec = sec := by
    intro a flags sec
    rw [← exists_mem_pieces_iff hle hwithin hend]
    exact exists_valid_unmapEntry
      (Q := fun r => r.Covers a ∧ r.memFlags = flags ∧ r.asSec = sec) hi htaken
  refine ⟨?_, ?_, iff_of_true rfl fun a ha => ⟨_, _, maps_of_covers hi (hcovers a ha)⟩⟩
  · intro a ha flags sec h
    rcases (hmaps a flags sec).mp h with ⟨⟨-, hnot⟩, -⟩ | ⟨j, hji, hj, hja, -⟩
    · exact hnot ha
    · exact hlaid.disjoint j i hji hj hi a ⟨hja, hcovers a ha⟩
  · intro a ha flags sec
    rw [hmaps]
    constructor
    · rintro (⟨⟨hia, -⟩, hflags⟩ | ⟨j, -, hj⟩)
      · exact ⟨i, hi, hia, hflags⟩
      · exact ⟨j, hj⟩
    · rintro ⟨j, hj, hja, hflags⟩
      by_cases hji : j = i
      · subst hji
        exact .inl ⟨⟨hja, ha⟩, hflags⟩
      · exact .inr ⟨j, hji, hj, hja, hflags⟩

/-- Of a region that reaches the end of the address space the part above the range is lost. -/
theorem not_unmapLaw_of_lost (hlaid : s.vmpu.Laid) (hsize : size ≠ 0#64)
    (hfind : s.vmpu.findOverlappingRegion (MpRegion.ofRange vaddr size) = some i)
    (htaken : Taken mpu type (removeRegion mpu type s i true)
      (pieces (s.vmpu i).region vaddr size))
    (hwithin : (MpRegion.ofRange vaddr size).Within (s.vmpu i).region)
    (hreg : (s.vmpu i).region.limit = 2 ^ 64)
    (hrange : (MpRegion.ofRange vaddr size).limit < 2 ^ 64) :
    ¬ UnmapLaw mpu type s vaddr size broadcast := by
  obtain ⟨hi, -⟩ := Vmpu.findOverlappingRegion_eq_some hfind
  have htop := toNat_topSize_of_le hreg.le hrange.le hwithin
  rw [if_pos hreg] at htop
  have hbottom := toNat_bottomSize hwithin
  have hbase := covers_base_of_ne_zero vaddr hsize
  have hcovers : (s.vmpu i).region.Covers vaddr.toNat :=
    ⟨hwithin.1, hbase.2.trans_le hwithin.2⟩
  have hpiece : ∀ p ∈ pieces (s.vmpu i).region vaddr size, p.limit ≤ vaddr.toNat := by
    intro p hp
    rcases mem_pieces_iff.mp hp with ⟨hpos, -⟩ | ⟨-, rfl⟩
    · rw [zero_lt_iff, htop] at hpos
      exact absurd hpos (lt_irrefl 0)
    · have hle : (s.vmpu i).region.base.toNat ≤ vaddr.toNat := hwithin.1
      simp only [MpRegion.limit, hbottom]
      omega
  have hnone : (unmapEntry mpu type s vaddr size i).vmpu.findOverlappingRegion
      (MpRegion.ofRange vaddr size) = none := by
    rw [Vmpu.findOverlappingRegion_eq_none_iff]
    intro j hj
    rw [Bool.eq_false_iff]
    intro hoverlap
    have hexists := (exists_valid_unmapEntry
      (Q := fun r => memRegionsOverlap (MpRegion.ofRange vaddr size) r = true) hi htaken).mp
      ⟨j, hj, hoverlap⟩
    rcases hexists with ⟨p, hp, hoverlap⟩ | ⟨k, hki, hk, hoverlap⟩
    · have hlt := vaddr.isLt
      have hple := hpiece p hp
      rw [MpRegion.memRegionsOverlap_iff_of_le hrange.le (hple.trans hlt.le)] at hoverlap
      rcases hoverlap with hoverlap | hshort
      · exact absurd (hbase.2.trans_le hoverlap.2) (not_lt.mpr hple)
      · exact hrange.ne hshort.1
    · rw [MpRegion.memRegionsOverlap_iff_of_le hrange.le (hlaid.limit_le k hk)] at hoverlap
      rcases hoverlap with hoverlap | hshort
      · exact hlaid.disjoint k i hki hk hi _
          ⟨⟨hoverlap.1, hbase.2.trans_le hoverlap.2⟩, hcovers⟩
      · exact hrange.ne hshort.1
  obtain ⟨unmapped, hcall⟩ : ∃ unmapped, memUnmapRange mpu type s vaddr size broadcast =
      some (unmapped, unmapEntry mpu type s vaddr size i) := by
    rw [memUnmapRange, unmapLoop, if_neg hsize, hfind]
    dsimp only
    rw [unmapLoop, hnone]
    split
    · exact ⟨true, rfl⟩
    · exact ⟨false, rfl⟩
  rw [unmapLaw_iff hcall]
  rintro ⟨-, houtside, -⟩
  -- The first address above the range was mapped, and it is not any more.
  have habove : (s.vmpu i).region.Covers (MpRegion.ofRange vaddr size).limit :=
    ⟨hwithin.1.trans (Nat.le_add_right _ _), hreg ▸ hrange⟩
  have hnot : ¬ (MpRegion.ofRange vaddr size).Covers (MpRegion.ofRange vaddr size).limit :=
    fun h => absurd h.2 (lt_irrefl _)
  have hmaps := (houtside _ hnot _ _).mpr (maps_of_covers hi habove)
  rcases (exists_valid_unmapEntry
    (Q := fun r => r.Covers _ ∧ r.memFlags = _ ∧ r.asSec = _) hi htaken).mp hmaps with
    ⟨p, hp, ⟨-, hlt⟩, -⟩ | ⟨k, hki, hk, hka, -⟩
  · exact absurd (hlt.trans_le (hpiece p hp)) (not_lt.mpr (Nat.le_add_right _ _))
  · exact hlaid.disjoint k i hki hk hi _ ⟨hka, habove⟩

/-- A region that ends short of the range is taken for one that has it, and the call returns
true. If the last address was mapped, by another region, it still is. -/
theorem not_unmapLaw_of_endsShort (hsize : size ≠ 0#64)
    (hfind : s.vmpu.findOverlappingRegion (MpRegion.ofRange vaddr size) = some i)
    (htaken : Taken mpu type (removeRegion mpu type s i true)
      (pieces (s.vmpu i).region vaddr size))
    (hshort : (MpRegion.ofRange vaddr size).EndsShort (s.vmpu i).region) :
    ¬ UnmapLaw mpu type s vaddr size broadcast := by
  obtain ⟨hi, -⟩ := Vmpu.findOverlappingRegion_eq_some hfind
  rw [unmapLaw_iff (memUnmapRange_eq_of_overlapSize hsize hfind
    (overlapSize_of_endsShort hshort))]
  rintro ⟨hrange, -, hret⟩
  have hlast : (MpRegion.ofRange vaddr size).Covers (2 ^ 64 - 1) := by
    have hlt := vaddr.isLt
    refine ⟨Nat.le_sub_one_of_lt hlt, ?_⟩
    rw [hshort.1]
    exact Nat.sub_one_lt (Nat.two_pow_pos 64).ne'
  obtain ⟨flags, sec, j, hj, hja, hflags⟩ := hret.mp rfl _ hlast
  have hji : j ≠ i := by
    rintro rfl
    exact absurd hja.2 (hshort.2.2 ▸ lt_irrefl _)
  exact hrange _ hlast flags sec ((exists_valid_unmapEntry
    (Q := fun r => r.Covers _ ∧ r.memFlags = _ ∧ r.asSec = _) hi htaken).mpr
    (.inr ⟨j, hji, hj, hja, hflags⟩))

end Found

/-- `mem_unmap_range` does what is asked if and only if there is nothing to unmap, or one region
has the whole range and does not lose its upper part, or no region has an address of it. -/
theorem memUnmapRange_law_iff (mpu : PhysMpu P) (type : AsType) (s : MemState P)
    (vaddr : Addr) (size : SizeT) (broadcast : Bool) (hlaid : s.vmpu.Laid)
    (hrange : (MpRegion.ofRange vaddr size).limit ≤ 2 ^ 64)
    (htaken : ∀ i, s.vmpu.findOverlappingRegion (MpRegion.ofRange vaddr size) = some i →
      Taken mpu type (removeRegion mpu type s i true) (pieces (s.vmpu i).region vaddr size)) :
    UnmapLaw mpu type s vaddr size broadcast ↔
      s.vmpu.Unmaps (MpRegion.ofRange vaddr size) := by
  by_cases hsize : size = 0#64
  · exact iff_of_true (unmapLaw_of_size_eq_zero hsize) (.inl hsize)
  have hoverlap : ∀ j, s.vmpu.Valid j →
      (memRegionsOverlap (MpRegion.ofRange vaddr size) (s.vmpu j).region = true ↔
        (MpRegion.ofRange vaddr size).Within (s.vmpu j).region ∨
          (MpRegion.ofRange vaddr size).EndsShort (s.vmpu j).region) :=
    fun j hj => MpRegion.memRegionsOverlap_iff_of_le hrange (hlaid.limit_le j hj)
  have hbase := covers_base_of_ne_zero vaddr hsize
  cases hfind : s.vmpu.findOverlappingRegion (MpRegion.ofRange vaddr size) with
  | none =>
      rw [unmapLaw_iff_of_find_eq_none hsize hfind]
      rw [Vmpu.findOverlappingRegion_eq_none_iff] at hfind
      constructor
      · intro hapart
        refine .inr (.inr fun j hj => ⟨fun hshort => ?_, hapart j hj⟩)
        exact absurd ((hoverlap j hj).mpr (.inr hshort)) (Bool.eq_false_iff.mp (hfind j hj))
      · rintro (hzero | ⟨j, hj, hwithin, -⟩ | hapart)
        · exact absurd hzero hsize
        · exact absurd ((hoverlap j hj).mpr (.inl hwithin)) (Bool.eq_false_iff.mp (hfind j hj))
        · exact fun j hj => (hapart j hj).2
  | some i =>
      obtain ⟨hi, hoverlap'⟩ := Vmpu.findOverlappingRegion_eq_some hfind
      have hfirst : ∀ j, s.vmpu.Valid j → (MpRegion.ofRange vaddr size).Within (s.vmpu j).region ∨
          (MpRegion.ofRange vaddr size).EndsShort (s.vmpu j).region → i ≤ j :=
        fun j hj h => Vmpu.findOverlappingRegion_le hfind hj ((hoverlap j hj).mpr h)
      by_cases hwithin : (MpRegion.ofRange vaddr size).Within (s.vmpu i).region
      · have hcovers : (s.vmpu i).region.Covers vaddr.toNat :=
          ⟨hwithin.1, hbase.2.trans_le hwithin.2⟩
        by_cases hend : (s.vmpu i).region.limit = 2 ^ 64 →
            (MpRegion.ofRange vaddr size).limit = 2 ^ 64
        · refine iff_of_true
            (unmapLaw_of_within hlaid hsize hfind (htaken i hfind) hwithin hend) ?_
          refine .inr (.inl ⟨i, hi, hwithin, hend, fun j hji hj hshort => ?_⟩)
          exact absurd (hfirst j hj (.inr hshort)) (not_le.mpr hji)
        · obtain ⟨hreg, hne⟩ := Classical.not_imp.mp hend
          refine iff_of_false (not_unmapLaw_of_lost hlaid hsize hfind (htaken i hfind) hwithin
            hreg (lt_of_le_of_ne hrange hne)) ?_
          rintro (hzero | ⟨j, hj, hwithin', hend', -⟩ | hapart)
          · exact hsize hzero
          · by_cases hji : j = i
            · subst hji
              exact hend hend'
            · exact hlaid.disjoint j i hji hj hi _
                ⟨⟨hwithin'.1, hbase.2.trans_le hwithin'.2⟩, hcovers⟩
          · exact (hapart i hi).2 _ ⟨hbase, hcovers⟩
      · have hshort := ((hoverlap i hi).mp hoverlap').resolve_left hwithin
        refine iff_of_false (not_unmapLaw_of_endsShort hsize hfind (htaken i hfind) hshort) ?_
        rintro (hzero | ⟨j, hj, hwithin', -, hnone⟩ | hapart)
        · exact hsize hzero
        · have hij : i ≠ j := by
            rintro rfl
            exact hwithin hwithin'
          exact hnone i (lt_of_le_of_ne (hfirst j hj (.inl hwithin')) hij) hi hshort
        · exact (hapart i hi).1 hshort

def ofRegions (regs : List MpRegion) : MemState Unit :=
  ⟨fun i => (regs[i.val]?).elim ⟨.free, ⟨0#64, 0#64, .invalid, .unknown⟩⟩ (⟨.valid, ·⟩), (), []⟩

/-- A range over two regions that follow each other stays mapped. -/
theorem memUnmapRange_keeps_two_regions :
    ∃ s : MemState Unit, s.vmpu.Laid ∧
      (∀ i, s.vmpu.findOverlappingRegion (MpRegion.ofRange 0x1000#64 0x2000#64) = some i →
        Taken mapAll .hyp (removeRegion mapAll .hyp s i true)
          (pieces (s.vmpu i).region 0x1000#64 0x2000#64)) ∧
      ¬ UnmapLaw mapAll .hyp s 0x1000#64 0x2000#64 true := by
  have hfind : (ofRegions [⟨0x1000#64, 0x1000#64, .invalid, .hypGlobal⟩,
      ⟨0x2000#64, 0x1000#64, .invalid, .hypGlobal⟩]).vmpu.findOverlappingRegion
      (MpRegion.ofRange 0x1000#64 0x2000#64) = none := by decide +kernel
  refine ⟨ofRegions [⟨0x1000#64, 0x1000#64, .invalid, .hypGlobal⟩,
    ⟨0x2000#64, 0x1000#64, .invalid, .hypGlobal⟩], ?_, ?_, ?_⟩
  · exact Vmpu.Separate.laid (by decide +kernel) (by decide +kernel)
  · rw [hfind]
    exact fun i hi => absurd hi.symm (Option.some_ne_none i)
  · rw [unmapLaw_iff_of_find_eq_none (by decide) hfind]
    intro hapart
    refine hapart 0 (by decide) 0x1000 ?_
    simp only [MpRegion.Covers]
    decide

/-- A range in the middle of a region is unmapped, and the parts beside it stay. -/
theorem memUnmapRange_law_middle :
    UnmapLaw mapAll .hyp (ofRegions [⟨0x1000#64, 0x3000#64, .invalid, .hypGlobal⟩])
      0x2000#64 0x1000#64 true := by
  rw [memUnmapRange_law_iff]
  · exact .inr (.inl ⟨0, by decide, by decide, by decide, by decide⟩)
  · exact Vmpu.Separate.laid (by decide +kernel) (by decide +kernel)
  · decide
  · decide +kernel

end MemState

end BaoHypervisor
