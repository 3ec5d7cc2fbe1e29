import BaoHypervisor.Core.Mpu.Mem
import BaoHypervisor.Theory.Run
import Mathlib.Data.Fintype.Card

/-!
# Disjoint regions of an address space

`mem_map` refuses a region that lies within a mapped one. A region that overlaps a mapped one
in another way, or contains it, is mapped beside it. The pieces that `mem_unmap_range` keeps
of an entry are apart, so the entries of an address space stay disjoint as long as what is
mapped is apart from what is there.
-/

namespace BaoHypervisor

namespace MpRegion

/-- The range that `mem_unmap_range` looks for. -/
abbrev ofRange (vaddr : Addr) (size : SizeT) : MpRegion := ⟨vaddr, size, .invalid, .hypGlobal⟩

end MpRegion

namespace MemState

/-- What is kept of a region above and below a range. -/
def pieces (reg : MpRegion) (vaddr : Addr) (size : SizeT) : List MpRegion :=
  (if 0#64 < topSize reg vaddr size then
    [{ reg with base := vaddr + size, size := topSize reg vaddr size }] else []) ++
  (if 0#64 < bottomSize reg vaddr then [{ reg with size := bottomSize reg vaddr }] else [])

variable {reg : MpRegion} {vaddr : Addr} {size : SizeT}

theorem zero_lt_iff {n : SizeT} : 0#64 < n ↔ 0 < n.toNat := by
  rw [BitVec.lt_def]
  rfl

/-- A region that reaches the end of the address space has its limit wrapped around, and
nothing of it is kept above. -/
theorem toNat_topSize_of_le (hle : reg.limit ≤ 2 ^ 64)
    (hrle : (MpRegion.ofRange vaddr size).limit ≤ 2 ^ 64)
    (hwithin : (MpRegion.ofRange vaddr size).Within reg) :
    (topSize reg vaddr size).toNat =
      if reg.limit = 2 ^ 64 then 0 else reg.limit - (MpRegion.ofRange vaddr size).limit := by
  have hlimit := hwithin.2
  have hreglim : reg.limit = reg.base.toNat + reg.size.toNat := rfl
  have hlim : (MpRegion.ofRange vaddr size).limit = vaddr.toNat + size.toNat := rfl
  have hsum : (reg.base + reg.size).toNat = (reg.base.toNat + reg.size.toNat) % 2 ^ 64 :=
    BitVec.toNat_add _ _
  have hsum' : (vaddr + size).toNat = (vaddr.toNat + size.toNat) % 2 ^ 64 :=
    BitVec.toNat_add _ _
  have htop : (reg.base + reg.size - (vaddr + size)).toNat =
      (2 ^ 64 - (vaddr + size).toNat + (reg.base + reg.size).toNat) % 2 ^ 64 :=
    BitVec.toNat_sub _ _
  have hzero : (0#64).toNat = 0 := rfl
  by_cases hend : reg.limit = 2 ^ 64
  · have hwrapped : reg.base + reg.size ≤ vaddr + size := by
      rw [BitVec.le_def]
      omega
    rw [topSize, if_pos hwrapped, if_pos hend, hzero]
  · rw [topSize, if_neg hend]
    split
    · rename_i h
      rw [BitVec.le_def] at h
      omega
    · rename_i h
      rw [BitVec.le_def] at h
      omega

theorem toNat_topSize (hreg : reg.WellFormed) (hrange : (MpRegion.ofRange vaddr size).WellFormed)
    (hwithin : (MpRegion.ofRange vaddr size).Within reg) :
    (topSize reg vaddr size).toNat =
      if reg.limit = 2 ^ 64 then 0 else reg.limit - (MpRegion.ofRange vaddr size).limit :=
  toNat_topSize_of_le hreg.limit_le hrange.limit_le hwithin

theorem toNat_bottomSize (hwithin : (MpRegion.ofRange vaddr size).Within reg) :
    (bottomSize reg vaddr).toNat = vaddr.toNat - reg.base.toNat := by
  have hbase : reg.base.toNat ≤ vaddr.toNat := hwithin.1
  rw [bottomSize]
  split
  · rename_i h
    rw [BitVec.le_def] at h
    rw [show (0#64).toNat = 0 from rfl]
    omega
  · rw [BitVec.toNat_sub]
    have hlt := vaddr.isLt
    omega

/-- A piece is a region of granules in the entry, above the range or below it. -/
theorem mem_pieces (hreg : reg.WellFormed) (hrange : (MpRegion.ofRange vaddr size).WellFormed)
    (hwithin : (MpRegion.ofRange vaddr size).Within reg) {p : MpRegion}
    (hp : p ∈ pieces reg vaddr size) :
    p.WellFormed ∧ p.Within reg ∧ p.asSec = reg.asSec ∧
      ((MpRegion.ofRange vaddr size).limit ≤ p.base.toNat ∨ p.limit ≤ vaddr.toNat) := by
  have htop := toNat_topSize hreg hrange hwithin
  have hbottom := toNat_bottomSize hwithin
  obtain ⟨hpos, hle, hdvd, hsdvd⟩ := hreg
  obtain ⟨hpos', hle', hdvd', hsdvd'⟩ := hrange
  have hbase : reg.base.toNat ≤ vaddr.toNat := hwithin.1
  have hlimit := hwithin.2
  have hreglim : reg.limit = reg.base.toNat + reg.size.toNat := rfl
  have hlim : (MpRegion.ofRange vaddr size).limit = vaddr.toNat + size.toNat := rfl
  have hsum : (vaddr + size).toNat = (vaddr.toNat + size.toNat) % 2 ^ 64 := BitVec.toNat_add _ _
  rcases List.mem_append.mp hp with hp | hp
  · split at hp
    · rename_i hsome
      rw [zero_lt_iff, htop] at hsome
      split at hsome
      · exact absurd hsome (lt_irrefl 0)
      · rename_i hend
        rw [if_neg hend] at htop
        rw [List.mem_singleton] at hp
        subst hp
        refine ⟨⟨?_, ?_, ?_, ?_⟩, ⟨?_, ?_⟩, rfl, .inl ?_⟩ <;>
          simp only [MpRegion.limit, mpuGranularity] at * <;> omega
    · cases hp
  · split at hp
    · rename_i hsome
      rw [zero_lt_iff, hbottom] at hsome
      rw [List.mem_singleton] at hp
      subst hp
      refine ⟨⟨?_, ?_, ?_, ?_⟩, ⟨?_, ?_⟩, rfl, .inr ?_⟩ <;>
        simp only [MpRegion.limit, mpuGranularity] at * <;> omega
    · cases hp

/-- The piece above comes first, and it is apart from the one below. -/
theorem pieces_pairwise (hreg : reg.WellFormed)
    (hrange : (MpRegion.ofRange vaddr size).WellFormed)
    (hwithin : (MpRegion.ofRange vaddr size).Within reg) :
    (pieces reg vaddr size).Pairwise MpRegion.Apart := by
  have htop := toNat_topSize hreg hrange hwithin
  have hbottom := toNat_bottomSize hwithin
  have hbase : reg.base.toNat ≤ vaddr.toNat := hwithin.1
  have hlimit := hwithin.2
  have hle := hreg.limit_le
  have hreglim : reg.limit = reg.base.toNat + reg.size.toNat := rfl
  have hlim : (MpRegion.ofRange vaddr size).limit = vaddr.toNat + size.toNat := rfl
  have hsum : (vaddr + size).toNat = (vaddr.toNat + size.toNat) % 2 ^ 64 := BitVec.toNat_add _ _
  rw [pieces]
  split
  · rename_i hsome
    rw [zero_lt_iff, htop] at hsome
    split
    · rw [List.singleton_append, List.pairwise_cons]
      refine ⟨fun p hp => ?_, List.pairwise_singleton _ _⟩
      rw [List.mem_singleton] at hp
      subst hp
      refine .inr ?_
      simp only [MpRegion.limit, hbottom]
      split at hsome <;> omega
    · exact List.pairwise_singleton _ _
  · split
    · exact List.pairwise_singleton _ _
    · exact List.Pairwise.nil

theorem not_within_piece (hreg : reg.WellFormed)
    (hrange : (MpRegion.ofRange vaddr size).WellFormed)
    (hwithin : (MpRegion.ofRange vaddr size).Within reg) {p : MpRegion}
    (hp : p ∈ pieces reg vaddr size) : ¬ (MpRegion.ofRange vaddr size).Within p := by
  obtain ⟨-, -, -, hside⟩ := mem_pieces hreg hrange hwithin hp
  intro h
  exact h.not_apart hrange hside

end MemState

namespace Vmpu

variable {vmpu vmpu' : Vmpu} {i j : Fin vmpuNumEntries} {mpr : MpRegion}

def Valid (vmpu : Vmpu) (i : Fin vmpuNumEntries) : Prop := (vmpu i).state = .valid

instance (vmpu : Vmpu) (i : Fin vmpuNumEntries) : Decidable (vmpu.Valid i) :=
  inferInstanceAs (Decidable (_ = _))

def Granular (vmpu : Vmpu) : Prop := ∀ i, vmpu.Valid i → (vmpu i).region.WellFormed

/-- The valid entries are disjoint and not empty, so every address has one set of attributes
at most. -/
structure Disjoint (vmpu : Vmpu) : Prop where
  disjoint : ∀ i j, i ≠ j → vmpu.Valid i → vmpu.Valid j →
    ∀ a, ¬ ((vmpu i).region.Covers a ∧ (vmpu j).region.Covers a)
  nonempty : ∀ i, vmpu.Valid i → ∃ a, (vmpu i).region.Covers a

def Separate (vmpu : Vmpu) : Prop :=
  ∀ i j, i ≠ j → vmpu.Valid i → vmpu.Valid j → (vmpu i).region.Apart (vmpu j).region

theorem disjoint_iff (h : vmpu.Granular) : vmpu.Disjoint ↔ vmpu.Separate := by
  constructor
  · intro hdisjoint i j hij hi hj
    exact (MpRegion.apart_iff (h i hi) (h j hj)).mpr (hdisjoint.disjoint i j hij hi hj)
  · intro hseparate
    refine ⟨fun i j hij hi hj => ?_, fun i hi => ⟨_, (h i hi).covers_base⟩⟩
    exact (MpRegion.apart_iff (h i hi) (h j hj)).mp (hseparate i j hij hi hj)

def ApartFrom (vmpu : Vmpu) (mpr : MpRegion) : Prop :=
  ∀ i, vmpu.Valid i → mpr.Apart (vmpu i).region

instance (vmpu : Vmpu) (mpr : MpRegion) : Decidable (vmpu.ApartFrom mpr) :=
  inferInstanceAs (Decidable (∀ _, _))

theorem findFree_eq_some (h : vmpu.findFree = some i) : (vmpu i).state = .free := by
  simpa using List.find?_some h

theorem not_valid_of_findFree (h : vmpu.findFree = some i) : ¬ vmpu.Valid i := by
  rw [Valid, findFree_eq_some h]
  decide

theorem findOverlappingRegion_eq_some (h : vmpu.findOverlappingRegion mpr = some i) :
    vmpu.Valid i ∧ memRegionsOverlap mpr (vmpu i).region = true := by
  simpa [Valid] using List.find?_some h

theorem findOverlappingRegion_eq_none_iff :
    vmpu.findOverlappingRegion mpr = none ↔
      ∀ i, vmpu.Valid i → memRegionsOverlap mpr (vmpu i).region = false := by
  simp [findOverlappingRegion, Valid]

section Entries

variable {mpe : Mpe}

theorem valid_update (h : Valid (Function.update vmpu i mpe) j) :
    j = i ∧ mpe.state = .valid ∨ j ≠ i ∧ vmpu.Valid j := by
  rw [Valid, Function.update_apply] at h
  split at h
  · rename_i hji
    exact .inl ⟨hji, h⟩
  · rename_i hji
    exact .inr ⟨hji, h⟩

theorem Granular.update (h : vmpu.Granular)
    (hmpe : mpe.state = .valid → mpe.region.WellFormed) :
    Granular (Function.update vmpu i mpe) := by
  intro j hj
  rcases valid_update hj with ⟨rfl, hvalid⟩ | ⟨hji, hvalid⟩
  · rw [Function.update_self]
    exact hmpe hvalid
  · rw [Function.update_of_ne hji]
    exact h j hvalid

theorem ApartFrom.update (h : vmpu.ApartFrom mpr)
    (hmpe : mpe.state = .valid → mpr.Apart mpe.region) :
    ApartFrom (Function.update vmpu i mpe) mpr := by
  intro j hj
  rcases valid_update hj with ⟨rfl, hvalid⟩ | ⟨hji, hvalid⟩
  · rw [Function.update_self]
    exact hmpe hvalid
  · rw [Function.update_of_ne hji]
    exact h j hvalid

theorem Separate.update (h : vmpu.Separate)
    (hmpe : mpe.state = .valid → ∀ j, j ≠ i → vmpu.Valid j → mpe.region.Apart (vmpu j).region) :
    Separate (Function.update vmpu i mpe) := by
  intro j k hjk hj hk
  rcases valid_update hj with ⟨rfl, hvalid⟩ | ⟨hji, hvalid⟩
  · rcases valid_update hk with ⟨rfl, -⟩ | ⟨hki, hvalid'⟩
    · exact absurd rfl hjk
    · rw [Function.update_self, Function.update_of_ne hki]
      exact hmpe hvalid k hki hvalid'
  · rcases valid_update hk with ⟨rfl, hvalid'⟩ | ⟨hki, hvalid'⟩
    · rw [Function.update_self, Function.update_of_ne hji]
      exact (hmpe hvalid' j hji hvalid).symm
    · rw [Function.update_of_ne hji, Function.update_of_ne hki]
      exact h j k hjk hvalid hvalid'

end Entries

end Vmpu

namespace MemState

variable {P : Type*} {mpu : PhysMpu P} {type : AsType} {s : MemState P} {mpr : MpRegion}
  {broadcast : Bool}

/-- The table after an entry was looked for and the region mapped: as it was, with an entry
that is lost, or with the region in an entry that was free. -/
theorem allocateInsert_cases (mpu : PhysMpu P) (type : AsType) (s : MemState P) (mpr : MpRegion)
    (broadcast : Bool) :
    (s.vmpu.findFree = none ∨ (mpu.mpuMap s.phys (asPriv type) mpr).1 = false) ∧
        ((allocateInsert mpu type s mpr broadcast).2.vmpu = s.vmpu ∨
          ∃ i, (allocateInsert mpu type s mpr broadcast).2.vmpu =
            Function.update s.vmpu i { s.vmpu i with state := .invalid }) ∨
      (mpu.mpuMap s.phys (asPriv type) mpr).1 = true ∧
        ∃ i, s.vmpu.findFree = some i ∧
          (allocateInsert mpu type s mpr broadcast).2.vmpu = s.vmpu.setEntry i mpr := by
  rw [allocateInsert, Vmpu.allocateEntry]
  cases hfree : s.vmpu.findFree with
  | none => exact .inl ⟨.inl rfl, .inl rfl⟩
  | some i =>
      rw [insertRegion]
      cases hmap : (mpu.mpuMap s.phys (asPriv type) mpr).1 with
      | false => exact .inl ⟨.inr rfl, .inr ⟨i, by simp [hmap]⟩⟩
      | true =>
          refine .inr ⟨rfl, i, rfl, ?_⟩
          cases broadcast <;> simp [hmap, Vmpu.setEntry, regionBroadcast]

theorem granular_allocateInsert (h : s.vmpu.Granular) (hmpr : mpr.WellFormed) :
    (allocateInsert mpu type s mpr broadcast).2.vmpu.Granular := by
  rcases allocateInsert_cases mpu type s mpr broadcast with
    ⟨-, heq | ⟨i, heq⟩⟩ | ⟨-, i, -, heq⟩
  · rw [heq]
    exact h
  · rw [heq]
    exact h.update fun hvalid => nomatch hvalid
  · rw [heq]
    exact h.update fun _ => hmpr

theorem apartFrom_allocateInsert {q : MpRegion} (h : s.vmpu.ApartFrom q)
    (hmpr : q.Apart mpr) :
    (allocateInsert mpu type s mpr broadcast).2.vmpu.ApartFrom q := by
  rcases allocateInsert_cases mpu type s mpr broadcast with
    ⟨-, heq | ⟨i, heq⟩⟩ | ⟨-, i, -, heq⟩
  · rw [heq]
    exact h
  · rw [heq]
    exact h.update fun hvalid => nomatch hvalid
  · rw [heq]
    exact h.update fun _ => hmpr

theorem separate_allocateInsert (h : s.vmpu.Separate) (hmpr : s.vmpu.ApartFrom mpr) :
    (allocateInsert mpu type s mpr broadcast).2.vmpu.Separate := by
  rcases allocateInsert_cases mpu type s mpr broadcast with
    ⟨-, heq | ⟨i, heq⟩⟩ | ⟨-, i, -, heq⟩
  · rw [heq]
    exact h
  · rw [heq]
    exact h.update fun hvalid => nomatch hvalid
  · rw [heq]
    exact h.update fun _ j _ hj => hmpr j hj

def insertAll (mpu : PhysMpu P) (type : AsType) (s : MemState P) (regs : List MpRegion) :
    MemState P :=
  regs.foldl (fun s mpr => (allocateInsert mpu type s mpr true).2) s

theorem unmapEntry_eq (vaddr : Addr) (size : SizeT) (i : Fin vmpuNumEntries) :
    unmapEntry mpu type s vaddr size i =
      insertAll mpu type (removeRegion mpu type s i true)
        (pieces (s.vmpu i).region vaddr size) := by
  rw [unmapEntry, pieces, insertAll]
  split <;> split <;> simp

theorem vmpu_removeRegion {i : Fin vmpuNumEntries} (h : s.vmpu.Valid i) :
    (removeRegion mpu type s i broadcast).vmpu = s.vmpu.freeEntry i := by
  have hstate : (s.vmpu i).state = .valid := h
  rw [removeRegion, if_pos hstate]
  cases broadcast <;> rfl

theorem granular_insertAll {regs : List MpRegion} (h : s.vmpu.Granular)
    (hregs : ∀ r ∈ regs, r.WellFormed) : (insertAll mpu type s regs).vmpu.Granular := by
  induction regs generalizing s with
  | nil => exact h
  | cons mpr regs ih =>
      rw [List.forall_mem_cons] at hregs
      exact ih (granular_allocateInsert h hregs.1) hregs.2

theorem separate_insertAll {regs : List MpRegion} (h : s.vmpu.Separate)
    (hregs : ∀ r ∈ regs, s.vmpu.ApartFrom r) (hpairwise : regs.Pairwise MpRegion.Apart) :
    (insertAll mpu type s regs).vmpu.Separate := by
  induction regs generalizing s with
  | nil => exact h
  | cons mpr regs ih =>
      rw [List.forall_mem_cons] at hregs
      rw [List.pairwise_cons] at hpairwise
      refine ih (separate_allocateInsert h hregs.1) (fun r hr => ?_) hpairwise.2
      exact apartFrom_allocateInsert (hregs.2 r hr) (hpairwise.1 r hr).symm

section Unmap

variable {vaddr : Addr} {size : SizeT} {i : Fin vmpuNumEntries}

theorem within_of_find (hgranular : s.vmpu.Granular)
    (hrange : (MpRegion.ofRange vaddr size).WellFormed)
    (hfind : s.vmpu.findOverlappingRegion (MpRegion.ofRange vaddr size) = some i) :
    s.vmpu.Valid i ∧ (MpRegion.ofRange vaddr size).Within (s.vmpu i).region := by
  obtain ⟨hvalid, hoverlap⟩ := Vmpu.findOverlappingRegion_eq_some hfind
  exact ⟨hvalid, (memRegionsOverlap_iff hrange (hgranular i hvalid)).mp hoverlap⟩

theorem granular_unmapEntry (hgranular : s.vmpu.Granular)
    (hrange : (MpRegion.ofRange vaddr size).WellFormed) (hvalid : s.vmpu.Valid i)
    (hwithin : (MpRegion.ofRange vaddr size).Within (s.vmpu i).region) :
    (unmapEntry mpu type s vaddr size i).vmpu.Granular := by
  rw [unmapEntry_eq]
  refine granular_insertAll ?_ fun p hp =>
    (mem_pieces (hgranular i hvalid) hrange hwithin hp).1
  rw [vmpu_removeRegion hvalid]
  exact hgranular.update fun hvalid => nomatch hvalid

/-- The pieces are apart from each other, and from the other entries as the entry was. -/
theorem separate_unmapEntry (hgranular : s.vmpu.Granular) (hseparate : s.vmpu.Separate)
    (hrange : (MpRegion.ofRange vaddr size).WellFormed) (hvalid : s.vmpu.Valid i)
    (hwithin : (MpRegion.ofRange vaddr size).Within (s.vmpu i).region) :
    (unmapEntry mpu type s vaddr size i).vmpu.Separate := by
  have hreg := hgranular i hvalid
  rw [unmapEntry_eq]
  refine separate_insertAll ?_ (fun p hp j hj => ?_) (pieces_pairwise hreg hrange hwithin)
  · rw [vmpu_removeRegion hvalid]
    exact hseparate.update fun hvalid => nomatch hvalid
  · rw [vmpu_removeRegion hvalid] at hj ⊢
    rw [Vmpu.freeEntry] at hj ⊢
    rcases Vmpu.valid_update hj with ⟨-, hvalid⟩ | ⟨hji, hvalid'⟩
    · exact nomatch hvalid
    · rw [Function.update_of_ne hji]
      have hpiece := (mem_pieces hreg hrange hwithin hp).2.1
      exact hpiece.apart (hseparate i j hji.symm hvalid hvalid')

/-- The loop keeps what each round keeps. -/
theorem unmapLoop_invariant {I : MemState P → Prop}
    (hround : ∀ s i, I s → s.vmpu.findOverlappingRegion (MpRegion.ofRange vaddr size) = some i →
      I (unmapEntry mpu type s vaddr size i))
    {fuel : ℕ} {sizeLeft : SizeT} {out : Bool × MemState P} (hs : I s)
    (h : unmapLoop mpu type vaddr size fuel sizeLeft s = some out) : I out.2 := by
  induction fuel generalizing s sizeLeft with
  | zero => cases h
  | succ fuel ih =>
      rw [unmapLoop] at h
      split at h
      · cases h
        exact hs
      · split at h
        · cases h
          exact hs
        · rename_i i hfind
          exact ih (hround s i hs hfind) h

end Unmap

/-- The entries that a range lies within. -/
def around (vmpu : Vmpu) (range : MpRegion) : Finset (Fin vmpuNumEntries) :=
  Finset.univ.filter fun i => vmpu.Valid i ∧ range.Within (vmpu i).region

theorem around_update {vmpu : Vmpu} {range : MpRegion} {i : Fin vmpuNumEntries} {mpe : Mpe}
    (h : mpe.state = .valid → ¬ range.Within mpe.region) :
    around (Function.update vmpu i mpe) range ⊆ (around vmpu range).erase i := by
  intro j hj
  rw [around, Finset.mem_filter] at hj
  rcases Vmpu.valid_update hj.2.1 with ⟨rfl, hvalid⟩ | ⟨hji, hvalid⟩
  · have hwithin := hj.2.2
    rw [Function.update_self] at hwithin
    exact absurd hwithin (h hvalid)
  · have hwithin := hj.2.2
    rw [Function.update_of_ne hji] at hwithin
    exact Finset.mem_erase.mpr
      ⟨hji, Finset.mem_filter.mpr ⟨Finset.mem_univ j, hvalid, hwithin⟩⟩

theorem around_allocateInsert {range : MpRegion} (h : ¬ range.Within mpr) :
    around (allocateInsert mpu type s mpr broadcast).2.vmpu range ⊆ around s.vmpu range := by
  rcases allocateInsert_cases mpu type s mpr broadcast with
    ⟨-, heq | ⟨i, heq⟩⟩ | ⟨-, i, -, heq⟩
  · rw [heq]
  · rw [heq]
    refine (around_update fun hvalid => ?_).trans (Finset.erase_subset _ _)
    exact nomatch hvalid
  · rw [heq]
    exact (around_update fun _ => h).trans (Finset.erase_subset _ _)

theorem around_insertAll {range : MpRegion} {regs : List MpRegion}
    (h : ∀ r ∈ regs, ¬ range.Within r) :
    around (insertAll mpu type s regs).vmpu range ⊆ around s.vmpu range := by
  induction regs generalizing s with
  | nil => exact Finset.Subset.refl _
  | cons mpr regs ih =>
      rw [List.forall_mem_cons] at h
      exact (ih h.2).trans (around_allocateInsert h.1)

/-- Each round leaves one entry less around the range. -/
theorem card_around_unmapEntry {vaddr : Addr} {size : SizeT} {i : Fin vmpuNumEntries}
    (hgranular : s.vmpu.Granular) (hrange : (MpRegion.ofRange vaddr size).WellFormed)
    (hvalid : s.vmpu.Valid i)
    (hwithin : (MpRegion.ofRange vaddr size).Within (s.vmpu i).region) :
    (around (unmapEntry mpu type s vaddr size i).vmpu (MpRegion.ofRange vaddr size)).card <
      (around s.vmpu (MpRegion.ofRange vaddr size)).card := by
  have hmem : i ∈ around s.vmpu (MpRegion.ofRange vaddr size) :=
    Finset.mem_filter.mpr ⟨Finset.mem_univ i, hvalid, hwithin⟩
  have hpieces : around (unmapEntry mpu type s vaddr size i).vmpu (MpRegion.ofRange vaddr size) ⊆
      around (s.vmpu.freeEntry i) (MpRegion.ofRange vaddr size) := by
    have hvmpu : (removeRegion mpu type s i true).vmpu = s.vmpu.freeEntry i :=
      vmpu_removeRegion hvalid
    rw [unmapEntry_eq, ← hvmpu]
    exact around_insertAll fun p hp => not_within_piece (hgranular i hvalid) hrange hwithin hp
  have hfreed : around (s.vmpu.freeEntry i) (MpRegion.ofRange vaddr size) ⊆
      (around s.vmpu (MpRegion.ofRange vaddr size)).erase i :=
    around_update fun (hvalid : MpeState.free = .valid) => nomatch hvalid
  exact (Finset.card_le_card (hpieces.trans hfreed)).trans_lt (Finset.card_erase_lt_of_mem hmem)

/-- The loop ends within a round for each entry around the range. -/
theorem unmapLoop_isSome {vaddr : Addr} {size : SizeT} {fuel : ℕ} (hgranular : s.vmpu.Granular)
    (hrange : (MpRegion.ofRange vaddr size).WellFormed)
    (hfuel : (around s.vmpu (MpRegion.ofRange vaddr size)).card < fuel) (sizeLeft : SizeT) :
    (unmapLoop mpu type vaddr size fuel sizeLeft s).isSome := by
  induction fuel generalizing s sizeLeft with
  | zero => exact absurd hfuel (Nat.not_lt_zero _)
  | succ fuel ih =>
      rw [unmapLoop]
      split
      · rfl
      · split
        · rfl
        · rename_i i hfind
          obtain ⟨hvalid, hwithin⟩ := within_of_find hgranular hrange hfind
          have hcard : (around (unmapEntry mpu type s vaddr size i).vmpu
                (MpRegion.ofRange vaddr size)).card <
              (around s.vmpu (MpRegion.ofRange vaddr size)).card :=
            card_around_unmapEntry hgranular hrange hvalid hwithin
          exact ih (granular_unmapEntry hgranular hrange hvalid hwithin) (by omega) _

theorem exists_memUnmapRange (mpu : PhysMpu P) (type : AsType) (broadcast : Bool) {vaddr : Addr}
    {size : SizeT} (hgranular : s.vmpu.Granular)
    (hrange : (MpRegion.ofRange vaddr size).WellFormed) :
    ∃ out, s.memUnmapRange mpu type vaddr size broadcast = some out := by
  have hcard := (Finset.card_le_univ (around s.vmpu (MpRegion.ofRange vaddr size))).trans
    (Fintype.card_fin vmpuNumEntries).le
  exact Option.isSome_iff_exists.mp (unmapLoop_isSome hgranular hrange (by omega) size)

/-- A call about regions of granules leaves regions of granules. -/
theorem granular_step {act : MemAct} (h : s.vmpu.Granular) (hact : act.WellFormed) :
    (s.step mpu type act).vmpu.Granular := by
  cases act with
  | map mpr broadcast =>
      rw [step, memMap]
      split
      · exact h
      · split
        · exact h
        · split
          · exact h
          · exact granular_allocateInsert h hact
  | unmapRange vaddr size broadcast =>
      obtain ⟨out, hunmap⟩ := exists_memUnmapRange mpu type broadcast h hact
      rw [step, hunmap]
      exact unmapLoop_invariant (I := fun s => s.vmpu.Granular)
        (fun s i hs hfind => by
          obtain ⟨hvalid, hwithin⟩ := within_of_find hs hact hfind
          exact granular_unmapEntry hs hact hvalid hwithin) h hunmap

theorem separate_memUnmapRange {vaddr : Addr} {size : SizeT} (hgranular : s.vmpu.Granular)
    (hseparate : s.vmpu.Separate) (hrange : (MpRegion.ofRange vaddr size).WellFormed)
    {out : Bool × MemState P} (h : s.memUnmapRange mpu type vaddr size broadcast = some out) :
    out.2.vmpu.Separate := by
  have hinvariant : out.2.vmpu.Granular ∧ out.2.vmpu.Separate :=
    unmapLoop_invariant (I := fun s => s.vmpu.Granular ∧ s.vmpu.Separate)
      (fun s i hs hfind => by
        obtain ⟨hvalid, hwithin⟩ := within_of_find hs.1 hrange hfind
        exact ⟨granular_unmapEntry hs.1 hrange hvalid hwithin,
          separate_unmapEntry hs.1 hs.2 hrange hvalid hwithin⟩) ⟨hgranular, hseparate⟩ h
  exact hinvariant.2

/-- A region that `mem_map` maps is apart from those that are mapped. -/
def MapsApart (mpu : PhysMpu P) (type : AsType) (s : MemState P) : MemAct → Prop
  | .map mpr _ => s.vmpu.findOverlappingRegion mpr = none → s.vmpu.findFree ≠ none →
      (mpu.mpuMap s.phys (asPriv type) mpr).1 = true → s.vmpu.ApartFrom mpr
  | .unmapRange _ _ _ => True

/-- One call keeps the regions apart if and only if what it maps is apart from them. -/
theorem separate_step_iff {act : MemAct} (hgranular : s.vmpu.Granular)
    (hseparate : s.vmpu.Separate) (hact : act.WellFormed) :
    (s.step mpu type act).vmpu.Separate ↔ s.MapsApart mpu type act := by
  cases act with
  | map mpr broadcast =>
      have hmpr : mpr.WellFormed := hact
      have hpos : mpr.size ≠ 0#64 := by
        intro hzero
        have hsize := hmpr.pos
        rw [hzero] at hsize
        exact absurd hsize (lt_irrefl 0)
      have hdvd : ¬ mpr.size.toNat % mpuGranularity ≠ 0 :=
        not_not_intro (Nat.mod_eq_zero_of_dvd hmpr.size_dvd)
      rw [step, memMap, if_neg hpos, if_neg hdvd, MapsApart]
      cases hfind : s.vmpu.findOverlappingRegion mpr with
      | some i => exact iff_of_true hseparate fun h => absurd h (Option.some_ne_none i)
      | none =>
          simp only [Option.elim_some, forall_const]
          rcases allocateInsert_cases mpu type s mpr broadcast with
            ⟨hfail, hcases⟩ | ⟨hmap, i, hfree, heq⟩
          · refine iff_of_true ?_ fun hfree hmap => ?_
            · rcases hcases with heq | ⟨i, heq⟩
              · rw [heq]
                exact hseparate
              · rw [heq]
                exact hseparate.update fun hvalid => MpeState.noConfusion hvalid
            · rcases hfail with hfail | hfail
              · exact absurd hfail hfree
              · exact absurd (hfail.symm.trans hmap) (by decide)
          · constructor
            · intro h _ _ j hj
              have hji : j ≠ i := by
                rintro rfl
                exact Vmpu.not_valid_of_findFree hfree hj
              have hapart := h i j hji.symm
              rw [heq, Vmpu.setEntry] at hapart
              simp only [Vmpu.Valid, Function.update_self, Function.update_of_ne hji] at hapart
              exact hapart trivial hj
            · intro h
              exact separate_allocateInsert hseparate (h (by simp [hfree]) hmap)
  | unmapRange vaddr size broadcast =>
      refine iff_of_true ?_ trivial
      obtain ⟨out, hunmap⟩ := exists_memUnmapRange mpu type broadcast hgranular hact
      rw [step, hunmap]
      exact separate_memUnmapRange hgranular hseparate hact hunmap

/-- The regions of an address space are disjoint after each of its calls if and only if each
`mem_map` maps a region that is apart from those that are mapped. -/
theorem along_disjoint_iff (mpu : PhysMpu P) (type : AsType) {s : MemState P}
    (hgranular : s.vmpu.Granular) (hdisjoint : s.vmpu.Disjoint) (acts : List MemAct)
    (hacts : ∀ act ∈ acts, act.WellFormed) :
    Run.Along (step mpu type) (fun s act => (s.step mpu type act).vmpu.Disjoint) s acts ↔
      Run.Along (step mpu type) (MapsApart mpu type) s acts := by
  have hwf : Run.Along (step mpu type) (fun _ act => act.WellFormed) s acts :=
    Run.along_of_forall (fun act hact _ => hacts act hact) s
  refine hwf.invariant_iff (J := fun s => s.vmpu.Granular) (I := fun s => s.vmpu.Disjoint)
    hgranular (fun s act hs hact => granular_step hs hact) hdisjoint fun s act hs hI hact => ?_
  rw [Vmpu.disjoint_iff (granular_step hs hact)]
  exact separate_step_iff hs ((Vmpu.disjoint_iff hs).mp hI) hact

def mapAll : PhysMpu Unit where
  mpuMap _ _ _ := (true, ())
  mpuUnmap _ _ _ := (true, ())

/-- An address space after `as_init`, with an MPU that maps every region. -/
def empty : MemState Unit := ⟨Vmpu.asInit, (), []⟩

theorem granular_asInit : Vmpu.Granular Vmpu.asInit := fun _ hvalid => nomatch hvalid

theorem disjoint_asInit : Vmpu.Disjoint Vmpu.asInit :=
  ⟨fun _ _ _ hvalid => (nomatch hvalid), fun _ hvalid => nomatch hvalid⟩

/-- A region is mapped, a part in its middle unmapped and mapped again, and the regions are
disjoint after each call. -/
theorem along_disjoint_remap :
    Run.Along (step mapAll .hyp)
      (fun s act => (s.step mapAll .hyp act).vmpu.Disjoint) empty
      [.map ⟨0x1000#64, 0x1000#64, .invalid, .hypGlobal⟩ true,
        .unmapRange 0x1400#64 0x400#64 true,
        .map ⟨0x1400#64, 0x400#64, .invalid, .hypPrivate⟩ true] := by
  refine (along_disjoint_iff mapAll .hyp granular_asInit disjoint_asInit _ ?_).mpr
    ⟨?_, trivial, ?_, trivial⟩
  · simp only [List.mem_cons, List.not_mem_nil, or_false]
    rintro act (rfl | rfl | rfl)
    all_goals simp only [MemAct.WellFormed]; decide
  · exact fun _ _ _ => by decide +kernel
  · exact fun _ _ _ => by decide +kernel

/-- A region that contains a mapped one is mapped beside it. -/
theorem memMap_overlaps :
    let acts : List MemAct :=
      [.map ⟨0x1000#64, 0x1000#64, .invalid, .hypGlobal⟩ true,
        .map ⟨0x1000#64, 0x2000#64, .invalid, .hypGlobal⟩ true]
    (∀ act ∈ acts, act.WellFormed) ∧
      ¬ (Run.exec (step mapAll .hyp) empty acts).vmpu.Disjoint := by
  refine ⟨?_, fun h => ?_⟩
  · simp only [List.mem_cons, List.not_mem_nil, or_false]
    rintro act (rfl | rfl)
    all_goals simp only [MemAct.WellFormed]; decide
  · refine h.disjoint 0 1 (by decide) (by decide +kernel) (by decide +kernel) 0x1000 ?_
    simp only [MpRegion.Covers]
    decide +kernel

end MemState

end BaoHypervisor
