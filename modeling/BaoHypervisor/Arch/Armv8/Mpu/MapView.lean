import BaoHypervisor.Arch.Armv8.Mpu.Table

/-!
# What a privilege sees of a mapping on the MPU of Armv8-R

A round of `mpu_map` for a region that an entry has in it cuts the entry, and one for a region that
is apart from all entries adds to the table. Either way the privilege gets the addresses of the
region and the other one sees no difference (`covered_mapOverlap`, `covered_mapGap`), as long as no
entry that is taken has permissions left over from an earlier use.
-/

namespace BaoHypervisor

/-- The flags are those of an enabled entry that the privilege has alone. -/
structure MemFlags.For (flags : MemFlags) (priv : Priv) : Prop where
  fit : flags.Fit
  enables : flags.Enables
  el1 : flags.El1 ↔ priv = .vm

instance (flags : MemFlags) (priv : Priv) : Decidable (flags.For priv) :=
  decidable_of_iff (flags.Fit ∧ flags.Enables ∧ (flags.El1 ↔ priv = .vm))
    ⟨fun h => ⟨h.1, h.2.1, h.2.2⟩, fun h => ⟨h.fit, h.enables, h.el1⟩⟩

namespace Armv8Mpu

variable {n : ℕ} {m : Armv8Mpu n} {i j : Fin n} {mpr : MpRegion}

theorem block_update {t : Fin n → Option (MpRegion × MpuPerms)} {b : MpRegion × MpuPerms}
    (h : ∀ i b, t i = some b → BlockOk b) (hb : BlockOk b) :
    ∀ j c, Function.update t i (some b) j = some c → BlockOk c := by
  intro j c hc
  by_cases hj : j = i
  · rw [hj, Function.update_self] at hc
    cases hc
    exact hb
  · rw [Function.update_of_ne hj] at hc
    exact h j c hc

theorem block_update_none {t : Fin n → Option (MpRegion × MpuPerms)}
    (h : ∀ i b, t i = some b → BlockOk b) :
    ∀ j c, Function.update t i none j = some c → BlockOk c := by
  intro j c hc
  by_cases hj : j = i
  · rw [hj, Function.update_self] at hc
    cases hc
  · rw [Function.update_of_ne hj] at hc
    exact h j c hc

theorem disjoint_occupied (h : ∀ i, m.entryValid i = true → mpr.Apart (m.entryGetRegion i)) :
    Disjoint {a | mpr.Covers a} (Blocks.occupied extent m.table) := by
  rw [Set.disjoint_left]
  intro a ha hocc
  obtain ⟨i, b, hi, hab⟩ := Blocks.mem_occupied.mp hocc
  obtain ⟨hvalid, rfl⟩ := table_eq_some_iff.mp hi
  have hapart := h i hvalid
  simp only [extent, Set.mem_ofPred_eq, MpRegion.Covers, MpRegion.Apart] at ha hab hapart
  omega

end Armv8Mpu

namespace MpuMap

open Armv8Mpu

variable {n : ℕ} {priv : Priv} {s s' : MpuMap n} {newReg : MpRegion} {mpid : Fin n}

theorem has_ownPerms {p : Priv} : (ownPerms priv newReg).Has p ↔ p.Same priv := by
  rw [ownPerms, MpuPerms.has_setPriv]
  split
  · exact iff_of_true (memVmpuEntryPerms_ne newReg) ‹_›
  · refine iff_of_false (fun h => ?_) ‹_›
    rw [MpuPerms.Has] at h
    split at h <;> exact h rfl

theorem blockOk_own {reg : MpRegion} {perms : MpuPerms} (hreg : reg.WellFormed)
    (hlimit : reg.limit < 2 ^ 64) (hflags : reg.memFlags.For priv)
    (hperms : ∀ p, perms.Has p ↔ p.Same priv) :
    BlockOk ({ reg with asSec := .unknown }, perms) where
  wellFormed := ⟨hreg.pos, hreg.limit_le, hreg.base_dvd, hreg.size_dvd⟩
  limit_lt := hlimit
  el1 := by
    rw [← MpuPerms.has_vm, hperms, Priv.Same]
    simpa using hflags.el1

theorem perms_of_mergeable {perms : MpuPerms} (h : s.mergeable newReg perms mpid = true) :
    s.mpu.perms mpid = perms := by
  rw [mergeable, Bool.and_eq_true, beq_iff_eq] at h
  exact h.2

theorem has_of_mergeable (h : s.mergeable newReg (ownPerms priv newReg) mpid = true) (p : Priv) :
    (s.mpu.perms mpid).Has p ↔ p.Same priv := by
  rw [perms_of_mergeable h]
  exact has_ownPerms

theorem has_setPriv_own (newReg : MpRegion) {perms : MpuPerms}
    (h : ∀ p, ¬ p.Same priv → ¬ perms.Has p) (p : Priv) :
    (perms.setPriv priv (memVmpuEntryPerms newReg)).Has p ↔ p.Same priv := by
  rw [MpuPerms.has_setPriv]
  split
  · exact iff_of_true (memVmpuEntryPerms_ne newReg) ‹_›
  · exact iff_of_false (h p ‹_›) ‹_›

theorem covered_of_grow {m m' : Armv8Mpu n} {b : MpRegion × MpuPerms} (mpid : Fin n)
    (h : m.Sound) (htracks : m'.Tracks ∅)
    (htable : m'.table = Function.update m.table mpid (some b))
    (hok : BlockOk b) (hdisj : Disjoint {a | newReg.Covers a} (Blocks.occupied extent m.table))
    (hgrown : extent b = Blocks.points extent (m.table mpid) ∪ {a | newReg.Covers a})
    (hold : ∀ c, m.table mpid = some c → ∀ p, c.2.Has p ↔ p.Same priv)
    (hnew : ∀ p, b.2.Has p ↔ p.Same priv) :
    m'.Sound ∧ ∀ p, m'.covered p = m.covered p ∪ {a | newReg.Covers a ∧ p.Same priv} := by
  obtain ⟨hseparate, hcover⟩ := h.separate.grow hdisj hgrown
  refine ⟨⟨htracks, htable ▸ hseparate, htable ▸ block_update h.block hok⟩, fun p => ?_⟩
  rw [covered, htable, hcover _ fun c hc => (hold c hc p).trans (hnew p).symm]
  simp only [hnew, covered, Set.mem_ofPred_eq]

/-- The region of two that meet: it ends where they do. -/
theorem ends_of_meet {reg low high : MpRegion} (hlow : low.WellFormed)
    (hlowLimit : low.limit < 2 ^ 64) (hhigh : high.WellFormed) (hhighLimit : high.limit < 2 ^ 64)
    (hmeet : low.base + low.size = high.base) (hbase : reg.base = low.base)
    (hsize : reg.size = low.size + high.size) :
    reg.WellFormed ∧ reg.limit < 2 ^ 64 ∧
      ∀ a, reg.Covers a ↔ low.Covers a ∨ high.Covers a := by
  have hmeet' := congrArg BitVec.toNat hmeet
  rw [MpRegion.toNat_base_add_size hlowLimit] at hmeet'
  have hsize' := congrArg BitVec.toNat hsize
  rw [BitVec.toNat_add] at hsize'
  have hlimit : reg.limit = high.limit := by
    simp only [MpRegion.limit, hbase] at *
    omega
  have hlowlt := hlow.base_lt_limit
  have hhighlt := hhigh.base_lt_limit
  refine ⟨MpRegion.wellFormed_of_ends ?_ ?_ ?_ ?_, hlimit ▸ hhighLimit, fun a => ?_⟩
  · rw [hbase, hlimit]
    omega
  · rw [hlimit]
    exact hhighLimit.le
  · rw [hbase]
    exact hlow.base_dvd
  · rw [hlimit]
    exact hhigh.limit_dvd
  · rw [MpRegion.Covers, MpRegion.Covers, MpRegion.Covers, hbase, hlimit]
    omega

section Gap

variable {i j : Fin n} {reg : MpRegion}

theorem has_setPriv_of_mergeable (h : s.mergeable newReg (ownPerms priv newReg) mpid = true)
    (p : Priv) :
    ((s.mpu.perms mpid).setPriv priv (memVmpuEntryPerms newReg)).Has p ↔ p.Same priv :=
  has_setPriv_own newReg (fun _ hp hhas => hp ((has_of_mergeable h _).mp hhas)) p

variable (h : s.mpu.Sound) (htracks : s'.mpu.Tracks ∅)
  (hdisj : Disjoint {a | newReg.Covers a} (Blocks.occupied extent s.mpu.table))
include h htracks hdisj

/-- The region is merged with one entry, whichever side of the region that is on. -/
theorem covered_mergeOne (hvalid : s.mpu.entryValid i = true)
    (hmerge : s.mergeable newReg (ownPerms priv newReg) i = true) (hreg : reg.WellFormed)
    (hlimit : reg.limit < 2 ^ 64) (hflags : reg.memFlags.For priv)
    (hcovers : ∀ a, reg.Covers a ↔ (s.mpu.entryGetRegion i).Covers a ∨ newReg.Covers a)
    (heq : s'.mpu =
      (s.mpu.entryUpdatePrivPerms i priv (memVmpuEntryPerms newReg)).entryModify i reg) :
    s'.mpu.Sound ∧
      ∀ p, s'.mpu.covered p = s.mpu.covered p ∪ {a | newReg.Covers a ∧ p.Same priv} := by
  have hperms := has_setPriv_of_mergeable hmerge
  refine covered_of_grow i h htracks ?_ (blockOk_own hreg hlimit hflags hperms) hdisj ?_
    (fun c hc p => ?_) hperms
  · rw [heq, table_entryModify]
    exact table_write hreg hflags.fit hflags.enables
  · rw [table_of_valid hvalid]
    exact Set.ext hcovers
  · rw [table_of_valid hvalid] at hc
    cases hc
    exact has_of_mergeable hmerge p

/-- The region closes the gap between two entries, which become one. -/
theorem covered_mergeBoth (hi : s.mpu.entryValid i = true) (hj : s.mpu.entryValid j = true)
    (hne : i ≠ j) (hmergei : s.mergeable newReg (ownPerms priv newReg) i = true)
    (hmergej : s.mergeable newReg (ownPerms priv newReg) j = true) (hreg : reg.WellFormed)
    (hlimit : reg.limit < 2 ^ 64) (hflags : reg.memFlags.For priv)
    (hcovers : ∀ a, reg.Covers a ↔ (s.mpu.entryGetRegion i).Covers a ∨
      newReg.Covers a ∨ (s.mpu.entryGetRegion j).Covers a)
    (heq : s'.mpu = (entryUpdatePrivPerms (s.mpu.entryFree j) i priv
      (memVmpuEntryPerms newReg)).entryModify i reg) :
    s'.mpu.Sound ∧
      ∀ p, s'.mpu.covered p = s.mpu.covered p ∪ {a | newReg.Covers a ∧ p.Same priv} := by
  have hperms := has_setPriv_of_mergeable hmergei
  have hblock := blockOk_own hreg hlimit hflags hperms
  have hextent : extent ({ reg with asSec := .unknown }, (s.mpu.perms i).setPriv priv
        (memVmpuEntryPerms newReg)) =
      extent (s.mpu.entryGetRegion i, s.mpu.perms i) ∪
        ({a | newReg.Covers a} ∪ extent (s.mpu.entryGetRegion j, s.mpu.perms j)) :=
    Set.ext hcovers
  obtain ⟨hseparate, hcover⟩ := h.separate.absorb hdisj hne (table_of_valid hi)
    (table_of_valid hj) hextent
  have htable : s'.mpu.table = Function.update (Function.update s.mpu.table j none) i
      (some ({ reg with asSec := .unknown }, (s.mpu.perms i).setPriv priv
        (memVmpuEntryPerms newReg))) := by
    rw [heq, table_entryModify, table_write hreg hflags.fit hflags.enables, table_entryFree]
    rfl
  refine ⟨⟨htracks, htable ▸ hseparate,
    htable ▸ block_update (block_update_none h.block) hblock⟩, fun p => ?_⟩
  rw [covered, htable, hcover (fun b => b.2.Has p)]
  · simp only [hperms, covered, Set.mem_ofPred_eq]
  · exact (has_of_mergeable hmergei p).trans (hperms p).symm
  · exact (has_of_mergeable hmergej p).trans (hperms p).symm

/-- The region gets an entry of its own, which has no permissions left over. -/
theorem covered_allocate {m : Armv8Mpu n} (hreg : newReg.WellFormed)
    (hlimit : newReg.limit < 2 ^ 64) (hflags : newReg.memFlags.For priv)
    (halloc : s.mpu.entryAllocate = some (i, m))
    (hleft : ∀ p : Priv, ¬ p.Same priv → ¬ (s.mpu.perms i).Has p)
    (heq : s'.mpu =
      (m.entryUpdatePrivPerms i priv (memVmpuEntryPerms newReg)).entrySet i newReg) :
    s'.mpu.Sound ∧
      ∀ p, s'.mpu.covered p = s.mpu.covered p ∪ {a | newReg.Covers a ∧ p.Same priv} := by
  have hfree : s.mpu.table i = none := by
    refine table_of_not_valid (Bool.eq_false_iff.mpr fun hi => ?_)
    have hbit := (h.tracks.bitmap i).mpr (.inl hi)
    rw [bitmap_of_entryAllocate halloc] at hbit
    cases hbit
  have hperms := has_setPriv_own newReg hleft
  refine covered_of_grow i h htracks ?_ (blockOk_own hreg hlimit hflags hperms) hdisj
    ?_ (fun c hc => ?_) hperms
  · rw [heq, table_write hreg hflags.fit hflags.enables, eq_of_entryAllocate halloc]
    rfl
  · rw [hfree, Blocks.points, Option.elim_none, Set.empty_union]
    rfl
  · rw [hfree] at hc
    cases hc

end Gap

/-- The region that is written is the new one with those of its neighbours: a block of the
privilege that grows by the new region, or by it and another block. -/
theorem covered_mapGap {prev next : Option (Fin n)} (h : s.mpu.Sound) (hreg : newReg.WellFormed)
    (hlimit : newReg.limit < 2 ^ 64) (hflags : newReg.memFlags.For priv)
    (hapart : ∀ i, s.mpu.entryValid i = true → newReg.Apart (s.mpu.entryGetRegion i))
    (hprev : ∀ i, prev = some i → i ∈ s.mpu.order) (hnext : ∀ j, next = some j → j ∈ s.mpu.order)
    (hne : ∀ i j, prev = some i → next = some j → i ≠ j)
    (hleft : (∃ i, prev = some i ∧ MergesPrev priv s newReg i) ∨
      (∃ j, next = some j ∧ MergesNext priv s newReg j) ∨
        ∀ i, s.mpu.findFree = some i → ∀ p : Priv, ¬ p.Same priv → ¬ (s.mpu.perms i).Has p)
    (hround : s.mapGap priv newReg prev next = .next s') :
    s'.mpu.Sound ∧
      ∀ p, s'.mpu.covered p = s.mpu.covered p ∪ {a | newReg.Covers a ∧ p.Same priv} := by
  have htracks := (tracks_mapGap_iff h.tracks hprev hnext hne hround).mpr (.inl hflags.enables)
  have hdisj := disjoint_occupied hapart
  have hvalid : ∀ i ∈ s.mpu.order, s.mpu.entryValid i = true := fun i hi =>
    (h.tracks.mem_order i).mp hi
  have hok : ∀ i ∈ s.mpu.order, BlockOk (s.mpu.entryGetRegion i, s.mpu.perms i) := fun i hi =>
    h.block i _ (table_of_valid (hvalid i hi))
  obtain ⟨reg, hregflags, -, -, hcases⟩ := mapGap_eq_next hround
  rcases hcases with ⟨i, other, hi, hmerge, hother, hbase, hsize, heq⟩ |
    ⟨j, hj, hmerge, hbase, hsize, heq⟩ | ⟨hnotPrev, hnotNext, rfl, i, m, halloc, heq⟩
  · have hmem := hprev i hi
    have hr := hok i hmem
    cases other with
    | none =>
        rw [Option.elim_none, BitVec.add_zero, BitVec.add_comm] at hsize
        obtain ⟨hwf, hlim, hcovers⟩ := ends_of_meet hr.wellFormed hr.limit_lt hreg hlimit
          hmerge.2 hbase hsize
        exact covered_mergeOne h htracks hdisj (hvalid i hmem) hmerge.1 hwf hlim
          (hregflags ▸ hflags) hcovers heq
    | some j =>
        obtain ⟨hj, hmergeNext⟩ := hother j rfl
        have hmemj := hnext j hj
        have hrj := hok j hmemj
        -- the new region and the entry after it, and then the entry before them
        let high : MpRegion :=
          { newReg with size := newReg.size + (s.mpu.entryGetRegion j).size }
        have hhigh : high.WellFormed ∧ high.limit < 2 ^ 64 ∧
            ∀ a, high.Covers a ↔ newReg.Covers a ∨ (s.mpu.entryGetRegion j).Covers a :=
          ends_of_meet hreg hlimit hrj.wellFormed hrj.limit_lt hmergeNext.2 rfl rfl
        obtain ⟨hwf, hlim, hcovers⟩ := ends_of_meet hr.wellFormed hr.limit_lt hhigh.1 hhigh.2.1
          hmerge.2 hbase (by
            rw [hsize, Option.elim_some, BitVec.add_comm newReg.size, BitVec.add_assoc])
        exact covered_mergeBoth h htracks hdisj (hvalid i hmem) (hvalid j hmemj) (hne i j hi hj)
          hmerge.1 hmergeNext.1 hwf hlim (hregflags ▸ hflags)
          (fun a => (hcovers a).trans (or_congr_right (hhigh.2.2 a))) heq
  · have hmem := hnext j hj
    have hr := hok j hmem
    obtain ⟨hwf, hlim, hcovers⟩ := ends_of_meet hreg hlimit hr.wellFormed hr.limit_lt hmerge.2
      hbase hsize
    exact covered_mergeOne h htracks hdisj (hvalid j hmem) hmerge.1 hwf hlim
      (hregflags ▸ hflags) (fun a => (hcovers a).trans or_comm) heq
  · have hfind : s.mpu.findFree = some i := by
      obtain ⟨k, hk, hki⟩ := Option.map_eq_some_iff.mp halloc
      cases hki
      exact hk
    have hunused := (hleft.resolve_left fun ⟨i, hi, hm⟩ => hnotPrev i hi hm).resolve_left
      (fun ⟨j, hj, hm⟩ => hnotNext j hj hm) i hfind
    exact covered_allocate h htracks hdisj hreg hlimit hflags halloc hunused heq

end MpuMap

namespace Armv8Mpu

variable {n : ℕ} {m m' : Armv8Mpu n} {i j : Fin n} {o : Option (Fin n)} {size : SizeT}
  {newReg r : MpRegion}

/-- To take an entry for a piece only marks it as in use. -/
theorem eq_of_allocatePiece (h : m.allocatePiece size = some (o, m')) :
    (o = none → size = 0#64) ∧ (size = 0#64 → o = none) ∧
      ∃ bitmap, m' = { m with bitmap := bitmap } := by
  rw [allocatePiece] at h
  split at h
  · rename_i hpos
    obtain ⟨⟨i, m''⟩, hm'', heq⟩ := Option.map_eq_some_iff.mp h
    cases heq
    refine ⟨fun hnone => ?_, fun hzero => ?_, _, eq_of_entryAllocate hm''⟩
    · cases hnone
    · rw [hzero] at hpos
      exact absurd hpos (by decide)
  · rename_i hpos
    cases h
    refine ⟨fun _ => ?_, fun _ => rfl, _, rfl⟩
    exact BitVec.eq_of_toNat_eq (Nat.eq_zero_of_not_pos fun hlt => hpos (BitVec.lt_def.mpr hlt))

theorem free_of_allocatePieces {low high : Option (Fin n)} {m₁ m₂ : Armv8Mpu n} {size' : SizeT}
    (h : m.Tracks ∅) (hlow : m.allocatePiece size = some (low, m₁))
    (hhigh : m₁.allocatePiece size' = some (high, m₂)) :
    (∀ i, low = some i → m.entryValid i = false) ∧
      (∀ i, high = some i → m.entryValid i = false ∧ low ≠ some i) ∧
      m₂.table = m.table ∧ m₂.perms = m.perms := by
  obtain ⟨-, -, htracks₁⟩ := h.allocatePiece hlow
  obtain ⟨hfresh, -, htracks₂⟩ := htracks₁.allocatePiece hhigh
  obtain ⟨-, -, bitmap₁, rfl⟩ := eq_of_allocatePiece hlow
  obtain ⟨-, -, bitmap₂, rfl⟩ := eq_of_allocatePiece hhigh
  refine ⟨fun i hi => htracks₂.taken i (.inl (.inr hi)), fun i hi => ⟨?_, fun hl => ?_⟩, rfl, rfl⟩
  · exact htracks₂.taken i (.inr hi)
  · exact hfresh i hi (.inr hl)

/-- The entries that a round would take for the pieces of an entry. -/
def pieceEntries (m : Armv8Mpu n) (newReg : MpRegion) (mpid : Fin n) : List (Fin n) :=
  match m.allocatePiece (overlapBottomSize newReg (m.entryGetRegion mpid)) with
  | none => []
  | some (bottomMpid, m') =>
      match m'.allocatePiece (overlapTopSize newReg (m.entryGetRegion mpid)) with
      | none => []
      | some (topMpid, _) => bottomMpid.toList ++ topMpid.toList

def blockOf (mpr : MpRegion) (perms : MpuPerms) : MpRegion × MpuPerms :=
  ({ mpuEntrySetPerms mpr perms with asSec := .unknown }, perms)

theorem mem_extent_blockOf {mpr : MpRegion} {perms : MpuPerms} {a : ℕ} :
    a ∈ extent (blockOf mpr perms) ↔ mpr.Covers a := Iff.rfl

theorem extent_blockOf_of_size {mpr : MpRegion} {perms : MpuPerms} (h : mpr.size = 0#64) :
    extent (blockOf mpr perms) = ∅ := by
  refine Set.eq_empty_of_forall_notMem fun a ha => ?_
  rw [mem_extent_blockOf, MpRegion.Covers, MpRegion.limit, h, BitVec.toNat_zero] at ha
  omega

theorem blockOk_blockOf {mpr : MpRegion} {perms : MpuPerms} (h : mpr.WellFormed)
    (hlimit : mpr.limit < 2 ^ 64) : BlockOk (blockOf mpr perms) where
  wellFormed := ⟨h.pos, h.limit_le, h.base_dvd, h.size_dvd⟩
  limit_lt := hlimit
  el1 := el1_mpuEntrySetPerms

/-- What the new region takes up of an entry that has it in it. -/
def middlePiece (newReg r : MpRegion) : MpRegion :=
  { r with
    base := r.base + overlapBottomSize newReg r
    size := r.size - (overlapTopSize newReg r + overlapBottomSize newReg r) }

def bottomPiece (newReg r : MpRegion) : MpRegion := { r with size := overlapBottomSize newReg r }

def topPiece (newReg r : MpRegion) : MpRegion :=
  { r with base := newReg.base + newReg.size, size := overlapTopSize newReg r }

section Pieces

variable (hwithin : newReg.Within r) (hlimit : r.limit < 2 ^ 64)

include hwithin hlimit

theorem toNat_overlapTopSize : (overlapTopSize newReg r).toNat = r.limit - newReg.limit := by
  have hnew : newReg.limit < 2 ^ 64 := hwithin.2.trans_lt hlimit
  have hle := hwithin.2
  have hr := MpRegion.toNat_base_add_size hlimit
  have hn := MpRegion.toNat_base_add_size hnew
  rw [overlapTopSize, MemState.topSize]
  split
  · rename_i hif
    rw [BitVec.le_def, hr, hn] at hif
    rw [BitVec.toNat_ofNat]
    omega
  · rw [BitVec.toNat_sub, hr, hn]
    omega

omit hlimit in
theorem toNat_overlapBottomSize :
    (overlapBottomSize newReg r).toNat = newReg.base.toNat - r.base.toNat := by
  have hle := hwithin.1
  have hlt := newReg.base.isLt
  rw [overlapBottomSize, MemState.bottomSize]
  split
  · rename_i hif
    rw [BitVec.le_def] at hif
    rw [BitVec.toNat_ofNat]
    omega
  · rw [BitVec.toNat_sub]
    omega

theorem middlePiece_eq :
    (middlePiece newReg r).base = newReg.base ∧ (middlePiece newReg r).size = newReg.size := by
  have htop := toNat_overlapTopSize hwithin hlimit
  have hbottom := toNat_overlapBottomSize hwithin
  obtain ⟨hlow, hhigh⟩ := hwithin
  simp only [MpRegion.limit] at *
  have hsize := r.size.isLt
  constructor
  · refine BitVec.eq_of_toNat_eq ?_
    rw [middlePiece, BitVec.toNat_add, hbottom]
    omega
  · refine BitVec.eq_of_toNat_eq ?_
    rw [middlePiece, BitVec.toNat_sub, BitVec.toNat_add, htop, hbottom]
    omega

theorem covers_middlePiece (a : ℕ) : (middlePiece newReg r).Covers a ↔ newReg.Covers a := by
  obtain ⟨hbase, hsize⟩ := middlePiece_eq hwithin hlimit
  rw [MpRegion.Covers, MpRegion.limit, hbase, hsize]
  rfl

omit hlimit in
theorem ends_bottomPiece :
    (bottomPiece newReg r).base = r.base ∧
      (bottomPiece newReg r).limit = newReg.base.toNat := by
  have hbottom := toNat_overlapBottomSize hwithin
  have hle := hwithin.1
  have hbase : (bottomPiece newReg r).base = r.base := rfl
  refine ⟨hbase, ?_⟩
  rw [MpRegion.limit, hbase, bottomPiece, hbottom]
  omega

theorem ends_topPiece :
    (topPiece newReg r).base.toNat = newReg.limit ∧ (topPiece newReg r).limit = r.limit := by
  have hnew := MpRegion.toNat_base_add_size (hwithin.2.trans_lt hlimit)
  have htop := toNat_overlapTopSize hwithin hlimit
  have hle := hwithin.2
  refine ⟨hnew, ?_⟩
  rw [MpRegion.limit, topPiece, hnew, htop]
  omega

/-- The pieces make up the addresses of the entry, and have none in common. -/
theorem extent_pieces (perms perms' : MpuPerms) :
    extent (r, perms) = extent (blockOf (bottomPiece newReg r) perms) ∪
        (extent (blockOf (middlePiece newReg r) perms') ∪
          extent (blockOf (topPiece newReg r) perms)) ∧
      Disjoint (extent (blockOf (bottomPiece newReg r) perms))
        (extent (blockOf (middlePiece newReg r) perms')) ∧
      Disjoint (extent (blockOf (bottomPiece newReg r) perms))
        (extent (blockOf (topPiece newReg r) perms)) ∧
      Disjoint (extent (blockOf (middlePiece newReg r) perms'))
        (extent (blockOf (topPiece newReg r) perms)) := by
  obtain ⟨hbottomBase, hbottomLimit⟩ := ends_bottomPiece hwithin
  obtain ⟨htopBase, htopLimit⟩ := ends_topPiece hwithin hlimit
  have hmiddle := covers_middlePiece hwithin hlimit
  obtain ⟨hlow, hhigh⟩ := hwithin
  have hle : newReg.base.toNat ≤ newReg.limit := Nat.le_add_right _ _
  have hb : ∀ a, a ∈ extent (blockOf (bottomPiece newReg r) perms) ↔
      r.base.toNat ≤ a ∧ a < newReg.base.toNat := by
    intro a
    rw [mem_extent_blockOf, MpRegion.Covers, hbottomBase, hbottomLimit]
  have hm : ∀ a, a ∈ extent (blockOf (middlePiece newReg r) perms') ↔
      newReg.base.toNat ≤ a ∧ a < newReg.limit := hmiddle
  have ht : ∀ a, a ∈ extent (blockOf (topPiece newReg r) perms) ↔
      newReg.limit ≤ a ∧ a < r.limit := by
    intro a
    rw [mem_extent_blockOf, MpRegion.Covers, htopBase, htopLimit]
  have hr : ∀ a, a ∈ extent (r, perms) ↔ r.base.toNat ≤ a ∧ a < r.limit := fun _ => Iff.rfl
  refine ⟨Set.ext fun a => ?_, ?_, ?_, ?_⟩
  · rw [Set.mem_union, Set.mem_union, hb, hm, ht, hr]
    omega
  all_goals
    rw [Set.disjoint_left]
    intro a
    simp only [hb, hm, ht]
    omega

theorem wellFormed_middlePiece (hnew : newReg.WellFormed) :
    (middlePiece newReg r).WellFormed := by
  obtain ⟨hbase, hsize⟩ := middlePiece_eq hwithin hlimit
  have hends : (middlePiece newReg r).limit = newReg.limit := by
    rw [MpRegion.limit, hbase, hsize, MpRegion.limit]
  refine ⟨hsize ▸ hnew.pos, hends ▸ hnew.limit_le, hbase ▸ hnew.base_dvd, hsize ▸ hnew.size_dvd⟩

omit hlimit in
theorem wellFormed_bottomPiece (hnew : newReg.WellFormed) (hr : r.WellFormed)
    (hne : overlapBottomSize newReg r ≠ 0#64) : (bottomPiece newReg r).WellFormed := by
  obtain ⟨hbase, hends⟩ := ends_bottomPiece hwithin
  have hpos : 0 < (overlapBottomSize newReg r).toNat :=
    Nat.pos_of_ne_zero fun hzero => hne (BitVec.eq_of_toNat_eq hzero)
  rw [toNat_overlapBottomSize hwithin] at hpos
  have hlt := newReg.base.isLt
  refine MpRegion.wellFormed_of_ends ?_ ?_ ?_ ?_
  · rw [hbase, hends]
    omega
  · rw [hends]
    exact hlt.le
  · rw [hbase]
    exact hr.base_dvd
  · rw [hends]
    exact hnew.base_dvd

theorem wellFormed_topPiece (hnew : newReg.WellFormed) (hr : r.WellFormed)
    (hne : overlapTopSize newReg r ≠ 0#64) : (topPiece newReg r).WellFormed := by
  obtain ⟨hbase, hends⟩ := ends_topPiece hwithin hlimit
  have hpos : 0 < (overlapTopSize newReg r).toNat :=
    Nat.pos_of_ne_zero fun hzero => hne (BitVec.eq_of_toNat_eq hzero)
  rw [toNat_overlapTopSize hwithin hlimit] at hpos
  refine MpRegion.wellFormed_of_ends ?_ ?_ ?_ ?_
  · rw [hbase, hends]
    omega
  · rw [hends]
    exact hlimit.le
  · rw [hbase]
    exact hnew.limit_dvd
  · rw [hends]
    exact hr.limit_dvd

theorem blockOk_pieces (hnew : newReg.WellFormed) (hr : r.WellFormed) (perms : MpuPerms) :
    BlockOk (blockOf (middlePiece newReg r) perms) ∧
      (overlapBottomSize newReg r ≠ 0#64 → BlockOk (blockOf (bottomPiece newReg r) perms)) ∧
      (overlapTopSize newReg r ≠ 0#64 → BlockOk (blockOf (topPiece newReg r) perms)) := by
  refine ⟨blockOk_blockOf (wellFormed_middlePiece hwithin hlimit hnew) ?_,
    fun hne => blockOk_blockOf (wellFormed_bottomPiece hwithin hnew hr hne) ?_,
    fun hne => blockOk_blockOf (wellFormed_topPiece hwithin hlimit hnew hr hne) ?_⟩
  · obtain ⟨hbase, hsize⟩ := middlePiece_eq hwithin hlimit
    rw [MpRegion.limit, hbase, hsize]
    exact hwithin.2.trans_lt hlimit
  · rw [(ends_bottomPiece hwithin).2]
    exact newReg.base.isLt
  · rw [(ends_topPiece hwithin hlimit).2]
    exact hlimit

end Pieces

theorem wellFormed_mpuEntrySetPerms {perms : MpuPerms} (h : r.WellFormed) :
    (mpuEntrySetPerms r perms).WellFormed :=
  ⟨h.pos, h.limit_le, h.base_dvd, h.size_dvd⟩

section SetPiece

variable {priv : Priv} {piece : MpRegion} {perms : MpuPerms}

theorem setPriv_other {old : MpuPerms} (hold : ¬ old.Has priv) (hperms : ¬ perms.Has priv) :
    old.setPriv (if priv = .vm then .hyp else .vm) (if priv = .vm then perms.el2 else perms.el1) =
      perms := by
  rw [MpuPerms.Has, not_not] at hold hperms
  by_cases hpriv : priv = .vm
  · simp only [hpriv, if_true] at hold hperms ⊢
    rw [MpuPerms.setPriv, if_neg (by decide), hold, ← hperms]
  · simp only [hpriv, if_false] at hold hperms ⊢
    rw [MpuPerms.setPriv, if_pos rfl, hold, ← hperms]

theorem table_setPiece (hwf : o ≠ none → piece.WellFormed) (hfit : piece.memFlags.Fit)
    (henables : piece.memFlags.Enables) (hclean : ∀ i, o = some i → ¬ (m.perms i).Has priv)
    (hperms : ¬ perms.Has priv) :
    (MpuMap.setPiece priv m o piece perms).table =
      Blocks.put m.table o ({ mpuEntrySetPerms piece perms with asSec := .unknown }, perms) := by
  cases o with
  | none => rfl
  | some i =>
      rw [MpuMap.setPiece, table_write (wellFormed_mpuEntrySetPerms (hwf (Option.some_ne_none i)))
        (fit_mpuEntrySetPerms hfit) (enables_mpuEntrySetPerms.mpr henables),
        setPriv_other (hclean i rfl) hperms]
      rfl

theorem perms_setPiece_of_ne (hj : o ≠ some j) :
    (MpuMap.setPiece priv m o piece perms).perms j = m.perms j := by
  cases o with
  | none => rfl
  | some i => exact Function.update_of_ne (fun heq => hj (congrArg some heq.symm)) _ _

theorem block_put {t : Fin n → Option (MpRegion × MpuPerms)} {b : MpRegion × MpuPerms}
    (h : ∀ i b, t i = some b → BlockOk b) (hb : o ≠ none → BlockOk b) :
    ∀ j c, Blocks.put t o b j = some c → BlockOk c := by
  cases o with
  | none => exact h
  | some i => exact block_update h (hb (Option.some_ne_none i))

end SetPiece

end Armv8Mpu

namespace MpuMap

open Armv8Mpu

variable {n : ℕ} {priv : Priv} {s s' : MpuMap n} {newReg : MpRegion} {mpid : Fin n}

/-- A round for an entry that is cut: entries are taken for the pieces, and all three are
written. -/
theorem mapOverlap_eq_next (hround : s.mapOverlap priv newReg mpid = .next s') :
    s.mpu.conflicts mpid priv newReg ≠ true ∧ ∃ low m₁ high m₂,
      s.mpu.allocatePiece (overlapBottomSize newReg (s.mpu.entryGetRegion mpid)) = some (low, m₁) ∧
      m₁.allocatePiece (overlapTopSize newReg (s.mpu.entryGetRegion mpid)) = some (high, m₂) ∧
      s'.mpu =
        let r := s.mpu.entryGetRegion mpid
        let newPerms := memVmpuEntryPerms newReg
        setPiece priv (setPiece priv ((m₂.entryUpdatePrivPerms mpid priv newPerms).entryModify mpid
          (mpuEntrySetPerms (middlePiece newReg r) ((s.mpu.perms mpid).setPriv priv newPerms)))
          low (bottomPiece newReg r) (s.mpu.perms mpid)) high (topPiece newReg r)
          (s.mpu.perms mpid) := by
  simp only [mapOverlap] at hround
  split at hround
  · cases hround
  rename_i hconf
  split at hround
  · cases hround
  rename_i low m₁ hlow
  split at hround
  · cases hround
  rename_i high m₂ hhigh
  cases hround
  exact ⟨hconf, low, m₁, high, m₂, hlow, hhigh, rfl⟩

/-- The three pieces of an entry, as blocks. -/
theorem table_pieces {m : Armv8Mpu n} {low high : Option (Fin n)} {middle bottom top : MpRegion}
    {perms : MpuPerms} {new : Perms} (hperms : m.perms mpid = perms) (hno : ¬ perms.Has priv)
    (hmiddle : middle.WellFormed) (hmiddleFit : middle.memFlags.Fit)
    (hmiddleEn : middle.memFlags.Enables) (hbottom : low ≠ none → bottom.WellFormed)
    (hbottomFit : bottom.memFlags.Fit) (hbottomEn : bottom.memFlags.Enables)
    (htop : high ≠ none → top.WellFormed) (htopFit : top.memFlags.Fit)
    (htopEn : top.memFlags.Enables) (hlow : ∀ i, low = some i → i ≠ mpid ∧ ¬ (m.perms i).Has priv)
    (hhigh : ∀ i, high = some i → i ≠ mpid ∧ low ≠ some i ∧ ¬ (m.perms i).Has priv) :
    (setPiece priv (setPiece priv ((m.entryUpdatePrivPerms mpid priv new).entryModify mpid
      (mpuEntrySetPerms middle (perms.setPriv priv new))) low bottom perms) high top perms).table =
      Blocks.cut m.table mpid (blockOf middle (perms.setPriv priv new)) low (blockOf bottom perms)
        high (blockOf top perms) := by
  have hcut : ∀ i, i ≠ mpid → ((m.entryUpdatePrivPerms mpid priv new).entryModify mpid
      (mpuEntrySetPerms middle (perms.setPriv priv new))).perms i = m.perms i :=
    fun i hi => Function.update_of_ne hi _ _
  rw [table_setPiece htop htopFit htopEn (fun i hi => ?_) hno,
    table_setPiece hbottom hbottomFit hbottomEn (fun i hi => ?_) hno, table_entryModify,
    table_write (wellFormed_mpuEntrySetPerms hmiddle) (fit_mpuEntrySetPerms hmiddleFit)
      (enables_mpuEntrySetPerms.mpr hmiddleEn), hperms]
  · rfl
  · rw [hcut i (hlow i hi).1]
    exact (hlow i hi).2
  · rw [perms_setPiece_of_ne (hhigh i hi).2.1, hcut i (hhigh i hi).1]
    exact (hhigh i hi).2.2

/-- The table after a round for a region that an entry has in it: the entry is cut, and a piece
gets a free entry where there is something left. -/
theorem table_of_mapOverlap (h : s.mpu.Sound) (hmpid : mpid ∈ s.mpu.order)
    (hreg : newReg.WellFormed) (hwithin : newReg.Within (s.mpu.entryGetRegion mpid))
    (hleft : ∀ i ∈ s.mpu.pieceEntries newReg mpid, ¬ (s.mpu.perms i).Has priv)
    (hround : s.mapOverlap priv newReg mpid = .next s') :
    ∃ low high,
      (low = none ↔ overlapBottomSize newReg (s.mpu.entryGetRegion mpid) = 0#64) ∧
      (high = none ↔ overlapTopSize newReg (s.mpu.entryGetRegion mpid) = 0#64) ∧
      (∀ i, low = some i → s.mpu.table i = none) ∧
      (∀ i, high = some i → s.mpu.table i = none ∧ low ≠ some i) ∧
      s'.mpu.table = Blocks.cut s.mpu.table mpid
        (blockOf (middlePiece newReg (s.mpu.entryGetRegion mpid))
          ((s.mpu.perms mpid).setPriv priv (memVmpuEntryPerms newReg)))
        low (blockOf (bottomPiece newReg (s.mpu.entryGetRegion mpid)) (s.mpu.perms mpid))
        high (blockOf (topPiece newReg (s.mpu.entryGetRegion mpid)) (s.mpu.perms mpid)) := by
  have hvalid := (h.tracks.mem_order mpid).mp hmpid
  have hok := h.block mpid _ (table_of_valid hvalid)
  have hfit := fit_entryGetRegion (m := s.mpu) (i := mpid)
  have henables := h.tracks.enables hmpid
  obtain ⟨hconf, low, m₁, high, m₂, hlow, hhigh, heq⟩ := mapOverlap_eq_next hround
  have hno : ¬ (s.mpu.perms mpid).Has priv := by
    intro hhas
    refine hconf ?_
    rw [conflicts, Bool.or_eq_true, Bool.or_eq_true, Bool.or_eq_true]
    exact .inl (.inl (.inl (decide_eq_true hhas)))
  have hpieces : s.mpu.pieceEntries newReg mpid = low.toList ++ high.toList := by
    rw [pieceEntries, hlow]
    dsimp only
    rw [hhigh]
  obtain ⟨hlowZero, hzeroLow, -⟩ := eq_of_allocatePiece hlow
  obtain ⟨hhighZero, hzeroHigh, -⟩ := eq_of_allocatePiece hhigh
  obtain ⟨hlowFree, hhighFree, htable₂, hperms₂⟩ := free_of_allocatePieces h.tracks hlow hhigh
  have hne : ∀ j, s.mpu.entryValid j = false → j ≠ mpid := by
    rintro j hj rfl
    rw [hvalid] at hj
    cases hj
  refine ⟨low, high, ⟨hlowZero, hzeroLow⟩, ⟨hhighZero, hzeroHigh⟩,
    fun i hi => table_of_not_valid (hlowFree i hi),
    fun i hi => ⟨table_of_not_valid (hhighFree i hi).1, (hhighFree i hi).2⟩, ?_⟩
  rw [heq, ← htable₂]
  refine table_pieces (congrFun hperms₂ mpid) hno
    (wellFormed_middlePiece hwithin hok.limit_lt hreg) hfit henables
    (fun hsome => wellFormed_bottomPiece hwithin hreg hok.wellFormed (hsome ∘ hzeroLow)) hfit
    henables
    (fun hsome => wellFormed_topPiece hwithin hok.limit_lt hreg hok.wellFormed
      (hsome ∘ hzeroHigh)) hfit henables
    (fun i hi => ⟨hne i (hlowFree i hi), ?_⟩)
    fun i hi => ⟨hne i (hhighFree i hi).1, (hhighFree i hi).2, ?_⟩
  · rw [hperms₂]
    exact hleft i (by simp [hpieces, hi])
  · rw [hperms₂]
    exact hleft i (by simp [hpieces, hi])

/-- Permissions that a privilege gets on a part of an entry are new to no other privilege. -/
theorem covered_setPriv (hvalid : s.mpu.entryValid mpid = true)
    (hwithin : newReg.Within (s.mpu.entryGetRegion mpid)) (p : Priv) :
    s.mpu.covered p ∪ {a | newReg.Covers a ∧
        ((s.mpu.perms mpid).setPriv priv (memVmpuEntryPerms newReg)).Has p} =
      s.mpu.covered p ∪ {a | newReg.Covers a ∧ p.Same priv} := by
  ext a
  simp only [Set.mem_union, Set.mem_ofPred_eq, MpuPerms.has_setPriv]
  by_cases hsame : p.Same priv
  · simp only [hsame, if_true]
    exact or_congr_right (and_congr_right fun _ =>
      iff_of_true (memVmpuEntryPerms_ne newReg) trivial)
  · have hin : newReg.Covers a → (s.mpu.perms mpid).Has p → a ∈ s.mpu.covered p :=
      fun ha hhas => Blocks.extent_subset_cover (table_of_valid hvalid) hhas
        ⟨hwithin.1.trans ha.1, ha.2.trans_le hwithin.2⟩
    simp only [hsame, if_false, and_false, or_false]
    exact or_iff_left_of_imp fun h => hin h.1 h.2

/-- The entry is cut into what the region takes up, which both privileges have then, and what is
left of it below and above, which only the other one has. -/
theorem covered_mapOverlap (h : s.mpu.Sound) (hmpid : mpid ∈ s.mpu.order)
    (hreg : newReg.WellFormed) (hwithin : newReg.Within (s.mpu.entryGetRegion mpid))
    (hleft : ∀ i ∈ s.mpu.pieceEntries newReg mpid, ¬ (s.mpu.perms i).Has priv)
    (hround : s.mapOverlap priv newReg mpid = .next s') :
    s'.mpu.Sound ∧
      ∀ p, s'.mpu.covered p = s.mpu.covered p ∪ {a | newReg.Covers a ∧ p.Same priv} := by
  have htracks := tracks_of_mapOverlap h.tracks hmpid hround
  have hvalid := (h.tracks.mem_order mpid).mp hmpid
  have hok := h.block mpid _ (table_of_valid hvalid)
  have hlimit := hok.limit_lt
  obtain ⟨low, high, hlow, hhigh, hlowFree, hhighFree, htable⟩ :=
    table_of_mapOverlap h hmpid hreg hwithin hleft hround
  obtain ⟨hextent, hbm, hbt, hmt⟩ := extent_pieces hwithin hlimit (s.mpu.perms mpid)
    ((s.mpu.perms mpid).setPriv priv (memVmpuEntryPerms newReg))
  obtain ⟨hseparate, hcover⟩ := h.separate.cut (table_of_valid hvalid) hlowFree
    (fun j hj => (hhighFree j hj).1) (fun j hj hh => (hhighFree j hh).2 hj)
    (fun hnone => extent_blockOf_of_size (hlow.mp hnone))
    (fun hnone => extent_blockOf_of_size (hhigh.mp hnone)) hextent hbm hbt hmt
  have hpieces := blockOk_pieces hwithin hlimit hreg hok.wellFormed
  have hblock : ∀ i b, s'.mpu.table i = some b → BlockOk b := by
    rw [htable]
    exact block_put (block_put (block_update h.block (hpieces _).1)
      fun hsome => (hpieces _).2.1 (hsome ∘ hlow.mpr))
        fun hsome => (hpieces _).2.2 (hsome ∘ hhigh.mpr)
  refine ⟨⟨htracks, htable ▸ hseparate, hblock⟩, fun p => ?_⟩
  have hgain : (s.mpu.perms mpid).Has p →
      ((s.mpu.perms mpid).setPriv priv (memVmpuEntryPerms newReg)).Has p := by
    intro hhas
    rw [MpuPerms.has_setPriv]
    split
    · exact memVmpuEntryPerms_ne newReg
    · exact hhas
  rw [covered, htable, hcover, h.separate.cover_pieces (table_of_valid hvalid) hextent hgain
    Iff.rfl Iff.rfl, ← covered_setPriv hvalid hwithin]
  simp only [mem_extent_blockOf, covers_middlePiece hwithin hlimit]
  rfl

end MpuMap

end BaoHypervisor
