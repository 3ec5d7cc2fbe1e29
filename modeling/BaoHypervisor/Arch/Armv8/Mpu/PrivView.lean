import BaoHypervisor.Arch.Armv8.Mpu.Calls
import BaoHypervisor.Arch.Armv8.Mpu.MapView
import Mathlib.Data.Fintype.Option
import Mathlib.Data.Set.Card
import Mathlib.Order.Interval.Finset.Nat

/-!
# What the privileges see of the MPU of Armv8-R

The hypervisor and the guest each have a set of addresses mapped, and both sets are kept in one
array of entries that must not overlap. In a run of calls of `mpu_map` and `mpu_unmap` after
`mpu_init` the entries show each privilege just what its calls have mapped (`along_right`). A call
has to fit the entries for that: a region to map lies in an entry or apart from all, a region to
unmap does not cut an entry of the privilege, and no entry that is taken has permissions left over.
-/

namespace BaoHypervisor

namespace Armv8Mpu

variable {n : ℕ} {m m' : Armv8Mpu n} {mpid : Fin n} {priv : Priv} {mpr : MpRegion}

/-- The call of `mpu_map` fits the entries. -/
structure MapFits (m : Armv8Mpu n) (priv : Priv) (mpr : MpRegion) : Prop where
  nested : ∀ i, m.entryValid i = true →
    mpr.Within (m.entryGetRegion i) ∨ mpr.Apart (m.entryGetRegion i)
  pieces : ∀ mpid, m.place mpr none m.order = .overlap mpid →
    m.conflicts mpid priv mpr = true ∨ ∀ i ∈ m.pieceEntries mpr mpid, ¬ (m.perms i).Has priv
  flags : ∀ prev next, m.place mpr none m.order = .gap prev next → mpr.memFlags.For priv
  fresh : ∀ prev next, m.place mpr none m.order = .gap prev next →
    (∃ i, prev = some i ∧ MpuMap.MergesPrev priv (.start m mpr) mpr i) ∨
      (∃ j, next = some j ∧ MpuMap.MergesNext priv (.start m mpr) mpr j) ∨
        ∀ i, m.findFree = some i → ¬ (m.perms i).Has priv.other

instance (priv : Priv) (s : MpuMap n) (newReg : MpRegion) (mpid : Fin n) :
    Decidable (MpuMap.MergesPrev priv s newReg mpid) :=
  inferInstanceAs (Decidable (_ ∧ _))

instance (priv : Priv) (s : MpuMap n) (newReg : MpRegion) (mpid : Fin n) :
    Decidable (MpuMap.MergesNext priv s newReg mpid) :=
  inferInstanceAs (Decidable (_ ∧ _))

theorem mapFits_iff : m.MapFits priv mpr ↔
    (∀ i, m.entryValid i = true →
      mpr.Within (m.entryGetRegion i) ∨ mpr.Apart (m.entryGetRegion i)) ∧
    (∀ mpid, m.place mpr none m.order = .overlap mpid →
      m.conflicts mpid priv mpr = true ∨ ∀ i ∈ m.pieceEntries mpr mpid, ¬ (m.perms i).Has priv) ∧
    (∀ prev next, m.place mpr none m.order = .gap prev next → mpr.memFlags.For priv) ∧
    ∀ prev next, m.place mpr none m.order = .gap prev next →
      (∃ i, prev = some i ∧ MpuMap.MergesPrev priv (.start m mpr) mpr i) ∨
        (∃ j, next = some j ∧ MpuMap.MergesNext priv (.start m mpr) mpr j) ∨
          ∀ i, m.findFree = some i → ¬ (m.perms i).Has priv.other :=
  ⟨fun h => ⟨h.nested, h.pieces, h.flags, h.fresh⟩, fun h => ⟨h.1, h.2.1, h.2.2.1, h.2.2.2⟩⟩

instance (m : Armv8Mpu n) (priv : Priv) (mpr : MpRegion) : Decidable (m.MapFits priv mpr) :=
  have (prev next : Option (Fin n)) :
      Decidable ((∃ i, prev = some i ∧ MpuMap.MergesPrev priv (.start m mpr) mpr i) ∨
        (∃ j, next = some j ∧ MpuMap.MergesNext priv (.start m mpr) mpr j) ∨
          ∀ i, m.findFree = some i → ¬ (m.perms i).Has priv.other) := inferInstance
  decidable_of_iff' _ mapFits_iff

/-- The call of `mpu_unmap` fits the entries. -/
def UnmapFits (m : Armv8Mpu n) (priv : Priv) (mpr : MpRegion) : Prop :=
  ∀ i, m.entryValid i = true → (m.perms i).Has priv →
    (m.entryGetRegion i).Within mpr ∨ (m.entryGetRegion i).Apart mpr

instance (m : Armv8Mpu n) (priv : Priv) (mpr : MpRegion) : Decidable (m.UnmapFits priv mpr) :=
  inferInstanceAs (Decidable (∀ _, _))

/-- Where the entries have a gap for a region, no entry has the region in it. -/
theorem apart_of_gap {entries : List (Fin n)} {start prev next : Option (Fin n)}
    (hsorted : entries.Pairwise fun i j => (m.entryGetRegion i).base ≤ (m.entryGetRegion j).base)
    (hok : ∀ i ∈ entries, (m.entryGetRegion i).WellFormed) (hmpr : mpr.WellFormed)
    (hlimit : mpr.limit < 2 ^ 64)
    (hnested : ∀ i ∈ entries, mpr.Within (m.entryGetRegion i) ∨ mpr.Apart (m.entryGetRegion i))
    (h : m.place mpr start entries = .gap prev next) :
    ∀ i ∈ entries, mpr.Apart (m.entryGetRegion i) := by
  induction entries generalizing start with
  | nil => exact fun i hi => absurd hi List.not_mem_nil
  | cons k entries ih =>
      obtain ⟨hk, hsorted⟩ := List.pairwise_cons.mp hsorted
      obtain ⟨hokk, hok⟩ := List.forall_mem_cons.mp hok
      obtain ⟨hnestedk, hnested⟩ := List.forall_mem_cons.mp hnested
      simp only [place] at h
      split at h
      · rename_i hle
        rw [BitVec.le_def, MpRegion.toNat_base_add_size hlimit] at hle
        refine List.forall_mem_cons.mpr ⟨.inl hle, fun i hi => .inl (hle.trans ?_)⟩
        exact BitVec.le_def.mp (hk i hi)
      split at h
      · cases h
      · rename_i hoverlap
        rw [memRegionsOverlap_iff hmpr hokk] at hoverlap
        exact List.forall_mem_cons.mpr ⟨hnestedk.resolve_left hoverlap,
          ih hsorted hok hnested h⟩

theorem Sound.region (h : m.Sound) (hi : mpid ∈ m.order) :
    (m.entryGetRegion mpid).WellFormed ∧ (m.entryGetRegion mpid).limit < 2 ^ 64 := by
  have hok := h.block mpid _ (table_of_valid ((h.tracks.mem_order mpid).mp hi))
  exact ⟨hok.wellFormed, hok.limit_lt⟩

theorem Agrees.table_eq (h : Agrees m m') (hm : m.Tracks ∅) (hm' : m'.Tracks ∅) :
    m'.table = m.table := by
  funext i
  have hiff : m'.entryValid i = m.entryValid i := by
    have hbit := hm.bitmap i
    have hbit' := hm'.bitmap i
    rw [Set.mem_empty_iff_false, or_false] at hbit hbit'
    rw [h.bitmap] at hbit'
    exact Bool.eq_iff_iff.mpr (hbit'.symm.trans hbit)
  by_cases hi : m.entryValid i = true
  · have hbit := (hm.bitmap i).mpr (.inl hi)
    exact table_congr (h.prbar i hbit) (h.prlar i hbit) (congrFun h.perms i)
  · rw [Bool.not_eq_true] at hi
    rw [table_of_not_valid hi, table_of_not_valid (hiff.trans hi)]

/-- A region that fits the entries is mapped or refused in one round. -/
theorem mpuMap_eq {fuel : ℕ} (h : m.Sound) (hmpr : mpr.WellFormed) (hfuel : 2 ≤ fuel) :
    m.mpuMap fuel priv mpr =
      match (MpuMap.start m mpr).round priv mpr with
      | .next s => some (true, s.mpu)
      | .failed m bottomMpid topMpid =>
          let m := bottomMpid.elim m m.entryFree
          some (false, topMpid.elim m m.entryFree)
      | .error => none := by
  obtain ⟨fuel, rfl⟩ := Nat.exists_eq_add_of_le' hfuel
  have hsize : (MpuMap.start m mpr).sizeLeft ≠ 0#64 := by
    intro hzero
    have hpos := hmpr.pos
    rw [show mpr.size = 0#64 from hzero] at hpos
    exact absurd hpos (by decide)
  have hentries : ∀ i ∈ m.order, (m.entryGetRegion i).limit < 2 ^ 64 - 1 := by
    intro i hi
    obtain ⟨hwf, hlt⟩ := h.region hi
    have hdvd := hwf.limit_dvd
    rw [mpuGranularity] at hdvd
    omega
  have hnew : (MpuMap.start m mpr).newReg = some mpr := rfl
  rw [mpuMap, MpuMap.loop, if_neg hsize, hnew]
  dsimp only
  cases hround : (MpuMap.start m mpr).round priv mpr with
  | next s =>
      have hleft := MpuMap.sizeLeft_of_round (s := .start m mpr) rfl hmpr.limit_le hentries hround
      dsimp only
      rw [MpuMap.loop, if_pos hleft]
  | failed m bottomMpid topMpid => rfl
  | error => rfl

theorem covered_round {s' : MpuMap n} (h : m.Sound) (hmpr : mpr.WellFormed)
    (hlimit : mpr.limit < 2 ^ 64) (hfits : m.MapFits priv mpr)
    (hround : (MpuMap.start m mpr).round priv mpr = .next s') :
    s'.mpu.Sound ∧
      ∀ p, s'.mpu.covered p = m.covered p ∪ {a | mpr.Covers a ∧ p.Same priv} := by
  have hvalid : ∀ i ∈ m.order, m.entryValid i = true := fun i hi => (h.tracks.mem_order i).mp hi
  have hplaceEq : (MpuMap.start m mpr).mpu.place mpr none (MpuMap.start m mpr).mpu.order =
    m.place mpr none m.order := rfl
  rw [MpuMap.round, hplaceEq] at hround
  cases hplace : m.place mpr none m.order with
  | overlap mpid =>
      rw [hplace] at hround
      dsimp only at hround
      obtain ⟨hmem, hoverlap⟩ := MpuMap.place_overlap hplace
      have hwithin := (memRegionsOverlap_iff hmpr (h.region hmem).1).mp hoverlap
      have hleft := (hfits.pieces mpid hplace).resolve_left
        (MpuMap.mapOverlap_eq_next hround).1
      exact MpuMap.covered_mapOverlap (s := .start m mpr) h hmem hmpr hwithin hleft hround
  | gap prev next =>
      rw [hplace] at hround
      dsimp only at hround
      obtain ⟨hprev, hnext, hne⟩ := MpuMap.place_gap h.tracks.inOrder.nodup
        (fun i hi => (Option.some_ne_none i hi.symm).elim) hplace
      have hapart := apart_of_gap h.tracks.inOrder.sorted (fun i hi => (h.region hi).1) hmpr hlimit
        (fun i hi => hfits.nested i (hvalid i hi)) hplace
      have hfree : (∀ i, m.findFree = some i → ¬ (m.perms i).Has priv.other) →
          ∀ i, m.findFree = some i → ∀ p : Priv, ¬ p.Same priv → ¬ (m.perms i).Has p :=
        fun hleft i hi p hp hhas =>
          hleft i hi ((MpuPerms.has_congr (Priv.same_other_iff.mpr hp)).mp hhas)
      exact MpuMap.covered_mapGap (s := .start m mpr) h hmpr hlimit (hfits.flags prev next hplace)
        (fun i hi => hapart i ((h.tracks.mem_order i).mpr hi))
        (fun i hi => (hprev i hi).resolve_left fun heq => Option.some_ne_none i heq.symm) hnext hne
        ((hfits.fresh prev next hplace).imp_right (Or.imp_right hfree)) hround

/-- A call of `mpu_map` adds the region for its privilege, or it leaves the table as it was and
returns false, or there is no entry left for the region. -/
theorem mpuMap_cases {fuel : ℕ} (h : m.Sound) (hmpr : mpr.WellFormed) (hlimit : mpr.limit < 2 ^ 64)
    (hfits : m.MapFits priv mpr) (hfuel : 2 ≤ fuel) :
    (∃ m', m.mpuMap fuel priv mpr = some (true, m') ∧ m'.Sound ∧
        ∀ p, m'.covered p = m.covered p ∪ {a | mpr.Covers a ∧ p.Same priv}) ∨
      (∃ m', m.mpuMap fuel priv mpr = some (false, m') ∧ m'.Sound ∧ m'.table = m.table) ∨
        m.mpuMap fuel priv mpr = none ∧ m.freeEntries = 0 := by
  rw [mpuMap_eq h hmpr hfuel]
  cases hround : (MpuMap.start m mpr).round priv mpr with
  | next s' => exact .inl ⟨_, rfl, covered_round h hmpr hlimit hfits hround⟩
  | failed mpu bottom top =>
      rw [MpuMap.round] at hround
      split at hround
      · obtain ⟨rfl, hagrees⟩ := MpuMap.agrees_of_mapOverlap hround
        obtain ⟨-, htracks⟩ := MpuMap.tracks_of_mapOverlap_failed h.tracks hround
        have htable := hagrees.table_eq h.tracks htracks
        exact .inr (.inl ⟨_, rfl, ⟨htracks, htable ▸ h.separate, htable ▸ h.block⟩, htable⟩)
      · exact absurd hround MpuMap.mapGap_ne_failed
  | error =>
      refine .inr (.inr ⟨rfl, ?_⟩)
      rw [MpuMap.round] at hround
      split at hround
      · simp only [MpuMap.mapOverlap] at hround
        split at hround
        · cases hround
        split at hround
        · cases hround
        split at hround <;> cases hround
      · exact MpuMap.mapGap_eq_error hround

theorem has_iff : m.entryHasPriv mpid priv = true ↔ (m.perms mpid).Has priv := by
  rw [entryHasPriv, decide_eq_true_eq]
  rfl

/-- Where no entry of the privilege is found for a region, none has an address of it. -/
theorem apart_of_findPriv {entries : List (Fin n)}
    (hsorted : entries.Pairwise fun i j => (m.entryGetRegion i).base ≤ (m.entryGetRegion j).base)
    (hok : ∀ i ∈ entries, (m.entryGetRegion i).WellFormed) (hmpr : mpr.WellFormed)
    (hlimit : mpr.limit < 2 ^ 64)
    (hfits : ∀ i ∈ entries, (m.perms i).Has priv →
      (m.entryGetRegion i).Within mpr ∨ (m.entryGetRegion i).Apart mpr)
    (h : m.findPriv priv mpr entries = none) :
    ∀ i ∈ entries, (m.perms i).Has priv → (m.entryGetRegion i).Apart mpr := by
  induction entries with
  | nil => exact fun i hi => absurd hi List.not_mem_nil
  | cons k entries ih =>
      obtain ⟨hk, hsorted⟩ := List.pairwise_cons.mp hsorted
      obtain ⟨hokk, hok⟩ := List.forall_mem_cons.mp hok
      obtain ⟨hfitsk, hfits⟩ := List.forall_mem_cons.mp hfits
      simp only [findPriv] at h
      split at h
      · rename_i hlt
        rw [BitVec.lt_def, MpRegion.toNat_base_add_size hlimit] at hlt
        refine List.forall_mem_cons.mpr ⟨fun _ => .inr hlt.le, fun i hi _ => .inr (hlt.le.trans ?_)⟩
        exact BitVec.le_def.mp (hk i hi)
      split at h
      · rename_i hpriv
        have hnot : ¬ (m.perms k).Has priv := by
          rw [← has_iff]
          simpa using hpriv
        exact List.forall_mem_cons.mpr ⟨fun hhas => absurd hhas hnot, ih hsorted hok hfits h⟩
      split at h
      · cases h
      · rename_i hoverlap
        rw [memRegionsOverlap_iff hokk hmpr] at hoverlap
        exact List.forall_mem_cons.mpr ⟨fun hhas => (hfitsk hhas).resolve_left hoverlap,
          ih hsorted hok hfits h⟩

/-- The block of an entry that is within the region: it is gone if only the privilege had it, and
else the other one keeps it. -/
theorem table_dropPriv (priv : Priv) (h : m.Sound) (hi : mpid ∈ m.order)
    (hrest : overlapTopSize mpr (m.entryGetRegion mpid) = 0#64 ∧
      overlapBottomSize mpr (m.entryGetRegion mpid) = 0#64) :
    (m.dropPriv mpid priv mpr).table = Function.update m.table mpid
      (if (m.perms mpid).setPriv priv permNone = ⟨permNone, permNone⟩ then none
        else some (blockOf (m.entryGetRegion mpid) ((m.perms mpid).setPriv priv permNone))) := by
  have hiff : (((m.perms mpid).setPriv priv permNone).el1 = permNone ∧
      ((m.perms mpid).setPriv priv permNone).el2 = permNone) ↔
      (m.perms mpid).setPriv priv permNone = ⟨permNone, permNone⟩ := by
    rw [MpuPerms.mk.injEq, and_comm]
  have hregion : ({ m.entryGetRegion mpid with
      base := if (0#64 : SizeT) < 0#64 then mpr.base else (m.entryGetRegion mpid).base
      size := (m.entryGetRegion mpid).size - 0#64 - 0#64 } : MpRegion) = m.entryGetRegion mpid := by
    rw [if_neg (by decide), BitVec.sub_zero, BitVec.sub_zero]
  simp only [dropPriv, hrest.1, hrest.2, perms_entryUpdatePrivPerms, hiff, hregion]
  split
  · rw [table_entryFree, update_table_entryUpdatePrivPerms]
  · rw [table_entryModify, table_write (wellFormed_mpuEntrySetPerms (h.region hi).1)
      (fit_mpuEntrySetPerms fit_entryGetRegion)
      (enables_mpuEntrySetPerms.mpr (h.tracks.enables hi))]
    rfl

/-- The privilege loses the addresses of an entry that is within the region, and the other one
keeps what it has. -/
theorem covered_dropPriv (priv : Priv) (h : m.Sound) (hi : mpid ∈ m.order)
    (hrest : overlapTopSize mpr (m.entryGetRegion mpid) = 0#64 ∧
      overlapBottomSize mpr (m.entryGetRegion mpid) = 0#64) :
    (m.dropPriv mpid priv mpr).Sound ∧
      ∀ p, (m.dropPriv mpid priv mpr).covered p =
        m.covered p \ {a | (m.entryGetRegion mpid).Covers a ∧ p.Same priv} := by
  have htracks := h.tracks.dropPriv priv mpr hi
  have hvalid := (h.tracks.mem_order mpid).mp hi
  have hblock := table_of_valid hvalid
  have htable := table_dropPriv priv h hi hrest
  have hnot : ∀ p : Priv, p.Same priv → ¬ ((m.perms mpid).setPriv priv permNone).Has p := by
    intro p hp
    rw [MpuPerms.has_setPriv, if_pos hp]
    exact fun hne => hne rfl
  have hkept : ∀ p : Priv, ¬ p.Same priv →
      (((m.perms mpid).setPriv priv permNone).Has p ↔ (m.perms mpid).Has p) := by
    intro p hp
    rw [MpuPerms.has_setPriv, if_neg hp]
  -- an address of the entry is covered if the permissions of the entry let it be
  have hmem : ∀ (p : Priv) (a : ℕ), (m.entryGetRegion mpid).Covers a →
      (a ∈ m.covered p ↔ (m.perms mpid).Has p) := fun p a ha =>
    h.separate.mem_cover_iff hblock ha
  split at htable
  · rename_i hnone
    refine ⟨⟨htracks, htable ▸ h.separate.update_none mpid,
      htable ▸ block_update_none h.block⟩, fun p => ?_⟩
    have hnoPerms : ¬ ((m.perms mpid).setPriv priv permNone).Has p := by
      rw [hnone, MpuPerms.Has]
      split <;> exact fun hne => hne rfl
    rw [covered, htable, Blocks.cover_update_none h.separate, hblock]
    ext a
    by_cases ha : (m.entryGetRegion mpid).Covers a
    · refine iff_of_false (fun hin => hin.2 ha) fun hin => ?_
      have hsame : ¬ p.Same priv := fun hsame => hin.2 ⟨ha, hsame⟩
      exact hnoPerms ((hkept p hsame).mpr ((hmem p a ha).mp hin.1))
    · exact and_congr_right fun _ => iff_of_true (fun hin => ha hin) fun hin => ha hin.1
  · have hok := h.region hi
    refine ⟨⟨htracks, htable ▸ h.separate.update_some ?_,
      htable ▸ block_update h.block (blockOk_blockOf hok.1 hok.2)⟩, fun p => ?_⟩
    · rw [hblock]
      exact Set.disjoint_sdiff_right
    · rw [covered, htable, Blocks.cover_update_some h.separate, hblock]
      ext a
      by_cases ha : (m.entryGetRegion mpid).Covers a
      · have hiff : ((m.perms mpid).setPriv priv permNone).Has p ↔
            (m.perms mpid).Has p ∧ ¬ p.Same priv := by
          by_cases hsame : p.Same priv
          · exact iff_of_false (hnot p hsame) fun hin => hin.2 hsame
          · rw [hkept p hsame, and_iff_left hsame]
        constructor
        · rintro (hin | hin)
          · exact absurd ha hin.2
          · obtain ⟨hhas, hsame⟩ := hiff.mp hin.2
            exact ⟨(hmem p a ha).mpr hhas, fun hin => hsame hin.2⟩
        · intro hin
          exact .inr ⟨ha, hiff.mpr ⟨(hmem p a ha).mp hin.1, fun hsame => hin.2 ⟨ha, hsame⟩⟩⟩
      · constructor
        · rintro (hin | hin)
          · exact ⟨hin.1, fun hin => ha hin.1⟩
          · exact absurd hin.1 ha
        · exact fun hin => .inl ⟨hin.1, fun hin => ha hin⟩

theorem perms_dropPriv :
    (m.dropPriv mpid priv mpr).perms =
      Function.update m.perms mpid ((m.perms mpid).setPriv priv permNone) := by
  rw [dropPriv]
  split <;> rfl

theorem unmapFits_iff :
    m.UnmapFits priv mpr ↔
      ∀ i b, m.table i = some b → b.2.Has priv → b.1.Within mpr ∨ b.1.Apart mpr := by
  constructor
  · intro h i b hb hhas
    obtain ⟨hvalid, rfl⟩ := table_eq_some_iff.mp hb
    exact h i hvalid hhas
  · intro h i hvalid hhas
    exact h i _ (table_of_valid hvalid) hhas

theorem covered_congr {p q : Priv} (h : p.Same q) : m.covered p = m.covered q := by
  simp only [covered, MpuPerms.has_congr h]

theorem covered_of_apart (h : ∀ a ∈ m.covered priv, ¬ mpr.Covers a) (p : Priv) :
    m.covered p = m.covered p \ {a | mpr.Covers a ∧ p.Same priv} := by
  rw [eq_comm, sdiff_eq_left, Set.disjoint_left]
  rintro a ha ⟨hcovers, hsame⟩
  rw [covered_congr hsame] at ha
  exact h a ha hcovers

def privEntries (m : Armv8Mpu n) (priv : Priv) : ℕ :=
  (Finset.univ.filter fun i => (m.perms i).Has priv).card

theorem privEntries_dropPriv (mpr : MpRegion) (hhas : (m.perms mpid).Has priv) :
    (m.dropPriv mpid priv mpr).privEntries priv < m.privEntries priv := by
  refine Finset.card_lt_card (Finset.ssubset_iff_of_subset ?_ |>.mpr ⟨mpid, ?_, ?_⟩)
  · intro i hi
    rw [Finset.mem_filter, perms_dropPriv] at hi
    rw [Finset.mem_filter]
    refine ⟨Finset.mem_univ i, ?_⟩
    by_cases himpid : i = mpid
    · rwa [himpid]
    · rw [Function.update_of_ne himpid] at hi
      exact hi.2
  · exact Finset.mem_filter.mpr ⟨Finset.mem_univ mpid, hhas⟩
  · intro hmem
    rw [Finset.mem_filter, perms_dropPriv, Function.update_self, MpuPerms.has_setPriv,
      if_pos (Priv.same_refl priv)] at hmem
    exact hmem.2 rfl

theorem ncard_covers (mpr : MpRegion) : {a | mpr.Covers a}.ncard = mpr.size.toNat := by
  have hset : {a | mpr.Covers a} = ↑(Finset.Ico mpr.base.toNat mpr.limit) := by
    ext a
    rw [Set.mem_ofPred_eq, Finset.mem_coe, Finset.mem_Ico]
    rfl
  rw [hset, Set.ncard_coe_finset, Nat.card_Ico, MpRegion.limit, Nat.add_sub_cancel_left]

theorem finite_covers (mpr : MpRegion) : {a | mpr.Covers a}.Finite :=
  (Set.finite_Ico mpr.base.toNat mpr.limit).subset fun _ ha => ha

theorem covered_of_findPriv_none (h : m.Sound) (hmpr : mpr.WellFormed)
    (hlimit : mpr.limit < 2 ^ 64) (hfits : m.UnmapFits priv mpr)
    (hfind : m.findPriv priv mpr m.order = none) :
    ∀ p, m.covered p = m.covered p \ {a | mpr.Covers a ∧ p.Same priv} := by
  refine covered_of_apart ?_
  have hapart := apart_of_findPriv h.tracks.inOrder.sorted (fun i hi => (h.region hi).1)
    hmpr hlimit (fun i hi => hfits i ((h.tracks.mem_order i).mp hi)) hfind
  rintro a ⟨i, b, hb, hhas, hab⟩ ha
  obtain ⟨hvalid, rfl⟩ := table_eq_some_iff.mp hb
  have happ := hapart i ((h.tracks.mem_order i).mpr hvalid) hhas
  simp only [extent, Set.mem_ofPred_eq, MpRegion.Covers, MpRegion.Apart] at ha hab happ
  omega

section DropPriv

variable (h : m.Sound) (hi : mpid ∈ m.order)
  (hrest : overlapTopSize mpr (m.entryGetRegion mpid) = 0#64 ∧
    overlapBottomSize mpr (m.entryGetRegion mpid) = 0#64)
include h hi hrest

/-- The entry that is taken away is none of the privilege's any more, and the others are as
before. -/
theorem unmapFits_dropPriv (hfits : m.UnmapFits priv mpr) :
    (m.dropPriv mpid priv mpr).UnmapFits priv mpr := by
  rw [unmapFits_iff] at hfits ⊢
  intro i b hb hbhas
  rw [table_dropPriv priv h hi hrest] at hb
  by_cases hmpid : i = mpid
  · rw [hmpid, Function.update_self] at hb
    split at hb
    · cases hb
    · cases hb
      rw [blockOf, MpuPerms.has_setPriv, if_pos (Priv.same_refl priv)] at hbhas
      exact absurd rfl hbhas
  · rw [Function.update_of_ne hmpid] at hb
    exact hfits i b hb hbhas

/-- What the privilege has of the region goes down by what the entry has. -/
theorem ncard_dropPriv (hhas : (m.perms mpid).Has priv)
    (hwithin : (m.entryGetRegion mpid).Within mpr) :
    ((m.dropPriv mpid priv mpr).covered priv ∩ {a | mpr.Covers a}).ncard +
        (m.entryGetRegion mpid).size.toNat =
      (m.covered priv ∩ {a | mpr.Covers a}).ncard := by
  have hpart : {a | (m.entryGetRegion mpid).Covers a} ⊆
      m.covered priv ∩ {a | mpr.Covers a} := by
    intro a ha
    refine ⟨Blocks.extent_subset_cover (table_of_valid
      ((h.tracks.mem_order mpid).mp hi)) hhas ha, ?_⟩
    exact ⟨hwithin.1.trans ha.1, ha.2.trans_le hwithin.2⟩
  have hinter : (m.dropPriv mpid priv mpr).covered priv ∩ {a | mpr.Covers a} =
      (m.covered priv ∩ {a | mpr.Covers a}) \ {a | (m.entryGetRegion mpid).Covers a} := by
    rw [(covered_dropPriv priv h hi hrest).2 priv]
    ext a
    simp only [Set.mem_inter_iff, Set.mem_sdiff, Set.mem_ofPred_eq, Priv.same_refl, and_true]
    tauto
  rw [hinter, ← ncard_covers]
  exact Set.ncard_sdiff_add_ncard_of_subset hpart
    ((finite_covers mpr).subset Set.inter_subset_right)

end DropPriv

end Armv8Mpu

namespace MpuUnmap

open Armv8Mpu

variable {n : ℕ} {priv : Priv} {mpr : MpRegion} {s : MpuUnmap n} {mpid : Fin n}

theorem unmapEntry_eq
    (hrest : overlapTopSize mpr (s.mpu.entryGetRegion mpid) = 0#64 ∧
      overlapBottomSize mpr (s.mpu.entryGetRegion mpid) = 0#64) :
    s.unmapEntry priv mpr mpid =
      some ⟨s.mpu.dropPriv mpid priv mpr, s.sizeLeft - (s.mpu.entryGetRegion mpid).size⟩ := by
  simp only [unmapEntry, hrest.1, hrest.2, setRest_zero, Option.bind_some, Option.map_some,
    BitVec.sub_zero]

/-- The loop takes the region away entry by entry. What the privilege still has of it is never more
than what the loop counts down. -/
theorem loop_spec {fuel : ℕ} (h : s.mpu.Sound) (hmpr : mpr.WellFormed) (hlimit : mpr.limit < 2 ^ 64)
    (hfits : s.mpu.UnmapFits priv mpr)
    (hleft : (s.mpu.covered priv ∩ {a | mpr.Covers a}).ncard ≤ s.sizeLeft.toNat)
    (hfuel : s.mpu.privEntries priv < fuel) :
    ∃ ok m', s.loop priv mpr fuel = some (ok, m') ∧ m'.Sound ∧
      ∀ p, m'.covered p = s.mpu.covered p \ {a | mpr.Covers a ∧ p.Same priv} := by
  induction fuel generalizing s with
  | zero => exact absurd hfuel (Nat.not_lt_zero _)
  | succ fuel ih =>
      rw [loop]
      by_cases hzero : s.sizeLeft = 0#64
      · rw [if_pos hzero]
        refine ⟨true, s.mpu, rfl, h, covered_of_apart ?_⟩
        rw [hzero, BitVec.toNat_zero, Nat.le_zero,
          Set.ncard_eq_zero ((finite_covers mpr).subset Set.inter_subset_right)] at hleft
        exact fun a ha hcovers => (Set.eq_empty_iff_forall_notMem.mp hleft a) ⟨ha, hcovers⟩
      rw [if_neg hzero]
      cases hfind : s.mpu.findPriv priv mpr s.mpu.order with
      | none => exact ⟨false, s.mpu, rfl, h, covered_of_findPriv_none h hmpr hlimit hfits hfind⟩
      | some mpid =>
          obtain ⟨hmem, hpriv, hbase, hoverlap⟩ := findPriv_eq_some hfind
          have hhas := has_iff.mp hpriv
          have hrest := rest_eq_zero hbase hoverlap
          have hwithin := (memRegionsOverlap_iff (h.region hmem).1 hmpr).mp hoverlap
          obtain ⟨hsound, hcovered⟩ := covered_dropPriv priv h hmem hrest
          dsimp only
          rw [unmapEntry_eq hrest]
          dsimp only
          have hncard := ncard_dropPriv h hmem hrest hhas hwithin
          have hleft' : ((s.mpu.dropPriv mpid priv mpr).covered priv ∩
              {a | mpr.Covers a}).ncard ≤
                (s.sizeLeft - (s.mpu.entryGetRegion mpid).size).toNat := by
            rw [BitVec.toNat_sub]
            omega
          have hfuel' := Nat.lt_of_lt_of_le (privEntries_dropPriv mpr hhas)
            (Nat.le_of_lt_succ hfuel)
          obtain ⟨ok, m', hloop, hsound', hcovered'⟩ := ih
            (s := ⟨s.mpu.dropPriv mpid priv mpr, s.sizeLeft - (s.mpu.entryGetRegion mpid).size⟩)
            hsound (unmapFits_dropPriv h hmem hrest hfits) hleft' hfuel'
          refine ⟨ok, m', hloop, hsound', fun p => ?_⟩
          rw [hcovered' p, hcovered p]
          ext a
          have hin : (s.mpu.entryGetRegion mpid).Covers a → mpr.Covers a := fun ha =>
            ⟨hwithin.1.trans ha.1, ha.2.trans_le hwithin.2⟩
          simp only [Set.mem_sdiff, Set.mem_ofPred_eq]
          tauto

end MpuUnmap

end BaoHypervisor
