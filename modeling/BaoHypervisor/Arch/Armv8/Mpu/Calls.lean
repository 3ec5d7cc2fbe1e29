import BaoHypervisor.Arch.Armv8.Mpu.Bookkeeping
import BaoHypervisor.Theory.Run

/-!
# Runs of the MPU of Armv8-R

Sequences of calls of `mpu_map` and `mpu_unmap` after `mpu_init`, round by round, so that calls
that do not return are there too. The bookkeeping is kept by all of them but a round of `mpu_map`
that gives an entry to a region whose flags do not enable it. The pieces for which `mpu_unmap` takes
entries without a check are always empty: it finds no entry that reaches out of the region
(`rest_eq_zero`).
-/

namespace BaoHypervisor

namespace Armv8Mpu

variable {n : ℕ} {m : Armv8Mpu n} {mpid : Fin n} {priv : Priv} {mpr : MpRegion}

/-- The list has each enabled entry once, sorted by base address, and no other one, and the bitmap
has the enabled entries. -/
structure Kept (m : Armv8Mpu n) : Prop where
  nodup : m.order.Nodup
  sorted : m.order.Pairwise fun i j => (m.entryGetRegion i).base ≤ (m.entryGetRegion j).base
  mem_order : ∀ i, i ∈ m.order ↔ m.entryValid i = true
  bitmap : ∀ i, m.entryValid i = true ↔ m.bitmap i = true

theorem kept_iff : m.Kept ↔ m.Tracks ∅ := by
  constructor
  · intro h
    refine ⟨⟨h.nodup, h.sorted⟩, h.mem_order, fun i => ?_, fun i hi => absurd hi id⟩
    rw [← h.bitmap i, Set.mem_empty_iff_false, or_false]
  · intro h
    refine ⟨h.inOrder.nodup, h.inOrder.sorted, h.mem_order, fun i => ?_⟩
    rw [h.bitmap i, Set.mem_empty_iff_false, or_false]

theorem initEntry_spec (h : m.InOrder) (hmpid : mpid ∉ m.order) :
    (m.initEntry mpid).InOrder ∧
      (∀ i, (m.initEntry mpid).entryValid i = m.entryValid i) ∧
      (∀ i, i ∈ (m.initEntry mpid).order ↔ i ∈ m.order ∨ i = mpid ∧ m.entryValid i = true) ∧
      ∀ i, (m.initEntry mpid).bitmap i = true ↔
        m.bitmap i = true ∨ i = mpid ∧ m.entryValid i = true := by
  rw [initEntry]
  split
  · rename_i hvalid
    have hand : ∀ i, i = mpid ∧ m.entryValid i = true ↔ i = mpid :=
      fun i => and_iff_left_of_imp fun heq => heq ▸ hvalid
    refine ⟨InOrder.insertOrdered ⟨h.nodup, h.sorted⟩ hmpid, fun _ => rfl, fun i => ?_,
      fun i => ?_⟩
    · rw [mem_order_insertOrdered, hand, or_comm]
    · rw [hand, insertOrdered]
      by_cases hi : i = mpid <;> simp [hi]
  · rename_i hvalid
    have hnot : ∀ i, ¬ (i = mpid ∧ m.entryValid i = true) := by
      rintro i ⟨rfl, hi⟩
      exact hvalid hi
    exact ⟨h, fun _ => rfl, fun i => (or_iff_left (hnot i)).symm,
      fun i => (or_iff_left (hnot i)).symm⟩

/-- The loop of `mpu_init` puts the entries that are enabled into the list and into the bitmap. -/
theorem foldl_initEntry {entries : List (Fin n)} (hentries : entries.Nodup)
    (hnew : ∀ i ∈ entries, i ∉ m.order) (h : m.InOrder) :
    (entries.foldl initEntry m).InOrder ∧
      (∀ i, (entries.foldl initEntry m).entryValid i = m.entryValid i) ∧
      (∀ i, i ∈ (entries.foldl initEntry m).order ↔
        i ∈ m.order ∨ i ∈ entries ∧ m.entryValid i = true) ∧
      ∀ i, (entries.foldl initEntry m).bitmap i = true ↔
        m.bitmap i = true ∨ i ∈ entries ∧ m.entryValid i = true := by
  induction entries generalizing m with
  | nil => simp [h]
  | cons k entries ih =>
      obtain ⟨hk, hentries⟩ := List.nodup_cons.mp hentries
      obtain ⟨hkm, hnew⟩ := List.forall_mem_cons.mp hnew
      obtain ⟨hin, hvalid, horder, hbitmap⟩ := initEntry_spec h hkm
      have hnew' : ∀ i ∈ entries, i ∉ (m.initEntry k).order := by
        intro i hi hmem
        rcases (horder i).mp hmem with hmem | ⟨rfl, -⟩
        · exact hnew i hi hmem
        · exact hk hi
      obtain ⟨hin', hvalid', horder', hbitmap'⟩ := ih hentries hnew' hin
      rw [List.foldl_cons]
      refine ⟨hin', fun i => (hvalid' i).trans (hvalid i), fun i => ?_, fun i => ?_⟩
      · rw [horder' i, horder i, hvalid i, List.mem_cons, or_and_right, or_assoc]
      · rw [hbitmap' i, hbitmap i, hvalid i, List.mem_cons, or_and_right, or_assoc]

theorem tracks_mpuInit (m : Armv8Mpu n) : m.mpuInit.Tracks ∅ := by
  have hempty : InOrder { m with bitmap := fun _ => false, order := [] } :=
    ⟨List.nodup_nil, List.Pairwise.nil⟩
  obtain ⟨hin, hvalid, horder, hbitmap⟩ := foldl_initEntry (List.nodup_finRange n)
    (fun _ _ => List.not_mem_nil) hempty
  refine ⟨hin, fun i => ?_, fun i => ?_, fun i hi => absurd hi id⟩
  · rw [mpuInit, horder i, hvalid i]
    simp
  · rw [mpuInit, hbitmap i, hvalid i]
    simp

theorem findPriv_eq_some {entries : List (Fin n)} (h : m.findPriv priv mpr entries = some mpid) :
    mpid ∈ entries ∧ m.entryHasPriv mpid priv = true ∧
      (m.entryGetRegion mpid).base ≤ mpr.base + mpr.size ∧
      memRegionsOverlap (m.entryGetRegion mpid) mpr = true := by
  induction entries with
  | nil => cases h
  | cons i entries ih =>
      simp only [findPriv] at h
      split at h
      · cases h
      rename_i hle
      split at h
      · exact ⟨List.mem_cons_of_mem i (ih h).1, (ih h).2⟩
      rename_i hpriv
      split at h
      · rename_i hoverlap
        cases h
        exact ⟨List.mem_cons_self, by simpa using hpriv, BitVec.not_lt.mp hle, hoverlap⟩
      · exact ⟨List.mem_cons_of_mem i (ih h).1, (ih h).2⟩

/-- Nothing is left of an entry that is found: it is within the region, and the region does not
wrap around because the entry starts between its base and its end. -/
theorem rest_eq_zero {reg : MpRegion} (hbase : reg.base ≤ mpr.base + mpr.size)
    (hoverlap : memRegionsOverlap reg mpr = true) :
    overlapTopSize mpr reg = 0#64 ∧ overlapBottomSize mpr reg = 0#64 := by
  obtain ⟨hlow, hhigh⟩ := (rangeInRange_iff _ _ _ _).mp hoverlap
  have hlimit : reg.base + reg.size ≤ mpr.base + mpr.size := by
    rw [BitVec.le_def, BitVec.toNat_add] at *
    rw [BitVec.toNat_add]
    omega
  exact ⟨if_pos hlimit, if_pos hlow⟩

theorem setRest_zero {rest : MpRegion} {origPerms : MpuPerms} :
    m.setRest 0#64 rest origPerms = some m := by
  simp [setRest, allocatePiece]

theorem Tracks.dropPriv (h : m.Tracks ∅) (priv : Priv) (mpr : MpRegion)
    (hmpid : mpid ∈ m.order) : (m.dropPriv mpid priv mpr).Tracks ∅ := by
  have hperms := h.entryUpdatePrivPerms mpid priv permNone
  rw [Armv8Mpu.dropPriv]
  split
  · have hfree := hperms.entryFree mpid
    rwa [Set.empty_sdiff] at hfree
  · exact hperms.entryModify hmpid (enables_mpuEntrySetPerms.mpr (h.enables hmpid))

end Armv8Mpu

open Armv8Mpu

/-- A CPU in a sequence of calls: between two of them, before a round of one, stopped by an `ERROR`,
or past the use of an index that is not below `mpu_num_entries`. -/
inductive MpuCpu (n : ℕ)
  | idle (mpu : Armv8Mpu n)
  | mapping (priv : Priv) (s : MpuMap n)
  | unmapping (priv : Priv) (mpr : MpRegion) (s : MpuUnmap n)
  | halted (mpu : Armv8Mpu n)
  | stray

inductive MpuAct
  | map (priv : Priv) (mpr : MpRegion)
  | unmap (priv : Priv) (mpr : MpRegion)
  | round

namespace MpuCpu

variable {n : ℕ}

/-- How a round of `mpu_map` ends. -/
def afterRound (priv : Priv) (mpu : Armv8Mpu n) : MpuRound n → MpuCpu n
  | .next s => .mapping priv s
  | .failed m bottomMpid topMpid =>
      let m := bottomMpid.elim m m.entryFree
      .idle (topMpid.elim m m.entryFree)
  | .error => .halted mpu

/-- The next round of `mpu_map`, or its end. -/
def mapRound (priv : Priv) (s : MpuMap n) : MpuCpu n :=
  if s.sizeLeft = 0#64 then .idle s.mpu
  else s.newReg.elim (.idle s.mpu) fun newReg => afterRound priv s.mpu (s.round priv newReg)

/-- The next round of `mpu_unmap`, or its end. -/
def unmapRound (priv : Priv) (mpr : MpRegion) (s : MpuUnmap n) : MpuCpu n :=
  if s.sizeLeft = 0#64 then .idle s.mpu
  else (s.mpu.findPriv priv mpr s.mpu.order).elim (.idle s.mpu) fun mpid =>
    (s.unmapEntry priv mpr mpid).elim .stray (.unmapping priv mpr)

/-- Calls are made between two calls, and rounds within one. -/
def step : MpuCpu n → MpuAct → MpuCpu n
  | .idle m, .map priv mpr => .mapping priv (.start m mpr)
  | .idle m, .unmap priv mpr => .unmapping priv mpr (.start m mpr)
  | .mapping priv s, .round => mapRound priv s
  | .unmapping priv mpr s, .round => unmapRound priv mpr s
  | cpu, _ => cpu

/-- No index was used that is not below `mpu_num_entries`, and the bookkeeping is right. -/
def Good : MpuCpu n → Prop
  | .idle m => m.Kept
  | .mapping _ s => s.mpu.Kept
  | .unmapping _ _ s => s.mpu.Kept
  | .halted m => m.Kept
  | .stray => False

/-- A region for a gap has flags that enable an entry, or there is no entry left for it. -/
def EnablesEntry : MpuCpu n → MpuAct → Prop
  | .mapping _ s, .round =>
      s.sizeLeft ≠ 0#64 → ∀ newReg prev next, s.newReg = some newReg →
        s.mpu.place newReg none s.mpu.order = .gap prev next →
          newReg.memFlags.Enables ∨ s.mpu.freeEntries = 0
  | _, _ => True

section

variable {priv : Priv} {mpr : MpRegion} {cpu : MpuCpu n}

theorem good_mapRound_iff {s : MpuMap n} (h : s.mpu.Kept) :
    Good (mapRound priv s) ↔ EnablesEntry (.mapping priv s) .round := by
  have htracks := kept_iff.mp h
  rw [mapRound, EnablesEntry]
  by_cases hsize : s.sizeLeft = 0#64
  · rw [if_pos hsize]
    exact iff_of_true h fun hne => absurd hsize hne
  rw [if_neg hsize, forall_prop_of_true hsize]
  cases hreg : s.newReg with
  | none => exact iff_of_true h fun _ _ _ heq => (Option.some_ne_none _ heq.symm).elim
  | some newReg =>
      simp only [Option.elim_some, Option.some.injEq, MpuMap.round]
      cases hplace : s.mpu.place newReg none s.mpu.order with
      | overlap mpid =>
          refine iff_of_true ?_ fun reg prev next hreg hgap => ?_
          · dsimp only
            cases hround : s.mapOverlap priv newReg mpid with
            | next s' =>
                have hmem := (MpuMap.place_overlap hplace).1
                exact kept_iff.mpr (MpuMap.tracks_of_mapOverlap htracks hmem hround)
            | failed m bottom top =>
                obtain ⟨rfl, hfree⟩ := MpuMap.tracks_of_mapOverlap_failed htracks hround
                exact kept_iff.mpr hfree
            | error => exact h
          · rw [← hreg, hplace] at hgap
            cases hgap
      | gap prev next =>
          obtain ⟨hprev, hnext, hne⟩ := MpuMap.place_gap h.nodup
            (fun i hi => (Option.some_ne_none i hi.symm).elim) hplace
          have hprev' : ∀ i, prev = some i → i ∈ s.mpu.order := fun i hi =>
            (hprev i hi).resolve_left fun heq => Option.some_ne_none i heq.symm
          have hcond : (∀ reg prev next, newReg = reg →
              s.mpu.place reg none s.mpu.order = .gap prev next →
                reg.memFlags.Enables ∨ s.mpu.freeEntries = 0) ↔
              newReg.memFlags.Enables ∨ s.mpu.freeEntries = 0 := by
            refine ⟨fun hall => hall newReg prev next rfl hplace, fun hcond => ?_⟩
            rintro _ _ _ rfl -
            exact hcond
          rw [hcond]
          dsimp only
          cases hround : s.mapGap priv newReg prev next with
          | next s' =>
              exact kept_iff.trans (MpuMap.tracks_mapGap_iff htracks hprev' hnext hne hround)
          | failed m bottom top => exact absurd hround MpuMap.mapGap_ne_failed
          | error => exact iff_of_true h (.inr (MpuMap.mapGap_eq_error hround))

theorem good_unmapRound {s : MpuUnmap n} (h : s.mpu.Kept) : Good (unmapRound priv mpr s) := by
  rw [unmapRound]
  split
  · exact h
  cases hfind : s.mpu.findPriv priv mpr s.mpu.order with
  | none => exact h
  | some mpid =>
      obtain ⟨hmem, -, hbase, hoverlap⟩ := findPriv_eq_some hfind
      obtain ⟨htop, hbottom⟩ := rest_eq_zero hbase hoverlap
      have hdrop := (kept_iff.mp h).dropPriv priv mpr hmem
      simp only [Option.elim_some, MpuUnmap.unmapEntry, htop, hbottom, setRest_zero,
        Option.bind_some, Option.map_some]
      exact kept_iff.mpr hdrop

theorem good_step_iff (h : cpu.Good) (act : MpuAct) :
    Good (step cpu act) ↔ EnablesEntry cpu act := by
  cases cpu with
  | idle m => cases act <;> exact iff_of_true h trivial
  | mapping priv s =>
      cases act with
      | round => exact good_mapRound_iff h
      | map priv mpr => exact iff_of_true h trivial
      | unmap priv mpr => exact iff_of_true h trivial
  | unmapping priv mpr s =>
      cases act with
      | round => exact iff_of_true (good_unmapRound h) trivial
      | map priv mpr => exact iff_of_true h trivial
      | unmap priv mpr => exact iff_of_true h trivial
  | halted m => cases act <;> exact iff_of_true h trivial
  | stray => exact h.elim

def Enabling : MpuCpu n → Prop
  | .mapping _ s => s.reg1.memFlags.Enables ∧ s.reg2.memFlags.Enables
  | _ => True

theorem enables_newReg {s : MpuMap n} {newReg : MpRegion}
    (h : s.reg1.memFlags.Enables ∧ s.reg2.memFlags.Enables) (hreg : s.newReg = some newReg) :
    newReg.memFlags.Enables := by
  rw [MpuMap.newReg] at hreg
  split at hreg
  · cases hreg
    exact h.1
  split at hreg
  · cases hreg
    exact h.2
  · cases hreg

/-- A round leaves regions with the same flags. -/
theorem enabling_of_round {s s' : MpuMap n} {newReg : MpRegion}
    (h : s.reg1.memFlags.Enables ∧ s.reg2.memFlags.Enables) (hreg : s.newReg = some newReg)
    (hround : s.round priv newReg = .next s') :
    s'.reg1.memFlags.Enables ∧ s'.reg2.memFlags.Enables := by
  rw [MpuMap.round] at hround
  split at hround
  · simp only [MpuMap.mapOverlap] at hround
    split at hround
    · cases hround
    split at hround
    · cases hround
    split at hround
    · cases hround
    cases hround
    simp only [MpuMap.leave]
    constructor
    · split_ifs <;> exact h.1
    · split_ifs <;> exact h.2
  · obtain ⟨reg, hflags, hreg1, hreg2, -⟩ := MpuMap.mapGap_eq_next hround
    have henables : reg.memFlags.Enables := hflags ▸ enables_newReg h hreg
    rw [hreg1, hreg2, MpuMap.setNewReg]
    split
    · exact ⟨henables, h.2⟩
    · exact ⟨h.1, henables⟩

theorem enabling_step (h : cpu.Enabling) {act : MpuAct}
    (hact : ∀ priv mpr, act = .map priv mpr → mpr.memFlags.Enables) :
    (step cpu act).Enabling ∧ EnablesEntry cpu act := by
  cases cpu with
  | idle m =>
      cases act with
      | map priv mpr => exact ⟨⟨hact priv mpr rfl, hact priv mpr rfl⟩, trivial⟩
      | unmap priv mpr => exact ⟨trivial, trivial⟩
      | round => exact ⟨trivial, trivial⟩
  | mapping priv s =>
      cases act with
      | map priv mpr => exact ⟨h, trivial⟩
      | unmap priv mpr => exact ⟨h, trivial⟩
      | round =>
          refine ⟨?_, fun _ newReg prev next hreg _ => .inl (enables_newReg h hreg)⟩
          rw [step, mapRound]
          split
          · trivial
          cases hreg : s.newReg with
          | none => trivial
          | some newReg =>
              rw [Option.elim_some]
              cases hround : s.round priv newReg with
              | next s' => exact enabling_of_round h hreg hround
              | failed m bottom top => trivial
              | error => trivial
  | unmapping priv mpr s =>
      refine ⟨?_, by cases act <;> trivial⟩
      cases act with
      | map priv mpr => trivial
      | unmap priv mpr => trivial
      | round =>
          rw [step, unmapRound]
          split
          · trivial
          cases s.mpu.findPriv priv mpr s.mpu.order with
          | none => trivial
          | some mpid =>
              rw [Option.elim_some]
              cases s.unmapEntry priv mpr mpid <;> trivial
  | halted m => cases act <;> exact ⟨trivial, trivial⟩
  | stray => cases act <;> exact ⟨trivial, trivial⟩

theorem along_enablesEntry (h : cpu.Enabling) {acts : List MpuAct}
    (hacts : ∀ priv mpr, .map priv mpr ∈ acts → mpr.memFlags.Enables) :
    Run.Along step EnablesEntry cpu acts := by
  have halong : Run.Along step (fun _ act => ∀ priv mpr, act = .map priv mpr →
      mpr.memFlags.Enables) cpu acts := by
    refine Run.along_of_forall (fun act hmem _ priv mpr heq => ?_) cpu
    exact hacts priv mpr (heq ▸ hmem)
  exact halong.imp_of_invariant h fun _ _ hcpu hact => enabling_step hcpu hact

/-- A call of `mpu_map` that returns is a run of its rounds. -/
theorem exec_mapping {s : MpuMap n} {fuel : ℕ} {r : Bool × Armv8Mpu n}
    (h : s.loop priv fuel = some r) :
    ∃ k, Run.exec step (.mapping priv s) (List.replicate k .round) = .idle r.2 := by
  refine Run.exists_exec_of_loop step (MpuMap.loop priv) (mapping priv)
    (fun r => .idle r.2) .round (fun _ => rfl) (fun fuel s r h => ?_) h
  rw [MpuMap.loop] at h
  rw [step, mapRound]
  split at h
  · cases h
    exact .inl (if_pos ‹_›)
  rw [if_neg ‹_›]
  split at h
  · rename_i hreg
    cases h
    rw [hreg]
    exact .inl rfl
  rename_i newReg hreg
  rw [hreg, Option.elim_some]
  split at h
  · rename_i s' hround
    rw [hround]
    exact .inr ⟨s', rfl, h⟩
  · rename_i m bottom top hround
    cases h
    rw [hround]
    exact .inl rfl
  · cases h

/-- A call of `mpu_unmap` that returns is a run of its rounds. -/
theorem exec_unmapping {s : MpuUnmap n} {fuel : ℕ} {r : Bool × Armv8Mpu n}
    (h : s.loop priv mpr fuel = some r) :
    ∃ k, Run.exec step (.unmapping priv mpr s) (List.replicate k .round) = .idle r.2 := by
  refine Run.exists_exec_of_loop step (MpuUnmap.loop priv mpr) (unmapping priv mpr)
    (fun r => .idle r.2) .round (fun _ => rfl) (fun fuel s r h => ?_) h
  rw [MpuUnmap.loop] at h
  rw [step, unmapRound]
  split at h
  · cases h
    exact .inl (if_pos ‹_›)
  rw [if_neg ‹_›]
  split at h
  · rename_i hfind
    cases h
    rw [hfind]
    exact .inl rfl
  rename_i mpid hfind
  rw [hfind, Option.elim_some]
  split at h
  · cases h
  · rename_i s' hround
    rw [hround]
    exact .inr ⟨s', rfl, h⟩

/-- A call of `mpu_map` that returns keeps the bookkeeping, if the flags of the region enable an
entry. -/
theorem kept_mpuMap {m : Armv8Mpu n} {fuel : ℕ} {r : Bool × Armv8Mpu n} (h : m.Kept)
    (hflags : mpr.memFlags.Enables) (hcall : m.mpuMap fuel priv mpr = some r) : r.2.Kept := by
  obtain ⟨k, hk⟩ := exec_mapping hcall
  have hstart : Enabling (.mapping priv (.start m mpr)) := ⟨hflags, hflags⟩
  have halong : Run.Along step EnablesEntry (.mapping priv (.start m mpr))
      (List.replicate k .round) :=
    along_enablesEntry hstart fun _ _ hmem => nomatch List.eq_of_mem_replicate hmem
  have hgood := halong.exec_invariant (I := Good) h
    fun _ act hs hact => (good_step_iff hs act).mpr hact
  rw [hk] at hgood
  exact hgood

theorem kept_mpuUnmap {m : Armv8Mpu n} {fuel : ℕ} {r : Bool × Armv8Mpu n} (h : m.Kept)
    (hcall : m.mpuUnmap fuel priv mpr = some r) : r.2.Kept := by
  obtain ⟨k, hk⟩ := exec_unmapping hcall
  have hstart : Enabling (.unmapping priv mpr (.start m mpr)) := trivial
  have halong : Run.Along step EnablesEntry (.unmapping priv mpr (.start m mpr))
      (List.replicate k .round) :=
    along_enablesEntry hstart fun _ _ hmem => nomatch List.eq_of_mem_replicate hmem
  have hgood := halong.exec_invariant (I := Good) h
    fun _ act hs hact => (good_step_iff hs act).mpr hact
  rw [hk] at hgood
  exact hgood

end

/-- After `mpu_init` the bookkeeping is right. In a sequence of calls it is so in all states, and
all indices that are used are below `mpu_num_entries`, exactly if `mpu_map` never gives an entry of
its own to a region whose flags do not enable it. So it is if the flags of all regions do. -/
theorem along_good_iff (m : Armv8Mpu n) (acts : List MpuAct) :
    Good (.idle m.mpuInit) ∧
      (Run.Along step (fun cpu act => Good (step cpu act)) (.idle m.mpuInit) acts ↔
        Run.Along step EnablesEntry (.idle m.mpuInit) acts) ∧
      ((∀ priv mpr, MpuAct.map priv mpr ∈ acts → mpr.memFlags.Enables) →
        Run.Along step (fun cpu act => Good (step cpu act)) (.idle m.mpuInit) acts) := by
  have hinit : Good (.idle m.mpuInit) := kept_iff.mpr (tracks_mpuInit m)
  have hiff := Run.along_invariant_iff hinit (fun cpu act h => good_step_iff h act) acts
  have henabling : Enabling (.idle m.mpuInit) := trivial
  exact ⟨hinit, hiff, fun hacts => hiff.mpr (along_enablesEntry henabling hacts)⟩

def unused (n : ℕ) : Armv8Mpu n :=
  ⟨fun _ => 0#64, fun _ => 0#64, fun _ => false, fun _ => false, fun _ => ⟨permNone, permNone⟩, []⟩

/-- A device is mapped for the hypervisor and for the guest, and taken away from both again. -/
theorem along_good_shared :
    Run.Along step (fun cpu act => Good (step cpu act)) (.idle (unused 16).mpuInit)
      [.map .hyp (MemState.guestDevice 0x1000#64), .round, .round,
        .map .vm (MemState.guestDevice 0x1000#64), .round, .round,
        .unmap .hyp (MemState.guestDevice 0x1000#64), .round, .round,
        .unmap .vm (MemState.guestDevice 0x1000#64), .round, .round] := by
  refine (along_good_iff (unused 16) _).2.2 fun priv mpr hmem => ?_
  obtain ⟨-, rfl⟩ | ⟨-, rfl⟩ : (priv = .hyp ∧ mpr = MemState.guestDevice 0x1000#64) ∨
      (priv = .vm ∧ mpr = MemState.guestDevice 0x1000#64) := by simpa using hmem
  · decide
  · decide

/-- The first region that is mapped has the flags `PTE_INVALID`: its entry is in the list and in the
bitmap, but is not enabled. -/
theorem not_along_good_invalid :
    ¬ Run.Along step (fun cpu act => Good (step cpu act)) (.idle (unused 16).mpuInit)
      [.map .hyp ⟨0x1000#64, 0x1000#64, .invalid, .hypGlobal⟩, .round] := by
  -- no entry is enabled, so that the region belongs in the gap without neighbours
  have hgap : (unused 16).mpuInit.place ⟨0x1000#64, 0x1000#64, .invalid, .hypGlobal⟩ none
      (unused 16).mpuInit.order = .gap none none := by decide +kernel
  have hfree : (unused 16).mpuInit.freeEntries ≠ 0 := by decide +kernel
  generalize (unused 16).mpuInit = m at *
  rintro ⟨hmapping, hgood, -⟩
  have hcond := (good_step_iff hmapping .round).mp hgood
  have hsize : (0x1000#64 : SizeT) ≠ 0#64 := by decide
  rcases hcond hsize _ none none rfl hgap with henables | hzero
  · have hinvalid : ¬ MemFlags.invalid.Enables := by decide
    exact hinvalid henables
  · exact hfree hzero

end MpuCpu

end BaoHypervisor
