import BaoHypervisor.Arch.Armv8.Mpu.Refusal
import BaoHypervisor.Arch.Armv8.Mpu.Unmap
import BaoHypervisor.Lib.List.Sequence

/-!
# The bookkeeping of the MPU of Armv8-R

Which entries are in use is recorded three times: in the registers, where an entry is enabled, in
the bitmap of the entries that are allocated, and in the ordered list. Between the allocation of an
entry and the write of its registers only the bitmap has it (`Tracks`).
-/

namespace BaoHypervisor

def MemFlags.Enables (flags : MemFlags) : Prop := flags.prlar.setWidth 64 &&& prlarEn ≠ 0#64

instance (flags : MemFlags) : Decidable flags.Enables := inferInstanceAs (Decidable (_ ≠ _))

theorem and_prlarEn_ne_zero_iff (x : BitVec 64) : x &&& prlarEn ≠ 0#64 ↔ x.getLsbD 0 = true := by
  rw [prlarEn, BitVec.and_one_eq_setWidth_ofBool_getLsbD]
  cases x.getLsbD 0 <;> decide

theorem MemFlags.enables_iff {flags : MemFlags} :
    flags.Enables ↔ flags.prlar.getLsbD 0 = true := by
  rw [MemFlags.Enables, and_prlarEn_ne_zero_iff, BitVec.getLsbD_setWidth]
  simp

theorem enables_mpuEntrySetPerms {mpr : MpRegion} {perms : MpuPerms} :
    (mpuEntrySetPerms mpr perms).memFlags.Enables ↔ mpr.memFlags.Enables := Iff.rfl

namespace Armv8Mpu

variable {n : ℕ} {m m' : Armv8Mpu n} {i j : Fin n} {mpr : MpRegion}

theorem entryValid_iff : m.entryValid i = true ↔ (m.prlar i).getLsbD 0 = true := by
  rw [entryValid, decide_eq_true_eq, and_prlarEn_ne_zero_iff]

theorem regFlagsMsk_getLsbD_zero : regFlagsMsk.getLsbD 0 = true := by decide

theorem enables_entryGetRegion : (m.entryGetRegion i).memFlags.Enables ↔ m.entryValid i = true := by
  rw [MemFlags.enables_iff, entryValid_iff, entryGetRegion]
  simp [regFlagsMsk_getLsbD_zero]

theorem entryValid_entrySet_self :
    (m.entrySet i mpr).entryValid i = true ↔ mpr.memFlags.Enables := by
  rw [MemFlags.enables_iff, entryValid_iff, entrySet, insertOrdered]
  simp [regFlagsMsk_getLsbD_zero]

theorem entryValid_congr (h : m'.prlar i = m.prlar i) : m'.entryValid i = m.entryValid i := by
  simp only [entryValid, h]

theorem base_congr (h : m'.prbar i = m.prbar i) :
    (m'.entryGetRegion i).base = (m.entryGetRegion i).base := by
  simp only [entryGetRegion, h]

theorem entryValid_entrySet_of_ne (hj : j ≠ i) :
    (m.entrySet i mpr).entryValid j = m.entryValid j :=
  entryValid_congr (Function.update_of_ne hj _ _)

theorem base_entrySet_of_ne (hj : j ≠ i) :
    ((m.entrySet i mpr).entryGetRegion j).base = (m.entryGetRegion j).base :=
  base_congr (Function.update_of_ne hj _ _)

def nodeCmp (m : Armv8Mpu n) (i j : Fin n) : ℤ :=
  let r1 := m.entryGetRegion i
  let r2 := m.entryGetRegion j
  if r2.base < r1.base then 1 else if r1.base < r2.base then -1 else 0

theorem nodeCmp_nonpos_iff :
    m.nodeCmp i j ≤ 0 ↔ (m.entryGetRegion i).base ≤ (m.entryGetRegion j).base := by
  rw [nodeCmp]
  split
  · rename_i hlt
    exact iff_of_false (by decide) (BitVec.not_le.mpr hlt)
  · rename_i hle
    refine iff_of_true ?_ (BitVec.not_lt.mp hle)
    split <;> decide

theorem ordersNodes_nodeCmp (m : Armv8Mpu n) : OrdersNodes m.nodeCmp where
  total i j := by
    rw [nodeCmp_nonpos_iff, nodeCmp_nonpos_iff]
    exact BitVec.le_total _ _
  trans i j k hij hjk := by
    rw [nodeCmp_nonpos_iff] at *
    exact BitVec.le_trans hij hjk

theorem order_insertOrdered :
    (m.insertOrdered i).order =
      insertBeforeFirst (fun cur => decide (m.nodeCmp cur i ≤ 0)) i m.order := by
  have hcmp : (fun cur => decide (m.nodeCmp cur i ≤ 0)) =
      fun cur => decide ¬ (m.entryGetRegion i).base < (m.entryGetRegion cur).base := by
    funext cur
    rw [decide_eq_decide, nodeCmp_nonpos_iff, BitVec.not_lt]
  rw [insertOrdered, hcmp, insertBeforeFirst, List.orderedInsert_eq_take_drop]

/-- The list of the entries has none of them twice, and is sorted. -/
structure InOrder (m : Armv8Mpu n) : Prop where
  nodup : m.order.Nodup
  sorted : m.order.Pairwise fun i j => (m.entryGetRegion i).base ≤ (m.entryGetRegion j).base

theorem mem_order_insertOrdered : j ∈ (m.insertOrdered i).order ↔ j = i ∨ j ∈ m.order := by
  rw [order_insertOrdered, perm_insertBeforeFirst.mem_iff, List.mem_cons]

theorem InOrder.insertOrdered (h : m.InOrder) (hi : i ∉ m.order) : (m.insertOrdered i).InOrder where
  nodup := by
    rw [order_insertOrdered, perm_insertBeforeFirst.nodup_iff]
    exact List.nodup_cons.mpr ⟨hi, h.nodup⟩
  sorted := by
    rw [order_insertOrdered]
    refine (pairwise_insertBeforeFirst m.ordersNodes_nodeCmp ?_).imp nodeCmp_nonpos_iff.mp
    exact h.sorted.imp nodeCmp_nonpos_iff.mpr

theorem InOrder.erase (h : m.InOrder) (i : Fin n) :
    InOrder { m with order := m.order.erase i } where
  nodup := h.nodup.erase i
  sorted := h.sorted.sublist List.erase_sublist

theorem mem_order_entrySet : j ∈ (m.entrySet i mpr).order ↔ j = i ∨ j ∈ m.order :=
  mem_order_insertOrdered

theorem InOrder.entrySet (h : m.InOrder) (hi : i ∉ m.order) : (m.entrySet i mpr).InOrder := by
  refine InOrder.insertOrdered ⟨h.nodup, ?_⟩ hi
  refine h.sorted.imp_of_mem fun {j k} hj hk hle => ?_
  have hbase : ∀ j ∈ m.order,
      ((m.entrySet i mpr).entryGetRegion j).base = (m.entryGetRegion j).base :=
    fun j hj => base_entrySet_of_ne (ne_of_mem_of_not_mem hj hi)
  rw [← hbase j hj, ← hbase k hk] at hle
  exact hle

section Nodes

variable {link : Fin n → Option (Fin n)} {list : NodeList (Fin n)}

theorem InOrder.length_le (h : m.InOrder) : m.order.length ≤ n := by
  simpa using h.nodup.length_le_card

/-- `list_insert_ordered` links the node of the entry in where the list has the entry. -/
theorem InOrder.chain_insertOrdered (h : m.InOrder) (hi : i ∉ m.order)
    (hchain : Linked.Chain link list.head m.order) :
    Linked.Chain (NodeList.listInsertOrdered link list i m.nodeCmp n).1
      (NodeList.listInsertOrdered link list i m.nodeCmp n).2.head (m.insertOrdered i).order := by
  rw [order_insertOrdered]
  exact NodeList.chain_listInsertOrdered hchain m.nodeCmp hi h.length_le

/-- `list_rm` takes the node of the entry out, or leaves the links alone if it is in no list. -/
theorem InOrder.chain_erase (h : m.InOrder) (hchain : Linked.Chain link list.head m.order) :
    Linked.Chain (NodeList.listRm link list i n).1 (NodeList.listRm link list i n).2.head
      (m.order.erase i) := by
  by_cases hi : i ∈ m.order
  · exact (NodeList.chain_listRm hchain hi h.length_le).1
  · rw [NodeList.listRm_of_not_mem hchain hi, List.erase_of_not_mem hi]
    exact hchain

end Nodes

/-- The list has the entries that are enabled, and the bitmap has beside them those that are taken
and not written yet. -/
structure Tracks (m : Armv8Mpu n) (taken : Set (Fin n)) : Prop where
  inOrder : m.InOrder
  mem_order : ∀ i, i ∈ m.order ↔ m.entryValid i = true
  bitmap : ∀ i, m.bitmap i = true ↔ m.entryValid i = true ∨ i ∈ taken
  taken : ∀ i ∈ taken, m.entryValid i = false

section Tracks

variable {taken : Set (Fin n)}

theorem Tracks.setPerms (h : m.Tracks taken) (perms : Fin n → MpuPerms) :
    Tracks { m with perms := perms } taken :=
  ⟨⟨h.inOrder.nodup, h.inOrder.sorted⟩, h.mem_order, h.bitmap, h.taken⟩

theorem Tracks.entryUpdatePrivPerms (h : m.Tracks taken) (i : Fin n) (priv : Priv)
    (perms : Perms) : (m.entryUpdatePrivPerms i priv perms).Tracks taken :=
  h.setPerms _

theorem Tracks.enables (h : m.Tracks taken) (hi : i ∈ m.order) :
    (m.entryGetRegion i).memFlags.Enables :=
  enables_entryGetRegion.mpr ((h.mem_order i).mp hi)

/-- The entry that is allocated is taken. -/
theorem Tracks.entryAllocate (h : m.Tracks taken) (halloc : m.entryAllocate = some (i, m')) :
    i ∉ taken ∧ m'.order = m.order ∧ m'.Tracks (insert i taken) := by
  have hi := bitmap_of_entryAllocate halloc
  have hnot : ¬ (m.entryValid i = true ∨ i ∈ taken) := by
    rw [← h.bitmap i, hi]
    exact Bool.false_ne_true
  rw [not_or, Bool.not_eq_true] at hnot
  rw [eq_of_entryAllocate halloc]
  refine ⟨hnot.2, rfl, ⟨h.inOrder.nodup, h.inOrder.sorted⟩, h.mem_order, fun j => ?_,
    fun j hj => ?_⟩
  · by_cases hj : j = i
    · simp [hj]
    · simp only [Function.update_of_ne hj, Set.mem_insert_iff, or_iff_right hj]
      exact h.bitmap j
  · rcases Set.mem_insert_iff.mp hj with rfl | hj
    · exact hnot.1
    · exact h.taken j hj

/-- The registers of an entry that was taken are written. -/
theorem Tracks.entrySet (h : m.Tracks taken) (hi : i ∈ taken) (hmpr : mpr.memFlags.Enables) :
    (m.entrySet i mpr).Tracks (taken \ {i}) := by
  have hnot : i ∉ m.order := by
    rw [h.mem_order i, h.taken i hi]
    exact Bool.false_ne_true
  have hvalid : (m.entrySet i mpr).entryValid i = true := entryValid_entrySet_self.mpr hmpr
  refine ⟨h.inOrder.entrySet hnot, fun j => ?_, fun j => ?_, fun j hj => ?_⟩
  · rw [mem_order_entrySet]
    by_cases hj : j = i
    · exact iff_of_true (.inl hj) (hj ▸ hvalid)
    · rw [or_iff_right hj, entryValid_entrySet_of_ne hj, h.mem_order j]
  · by_cases hj : j = i
    · exact iff_of_true (hj ▸ (h.bitmap i).mpr (.inr hi)) (.inl (hj ▸ hvalid))
    · rw [entryValid_entrySet_of_ne hj, Set.mem_sdiff_singleton, and_iff_left hj]
      exact h.bitmap j
  · rw [entryValid_entrySet_of_ne hj.2]
    exact h.taken j hj.1

/-- The registers of an entry in use are written anew. -/
theorem Tracks.entryModify (h : m.Tracks taken) (hi : i ∈ m.order) (hmpr : mpr.memFlags.Enables) :
    (m.entryModify i mpr).Tracks taken := by
  have hvalid : (m.entryModify i mpr).entryValid i = true := entryValid_entrySet_self.mpr hmpr
  have hother : ∀ j, j ≠ i → (m.entryModify i mpr).entryValid j = m.entryValid j :=
    fun j hj => entryValid_entrySet_of_ne hj
  refine ⟨(h.inOrder.erase i).entrySet h.inOrder.nodup.not_mem_erase, fun j => ?_, fun j => ?_,
    fun j hj => ?_⟩
  · rw [Armv8Mpu.entryModify, mem_order_entrySet, ← Armv8Mpu.entryModify]
    by_cases hj : j = i
    · exact iff_of_true (.inl hj) (hj ▸ hvalid)
    · rw [or_iff_right hj, hother j hj, List.mem_erase_of_ne hj, h.mem_order j]
  · by_cases hj : j = i
    · exact iff_of_true (hj ▸ (h.bitmap i).mpr (.inl ((h.mem_order i).mp hi))) (.inl (hj ▸ hvalid))
    · rw [hother j hj]
      exact h.bitmap j
  · have hne : j ≠ i := fun heq => by
      have hfalse := h.taken j hj
      rw [heq, (h.mem_order i).mp hi] at hfalse
      cases hfalse
    rw [hother j hne]
    exact h.taken j hj

/-- An entry is given back, whether it is enabled or was only taken. -/
theorem Tracks.entryFree (h : m.Tracks taken) (i : Fin n) :
    (m.entryFree i).Tracks (taken \ {i}) := by
  have hvalid : (m.entryFree i).entryValid i = false := by
    rw [Armv8Mpu.entryFree, entryValid]
    simp
  have hother : ∀ j, j ≠ i → (m.entryFree i).entryValid j = m.entryValid j :=
    fun j hj => entryValid_congr (Function.update_of_ne hj _ _)
  refine ⟨⟨h.inOrder.nodup.erase i, ?_⟩, fun j => ?_, fun j => ?_, fun j hj => ?_⟩
  · refine (h.inOrder.erase i).sorted.imp_of_mem fun {j k} hj hk hle => ?_
    have hbase : ∀ j ∈ m.order.erase i,
        ((m.entryFree i).entryGetRegion j).base = (m.entryGetRegion j).base := fun j hj =>
      base_congr (Function.update_of_ne
        (ne_of_mem_of_not_mem hj h.inOrder.nodup.not_mem_erase) _ _)
    rw [hbase j hj, hbase k hk]
    exact hle
  · rw [Armv8Mpu.entryFree, h.inOrder.nodup.mem_erase_iff, ← Armv8Mpu.entryFree]
    by_cases hj : j = i
    · refine iff_of_false (fun hmem => hmem.1 hj) ?_
      rw [hj, hvalid]
      exact Bool.false_ne_true
    · rw [and_iff_right hj, hother j hj, h.mem_order j]
  · by_cases hj : j = i
    · rw [hj, hvalid, Armv8Mpu.entryFree]
      simp
    · rw [hother j hj, Set.mem_sdiff_singleton, and_iff_left hj, ← h.bitmap j]
      simp [Armv8Mpu.entryFree, hj]
  · rw [hother j hj.2]
    exact h.taken j hj.1

variable {mpid : Option (Fin n)} {priv : Priv} {perms : MpuPerms}

theorem Tracks.allocatePiece {size : SizeT} (h : m.Tracks taken)
    (halloc : m.allocatePiece size = some (mpid, m')) :
    (∀ i, mpid = some i → i ∉ taken) ∧ m'.order = m.order ∧
      m'.Tracks (taken ∪ {i | mpid = some i}) := by
  rw [Armv8Mpu.allocatePiece] at halloc
  split at halloc
  · obtain ⟨⟨i, m''⟩, hm'', heq⟩ := Option.map_eq_some_iff.mp halloc
    cases heq
    obtain ⟨hi, horder, htracks⟩ := h.entryAllocate hm''
    have hunion : taken ∪ {j | some i = some j} = insert i taken := by
      ext j
      simp [eq_comm]
    rw [hunion]
    refine ⟨fun j hj => ?_, horder, htracks⟩
    cases hj
    exact hi
  · cases halloc
    have hunion : taken ∪ {j | none = some j} = taken := by simp
    rw [hunion]
    exact ⟨fun _ hj => (Option.some_ne_none _ hj.symm).elim, rfl, h⟩

theorem Tracks.setPiece (h : m.Tracks taken) (hmpid : ∀ i, mpid = some i → i ∈ taken)
    (hmpr : mpr.memFlags.Enables) :
    (MpuMap.setPiece priv m mpid mpr perms).Tracks (taken \ {i | mpid = some i}) := by
  cases mpid with
  | none => simpa [MpuMap.setPiece] using h
  | some i =>
      have hset : {j | some i = some j} = {i} := by
        ext j
        simp [eq_comm]
      rw [hset]
      exact (h.entryUpdatePrivPerms i _ _).entrySet (hmpid i rfl)
        (enables_mpuEntrySetPerms.mpr hmpr)

theorem Tracks.freePiece (h : m.Tracks taken) (mpid : Option (Fin n)) :
    Tracks (mpid.elim m m.entryFree) (taken \ {i | mpid = some i}) := by
  cases mpid with
  | none => simpa using h
  | some i =>
      have hset : {j | some i = some j} = {i} := by
        ext j
        simp [eq_comm]
      rw [hset]
      exact h.entryFree i

end Tracks

end Armv8Mpu

namespace MpuMap

open Armv8Mpu

variable {n : ℕ} {priv : Priv} {s s' : MpuMap n} {newReg : MpRegion} {mpid : Fin n}

/-- The pieces of an entry that is cut have entries of their own. -/
theorem tracks_of_mapOverlap (h : s.mpu.Tracks ∅) (hmpid : mpid ∈ s.mpu.order)
    (hround : s.mapOverlap priv newReg mpid = .next s') : s'.mpu.Tracks ∅ := by
  have henables := h.enables hmpid
  simp only [mapOverlap] at hround
  split at hround
  · cases hround
  split at hround
  · cases hround
  rename_i bottom m₁ hbottom
  split at hround
  · cases hround
  rename_i top m₂ htop
  cases hround
  obtain ⟨-, horder₁, h₁⟩ := h.allocatePiece hbottom
  obtain ⟨hfresh, horder₂, h₂⟩ := h₁.allocatePiece htop
  have hmem : mpid ∈ m₂.order := by rwa [horder₂, horder₁]
  have hnone : (((∅ ∪ {i | bottom = some i}) ∪ {i | top = some i}) \ {i | bottom = some i}) \
      {i | top = some i} = ∅ := by
    ext i
    simp only [Set.mem_sdiff, Set.mem_union, Set.mem_empty_iff_false]
    tauto
  rw [← hnone]
  have hmiddle := h₂.entryUpdatePrivPerms mpid priv (memVmpuEntryPerms newReg)
  refine ((hmiddle.entryModify hmem ?_).setPiece ?_ ?_).setPiece ?_ ?_
  · exact enables_mpuEntrySetPerms.mpr henables
  · exact fun i hi => .inl (.inr hi)
  · exact henables
  · exact fun i hi => ⟨.inr hi, fun hb => hfresh i hi (.inr hb)⟩
  · exact henables

/-- What was taken for the pieces of an entry that cannot be cut is given back. -/
theorem tracks_of_mapOverlap_failed {m : Armv8Mpu n} {bottom top : Option (Fin n)}
    (h : s.mpu.Tracks ∅) (hround : s.mapOverlap priv newReg mpid = .failed m bottom top) :
    top = none ∧ Tracks (bottom.elim m m.entryFree) ∅ := by
  simp only [mapOverlap] at hround
  split at hround
  · cases hround
    exact ⟨rfl, h⟩
  split at hround
  · cases hround
    exact ⟨rfl, h⟩
  rename_i bottom' m₁ hbottom
  split at hround
  · cases hround
    have hfree := (h.allocatePiece hbottom).2.2.freePiece bottom
    have hnone : (∅ ∪ {i | bottom = some i}) \ {i | bottom = some i} = ∅ := by
      rw [Set.empty_union, Set.sdiff_self]
    rw [hnone] at hfree
    exact ⟨rfl, hfree⟩
  · cases hround

/-- The neighbours of a gap are two entries of the list. -/
theorem place_gap {m : Armv8Mpu n} {entries : List (Fin n)} {start prev next : Option (Fin n)}
    (hnodup : entries.Nodup) (hstart : ∀ i, start = some i → i ∉ entries)
    (h : m.place newReg start entries = .gap prev next) :
    (∀ i, prev = some i → start = some i ∨ i ∈ entries) ∧ (∀ j, next = some j → j ∈ entries) ∧
      ∀ i j, prev = some i → next = some j → i ≠ j := by
  induction entries generalizing start with
  | nil =>
      cases h
      exact ⟨fun i hi => .inl hi, fun j hj => (Option.some_ne_none j hj.symm).elim,
        fun i j _ hj => (Option.some_ne_none j hj.symm).elim⟩
  | cons k entries ih =>
      obtain ⟨hk, hnodup⟩ := List.nodup_cons.mp hnodup
      simp only [place] at h
      split at h
      · cases h
        refine ⟨fun i hi => .inl hi, fun j hj => ?_, fun i j hi hj => ?_⟩
        · cases hj
          exact List.mem_cons_self
        · cases hj
          exact fun heq => hstart i hi (heq ▸ List.mem_cons_self)
      split at h
      · cases h
      obtain ⟨hprev, hnext, hne⟩ := ih hnodup (fun i hi => by cases hi; exact hk) h
      refine ⟨fun i hi => ?_, fun j hj => List.mem_cons_of_mem k (hnext j hj), hne⟩
      rcases hprev i hi with heq | hmem
      · cases heq
        exact .inr List.mem_cons_self
      · exact .inr (List.mem_cons_of_mem k hmem)

theorem enables_of_mergeable {perms : MpuPerms} (h : s.mpu.Tracks ∅) (hmpid : mpid ∈ s.mpu.order)
    (hmerge : s.mergeable newReg perms mpid = true) : newReg.memFlags.Enables := by
  rw [mergeable, Bool.and_eq_true, Bool.and_eq_true, beq_iff_eq, mpuEntryAttrs, mpuEntryAttrs,
    MemFlags.mk.injEq] at hmerge
  have henables := h.enables hmpid
  rw [MemFlags.Enables, hmerge.1.2.2] at henables
  exact henables

def ownPerms (priv : Priv) (newReg : MpRegion) : MpuPerms :=
  (MpuPerms.mk permNone permNone).setPriv priv (memVmpuEntryPerms newReg)

/-- The region is one with the entry before it. -/
def MergesPrev (priv : Priv) (s : MpuMap n) (newReg : MpRegion) (mpid : Fin n) : Prop :=
  s.mergeable newReg (ownPerms priv newReg) mpid = true ∧
    (s.mpu.entryGetRegion mpid).base + (s.mpu.entryGetRegion mpid).size = newReg.base

/-- The region is one with the entry after it. -/
def MergesNext (priv : Priv) (s : MpuMap n) (newReg : MpRegion) (mpid : Fin n) : Prop :=
  s.mergeable newReg (ownPerms priv newReg) mpid = true ∧
    newReg.base + newReg.size = (s.mpu.entryGetRegion mpid).base

/-- A round for a gap: the region is merged with the entry before it, with the one after it if
there is none or the two become one, or gets an entry of its own. -/
theorem mapGap_eq_next {prev next : Option (Fin n)}
    (hround : s.mapGap priv newReg prev next = .next s') :
    ∃ reg : MpRegion, reg.memFlags = newReg.memFlags ∧
      s'.reg1 = (s.setNewReg reg).reg1 ∧ s'.reg2 = (s.setNewReg reg).reg2 ∧
      ((∃ i other, prev = some i ∧ MergesPrev priv s newReg i ∧
          (∀ j, other = some j → next = some j ∧ MergesNext priv s newReg j) ∧
          reg.base = (s.mpu.entryGetRegion i).base ∧
          reg.size = newReg.size + (s.mpu.entryGetRegion i).size +
            other.elim 0#64 (fun j => (s.mpu.entryGetRegion j).size) ∧
          s'.mpu = (entryUpdatePrivPerms (other.elim s.mpu s.mpu.entryFree) i priv
            (memVmpuEntryPerms newReg)).entryModify i reg) ∨
        (∃ j, next = some j ∧ MergesNext priv s newReg j ∧ reg.base = newReg.base ∧
          reg.size = newReg.size + (s.mpu.entryGetRegion j).size ∧
          s'.mpu = (s.mpu.entryUpdatePrivPerms j priv
            (memVmpuEntryPerms newReg)).entryModify j reg) ∨
        (∀ i, prev = some i → ¬ MergesPrev priv s newReg i) ∧
          (∀ j, next = some j → ¬ MergesNext priv s newReg j) ∧ reg = newReg ∧
          ∃ i m, s.mpu.entryAllocate = some (i, m) ∧
            s'.mpu =
              (m.entryUpdatePrivPerms i priv (memVmpuEntryPerms newReg)).entrySet i reg) := by
  simp only [mapGap] at hround
  generalize hprev : Option.filter _ prev = prevMerge at hround
  cases prevMerge with
  | some i =>
      dsimp only at hround
      generalize hnext : Option.filter _ next = nextMerge at hround
      obtain ⟨hi, hmerge⟩ := Option.filter_eq_some_iff.mp hprev
      rw [Bool.and_eq_true, beq_iff_eq] at hmerge
      have hother : ∀ j, nextMerge = some j → next = some j ∧ MergesNext priv s newReg j := by
        rintro j rfl
        obtain ⟨hj, hmerge'⟩ := Option.filter_eq_some_iff.mp hnext
        rw [Bool.and_eq_true, beq_iff_eq] at hmerge'
        refine ⟨hj, hmerge'.1, ?_⟩
        rw [← hmerge'.2, ← hmerge.2, BitVec.add_comm newReg.size, BitVec.add_assoc]
      cases hround
      refine ⟨_, ?_, rfl, rfl, .inl ⟨i, nextMerge, hi, hmerge, hother, ?_, ?_, rfl⟩⟩
      · cases nextMerge <;> rfl
      · cases nextMerge <;> rfl
      · cases nextMerge with
        | none => exact (BitVec.add_zero _).symm
        | some j => rfl
  | none =>
      dsimp only at hround
      generalize hnext : Option.filter _ next = nextMerge at hround
      cases nextMerge with
      | some j =>
          obtain ⟨hj, hmerge⟩ := Option.filter_eq_some_iff.mp hnext
          rw [Bool.and_eq_true, beq_iff_eq] at hmerge
          cases hround
          refine ⟨_, ?_, rfl, rfl, .inr (.inl ⟨j, hj, hmerge, ?_, ?_, rfl⟩)⟩ <;> rfl
      | none =>
          have hnotPrev : ∀ i, prev = some i → ¬ MergesPrev priv s newReg i := by
            rintro i rfl hmerge
            refine (Option.filter_eq_none_iff.mp hprev) i rfl ?_
            rw [Bool.and_eq_true, beq_iff_eq]
            exact hmerge
          have hnotNext : ∀ j, next = some j → ¬ MergesNext priv s newReg j := by
            rintro j rfl hmerge
            refine (Option.filter_eq_none_iff.mp hnext) j rfl ?_
            rw [Bool.and_eq_true, beq_iff_eq]
            exact hmerge
          dsimp only at hround
          split at hround
          · cases hround
          · rename_i i m halloc
            cases hround
            exact ⟨_, rfl, rfl, rfl, .inr (.inr ⟨hnotPrev, hnotNext, rfl, i, m, halloc, rfl⟩)⟩

theorem mapGap_eq_error {prev next : Option (Fin n)}
    (hround : s.mapGap priv newReg prev next = .error) : s.mpu.freeEntries = 0 := by
  simp only [mapGap] at hround
  split at hround
  · cases hround
  · cases hround
  split at hround
  · exact entryAllocate_eq_none_iff.mp ‹_›
  · cases hround

/-- A region that gets an entry of its own is tracked if its flags enable the entry, and only
then. A region that is merged has the flags of an entry that is enabled. -/
theorem tracks_mapGap_iff {prev next : Option (Fin n)} (h : s.mpu.Tracks ∅)
    (hprev : ∀ i, prev = some i → i ∈ s.mpu.order) (hnext : ∀ j, next = some j → j ∈ s.mpu.order)
    (hne : ∀ i j, prev = some i → next = some j → i ≠ j)
    (hround : s.mapGap priv newReg prev next = .next s') :
    s'.mpu.Tracks ∅ ↔ newReg.memFlags.Enables ∨ s.mpu.freeEntries = 0 := by
  obtain ⟨reg, hflags, -, -, hcases⟩ := mapGap_eq_next hround
  rcases hcases with ⟨i, other, hi, hmerge, hother, -, -, heq⟩ | ⟨j, hj, hmerge, -, -, heq⟩ |
    ⟨-, -, -, i, m, halloc, heq⟩
  · have henables := enables_of_mergeable h (hprev i hi) hmerge.1
    refine iff_of_true ?_ (.inl henables)
    rw [heq]
    cases other with
    | none =>
        exact (h.entryUpdatePrivPerms i _ _).entryModify (hprev i hi) (hflags ▸ henables)
    | some j =>
        have hfree := h.entryFree j
        rw [Set.empty_sdiff] at hfree
        have hmem : i ∈ (s.mpu.entryFree j).order :=
          (List.mem_erase_of_ne (hne i j hi (hother j rfl).1)).mpr (hprev i hi)
        exact (hfree.entryUpdatePrivPerms i _ _).entryModify hmem (hflags ▸ henables)
  · have henables := enables_of_mergeable h (hnext j hj) hmerge.1
    refine iff_of_true ?_ (.inl henables)
    rw [heq]
    exact (h.entryUpdatePrivPerms j _ _).entryModify (hnext j hj) (hflags ▸ henables)
  · have hfree : s.mpu.freeEntries ≠ 0 := fun hzero => by
      rw [entryAllocate_eq_none_iff.mpr hzero] at halloc
      cases halloc
    obtain ⟨-, -, htracks⟩ := h.entryAllocate halloc
    have hperms := htracks.entryUpdatePrivPerms i priv (memVmpuEntryPerms newReg)
    rw [or_iff_left hfree, ← hflags, heq]
    constructor
    · intro hset
      -- the entry is in the list whatever its flags are
      refine entryValid_entrySet_self.mp ((hset.mem_order i).mp ?_)
      exact mem_order_entrySet.mpr (.inl rfl)
    · intro henables
      have hset := hperms.entrySet (Set.mem_insert i ∅) henables
      rwa [Set.insert_sdiff_of_mem _ (Set.mem_singleton i), Set.empty_sdiff] at hset

end MpuMap

end BaoHypervisor
