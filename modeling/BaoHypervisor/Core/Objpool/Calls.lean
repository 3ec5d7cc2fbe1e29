import BaoHypervisor.Core.Objpool
import BaoHypervisor.Theory.Run

/-!
# Runs of an object pool

Sequences of calls that take objects out of a pool and free addresses of any kind. The bound of
`objpool_free` is inclusive, so that the end of the pool passes for an object: freeing it clears
the bit behind the last one of the pool, which need not lie in the bitmap.
-/

namespace BaoHypervisor

open Bitmap

namespace Objpool

inductive PoolCall where
  | alloc
  | free (obj : Addr)
  deriving DecidableEq

structure PoolState where
  bitmap : Bitmap
  out : List Addr

variable (objpool : Objpool)

def stepCall (st : PoolState) : PoolCall → PoolState
  | .alloc =>
      let r := objpool.objpoolAlloc st.bitmap
      { bitmap := r.2, out := r.1.toList ++ st.out }
  | .free obj => { bitmap := objpool.objpoolFree st.bitmap obj, out := st.out.erase obj }

/-- What is expected of a call: the objects that are out are different slots of the pool, there is
nothing to hand out exactly if all slots are out, and a free changes the bitmap only at the address
of a slot, whose bit it clears. -/
structure CallRight (st : PoolState) (call : PoolCall) : Prop where
  nodup : (objpool.stepCall st call).out.Nodup
  slots : ∀ obj ∈ (objpool.stepCall st call).out,
    ∃ n < objpool.num.toNat, obj = objpool.object n
  alloc : call = .alloc → ((objpool.objpoolAlloc st.bitmap).1 = none ↔
    ∀ n < objpool.num.toNat, objpool.object n ∈ st.out)
  free : ∀ obj, call = .free obj →
    (∃ n < objpool.num.toNat, obj = objpool.object n ∧
      (objpool.stepCall st call).bitmap = bitmapClear st.bitmap n) ∨
    (∀ n < objpool.num.toNat, obj ≠ objpool.object n) ∧
      (objpool.stepCall st call).bitmap = st.bitmap

def SparesEnd (st : PoolState) (call : PoolCall) : Prop :=
  call = .free (objpool.object objpool.num.toNat) → bitmapGet st.bitmap objpool.num.toNat = false

instance (st : PoolState) (call : PoolCall) : Decidable (objpool.SparesEnd st call) :=
  inferInstanceAs (Decidable (_ → _))

/-- The set bits of the pool are those of the objects that are out. -/
structure Tracks (st : PoolState) : Prop where
  nodup : st.out.Nodup
  slots : ∀ obj ∈ st.out, ∃ n < objpool.num.toNat, obj = objpool.object n
  get : ∀ n < objpool.num.toNat,
    (bitmapGet st.bitmap n = true ↔ objpool.object n ∈ st.out)

section

variable {objpool} {st : PoolState} {n : ℕ}

theorem tracks_start {bitmap : Bitmap}
    (hclear : ∀ n < objpool.num.toNat, bitmapGet bitmap n = false) :
    objpool.Tracks { bitmap := bitmap, out := [] } where
  nodup := List.nodup_nil
  slots := fun _ hmem => absurd hmem List.not_mem_nil
  get := fun n hn => iff_of_false (by simp [hclear n hn]) List.not_mem_nil

theorem Tracks.alloc_eq_none_iff (h : objpool.Tracks st) :
    (objpool.objpoolAlloc st.bitmap).1 = none ↔
      ∀ n < objpool.num.toNat, objpool.object n ∈ st.out := by
  constructor
  · exact fun hnone n hn => (h.get n hn).mp ((objpoolAlloc_eq_none hnone).2 n hn)
  · intro hall
    by_contra hsome
    obtain ⟨obj, hobj⟩ := Option.ne_none_iff_exists'.mp hsome
    obtain ⟨n, hn, -, hget, -⟩ := objpoolAlloc_eq_some hobj
    exact absurd ((h.get n hn).mpr (hall n hn)) (by simp [hget])

theorem Tracks.step_alloc (h : objpool.Tracks st) :
    objpool.Tracks (objpool.stepCall st .alloc) := by
  rw [stepCall]
  cases halloc : (objpool.objpoolAlloc st.bitmap).1 with
  | none =>
      rw [(objpoolAlloc_eq_none halloc).1]
      exact h
  | some obj =>
      obtain ⟨n, hn, rfl, hget, hbitmap⟩ := objpoolAlloc_eq_some halloc
      rw [hbitmap]
      have hnew : objpool.object n ∉ st.out := fun hmem => by
        rw [(h.get n hn).mpr hmem] at hget
        cases hget
      refine ⟨List.nodup_cons.mpr ⟨hnew, h.nodup⟩, ?_, fun m hm => ?_⟩
      · exact List.forall_mem_cons.mpr ⟨⟨n, hn, rfl⟩, h.slots⟩
      · rw [bitmapGet_bitmapSet, Bool.or_eq_true, decide_eq_true_eq, h.get m hm,
          Option.toList_some, List.singleton_append, List.mem_cons, or_comm]
        refine or_congr_left ⟨fun heq => by rw [heq], object_injOn hm.le hn.le⟩

theorem Tracks.step_free_slot (h : objpool.Tracks st) (hn : n < objpool.num.toNat) :
    objpool.Tracks (objpool.stepCall st (.free (objpool.object n))) := by
  rw [stepCall, objpoolFree_object st.bitmap hn.le]
  refine ⟨h.nodup.erase _, fun obj hmem => h.slots obj (List.mem_of_mem_erase hmem),
    fun m hm => ?_⟩
  rw [bitmapGet_bitmapClear, Bool.and_eq_true, Bool.not_eq_true', decide_eq_false_iff_not,
    h.get m hm, h.nodup.mem_erase_iff, and_comm]
  refine and_congr_left fun _ => not_congr ⟨fun heq => by rw [heq], object_injOn hm.le hn.le⟩

/-- An address that is no slot is not out, so freeing it changes at most the bits that are not of
the pool. -/
theorem Tracks.step_free_other (h : objpool.Tracks st) {obj : Addr}
    (hobj : ∀ n < objpool.num.toNat, obj ≠ objpool.object n) :
    objpool.Tracks (objpool.stepCall st (.free obj)) := by
  have hout : obj ∉ st.out := fun hmem => by
    obtain ⟨n, hn, heq⟩ := h.slots obj hmem
    exact hobj n hn heq
  rw [stepCall, List.erase_of_not_mem hout]
  by_cases hend : obj = objpool.object objpool.num.toNat
  · rw [hend, objpoolFree_object st.bitmap le_rfl]
    refine ⟨h.nodup, h.slots, fun m hm => ?_⟩
    rw [bitmapGet_bitmapClear, decide_eq_false (Nat.ne_of_lt hm), Bool.not_false, Bool.and_true]
    exact h.get m hm
  · rw [objpoolFree_stray st.bitmap fun n hn => ?_]
    · exact h
    · rcases Nat.lt_or_eq_of_le hn with hlt | rfl
      · exact hobj n hlt
      · exact hend

theorem Tracks.step (h : objpool.Tracks st) (call : PoolCall) :
    objpool.Tracks (objpool.stepCall st call) := by
  cases call with
  | alloc => exact h.step_alloc
  | free obj =>
      by_cases hobj : ∃ n < objpool.num.toNat, obj = objpool.object n
      · obtain ⟨n, hn, rfl⟩ := hobj
        exact h.step_free_slot hn
      · exact h.step_free_other fun n hn heq => hobj ⟨n, hn, heq⟩

/-- A free does what is expected exactly if it spares the bit behind the last one. -/
theorem free_right_iff (bitmap : Bitmap) (obj : Addr) :
    ((∃ n < objpool.num.toNat, obj = objpool.object n ∧
        objpool.objpoolFree bitmap obj = bitmapClear bitmap n) ∨
      (∀ n < objpool.num.toNat, obj ≠ objpool.object n) ∧
        objpool.objpoolFree bitmap obj = bitmap) ↔
      (obj = objpool.object objpool.num.toNat → bitmapGet bitmap objpool.num.toNat = false) := by
  by_cases hslot : ∃ n < objpool.num.toNat, obj = objpool.object n
  · obtain ⟨n, hn, rfl⟩ := hslot
    refine iff_of_true (.inl ⟨n, hn, rfl, objpoolFree_object bitmap hn.le⟩) fun heq => ?_
    exact absurd (object_injOn hn.le le_rfl heq) (Nat.ne_of_lt hn)
  have hne : ∀ n < objpool.num.toNat, obj ≠ objpool.object n := fun n hn heq =>
    hslot ⟨n, hn, heq⟩
  rw [or_iff_right fun ⟨n, hn, heq, _⟩ => hslot ⟨n, hn, heq⟩, and_iff_right hne]
  by_cases hend : obj = objpool.object objpool.num.toNat
  · rw [hend, objpoolFree_object bitmap le_rfl, bitmapClear_eq_self_iff]
    exact ⟨fun h _ => h, fun h => h rfl⟩
  · refine iff_of_true (objpoolFree_stray bitmap fun n hn => ?_) fun heq => absurd heq hend
    rcases Nat.lt_or_eq_of_le hn with hlt | rfl
    · exact hne n hlt
    · exact hend

theorem Tracks.callRight_iff (h : objpool.Tracks st) (call : PoolCall) :
    objpool.CallRight st call ↔ objpool.SparesEnd st call := by
  have hstep := h.step call
  constructor
  · intro hright hcall
    subst hcall
    exact (free_right_iff st.bitmap _).mp (hright.free _ rfl) rfl
  · intro hspares
    refine ⟨hstep.nodup, hstep.slots, fun _ => h.alloc_eq_none_iff, fun obj hcall => ?_⟩
    subst hcall
    exact (free_right_iff st.bitmap obj).mpr fun heq => hspares (by rw [heq])

end

/-- From a pool of which nothing is in use, all calls of a sequence do what is expected exactly if
none frees the end of the pool while the bit behind the last one of the pool is set. -/
theorem along_callRight_iff {bitmap : Bitmap}
    (hclear : ∀ n < objpool.num.toNat, bitmapGet bitmap n = false) (calls : List PoolCall) :
    Run.Along objpool.stepCall objpool.CallRight { bitmap := bitmap, out := [] } calls ↔
      Run.Along objpool.stepCall objpool.SparesEnd { bitmap := bitmap, out := [] } calls :=
  Run.along_iff (tracks_start hclear) (fun _ call h => h.step call)
    (fun _ call h => h.callRight_iff call) calls

/-- A pool of two objects, with frees of an object, of an address inside of one and of the end. -/
theorem along_callRight_two :
    ∃ (hpool : (0x1000#64 : Addr) ≠ 0#64) (hsize : 0 < (8#64 : SizeT).toNat)
      (hfits : (0x1000#64 : Addr).toNat + (8#64 : SizeT).toNat * (2#64 : SizeT).toNat < 2 ^ 64),
      let objpool : Objpool := ⟨0x1000#64, 8#64, 2#64, hpool, hsize, hfits⟩
      Run.Along objpool.stepCall objpool.CallRight { bitmap := fun _ => 0#32, out := [] }
        [.alloc, .alloc, .alloc, .free 0x1008#64, .free 0x1004#64, .free 0x1010#64, .alloc] :=
  ⟨by decide, by decide, by decide, (along_callRight_iff _ (by decide) _).mpr (by decide)⟩

/-- The end of a pool of 32 objects is freed: the first bit behind the bitmap is cleared. -/
theorem not_along_callRight_end :
    ∃ (hpool : (0x1000#64 : Addr) ≠ 0#64) (hsize : 0 < (8#64 : SizeT).toNat)
      (hfits : (0x1000#64 : Addr).toNat + (8#64 : SizeT).toNat * (32#64 : SizeT).toNat < 2 ^ 64),
      let objpool : Objpool := ⟨0x1000#64, 8#64, 32#64, hpool, hsize, hfits⟩
      let bitmap : Bitmap := fun w => if w = 1 then 1#32 else 0#32
      (∀ n < objpool.num.toNat, bitmapGet bitmap n = false) ∧
        ¬ Run.Along objpool.stepCall objpool.CallRight { bitmap := bitmap, out := [] }
          [.free 0x1100#64] := by
  refine ⟨by decide, by decide, by decide, by decide, fun h => ?_⟩
  -- the address is that of no slot, so the word behind the bitmap would have to stay
  rcases h.1.free 0x1100#64 rfl with ⟨n, hn, heq, -⟩ | ⟨-, heq⟩
  · exact absurd heq (by revert n; decide)
  · exact absurd (congrFun heq 1) (by decide)

end Objpool

end BaoHypervisor
