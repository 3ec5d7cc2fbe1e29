import BaoHypervisor.Lib.BitmapRun
import BaoHypervisor.Lib.Util

/-!
# Object pools

A pool is a static array of objects with a bitmap that marks those in use. Freeing
takes any pointer: one that is no object of the pool is left alone. The array lies in
memory without a wrap and not at the null pointer, as every object of C does.
-/

namespace BaoHypervisor

open Bitmap

/-- `struct objpool`, without its bitmap. -/
structure Objpool where
  pool : Addr
  objsize : SizeT
  num : SizeT
  pool_ne_null : pool ≠ 0#64
  objsize_pos : 0 < objsize.toNat
  fits : pool.toNat + objsize.toNat * num.toNat < 2 ^ 64

namespace Objpool

variable (objpool : Objpool)

def object (n : ℕ) : Addr := objpool.pool + objpool.objsize * BitVec.ofNat 64 n

/-- `objpool_alloc`: the object, if there was one left, and the bitmap. -/
def objpoolAlloc (bitmap : Bitmap) : Option Addr × Bitmap :=
  match bitmapFindNth bitmap objpool.num.toNat 1 0 false with
  | some n => (some (objpool.object n), bitmapSet bitmap n)
  | none => (none, bitmap)

def objpoolFree (bitmap : Bitmap) (obj : Addr) : Bitmap :=
  let inPool := inRange obj objpool.pool (objpool.objsize * objpool.num)
  let aligned := decide ((obj - objpool.pool) % objpool.objsize = 0#64)
  if inPool && aligned then
    bitmapClear bitmap ((obj - objpool.pool) / objpool.objsize).toNat
  else bitmap

section Object

variable {objpool} {n m : ℕ}

theorem toNat_object_sub (hn : n ≤ objpool.num.toNat) :
    (objpool.object n - objpool.pool).toNat = objpool.objsize.toNat * n := by
  have hfits := objpool.fits
  have hmul : objpool.objsize.toNat * n ≤ objpool.objsize.toNat * objpool.num.toNat :=
    Nat.mul_le_mul_left _ hn
  have hlt : objpool.objsize.toNat * n < 2 ^ 64 := by omega
  have hn64 : n < 2 ^ 64 := hn.trans_lt objpool.num.isLt
  rw [object, add_sub_cancel_left, BitVec.toNat_mul, BitVec.toNat_ofNat,
    Nat.mod_eq_of_lt hn64, Nat.mod_eq_of_lt hlt]

theorem toNat_object (hn : n ≤ objpool.num.toNat) :
    (objpool.object n).toNat = objpool.pool.toNat + objpool.objsize.toNat * n := by
  have hfits := objpool.fits
  have hmul : objpool.objsize.toNat * n ≤ objpool.objsize.toNat * objpool.num.toNat :=
    Nat.mul_le_mul_left _ hn
  have hsub := toNat_object_sub hn
  have hlt := objpool.pool.isLt
  have hsum : objpool.object n = objpool.pool + (objpool.object n - objpool.pool) :=
    (add_sub_cancel _ _).symm
  rw [hsum, BitVec.toNat_add, hsub, Nat.mod_eq_of_lt (by omega)]

theorem object_injOn (hn : n ≤ objpool.num.toNat) (hm : m ≤ objpool.num.toNat)
    (h : objpool.object n = objpool.object m) : n = m := by
  have hsub : objpool.objsize.toNat * n = objpool.objsize.toNat * m := by
    rw [← toNat_object_sub hn, ← toNat_object_sub hm, h]
  exact Nat.eq_of_mul_eq_mul_left objpool.objsize_pos hsub

theorem inRange_pool_iff {obj : Addr} :
    inRange obj objpool.pool (objpool.objsize * objpool.num) = true ↔
      objpool.pool.toNat ≤ obj.toNat ∧
        obj.toNat ≤ objpool.pool.toNat + objpool.objsize.toNat * objpool.num.toNat := by
  have hfits := objpool.fits
  have hlt := obj.isLt
  have hsize : (objpool.objsize * objpool.num).toNat =
      objpool.objsize.toNat * objpool.num.toNat := by
    rw [BitVec.toNat_mul, Nat.mod_eq_of_lt (by omega)]
  rw [inRange, rangeInRange_iff, hsize]
  simp only [BitVec.toNat_ofNat]
  omega

/-- Freeing an object of the pool clears its bit. The end of the pool passes for an object. -/
theorem objpoolFree_object (bitmap : Bitmap) (hn : n ≤ objpool.num.toNat) :
    objpool.objpoolFree bitmap (objpool.object n) = bitmapClear bitmap n := by
  have hmul : objpool.objsize.toNat * n ≤ objpool.objsize.toNat * objpool.num.toNat :=
    Nat.mul_le_mul_left _ hn
  have hsub := toNat_object_sub hn
  have hinPool : inRange (objpool.object n) objpool.pool
      (objpool.objsize * objpool.num) = true := by
    rw [inRange_pool_iff, toNat_object hn]
    omega
  have haligned : (objpool.object n - objpool.pool) % objpool.objsize = 0#64 := by
    refine BitVec.eq_of_toNat_eq ?_
    rw [BitVec.toNat_umod, hsub, Nat.mul_mod_right]
    rfl
  have hindex : ((objpool.object n - objpool.pool) / objpool.objsize).toNat = n := by
    rw [BitVec.toNat_udiv, hsub, Nat.mul_div_cancel_left n objpool.objsize_pos]
  rw [objpoolFree, hinPool, haligned, hindex]
  rfl

/-- Freeing any other address changes nothing. -/
theorem objpoolFree_stray (bitmap : Bitmap) {obj : Addr}
    (h : ∀ n ≤ objpool.num.toNat, obj ≠ objpool.object n) :
    objpool.objpoolFree bitmap obj = bitmap := by
  rw [objpoolFree]
  refine if_neg fun hboth => ?_
  obtain ⟨hinPool, haligned⟩ := Bool.and_eq_true_iff.mp hboth
  obtain ⟨hle, hend⟩ := inRange_pool_iff.mp hinPool
  have hsub : (obj - objpool.pool).toNat = obj.toNat - objpool.pool.toNat :=
    BitVec.toNat_sub_of_le hle
  -- the distance is a number of whole objects
  obtain ⟨n, hn⟩ : objpool.objsize.toNat ∣ (obj - objpool.pool).toNat := by
    refine Nat.dvd_of_mod_eq_zero ?_
    rw [← BitVec.toNat_umod, of_decide_eq_true haligned]
    rfl
  have hnum : n ≤ objpool.num.toNat :=
    Nat.le_of_mul_le_mul_left (by omega) objpool.objsize_pos
  refine h n hnum (BitVec.eq_of_toNat_eq ?_)
  rw [toNat_object hnum]
  omega

theorem objpoolAlloc_eq_some {bitmap : Bitmap} {obj : Addr}
    (h : (objpool.objpoolAlloc bitmap).1 = some obj) :
    ∃ n < objpool.num.toNat, obj = objpool.object n ∧ bitmapGet bitmap n = false ∧
      (objpool.objpoolAlloc bitmap).2 = bitmapSet bitmap n := by
  rw [objpoolAlloc] at h ⊢
  cases hfind : bitmapFindNth bitmap objpool.num.toNat 1 0 false with
  | none =>
      rw [hfind] at h
      cases h
  | some n =>
      rw [hfind] at h
      obtain ⟨-, hn, hget, -⟩ := bitmapFindNth_one_eq_some hfind
      exact ⟨n, hn, (Option.some.inj h).symm, hget, rfl⟩

theorem objpoolAlloc_eq_none {bitmap : Bitmap} (h : (objpool.objpoolAlloc bitmap).1 = none) :
    (objpool.objpoolAlloc bitmap).2 = bitmap ∧
      ∀ n < objpool.num.toNat, bitmapGet bitmap n = true := by
  rw [objpoolAlloc] at h ⊢
  cases hfind : bitmapFindNth bitmap objpool.num.toNat 1 0 false with
  | none =>
      refine ⟨rfl, fun n hn => ?_⟩
      exact Bool.eq_true_of_not_eq_false
        (bitmapFindNth_one_eq_none hfind n (Nat.zero_le n) hn)
  | some n =>
      rw [hfind] at h
      cases h

end Object

end Objpool

end BaoHypervisor
