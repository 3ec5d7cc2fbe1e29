import BaoHypervisor.Lib.Util

/-!
# Regions of a memory protection unit

On platforms with an MPU the hypervisor maps regions of addresses. The test of the source for
an overlap is `range_in_range`: it asks whether the first region lies within the second one.
For regions that the MPU can hold it is exact about that (`memRegionsOverlap_iff`).
-/

namespace BaoHypervisor

/-- `mpu_granularity`, the page size of platforms with an MPU. -/
abbrev mpuGranularity : ℕ := 64

/-- `as_sec_t`. Those of VMs have one section, with the number of the global one. -/
inductive AsSec
  | hypGlobal
  | hypImage
  | hypPrivate
  | hypVm
  | hypAny
  | unknown
deriving DecidableEq, Repr

structure MemFlags where
  prbar : BitVec 16
  prlar : BitVec 16
deriving DecidableEq, Repr

def MemFlags.invalid : MemFlags := ⟨0#16, 0#16⟩

structure MpRegion where
  base : Addr
  size : SizeT
  memFlags : MemFlags
  asSec : AsSec
deriving DecidableEq, Repr

def memRegionsOverlap (reg1 reg2 : MpRegion) : Bool :=
  rangeInRange reg1.base reg1.size reg2.base reg2.size

namespace MpRegion

/-- The end of the region, without wrap-around. -/
def limit (r : MpRegion) : ℕ := r.base.toNat + r.size.toNat

def Covers (r : MpRegion) (a : ℕ) : Prop := r.base.toNat ≤ a ∧ a < r.limit

def Apart (r q : MpRegion) : Prop := r.limit ≤ q.base.toNat ∨ q.limit ≤ r.base.toNat

def Within (r q : MpRegion) : Prop := q.base.toNat ≤ r.base.toNat ∧ r.limit ≤ q.limit

/-- The region is not empty, does not wrap around and is made of granules. -/
structure WellFormed (r : MpRegion) : Prop where
  pos : 0 < r.size.toNat
  limit_le : r.limit ≤ 2 ^ 64
  base_dvd : mpuGranularity ∣ r.base.toNat
  size_dvd : mpuGranularity ∣ r.size.toNat

instance (r q : MpRegion) : Decidable (r.Apart q) := inferInstanceAs (Decidable (_ ∨ _))

instance (r q : MpRegion) : Decidable (r.Within q) := inferInstanceAs (Decidable (_ ∧ _))

instance (r : MpRegion) : Decidable r.WellFormed :=
  decidable_of_iff (0 < r.size.toNat ∧ r.limit ≤ 2 ^ 64 ∧ mpuGranularity ∣ r.base.toNat ∧
    mpuGranularity ∣ r.size.toNat)
    ⟨fun h => ⟨h.1, h.2.1, h.2.2.1, h.2.2.2⟩, fun h => ⟨h.pos, h.limit_le, h.base_dvd, h.size_dvd⟩⟩

variable {r q p : MpRegion}

theorem Apart.symm (h : r.Apart q) : q.Apart r := Or.symm h

theorem Within.refl (r : MpRegion) : r.Within r := ⟨le_rfl, le_rfl⟩

theorem Within.trans (h : r.Within q) (h' : q.Within p) : r.Within p :=
  ⟨h'.1.trans h.1, h.2.trans h'.2⟩

theorem Within.apart (h : r.Within q) (h' : q.Apart p) : r.Apart p :=
  h'.imp h.2.trans fun h' => h'.trans h.1

theorem WellFormed.base_lt_limit (h : r.WellFormed) : r.base.toNat < r.limit :=
  Nat.lt_add_of_pos_right h.pos

theorem WellFormed.limit_dvd (h : r.WellFormed) : mpuGranularity ∣ r.limit :=
  Nat.dvd_add h.base_dvd h.size_dvd

theorem wellFormed_of_ends (hlt : r.base.toNat < r.limit) (hle : r.limit ≤ 2 ^ 64)
    (hbase : mpuGranularity ∣ r.base.toNat) (hlimit : mpuGranularity ∣ r.limit) : r.WellFormed where
  pos := by
    rw [limit] at hlt
    omega
  limit_le := hle
  base_dvd := hbase
  size_dvd := (Nat.dvd_add_right hbase).mp hlimit

theorem toNat_base_add_size (h : r.limit < 2 ^ 64) : (r.base + r.size).toNat = r.limit := by
  rw [limit] at *
  rw [BitVec.toNat_add, Nat.mod_eq_of_lt h]

theorem Within.not_apart (h : r.Within q) (hr : r.WellFormed) : ¬ r.Apart q := by
  have hlt := hr.base_lt_limit
  rintro (hle | hle)
  · exact absurd (h.1.trans_lt hlt) (not_lt.mpr hle)
  · exact absurd (hlt.trans_le h.2) (not_lt.mpr hle)

theorem apart_iff (hr : r.WellFormed) (hq : q.WellFormed) :
    r.Apart q ↔ ∀ a, ¬ (r.Covers a ∧ q.Covers a) := by
  have hrlt := hr.base_lt_limit
  have hqlt := hq.base_lt_limit
  simp only [Apart, Covers]
  constructor
  · rintro h a ⟨har, haq⟩
    omega
  · intro h
    have hmax := h (max r.base.toNat q.base.toNat)
    omega

theorem WellFormed.covers_base (h : r.WellFormed) : r.Covers r.base.toNat :=
  ⟨le_rfl, h.base_lt_limit⟩

end MpRegion

theorem memRegionsOverlap_iff {r q : MpRegion} (hr : r.WellFormed) (hq : q.WellFormed) :
    memRegionsOverlap r q = true ↔ r.Within q := by
  have hrle := hr.limit_le
  have hqle := hq.limit_le
  have hrdvd := hr.limit_dvd
  have hqdvd := hq.limit_dvd
  rw [memRegionsOverlap, rangeInRange_iff]
  simp only [MpRegion.Within, MpRegion.limit, mpuGranularity] at *
  omega

end BaoHypervisor
