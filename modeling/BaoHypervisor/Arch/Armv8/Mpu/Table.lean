import BaoHypervisor.Arch.Armv8.Mpu.Bookkeeping
import BaoHypervisor.Theory.BitField
import BaoHypervisor.Theory.Blocks

/-!
# The entries of the MPU of Armv8-R as a table

What the enabled entries hold, with the permissions that are kept beside them, is a table of blocks:
a block is a region with the permissions of both privileges. A region of granules with flags that
stay within their bits comes out of the registers as it went in (`entryGetRegion_entrySet_self`).
-/

namespace BaoHypervisor

def MemFlags.Fit (flags : MemFlags) : Prop := flags.prbar.toNat < 64 ∧ flags.prlar.toNat < 64

instance (flags : MemFlags) : Decidable flags.Fit := inferInstanceAs (Decidable (_ ∧ _))

def MemFlags.El1 (flags : MemFlags) : Prop := flags.prbar &&& prbarEl1Bit ≠ 0#16

instance (flags : MemFlags) : Decidable flags.El1 := inferInstanceAs (Decidable (_ ≠ _))

/-- The permissions of the two privileges are kept in the same place. -/
def Priv.Same (p q : Priv) : Prop := p = .vm ↔ q = .vm

instance (p q : Priv) : Decidable (p.Same q) := inferInstanceAs (Decidable (_ ↔ _))

theorem Priv.same_refl (p : Priv) : p.Same p := Iff.rfl

/-- The privilege that the permissions of an entry are kept for beside those of this one. -/
def Priv.other (p : Priv) : Priv := if p = .vm then .hyp else .vm

def MpuPerms.Has (perms : MpuPerms) (priv : Priv) : Prop :=
  (if priv = .vm then perms.el1 else perms.el2) ≠ permNone

instance (perms : MpuPerms) (priv : Priv) : Decidable (perms.Has priv) :=
  inferInstanceAs (Decidable (_ ≠ _))

theorem MpuPerms.has_congr {perms : MpuPerms} {p q : Priv} (h : p.Same q) :
    perms.Has p ↔ perms.Has q := by
  rw [MpuPerms.Has, MpuPerms.Has]
  by_cases hp : p = .vm
  · rw [if_pos hp, if_pos (h.mp hp)]
  · rw [if_neg hp, if_neg fun hq => hp (h.mpr hq)]

theorem Priv.same_other_iff {p q : Priv} : p.Same q.other ↔ ¬ p.Same q := by
  cases p <;> cases q <;> decide

theorem MpuPerms.has_vm {perms : MpuPerms} : perms.Has .vm ↔ perms.el1 ≠ permNone := Iff.rfl

theorem MpuPerms.has_setPriv {perms : MpuPerms} {priv p : Priv} {new : Perms} :
    (perms.setPriv priv new).Has p ↔
      if p.Same priv then new ≠ permNone else perms.Has p := by
  rw [MpuPerms.Has, MpuPerms.Has, MpuPerms.setPriv]
  by_cases hpriv : priv = .vm <;> by_cases hp : p = .vm <;> simp [Priv.Same, hpriv, hp]

theorem MemFlags.el1_iff {flags : MemFlags} : flags.El1 ↔ flags.prbar.getLsbD 2 = true := by
  have hbit : prbarEl1Bit = BitVec.twoPow 16 2 := rfl
  rw [MemFlags.El1, hbit, BitVec.and_twoPow]
  cases flags.prbar.getLsbD 2 <;> decide

/-- The flags that `mpu_entry_set_perms` gives a region let the guest have it if the permissions
do. -/
theorem el1_mpuEntrySetPerms {mpr : MpRegion} {perms : MpuPerms} :
    (mpuEntrySetPerms mpr perms).memFlags.El1 ↔ perms.el1 ≠ permNone := by
  have hclear : ∀ x : BitVec 16, (x &&& ~~~prbarPermsFlagsMsk).getLsbD 2 = false := by
    intro x
    rw [BitVec.getLsbD_and]
    simp [prbarPermsFlagsMsk]
  have hrw : prbarApRwEl2.getLsbD 2 = false := by decide
  have hro : prbarApRoEl2.getLsbD 2 = false := by decide
  have hxn : prbarXn.getLsbD 2 = false := by decide
  have hel1 : prbarEl1Bit.getLsbD 2 = true := by decide
  rw [MemFlags.el1_iff, mpuEntrySetPerms]
  by_cases hperms : perms.el1 = permNone
  · simp only [hperms, ne_eq, not_true_eq_false, if_false, iff_false, Bool.not_eq_true]
    split_ifs <;> simp only [BitVec.getLsbD_or, hclear, hrw, hro, hxn, Bool.or_self]
  · simp only [hperms, ne_eq, not_false_eq_true, if_true, BitVec.getLsbD_or, hel1,
      Bool.or_true]

theorem fit_mpuEntrySetPerms {mpr : MpRegion} {perms : MpuPerms} (h : mpr.memFlags.Fit) :
    (mpuEntrySetPerms mpr perms).memFlags.Fit := by
  have hor : ∀ x y : BitVec 16, x.toNat < 64 → y.toNat < 64 → (x ||| y).toNat < 64 := by
    intro x y hx hy
    rw [BitVec.toNat_or]
    exact Nat.or_lt_two_pow (n := 6) hx hy
  have hand : (mpr.memFlags.prbar &&& ~~~prbarPermsFlagsMsk).toNat < 64 := by
    rw [BitVec.toNat_and]
    exact Nat.and_le_left.trans_lt h.1
  refine ⟨?_, h.2⟩
  simp only [mpuEntrySetPerms]
  split_ifs <;> repeat' first | exact hand | decide | refine hor _ _ ?_ ?_

theorem memVmpuEntryPerms_ne (mpr : MpRegion) : memVmpuEntryPerms mpr ≠ permNone := by
  rw [memVmpuEntryPerms]
  split <;> split <;> decide

theorem toNat_and_regFlagsMsk (x : BitVec 64) : (x &&& regFlagsMsk).toNat = x.toNat % 64 :=
  BitField.toNat_and_mask x (k := 6) (by decide)

namespace Armv8Mpu

variable {n : ℕ} {m m' : Armv8Mpu n} {i j : Fin n} {mpr : MpRegion}

theorem setWidth_flags {flags : BitVec 16} (h : flags.toNat < 64) :
    flags.setWidth 64 &&& regFlagsMsk = flags.setWidth 64 := by
  refine BitVec.eq_of_toNat_eq ?_
  rw [toNat_and_regFlagsMsk, BitVec.toNat_setWidth_of_le (by decide), Nat.mod_eq_of_lt h]

theorem and_regFlagsMsk_eq_zero {x : BitVec 64} (h : mpuGranularity ∣ x.toNat) :
    x &&& regFlagsMsk = 0#64 := by
  refine BitVec.eq_of_toNat_eq ?_
  rw [toNat_and_regFlagsMsk, Nat.mod_eq_zero_of_dvd h, BitVec.toNat_zero]

theorem last_and_regFlagsMsk (h : mpr.WellFormed) :
    (mpr.base + mpr.size - 1#64) &&& regFlagsMsk = regFlagsMsk := by
  have hpos := h.pos
  have hlimit := h.limit_le
  have hdvd := h.limit_dvd
  refine BitVec.eq_of_toNat_eq ?_
  rw [toNat_and_regFlagsMsk, BitVec.toNat_sub, BitVec.toNat_add]
  simp only [MpRegion.limit, mpuGranularity] at *
  have hone : (1#64).toNat = 1 := rfl
  have hmask : regFlagsMsk.toNat = 63 := rfl
  rw [hone, hmask]
  omega

theorem entryGetRegion_entrySet_self (h : mpr.WellFormed) (hflags : mpr.memFlags.Fit) :
    (m.entrySet i mpr).entryGetRegion i = { mpr with asSec := .unknown } := by
  have hbase := and_regFlagsMsk_eq_zero h.base_dvd
  have hprbar := setWidth_flags hflags.1
  have hprlar := setWidth_flags hflags.2
  have hnot := BitField.and_not_mask_and_mask (mpr.base + mpr.size - 1#64) regFlagsMsk
  have hwidth : ∀ flags : BitVec 16, (flags.setWidth 64).setWidth 16 = flags := fun flags => by
    simp
  simp only [entryGetRegion, entrySet, insertOrdered, Function.update_self]
  rw [BitField.and_not_mask hbase, BitField.or_and_not_mask hbase hprbar,
    BitField.or_and_mask hbase hprbar, BitField.or_and_not_mask hnot hprlar,
    BitField.or_and_mask hnot hprlar, BitField.and_not_mask_or (last_and_regFlagsMsk h),
    hwidth, hwidth, BitVec.sub_add_cancel, BitVec.add_comm mpr.base, BitVec.add_sub_cancel]

theorem fit_entryGetRegion : (m.entryGetRegion i).memFlags.Fit := by
  have hlt : ∀ x : BitVec 64, ((x &&& regFlagsMsk).setWidth 16).toNat < 64 := by
    intro x
    rw [BitVec.toNat_setWidth, toNat_and_regFlagsMsk]
    omega
  exact ⟨hlt _, hlt _⟩

def table (m : Armv8Mpu n) (i : Fin n) : Option (MpRegion × MpuPerms) :=
  if m.entryValid i then some (m.entryGetRegion i, m.perms i) else none

def extent (b : MpRegion × MpuPerms) : Set ℕ := {a | b.1.Covers a}

/-- The addresses that the entries let a privilege have. -/
def covered (m : Armv8Mpu n) (priv : Priv) : Set ℕ :=
  Blocks.cover extent m.table fun b => b.2.Has priv

theorem table_eq_some_iff {b : MpRegion × MpuPerms} :
    m.table i = some b ↔ m.entryValid i = true ∧ b = (m.entryGetRegion i, m.perms i) := by
  rw [table]
  by_cases hvalid : m.entryValid i = true
  · rw [if_pos hvalid, Option.some.injEq, and_iff_right hvalid, eq_comm]
  · rw [if_neg hvalid]
    exact iff_of_false (fun h => by cases h) fun h => hvalid h.1

theorem table_of_valid (h : m.entryValid i = true) :
    m.table i = some (m.entryGetRegion i, m.perms i) := if_pos h

theorem table_of_not_valid (h : m.entryValid i = false) : m.table i = none := by
  rw [table, h]
  rfl

theorem table_congr (hprbar : m'.prbar i = m.prbar i) (hprlar : m'.prlar i = m.prlar i)
    (hperms : m'.perms i = m.perms i) : m'.table i = m.table i := by
  simp only [table, entryGetRegion, hprbar, hprlar, hperms, entryValid_congr hprlar]

/-- The region of a block is one that the MPU can hold, and the guest has it if the flags say so. -/
structure BlockOk (b : MpRegion × MpuPerms) : Prop where
  wellFormed : b.1.WellFormed
  limit_lt : b.1.limit < 2 ^ 64
  el1 : b.1.memFlags.El1 ↔ b.2.el1 ≠ permNone

/-- The bookkeeping is right, and the entries are blocks that have no address in common. -/
structure Sound (m : Armv8Mpu n) : Prop where
  tracks : m.Tracks ∅
  separate : Blocks.Separate extent m.table
  block : ∀ i b, m.table i = some b → BlockOk b

theorem table_entrySet (h : mpr.WellFormed) (hflags : mpr.memFlags.Fit)
    (henables : mpr.memFlags.Enables) :
    (m.entrySet i mpr).table =
      Function.update m.table i (some ({ mpr with asSec := .unknown }, m.perms i)) := by
  funext j
  by_cases hj : j = i
  · subst hj
    rw [Function.update_self, table_of_valid (entryValid_entrySet_self.mpr henables),
      entryGetRegion_entrySet_self h hflags]
    rfl
  · rw [Function.update_of_ne hj]
    exact table_congr (Function.update_of_ne hj _ _) (Function.update_of_ne hj _ _) rfl

theorem update_table_entryUpdatePrivPerms {priv : Priv} {perms : Perms}
    {o : Option (MpRegion × MpuPerms)} :
    Function.update (m.entryUpdatePrivPerms i priv perms).table i o =
      Function.update m.table i o := by
  funext j
  by_cases hj : j = i
  · rw [hj, Function.update_self, Function.update_self]
  · rw [Function.update_of_ne hj, Function.update_of_ne hj]
    exact table_congr rfl rfl (Function.update_of_ne hj _ _)

theorem perms_entryUpdatePrivPerms {priv : Priv} {perms : Perms} :
    (m.entryUpdatePrivPerms i priv perms).perms i = (m.perms i).setPriv priv perms :=
  Function.update_self ..

theorem table_write {priv : Priv} {perms : Perms} (h : mpr.WellFormed)
    (hflags : mpr.memFlags.Fit) (henables : mpr.memFlags.Enables) :
    ((m.entryUpdatePrivPerms i priv perms).entrySet i mpr).table =
      Function.update m.table i
        (some ({ mpr with asSec := .unknown }, (m.perms i).setPriv priv perms)) := by
  rw [table_entrySet h hflags henables, update_table_entryUpdatePrivPerms,
    perms_entryUpdatePrivPerms]

theorem table_entryModify (m : Armv8Mpu n) (i : Fin n) (mpr : MpRegion) :
    (m.entryModify i mpr).table = (m.entrySet i mpr).table := rfl

theorem table_entryFree (m : Armv8Mpu n) (i : Fin n) :
    (m.entryFree i).table = Function.update m.table i none := by
  funext j
  by_cases hj : j = i
  · subst hj
    rw [Function.update_self]
    refine table_of_not_valid ?_
    rw [entryFree, entryValid]
    simp
  · rw [Function.update_of_ne hj]
    exact table_congr (Function.update_of_ne hj _ _) (Function.update_of_ne hj _ _) rfl

end Armv8Mpu

end BaoHypervisor
