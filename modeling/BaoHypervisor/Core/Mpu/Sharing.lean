import BaoHypervisor.Core.Mpu.Exact
import BaoHypervisor.Core.Vm.Ids
import Mathlib.Algebra.BigOperators.Group.Finset.Basic
import Mathlib.Algebra.BigOperators.Fin
import Mathlib.Algebra.Order.BigOperators.Group.Finset

/-!
# Sharing of MPU regions

Each CPU has an address space of its own for the hypervisor, and tells the others by messages
what it does to the regions of shared sections. The calls of all CPUs and the handling of
messages interleave, and the messages of a CPU are handled in the order they came.

`mem_unmap_range` broadcasts what it does whoever calls it, so a CPU that handles a removal
sends it on to all others. The address spaces agree in the end as long as a CPU calls with no
message that is about the same addresses in its queue, and maps nothing around a region that
another CPU is still to remove.
-/

namespace BaoHypervisor

def bitMask (off len : ℕ) : BitVec 64 := (((1#64 <<< (len - 1)) <<< 1) - 1#64) <<< off

/-- What is fixed of the CPUs: `PLAT_CPU_NUM`, and the `cpus` of the VM of each that has a
vCPU. -/
structure SharePlatform (cpuNum : ℕ) where
  cpuNum_le : cpuNum ≤ 64
  vmCpus : Fin cpuNum → Option CpuMap
  own : ∀ c cpus, vmCpus c = some cpus → cpus.getLsbD c = true
  same : ∀ c (d : Fin cpuNum) cpus, vmCpus c = some cpus → cpus.getLsbD d = true →
    vmCpus d = some cpus

/-- The address spaces of the CPUs, with their physical MPUs, the messages in their queues,
and how many have been sent. -/
structure ShareSystem (P : Type*) (cpuNum : ℕ) where
  vmpu : Fin cpuNum → Vmpu
  phys : Fin cpuNum → P
  queue : Fin cpuNum → List ShareMsg
  sent : ℕ

inductive ShareAct (cpuNum : ℕ)
  | map (c : Fin cpuNum) (mpr : MpRegion)
  | unmapRange (c : Fin cpuNum) (vaddr : Addr) (size : SizeT)
  | deliver (c : Fin cpuNum)
deriving DecidableEq, Repr

variable {P : Type*} {cpuNum : ℕ}

namespace SharePlatform

variable (platform : SharePlatform cpuNum)

/-- `mem_section_shared_cpus`, of the hypervisor's own address space. -/
def memSectionSharedCpus (c : Fin cpuNum) : AsSec → CpuMap
  | .hypGlobal | .hypImage => bitMask 0 cpuNum
  | .hypVm => (platform.vmCpus c).getD 0#64
  | .hypPrivate | .hypAny | .unknown => 0#64

/-- The test of the loop of `mem_region_broadcast`. -/
def shares (c : Fin cpuNum) (sec : AsSec) (d : Fin cpuNum) : Bool :=
  decide (c ≠ d) && (platform.memSectionSharedCpus c sec).getLsbD d

end SharePlatform

/-- The call that `mem_handle_broadcast_region` makes. -/
def handleBroadcast : ShareMsg → MemAct
  | (.insertRegion, mpr) => .map mpr false
  | (.removeRegion, mpr) => .unmapRange mpr.base mpr.size false

namespace ShareSystem

section Functions

variable (platform : SharePlatform cpuNum) (mpu : PhysMpu P) (s : ShareSystem P cpuNum)

def space (c : Fin cpuNum) : MemState P := ⟨s.vmpu c, s.phys c, []⟩

/-- A CPU makes a call, and its broadcasts go to the queues of the others. -/
def call (c : Fin cpuNum) (act : MemAct) : ShareSystem P cpuNum :=
  let space := (s.space c).step mpu .hyp act
  let msgs d := space.broadcasts.filter fun m => platform.shares c m.2.asSec d
  { vmpu := Function.update s.vmpu c space.vmpu
    phys := Function.update s.phys c space.phys
    queue := fun d => s.queue d ++ msgs d
    sent := s.sent + ∑ d, (msgs d).length }

/-- A CPU without a message has nothing to handle. -/
def step : ShareAct cpuNum → ShareSystem P cpuNum
  | .map c mpr => s.call platform mpu c (.map mpr true)
  | .unmapRange c vaddr size => s.call platform mpu c (.unmapRange vaddr size true)
  | .deliver c =>
      match s.queue c with
      | [] => s
      | m :: queue =>
          call platform mpu { s with queue := Function.update s.queue c queue } c
            (handleBroadcast m)

end Functions

/-- What the calls are promised: regions of granules, those to map apart from all that are
there, and a free entry in the table. -/
def Proper (s : ShareSystem P cpuNum) : ShareAct cpuNum → Prop
  | .map c mpr => mpr.WellFormed ∧ (∀ d, (s.vmpu d).ApartFrom mpr) ∧
      0 < (s.vmpu c).freeEntries.card
  | .unmapRange c vaddr size => (MpRegion.ofRange vaddr size).WellFormed ∧
      0 < (s.vmpu c).freeEntries.card
  | .deliver c => 0 < (s.vmpu c).freeEntries.card

/-- A CPU calls with no message in its queue about the addresses of the region that it maps or
takes a range out of, and maps nothing around a region that another CPU has, or is to insert,
and is to remove. -/
def UpToDate (s : ShareSystem P cpuNum) : ShareAct cpuNum → Prop
  | .map c mpr => (∀ m ∈ s.queue c, mpr.Apart m.2) ∧
      ∀ d, d ≠ c → ∀ m ∈ s.queue d, m.1 = .removeRegion → m.2.Within mpr →
        m.2 ∉ (s.vmpu d).regions ∧ (.insertRegion, m.2) ∉ s.queue d
  | .unmapRange c vaddr size => ∀ e ∈ (s.vmpu c).regions,
      (MpRegion.ofRange vaddr size).Within e → ∀ m ∈ s.queue c, e.Apart m.2
  | .deliver _ => True

def GlobalCovers (s : ShareSystem P cpuNum) (c : Fin cpuNum) (a : ℕ) : Prop :=
  ∃ r ∈ (s.vmpu c).regions, r.asSec = .hypGlobal ∧ r.Covers a

def Converged (s : ShareSystem P cpuNum) : Prop :=
  ∀ c d a, s.GlobalCovers c a ↔ s.GlobalCovers d a

def Quiet (s : ShareSystem P cpuNum) : Prop := ∀ c, s.queue c = []

/-- Where a run may start: no messages, tables of regions that are apart, and those of the
shared sections in the tables of all that share them. -/
structure Settled (platform : SharePlatform cpuNum) (held : P → Finset MpRegion)
    (s : ShareSystem P cpuNum) : Prop where
  quiet : s.Quiet
  holds : ∀ c, (s.space c).Holds held
  apart : ∀ c d, ∀ a ∈ (s.vmpu c).regions, ∀ b ∈ (s.vmpu d).regions, a = b ∨ a.Apart b
  shared : ∀ c, ∀ a ∈ (s.vmpu c).regions, ∀ d,
    a ∈ (s.vmpu d).regions ↔ d = c ∨ platform.shares c a.asSec d = true

end ShareSystem

namespace SharePlatform

variable (platform : SharePlatform cpuNum)

theorem getLsbD_bitMask {len i : ℕ} (hlen : len ≤ 64) (hi : i < len) :
    (bitMask 0 len).getLsbD i = true := by
  have hmask : bitMask 0 len = BitVec.ofNat 64 (2 ^ len - 1) := by
    apply BitVec.eq_of_toNat_eq
    have hpow : 2 ^ len ≤ 2 ^ 64 := Nat.pow_le_pow_right (by decide) hlen
    have hpos : 0 < 2 ^ len := Nat.two_pow_pos len
    have hshift : (1#64 <<< (len - 1)) <<< 1 = BitVec.ofNat 64 (2 ^ len) := by
      apply BitVec.eq_of_toNat_eq
      rw [← BitVec.shiftLeft_add, BitVec.toNat_shiftLeft, BitVec.toNat_ofNat, BitVec.toNat_ofNat,
        Nat.sub_add_cancel (by omega), Nat.shiftLeft_eq]
      simp
    rw [bitMask, hshift, BitVec.shiftLeft_zero, BitVec.toNat_sub, BitVec.toNat_ofNat,
      BitVec.toNat_ofNat, BitVec.toNat_ofNat]
    omega
  rw [hmask, BitVec.getLsbD_ofNat, Nat.testBit_two_pow_sub_one]
  simp [hi, hi.trans_le hlen]

theorem shares_self (c : Fin cpuNum) (sec : AsSec) : platform.shares c sec c = false := by
  simp [shares]

/-- Sharing a section is an equivalence of CPUs. -/
theorem equivalence_shares (sec : AsSec) :
    Equivalence fun c d => d = c ∨ platform.shares c sec d = true := by
  have hglobal : ∀ c d : Fin cpuNum,
      d = c ∨ (decide (c ≠ d) && (bitMask 0 cpuNum).getLsbD d) = true := by
    intro c d
    by_cases hcd : c = d
    · exact .inl hcd.symm
    · exact .inr (by simp [hcd, getLsbD_bitMask platform.cpuNum_le d.isLt])
  have hnone : ∀ c d : Fin cpuNum,
      d = c ∨ (decide (c ≠ d) && (0#64 : CpuMap).getLsbD d) = true ↔ d = c := by
    simp
  have hvm : ∀ c d, d = c ∨
      (decide (c ≠ d) && ((platform.vmCpus c).getD 0#64).getLsbD d) = true ↔
        d = c ∨ ∃ cpus, platform.vmCpus c = some cpus ∧ platform.vmCpus d = some cpus := by
    intro c d
    by_cases hcd : d = c
    · exact iff_of_true (.inl hcd) (.inl hcd)
    · rw [or_iff_right hcd, or_iff_right hcd]
      cases hc : platform.vmCpus c with
      | none => simp
      | some cpus =>
          simp only [ne_eq, Option.getD_some, Bool.and_eq_true, decide_eq_true_eq,
            Option.some.injEq, exists_eq_left']
          constructor
          · exact fun h => platform.same c d cpus hc h.2
          · exact fun h => ⟨fun h => hcd h.symm, platform.own d cpus h⟩
  cases sec with
  | hypGlobal => exact ⟨fun c => hglobal c c, fun _ => hglobal _ _, fun _ _ => hglobal _ _⟩
  | hypImage => exact ⟨fun c => hglobal c c, fun _ => hglobal _ _, fun _ _ => hglobal _ _⟩
  | hypVm =>
      refine ⟨fun c => .inl rfl, fun {c d} h => ?_, fun {c d f} h h' => ?_⟩
      · rcases (hvm c d).mp h with rfl | ⟨cpus, hc, hd⟩
        · exact .inl rfl
        · exact (hvm d c).mpr (.inr ⟨cpus, hd, hc⟩)
      · rcases (hvm c d).mp h with rfl | ⟨cpus, hc, hd⟩
        · exact h'
        · rcases (hvm d f).mp h' with rfl | ⟨cpus', hd', hf⟩
          · exact h
          · cases hd.symm.trans hd'
            exact (hvm c f).mpr (.inr ⟨cpus, hc, hf⟩)
  | hypPrivate =>
      exact ⟨fun c => .inl rfl, fun h => .inl ((hnone _ _).mp h).symm,
        fun h h' => .inl (((hnone _ _).mp h').trans ((hnone _ _).mp h))⟩
  | hypAny =>
      exact ⟨fun c => .inl rfl, fun h => .inl ((hnone _ _).mp h).symm,
        fun h h' => .inl (((hnone _ _).mp h').trans ((hnone _ _).mp h))⟩
  | unknown =>
      exact ⟨fun c => .inl rfl, fun h => .inl ((hnone _ _).mp h).symm,
        fun h h' => .inl (((hnone _ _).mp h').trans ((hnone _ _).mp h))⟩

end SharePlatform

end BaoHypervisor
