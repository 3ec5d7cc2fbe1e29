import BaoHypervisor.Lib.Util
import BaoHypervisor.Theory.Run

/-!
# Devices behind the IOMMU

The device directory of the IOMMU has a context for each device, which confines its DMA to
the second-stage page table of a VM. `iommu_arch_vm_add_device` writes the context of a
device, whatever VM the device was added to before: it looks at the id of the device only,
so a device stays with its VM as long as no other VM asks for it.
-/

namespace BaoHypervisor

open Run

abbrev VmId := BitVec 64

abbrev StreamId := BitVec 32

def riscvIommuDdt1lvlMaxDevs : ℕ := pageSize / 64

structure RiscvIommuDc where
  tc : BitVec 64
  iohgatp : BitVec 64
  ta : BitVec 64
  fsc : BitVec 64
  msiptp : BitVec 64
  msiAddrMask : BitVec 64
  msiAddrPattern : BitVec 64
  reserved : BitVec 64
deriving DecidableEq, Repr, Inhabited

/-- The fields of a `struct vm` that `iommu.c` reads and writes, with the physical address
of the root of its page table, as `mem_translate` gives it. -/
structure IoVm where
  id : VmId
  gscid : BitVec 64
  rootPtPhys : Addr
deriving DecidableEq, Repr, Inhabited

/-- The private state of `iommu.c`: whether there is an IOMMU, its device directory and the
commands it was sent. -/
structure IommuState where
  present : Bool
  ddt : ℕ → RiscvIommuDc
  cmds : List (BitVec 64 × BitVec 64)

def iommuArchVmInit (present : Bool) (vm : IoVm) : Bool × IoVm :=
  if present then (true, { vm with gscid := vm.id }) else (true, vm)

/-- `iommu_cmd_inval_ddt`: the command it submits. -/
def iommuCmdInvalDdt (deviceId : StreamId) : BitVec 64 × BitVec 64 :=
  (0x03#64 ||| 1#64 <<< 33 ||| (deviceId.setWidth 64) <<< 40, 0#64)

/-- `iommu_cmd_iofence`: the command it submits. -/
def iommuCmdIofence : BitVec 64 × BitVec 64 := (0x02#64, 0#64)

def iohgatpOf (gscid : BitVec 64) (rootPtPhys : Addr) : BitVec 64 :=
  8#64 <<< 60 ||| gscid <<< 44 ||| ((rootPtPhys >>> 12) &&& 0xfffffffffff#64)

/-- The context that `iommu_arch_vm_add_device` writes for a device of the VM. -/
def deviceContext (vm : IoVm) : RiscvIommuDc where
  tc := 1#64
  iohgatp := iohgatpOf (vm.gscid &&& 0xffff#64) vm.rootPtPhys
  ta := 0#64
  fsc := 0#64
  msiptp := 0#64
  msiAddrMask := 0#64
  msiAddrPattern := 0#64
  reserved := 0#64

def iommuArchVmAddDevice (s : IommuState) (vm : IoVm) (id : StreamId) : Bool × IommuState :=
  if s.present = false then (true, s)
  else if riscvIommuDdt1lvlMaxDevs ≤ id.toNat then (false, s)
  else
    (true,
      { s with
        ddt := Function.update s.ddt id.toNat (deviceContext vm)
        cmds := s.cmds ++ [iommuCmdInvalDdt id, iommuCmdIofence] })

/-! ## What a context says -/

namespace RiscvIommuDc

variable (dc : RiscvIommuDc)

/-- `RISCV_IOMMU_DC_TC_V`. -/
def Valid : Prop := dc.tc.getLsbD 0 = true

instance : Decidable dc.Valid := inferInstanceAs (Decidable (_ = true))

/-- `RISCV_IOMMU_DC_IOHGATP_MODE`. -/
def mode : BitVec 64 := (dc.iohgatp >>> 60) &&& 0xf#64

/-- `RISCV_IOMMU_DC_IOHGATP_GSCID`. -/
def gscid : BitVec 64 := (dc.iohgatp &&& 0xffff#64 <<< 44) >>> 44

/-- `RISCV_IOMMU_DC_IOHGATP_PPN`. -/
def ppn : BitVec 64 := dc.iohgatp &&& 0xfffffffffff#64

end RiscvIommuDc

/-- The context of a device that was not added to a VM. -/
def RiscvIommuDc.zero : RiscvIommuDc where
  tc := 0#64
  iohgatp := 0#64
  ta := 0#64
  fsc := 0#64
  msiptp := 0#64
  msiAddrMask := 0#64
  msiAddrPattern := 0#64
  reserved := 0#64

theorem toNat_iohgatpOf {gscid : BitVec 64} (hgscid : gscid.toNat < 2 ^ 16) (rootPtPhys : Addr) :
    (iohgatpOf gscid rootPtPhys).toNat =
      (8 * 2 ^ 16 + gscid.toNat) * 2 ^ 44 + rootPtPhys.toNat / 2 ^ 12 % 2 ^ 44 := by
  have hppn : ((rootPtPhys >>> 12) &&& 0xfffffffffff#64).toNat =
      rootPtPhys.toNat / 2 ^ 12 % 2 ^ 44 := by
    rw [BitVec.toNat_and, BitVec.toNat_ushiftRight, Nat.shiftRight_eq_div_pow]
    exact Nat.and_two_pow_sub_one_eq_mod _ 44
  have hmode : (8#64 <<< 60).toNat = (8 <<< 16) <<< 44 := rfl
  have hshift : (gscid <<< 44).toNat = gscid.toNat <<< 44 := by
    rw [BitVec.toNat_shiftLeft, Nat.mod_eq_of_lt]
    rw [Nat.shiftLeft_eq]
    omega
  rw [iohgatpOf, BitVec.toNat_or, BitVec.toNat_or, hppn, hmode, hshift,
    ← Nat.shiftLeft_or_distrib, ← Nat.shiftLeft_add_eq_or_of_lt hgscid,
    ← Nat.shiftLeft_add_eq_or_of_lt (Nat.mod_lt _ (by decide)), Nat.shiftLeft_eq,
    Nat.shiftLeft_eq]

section DeviceContext

variable (vm : IoVm)

theorem toNat_and_ffff (x : BitVec 64) : (x &&& 0xffff#64).toNat = x.toNat % 2 ^ 16 := by
  rw [BitVec.toNat_and]
  exact Nat.and_two_pow_sub_one_eq_mod x.toNat 16

theorem toNat_iohgatp_deviceContext :
    (deviceContext vm).iohgatp.toNat =
      (8 * 2 ^ 16 + vm.gscid.toNat % 2 ^ 16) * 2 ^ 44 + vm.rootPtPhys.toNat / 2 ^ 12 % 2 ^ 44 := by
  have hgscid : (vm.gscid &&& 0xffff#64).toNat < 2 ^ 16 := by
    rw [toNat_and_ffff]
    exact Nat.mod_lt _ (by decide)
  rw [deviceContext, toNat_iohgatpOf hgscid, toNat_and_ffff]

theorem valid_deviceContext : (deviceContext vm).Valid := by
  have hbit : (1#64).getLsbD 0 = true := by decide
  exact hbit

theorem mode_deviceContext : (deviceContext vm).mode = 8#64 := by
  refine BitVec.eq_of_toNat_eq ?_
  rw [RiscvIommuDc.mode, BitVec.toNat_and, BitVec.toNat_ushiftRight, Nat.shiftRight_eq_div_pow,
    toNat_iohgatp_deviceContext]
  have hdiv : ((8 * 2 ^ 16 + vm.gscid.toNat % 2 ^ 16) * 2 ^ 44 +
      vm.rootPtPhys.toNat / 2 ^ 12 % 2 ^ 44) / 2 ^ 60 = 8 := by
    omega
  rw [hdiv]
  rfl

theorem toNat_gscid_deviceContext :
    (deviceContext vm).gscid.toNat = vm.gscid.toNat % 2 ^ 16 := by
  have hshift : (0xffff#64 <<< 44) >>> 44 = 0xffff#64 := by decide
  rw [RiscvIommuDc.gscid, BitVec.ushiftRight_and_distrib, hshift, toNat_and_ffff,
    BitVec.toNat_ushiftRight, Nat.shiftRight_eq_div_pow, toNat_iohgatp_deviceContext]
  omega

theorem toNat_ppn_deviceContext :
    (deviceContext vm).ppn.toNat = vm.rootPtPhys.toNat / 2 ^ 12 % 2 ^ 44 := by
  rw [RiscvIommuDc.ppn, BitVec.toNat_and, toNat_iohgatp_deviceContext]
  refine (Nat.and_two_pow_sub_one_eq_mod _ 44).trans ?_
  omega

end DeviceContext

/-! ## The devices of VMs -/

/-- The roots of the page tables of the VMs. Entries of page tables hold physical addresses
of 56 bits. -/
structure IoConfig where
  rootPtPhys : VmId → Addr
  rootPtPhys_lt : ∀ v, (rootPtPhys v).toNat < 2 ^ 56

namespace IoConfig

variable (config : IoConfig)

/-- A VM once `vm_init_dev` has called `iommu_arch_vm_init` for it. -/
def vm (v : VmId) : IoVm :=
  (iommuArchVmInit true { id := v, gscid := 0#64, rootPtPhys := config.rootPtPhys v }).2

/-- The directory that `iommu_arch_init` leaves. -/
def start : IommuState :=
  { present := true, ddt := fun _ => RiscvIommuDc.zero, cmds := [] }

/-- A call of `iommu_arch_vm_add_device` for a VM. -/
def add (s : IommuState) (call : VmId × StreamId) : Bool × IommuState :=
  iommuArchVmAddDevice s (config.vm call.1) call.2

/-- The context is valid, and bound to the VM. -/
structure BoundTo (dc : RiscvIommuDc) (v : VmId) : Prop where
  valid : dc.Valid
  mode : dc.mode = 8#64
  gscid : dc.gscid = v
  ppn : dc.ppn = config.rootPtPhys v >>> 12

/-- The call leaves every device with its VM, and gives the device to the caller if it
returns true. -/
structure Isolated (s : IommuState) (call : VmId × StreamId) : Prop where
  bound : (config.add s call).1 = true →
    config.BoundTo ((config.add s call).2.ddt call.2.toNat) call.1
  kept : ∀ w, config.BoundTo (s.ddt call.2.toNat) w → (config.add s call).1 = true →
    config.BoundTo ((config.add s call).2.ddt call.2.toNat) w
  refused : ∀ w, config.BoundTo (s.ddt call.2.toNat) w → w ≠ call.1 →
    (config.add s call).1 = false
  failed : (config.add s call).1 = false → (config.add s call).2.ddt = s.ddt
  others : ∀ d, d ≠ call.2.toNat → (config.add s call).2.ddt d = s.ddt d
  valid : ∀ d, ((config.add s call).2.ddt d).Valid →
    ∃ w, config.BoundTo ((config.add s call).2.ddt d) w

/-- The id of the VM fits in a GSCID, and the device is not bound to another VM. A call for
a device outside the directory changes nothing. -/
def Allowed (s : IommuState) (call : VmId × StreamId) : Prop :=
  call.2.toNat < riscvIommuDdt1lvlMaxDevs → call.1.toNat < 2 ^ 16 ∧
    ((s.ddt call.2.toNat).Valid → config.BoundTo (s.ddt call.2.toNat) call.1)

variable {config}

theorem BoundTo.unique {dc : RiscvIommuDc} {v w : VmId} (hv : config.BoundTo dc v)
    (hw : config.BoundTo dc w) : v = w :=
  hv.gscid.symm.trans hw.gscid

theorem boundTo_deviceContext_iff {v : VmId} :
    config.BoundTo (deviceContext (config.vm v)) v ↔ v.toNat < 2 ^ 16 := by
  constructor
  · intro h
    have hgscid := toNat_gscid_deviceContext (config.vm v)
    rw [h.gscid] at hgscid
    exact hgscid ▸ Nat.mod_lt _ (by decide)
  · intro h
    refine ⟨valid_deviceContext _, mode_deviceContext _, BitVec.eq_of_toNat_eq ?_,
      BitVec.eq_of_toNat_eq ?_⟩
    · rw [toNat_gscid_deviceContext]
      exact Nat.mod_eq_of_lt h
    · rw [toNat_ppn_deviceContext, BitVec.toNat_ushiftRight, Nat.shiftRight_eq_div_pow]
      have hlt := config.rootPtPhys_lt v
      refine Nat.mod_eq_of_lt (?_ : (config.rootPtPhys v).toNat / 2 ^ 12 < 2 ^ 44)
      omega

theorem add_of_lt {s : IommuState} {call : VmId × StreamId} (hpresent : s.present = true)
    (hid : call.2.toNat < riscvIommuDdt1lvlMaxDevs) :
    (config.add s call).1 = true ∧ (config.add s call).2.present = true ∧
      (config.add s call).2.ddt =
        Function.update s.ddt call.2.toNat (deviceContext (config.vm call.1)) := by
  rw [add, iommuArchVmAddDevice, if_neg (by rw [hpresent]; decide), if_neg (not_le.mpr hid)]
  exact ⟨rfl, hpresent, rfl⟩

theorem add_of_le {s : IommuState} {call : VmId × StreamId} (hpresent : s.present = true)
    (hid : riscvIommuDdt1lvlMaxDevs ≤ call.2.toNat) : config.add s call = (false, s) := by
  rw [add, iommuArchVmAddDevice, if_neg (by rw [hpresent]; decide), if_pos hid]

def Inv (config : IoConfig) (s : IommuState) : Prop :=
  s.present = true ∧ ∀ d, (s.ddt d).Valid → ∃ w, config.BoundTo (s.ddt d) w

theorem inv_start : config.Inv start :=
  ⟨rfl, fun _ hvalid => absurd hvalid (by decide : ¬ RiscvIommuDc.zero.Valid)⟩

theorem Isolated.inv {s : IommuState} {call : VmId × StreamId} (hI : config.Inv s)
    (h : config.Isolated s call) : config.Inv (config.add s call).2 := by
  refine ⟨?_, h.valid⟩
  rcases lt_or_ge call.2.toNat riscvIommuDdt1lvlMaxDevs with hid | hid
  · exact (add_of_lt hI.1 hid).2.1
  · rw [add_of_le hI.1 hid]
    exact hI.1

theorem Allowed.isolated {s : IommuState} {call : VmId × StreamId} (hI : config.Inv s)
    (h : config.Allowed s call) : config.Isolated s call := by
  rcases lt_or_ge call.2.toNat riscvIommuDdt1lvlMaxDevs with hid | hid
  · obtain ⟨hret, -, hddt⟩ : (config.add s call).1 = true ∧ _ := add_of_lt hI.1 hid
    obtain ⟨hfits, hown⟩ := h hid
    have hother : ∀ d, d ≠ call.2.toNat → (config.add s call).2.ddt d = s.ddt d := by
      intro d hne
      rw [hddt, Function.update_of_ne hne]
    have hbound : config.BoundTo ((config.add s call).2.ddt call.2.toNat) call.1 := by
      rw [hddt, Function.update_self]
      exact boundTo_deviceContext_iff.mpr hfits
    have hsame : ∀ w, config.BoundTo (s.ddt call.2.toNat) w → w = call.1 :=
      fun w hw => hw.unique (hown hw.valid)
    refine ⟨fun _ => hbound, fun w hw _ => hsame w hw ▸ hbound,
      fun w hw hne => absurd (hsame w hw) hne, fun hfail => ?_, hother, fun d hvalid => ?_⟩
    · rw [hret] at hfail
      cases hfail
    · by_cases hd : d = call.2.toNat
      · subst hd
        exact ⟨call.1, hbound⟩
      · rw [hother d hd] at hvalid ⊢
        exact hI.2 d hvalid
  · have hadd : config.add s call = (false, s) := add_of_le hI.1 hid
    refine ⟨fun hret => ?_, fun _ _ hret => ?_, fun _ _ _ => by rw [hadd], fun _ => by rw [hadd],
      fun _ _ => by rw [hadd], fun d hvalid => ?_⟩
    · rw [hadd] at hret
      cases hret
    · rw [hadd] at hret
      cases hret
    · rw [hadd] at hvalid ⊢
      exact hI.2 d hvalid

theorem Isolated.allowed {s : IommuState} {call : VmId × StreamId} (hI : config.Inv s)
    (h : config.Isolated s call) : config.Allowed s call := by
  intro hid
  obtain ⟨hret, -, hddt⟩ : (config.add s call).1 = true ∧ _ := add_of_lt hI.1 hid
  have hbound := h.bound hret
  refine ⟨?_, fun hvalid => ?_⟩
  · rw [hddt, Function.update_self] at hbound
    exact boundTo_deviceContext_iff.mp hbound
  · obtain ⟨w, hw⟩ := hI.2 _ hvalid
    obtain rfl := (h.kept w hw hret).unique hbound
    exact hw

/-- In a run of `iommu_arch_vm_add_device` every device stays with its VM if and only if no
VM asks for a device of another one, and the ids of the VMs that ask fit in a GSCID. -/
theorem iommuArchVmAddDevice_isolated_iff (config : IoConfig) (calls : List (VmId × StreamId)) :
    Along (fun s call => (config.add s call).2) config.Isolated start calls ↔
      Along (fun s call => (config.add s call).2) config.Allowed start calls :=
  along_iff_of_carry inv_start (fun _ _ hI => ⟨Isolated.allowed hI, Allowed.isolated hI⟩)
    (fun _ _ hI h => h.inv hI) calls

def twoTables : IoConfig where
  rootPtPhys v := if v = 0#64 then 0x80200000#64 else 0x80300000#64
  rootPtPhys_lt v := by
    split_ifs
    · decide
    · decide

/-- The second VM takes the device of the first one. -/
theorem iommuArchVmAddDevice_rebinds :
    ¬ Along (fun s call => (twoTables.add s call).2) twoTables.Isolated start
      [(0#64, 5#32), (1#64, 5#32)] := by
  rintro ⟨hfirst, hsecond, -⟩
  have hret := hsecond.refused 0#64 (hfirst.bound rfl) (by decide)
  revert hret
  decide

end IoConfig

end BaoHypervisor
