import BaoHypervisor.Lib.Util

/-!
# RISC-V vCPUs

The registers of a vCPU, the CSRs that its reset writes and its hart state for
the SBI. `vcpuArchInit` gives a hart its state at boot: the first one of a VM is
started and all others are stopped.
-/

namespace BaoHypervisor

/-- The hart states of `struct sbi_hsm`. -/
inductive SbiState
  | started
  | stopped
  | startPending
  | stopPending
deriving DecidableEq, Repr, Inhabited

structure SbiHsm where
  state : SbiState
  startAddr : Addr
  priv : BitVec 32
deriving DecidableEq, Repr, Inhabited

/-- `struct arch_regs`. The general registers are numbered from `x1`. -/
structure ArchRegs where
  x : Fin 31 → BitVec 64
  hstatus : BitVec 64
  sstatus : BitVec 64
  sepc : BitVec 64
deriving Inhabited

def vcpuReadreg (regs : ArchRegs) (reg : ℕ) : BitVec 64 :=
  if h : 0 < reg ∧ reg ≤ 31 then regs.x ⟨reg - 1, by omega⟩ else 0#64

/-- The CSRs that `vcpu_arch_reset` writes. -/
structure GuestCsrs where
  hcounteren : BitVec 64
  htimedelta : BitVec 64
  vsstatus : BitVec 64
  hie : BitVec 64
  vstvec : BitVec 64
  vsscratch : BitVec 64
  vsepc : BitVec 64
  vscause : BitVec 64
  vstval : BitVec 64
  hvip : BitVec 64
  vsatp : BitVec 64
deriving DecidableEq, Repr, Inhabited

/-- `struct vcpu`, with its `arch` part and the CSRs of its CPU. -/
structure Vcpu where
  id : ℕ
  physId : ℕ
  active : Bool
  regs : ArchRegs
  csrs : GuestCsrs
  hartId : ℕ
  sbiCtx : SbiHsm
deriving Inhabited

/-- The argument register `a0`, counted from `x1`. -/
abbrev regA0 : Fin 31 := 9

/-- The argument register `a1`. -/
abbrev regA1 : Fin 31 := 10

/-- `HSTATUS_SPV | HSTATUS_VSXL_64`. -/
def resetHstatus : BitVec 64 := (1#64 <<< 7) ||| (2#64 <<< 32)

/-- `SSTATUS_SPP_BIT | SSTATUS_FS_DIRTY | SSTATUS_XS_DIRTY`. -/
def resetSstatus : BitVec 64 := (1#64 <<< 8) ||| (3#64 <<< 13) ||| (3#64 <<< 15)

/-- `SSTATUS_SD | SSTATUS_FS_DIRTY | SSTATUS_XS_DIRTY`. -/
def resetVsstatus : BitVec 64 := (1#64 <<< 63) ||| (3#64 <<< 13) ||| (3#64 <<< 15)

def bootState (id : ℕ) : SbiState :=
  if id = 0 then .started else .stopped

def vcpuArchInit (vcpu : Vcpu) : Vcpu :=
  { vcpu with sbiCtx := { vcpu.sbiCtx with state := bootState vcpu.id } }

def vcpuArchReset (entry : Addr) (vcpu : Vcpu) : Vcpu :=
  { vcpu with
    regs :=
      { x := Function.update (fun _ => 0#64) regA0 (BitVec.ofNat 64 vcpu.id)
        hstatus := resetHstatus
        sstatus := resetSstatus
        sepc := entry }
    hartId := vcpu.id
    csrs :=
      { hcounteren := 1#64 <<< 1
        htimedelta := 0#64
        vsstatus := resetVsstatus
        hie := 0#64
        vstvec := 0#64
        vsscratch := 0#64
        vsepc := 0#64
        vscause := 0#64
        vstval := 0#64
        hvip := 0#64
        vsatp := 0#64 } }

def resetVcpu (entry : Addr) (state : SbiState) (vcpu : Vcpu) : Vcpu :=
  let vcpu := vcpuArchReset entry vcpu
  { vcpu with sbiCtx := { vcpu.sbiCtx with state := state } }

section ResetVcpu

variable (entry : Addr) (state : SbiState) (vcpu : Vcpu)

@[simp] theorem resetVcpu_id : (resetVcpu entry state vcpu).id = vcpu.id := rfl

@[simp] theorem resetVcpu_sepc : (resetVcpu entry state vcpu).regs.sepc = entry := rfl

@[simp] theorem resetVcpu_state : (resetVcpu entry state vcpu).sbiCtx.state = state := rfl

end ResetVcpu

end BaoHypervisor
