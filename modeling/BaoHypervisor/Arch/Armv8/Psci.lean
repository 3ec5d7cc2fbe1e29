import BaoHypervisor.Arch.Armv8.Platform
import BaoHypervisor.Core.Vm.Ids
import BaoHypervisor.Lib.Util

/-!
# CPU_ON and CPU_OFF

A vCPU is turned on by another one, which writes the entry point and the context into the
`psci_ctx` of its target and sends it a message. Handlers on different CPUs interleave at
every access of a `psci_ctx`: the lock that a handler takes is the one of its own vCPU,
also when it writes to that of another.

The `period` of a vCPU counts how often it was turned off. It is kept beside the state of
the source to tell the calls of one period from those of another, as is the list of what
has happened.
-/

namespace BaoHypervisor

/-- The states of a `struct psci_ctx`. -/
inductive PsciState
  | on
  | off
  | onPending
deriving DecidableEq, Repr

structure PsciCtx where
  lock : Bool
  entrypoint : Addr
  contextId : BitVec 64
  state : PsciState
deriving DecidableEq, Repr

/-- The arguments of `psci_cpu_on_handler`. -/
structure CpuOnCall where
  targetCpu : BitVec 64
  entrypoint : Addr
  contextId : BitVec 64
deriving DecidableEq, Repr

/-- Where the CPU of a vCPU is. The stages of the handlers are before their next access: of
`psci_cpu_on_handler`, with its target and the period that it found it off in, of
`psci_cpu_off_handler`, and of `psci_wake_from_off` in the loop of messages, which the guest
was interrupted for or not. -/
inductive PsciPc (cpuNum : ℕ)
  | guest
  | idle
  | run
  | onLock (t : Fin cpuNum) (call : CpuOnCall)
  | onRead (t : Fin cpuNum) (call : CpuOnCall)
  | onState (t : Fin cpuNum) (call : CpuOnCall) (period : ℕ)
  | onEntry (t : Fin cpuNum) (call : CpuOnCall) (period : ℕ)
  | onContext (t : Fin cpuNum) (call : CpuOnCall) (period : ℕ)
  | onUnlock (t : Fin cpuNum) (call : CpuOnCall) (period : Option ℕ)
  | onSend (t : Fin cpuNum) (call : CpuOnCall) (period : ℕ)
  | offLock
  | offState
  | offUnlock
  | msgs (interrupted : Bool)
  | wakeLock (interrupted : Bool)
  | wakeRead (interrupted : Bool)
  | wakeReset (interrupted : Bool)
  | wakeState (interrupted : Bool)
  | wakeContext (interrupted : Bool)
  | wakeUnlock (interrupted : Bool)
deriving DecidableEq, Repr

/-- A `CPU_ON` returns `PSCI_E_SUCCESS`, or a vCPU has been reset to an entry point with a
context, each with the period of the target. -/
inductive PsciEvent (cpuNum : ℕ)
  | success (t : Fin cpuNum) (period : ℕ) (call : CpuOnCall)
  | start (t : Fin cpuNum) (period : ℕ) (entrypoint : Addr) (contextId : BitVec 64)
deriving DecidableEq, Repr

/-- What is fixed of a VM: the CPUs of its vCPUs, which go by their ids. -/
structure PsciVm (cpuNum : ℕ) where
  vm : Vm
  physId : Fin cpuNum → ℕ
  vmpidr : Fin cpuNum → BitVec 64
  hasCpu : ∀ v, vm.HasCpu (physId v)
  calcVcpuId : ∀ v, vm.vmCalcVcpuId (physId v) = v

/-- The vCPUs with the program counter and the first register that they were reset with, and
the `PSCI_MSG_ON` messages in the queue of each CPU. -/
structure PsciSystem (cpuNum : ℕ) where
  ctx : Fin cpuNum → PsciCtx
  guestPc : Fin cpuNum → Addr
  guestX0 : Fin cpuNum → BitVec 64
  pc : Fin cpuNum → PsciPc cpuNum
  msgs : ℕ → ℕ
  period : Fin cpuNum → ℕ
  events : List (PsciEvent cpuNum)

/-- A guest makes a call, a CPU takes the interrupt of messages or wakes up, or it goes on. -/
inductive PsciAct (cpuNum : ℕ)
  | cpuOn (v : Fin cpuNum) (call : CpuOnCall)
  | cpuOff (v : Fin cpuNum)
  | interrupt (v : Fin cpuNum)
  | wakeup (v : Fin cpuNum)
  | next (v : Fin cpuNum)
deriving DecidableEq, Repr

variable {cpuNum : ℕ}

theorem PsciVm.translateToPcpuid (vm : PsciVm cpuNum) (v : Fin cpuNum) :
    vm.vm.translateToPcpuid (BitVec.ofNat 64 v) = BitVec.ofNat 64 (vm.physId v) := by
  refine Vm.translateToPcpuid_of_hasCpu (vm.hasCpu v) ?_
  have hlt := (Vm.vmCalcVcpuId_le vm.vm (vm.physId v)).trans (vm.hasCpu v).lt.le
  rw [vm.calcVcpuId] at hlt ⊢
  exact (Vm.toNat_cpuid hlt).symm

theorem PsciVm.physId_injective (vm : PsciVm cpuNum) : Function.Injective vm.physId := by
  intro v w heq
  have hid := vm.calcVcpuId v
  rw [heq, vm.calcVcpuId w] at hid
  exact (Fin.ext hid).symm

namespace PsciSystem

section Functions

variable (vm : PsciVm cpuNum) (s : PsciSystem cpuNum) (v : Fin cpuNum)

def setPc (pc : PsciPc cpuNum) : PsciSystem cpuNum :=
  { s with pc := Function.update s.pc v pc }

def setCtx (ctx : PsciCtx) : PsciSystem cpuNum :=
  { s with ctx := Function.update s.ctx v ctx }

/-- `spin_lock` of the own `psci_ctx`, which is tried again when it is taken. -/
def spinLock (pc : PsciPc cpuNum) : PsciSystem cpuNum :=
  if (s.ctx v).lock then s else (s.setCtx v { s.ctx v with lock := true }).setPc v pc

/-- `spin_unlock` of the own `psci_ctx`. -/
def spinUnlock (pc : PsciPc cpuNum) : PsciSystem cpuNum :=
  (s.setCtx v { s.ctx v with lock := false }).setPc v pc

/-- The call of `cpu_send_msg` in `psci_cpu_on_handler`, and the return. -/
def sendOn (t : Fin cpuNum) (call : CpuOnCall) (period : ℕ) : PsciSystem cpuNum :=
  let pcpuid := vm.vm.translateToPcpuid (BitVec.ofNat 64 t)
  if pcpuid = invalidCpuid then s
  else
    { s with
      msgs := Function.update s.msgs pcpuid.toNat (s.msgs pcpuid.toNat + 1)
      events := s.events ++ [.success t period call] }

/-- The next access of the CPU of a vCPU at a stage. -/
def nextFrom : PsciPc cpuNum → PsciSystem cpuNum
  | .guest | .idle => s
  | .run => s.setPc v (if (s.ctx v).state = .on then .guest else .idle)
  | .onLock t call => s.spinLock v (.onRead t call)
  | .onRead t call =>
      s.setPc v
        (if (s.ctx t).state = .off then .onState t call (s.period t) else .onUnlock t call none)
  | .onState t call k =>
      (s.setCtx t { s.ctx t with state := .onPending }).setPc v (.onEntry t call k)
  | .onEntry t call k =>
      (s.setCtx t { s.ctx t with entrypoint := call.entrypoint }).setPc v (.onContext t call k)
  | .onContext t call k =>
      (s.setCtx t { s.ctx t with contextId := call.contextId }).setPc v (.onUnlock t call (some k))
  | .onUnlock _ _ none => s.spinUnlock v .guest
  | .onUnlock t call (some k) => s.spinUnlock v (.onSend t call k)
  | .onSend t call k => (s.sendOn vm t call k).setPc v .guest
  | .offLock => s.spinLock v .offState
  | .offState =>
      { (s.setCtx v { s.ctx v with state := .off }).setPc v .offUnlock with
        period := Function.update s.period v (s.period v + 1) }
  | .offUnlock => s.spinUnlock v .idle
  | .msgs interrupted =>
      if s.msgs (vm.physId v) = 0 then s.setPc v (if interrupted then .guest else .run)
      else
        { s.setPc v (.wakeLock interrupted) with
          msgs := Function.update s.msgs (vm.physId v) (s.msgs (vm.physId v) - 1) }
  | .wakeLock interrupted => s.spinLock v (.wakeRead interrupted)
  | .wakeRead interrupted =>
      s.setPc v
        (if (s.ctx v).state = .onPending then .wakeReset interrupted else .wakeUnlock interrupted)
  | .wakeReset interrupted =>
      { s.setPc v (.wakeState interrupted) with
        guestPc := Function.update s.guestPc v (s.ctx v).entrypoint
        guestX0 := Function.update s.guestX0 v 0#64 }
  | .wakeState interrupted =>
      (s.setCtx v { s.ctx v with state := .on }).setPc v (.wakeContext interrupted)
  | .wakeContext interrupted =>
      { s.setPc v (.wakeUnlock interrupted) with
        guestX0 := Function.update s.guestX0 v (s.ctx v).contextId
        events := s.events ++ [.start v (s.period v) (s.guestPc v) (s.ctx v).contextId] }
  | .wakeUnlock interrupted => s.spinUnlock v (.msgs interrupted)

def next : PsciSystem cpuNum := s.nextFrom vm v (s.pc v)

/-- A step that the CPU is not at is passed over, as is a `CPU_ON` without a target. -/
def step : PsciAct cpuNum → PsciSystem cpuNum
  | .cpuOn v call =>
      match vmGetVcpuByMpidr vm.vmpidr call.targetCpu with
      | some t => if s.pc v = .guest then s.setPc v (.onLock t call) else s
      | none => s
  | .cpuOff v => if s.pc v = .guest then s.setPc v .offLock else s
  | .interrupt v => if s.pc v = .guest then s.setPc v (.msgs true) else s
  | .wakeup v => if s.pc v = .idle then s.setPc v (.msgs false) else s
  | .next v => s.next vm v

end Functions

/-- The VM when its CPUs first run their vCPUs, which `vcpu_arch_init` has turned on or off. -/
def boot (cpuNum : ℕ) (entry : Addr) : PsciSystem cpuNum where
  ctx v :=
    { lock := false, entrypoint := 0#64, contextId := 0#64
      state := if v.val = 0 then .on else .off }
  guestPc _ := entry
  guestX0 _ := 0#64
  pc _ := .run
  msgs _ := 0
  period _ := 0
  events := []

end PsciSystem

end BaoHypervisor
