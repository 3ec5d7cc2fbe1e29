import BaoHypervisor.Core.Cpu
import BaoHypervisor.Lib.Bitmap

/-!
# Notifications between VMs

The `HC_IPC` hypercall tells the other VMs on a shared memory about an event: it
sends a message to the master CPU of each of them. The guest names one of its own
`ipcs`, which names an entry of the table of shared memories.
-/

namespace BaoHypervisor

/-- `struct ipc`, without the place of the shared memory. -/
structure Ipc where
  shmemId : ℕ
  interruptNum : ℕ
  interrupts : List ℕ
deriving DecidableEq, Repr, Inhabited

/-- `struct shmem`, as far as `ipc_hypercall` reads it. -/
structure ShmemMasters where
  cpuMasters : BitVec 64
deriving DecidableEq, Repr, Inhabited

structure ShmemTable where
  size : ℕ
  entry : ℕ → ShmemMasters

/-- `ipc_get_shmem`: the number of the entry. -/
def ipcGetShmem (table : ShmemTable) (shmemId : ℕ) : Option ℕ :=
  if shmemId < table.size then some shmemId else none

def ipcNotify : BitVec 32 := 0#32

/-- The `raw` of a `union ipc_msg_data`. -/
def ipcMsgData (shmemId : ℕ) (eventId : BitVec 64) : BitVec 64 :=
  BitVec.ofNat 64 (shmemId % 256) ||| ((eventId &&& 0xff#64) <<< 8)

/-- The fields of a `struct vm` that `ipc.c` reads. -/
structure VmIpc where
  cpus : BitVec 64
  ipcNum : ℕ
  ipcs : ℕ → Ipc

section IpcHypercall

variable (platformCpuNum : ℕ) (ipcCpumsgId : BitVec 32) (table : ShmemTable) (vm : VmIpc)

/-- The loop that sends a message to the CPUs in `masters`, with their numbers. -/
def sendToMasters (masters : BitVec 64) (msg : CpuMsg) : List (ℕ × CpuMsg) :=
  ((List.range platformCpuNum).filter fun i => masters.getLsbD (i % 64)).map fun i => (i, msg)

/-- The value that `ipc_hypercall` returns, and the messages it sends. -/
def ipcHypercall (ipcId ipcEvent : BitVec 64) : ℤ × List (ℕ × CpuMsg) :=
  if ipcId.toNat < vm.ipcNum then
    let shmemId := (vm.ipcs ipcId.toNat).shmemId
    match ipcGetShmem table shmemId with
    | some shmem =>
        let masters := (table.entry shmem).cpuMasters &&& ~~~ vm.cpus
        (0, sendToMasters platformCpuNum masters
          { handler := ipcCpumsgId, event := ipcNotify, data := ipcMsgData shmemId ipcEvent })
    | none => (-3, [])
  else (-3, [])

end IpcHypercall

end BaoHypervisor
