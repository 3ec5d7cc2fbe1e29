import BaoHypervisor.Theory.BitRun
import BaoHypervisor.Theory.Blocks
import BaoHypervisor.Theory.Decimal
import BaoHypervisor.Theory.BitField
import BaoHypervisor.Theory.Copy
import BaoHypervisor.Theory.Run
import BaoHypervisor.Theory.Serial
import BaoHypervisor.Theory.Client
import BaoHypervisor.Theory.Meter
import BaoHypervisor.Theory.Masked
import BaoHypervisor.Theory.Pointwise
import BaoHypervisor.Theory.FirstMax
import BaoHypervisor.Theory.Linked
import BaoHypervisor.Theory.Loop
import BaoHypervisor.Theory.Drain
import BaoHypervisor.Theory.Radix
import BaoHypervisor.Theory.CountBarrier
import BaoHypervisor.Arch.Spinlock
import BaoHypervisor.Arch.Spinlock.Progress
import BaoHypervisor.Core.Objpool.Smp
import BaoHypervisor.Lib.Util
import BaoHypervisor.Lib.Bitmap
import BaoHypervisor.Lib.BitmapRun
import BaoHypervisor.Lib.BitmapWithin
import BaoHypervisor.Lib.List
import BaoHypervisor.Lib.List.Sequence
import BaoHypervisor.Lib.String
import BaoHypervisor.Lib.Memcpy
import BaoHypervisor.Lib.Printk
import BaoHypervisor.Core.Mem.Color
import BaoHypervisor.Core.Cache
import BaoHypervisor.Core.Mem.PagePool
import BaoHypervisor.Core.Mem.Alloc
import BaoHypervisor.Core.Mem.AllocClr
import BaoHypervisor.Core.Mem.Accounting
import BaoHypervisor.Core.Mem.RunAlloc
import BaoHypervisor.Core.Mem.SharedPools
import BaoHypervisor.Core.Mem.ClrRuns
import BaoHypervisor.Core.Mem.Pools
import BaoHypervisor.Core.Mem.FreePages
import BaoHypervisor.Core.Mem.Reclr
import BaoHypervisor.Core.Mem.PageTable
import BaoHypervisor.Core.Mem.PageTable.Entries
import BaoHypervisor.Core.Mem.PageTable.Map
import BaoHypervisor.Core.Mem.PageTable.Override
import BaoHypervisor.Core.Mem.PageTable.Law
import BaoHypervisor.Core.Mem.PageTable.Space
import BaoHypervisor.Core.Mem.PageTable.Expand
import BaoHypervisor.Core.Mem.PageTable.Attributes
import BaoHypervisor.Core.Mem.PageTable.Unmap
import BaoHypervisor.Core.Mem.PageTable.UnmapLaw
import BaoHypervisor.Core.Mem.PageTable.Alloc
import BaoHypervisor.Core.Mem.PageTable.AllocLaw
import BaoHypervisor.Core.Mem.PageTable.AllocWalk
import BaoHypervisor.Core.Mem.PageTable.AllocSound
import BaoHypervisor.Core.Mem.PageTable.AllocComplete
import BaoHypervisor.Core.Mem.PageTable.MapPages
import BaoHypervisor.Core.Mem.PageTable.Inflate
import BaoHypervisor.Core.Mem.PageTable.MapReclr
import BaoHypervisor.Core.Mem.PageTable.MapCpy
import BaoHypervisor.Core.Mem.PageTable.SplitTables
import BaoHypervisor.Core.Mem.PageTable.Phys
import BaoHypervisor.Core.Mem.PageTable.PhysRuns
import BaoHypervisor.Core.Mem.PageTable.Uses
import BaoHypervisor.Core.Mem.PageTable.SharedMap
import BaoHypervisor.Core.Mem.AddrSpace
import BaoHypervisor.Core.Config
import BaoHypervisor.Core.Mem.Reservation
import BaoHypervisor.Core.Mem.StaticMemory
import BaoHypervisor.Core.Mem.RootPool
import BaoHypervisor.Core.Image
import BaoHypervisor.Core.Health.Monitor
import BaoHypervisor.Core.Health.History
import BaoHypervisor.Core.Health.Budget
import BaoHypervisor.Core.IrqRateLimit
import BaoHypervisor.Core.IrqRateLimit.Refill
import BaoHypervisor.Core.IrqRateLimit.Rate
import BaoHypervisor.Core.IrqRateLimit.Conservation
import BaoHypervisor.Core.Objpool
import BaoHypervisor.Core.Objpool.Calls
import BaoHypervisor.Core.Cpu
import BaoHypervisor.Core.Cpu.Messages
import BaoHypervisor.Core.Interrupts
import BaoHypervisor.Core.Mpu.Region
import BaoHypervisor.Core.Mpu.Mem
import BaoHypervisor.Core.Mpu.Disjoint
import BaoHypervisor.Core.Mpu.Unmap
import BaoHypervisor.Core.Mpu.Agreement
import BaoHypervisor.Core.Mpu.Exact
import BaoHypervisor.Core.Mpu.Sharing
import BaoHypervisor.Core.Mpu.Converge
import BaoHypervisor.Arch.Riscv.Interrupts
import BaoHypervisor.Arch.Riscv.PageTable
import BaoHypervisor.Arch.Riscv.SyncExceptions
import BaoHypervisor.Arch.Riscv.Plic
import BaoHypervisor.Arch.Riscv.Vcpu
import BaoHypervisor.Arch.Riscv.Vplic
import BaoHypervisor.Arch.Riscv.Vplic.Source
import BaoHypervisor.Arch.Riscv.Vplic.Layout
import BaoHypervisor.Arch.Riscv.Vplic.Deferral
import BaoHypervisor.Arch.Riscv.Vplic.Delivery
import BaoHypervisor.Arch.Riscv.Vplic.Claims
import BaoHypervisor.Arch.Riscv.Vplic.Lines
import BaoHypervisor.Arch.Riscv.Vplic.Index
import BaoHypervisor.Arch.Riscv.Vplic.Emul
import BaoHypervisor.Arch.Riscv.Vplic.RegisterMap
import BaoHypervisor.Core.Vm
import BaoHypervisor.Core.Vm.Ids
import BaoHypervisor.Core.Vm.InplaceImage
import BaoHypervisor.Core.Vm.Broadcast
import BaoHypervisor.Arch.Riscv.Sbi
import BaoHypervisor.Arch.Riscv.Sbi.Hsm
import BaoHypervisor.Arch.Riscv.Sbi.StartArgs
import BaoHypervisor.Arch.Riscv.Sbi.Timer
import BaoHypervisor.Arch.Riscv.Iommu
import BaoHypervisor.Core.Cpu.Barrier
import BaoHypervisor.Core.Cpu.ClearMsgs
import BaoHypervisor.Core.Ipc
import BaoHypervisor.Core.Ipc.Delivery
import BaoHypervisor.Arch.Armv8.Vgic
import BaoHypervisor.Arch.Armv8.Platform
import BaoHypervisor.Arch.Armv8.Vgic.ListRegisters
import BaoHypervisor.Arch.Armv8.Vgic.Ops
import BaoHypervisor.Arch.Armv8.Vgic.Placement
import BaoHypervisor.Arch.Armv8.Vgic.Moves
import BaoHypervisor.Arch.Armv8.Vgic.RoundTrip
import BaoHypervisor.Arch.Armv8.Vgic.Displace
import BaoHypervisor.Arch.Armv8.Vgic.Route
import BaoHypervisor.Arch.Armv8.Vgic.Handlers
import BaoHypervisor.Arch.Armv8.Vgic.Runs
import BaoHypervisor.Arch.Armv8.Vgic.Fields
import BaoHypervisor.Arch.Armv8.Vgic.Remote
import BaoHypervisor.Arch.Armv8.Vgic.Refill
import BaoHypervisor.Arch.Armv8.Interrupts
import BaoHypervisor.Arch.Armv8.PageTable
import BaoHypervisor.Arch.Armv8.Recursive
import BaoHypervisor.Arch.Armv8.Mpu
import BaoHypervisor.Arch.Armv8.Mpu.Refusal
import BaoHypervisor.Arch.Armv8.Mpu.Unmap
import BaoHypervisor.Arch.Armv8.Mpu.Bookkeeping
import BaoHypervisor.Arch.Armv8.Mpu.Calls
import BaoHypervisor.Arch.Armv8.Mpu.Table
import BaoHypervisor.Arch.Armv8.Mpu.MapView
import BaoHypervisor.Arch.Armv8.Mpu.PrivView
import BaoHypervisor.Arch.Armv8.Mpu.PrivRuns
import BaoHypervisor.Arch.Armv8.Psci
import BaoHypervisor.Arch.Armv8.Psci.CpuOn
import BaoHypervisor.Arch.Armv8.Smmu
import BaoHypervisor.Arch.Armv8.Smmu.Entries
import BaoHypervisor.Arch.Armv8.Smmu.Isolation
import BaoHypervisor.Arch.Armv8.Smmu.Streams
import BaoHypervisor.Core.Hypercall
import BaoHypervisor.Core.Mem.PageTable.MapDev
import BaoHypervisor.Core.Mem.PageTable.Window
import BaoHypervisor.Core.Mem.PageTable.MapAlone
import BaoHypervisor.Arch.Riscv.Sbi.Results
import BaoHypervisor.Core.Vmm.Assign
import BaoHypervisor.Core.Vmm.AllocVm
import BaoHypervisor.Core.Vmm.Counts
import BaoHypervisor.Core.Recovery.System
import BaoHypervisor.Core.Recovery.Timers
import BaoHypervisor.Core.Recovery.Overlap
import BaoHypervisor.Core.Recovery.Harts
import BaoHypervisor.Core.Recovery.Interrupts
import BaoHypervisor.Core.Recovery.Messages
import BaoHypervisor.Core.Recovery.Phases
import BaoHypervisor.Core.Recovery.Image
import BaoHypervisor.Core.Vm.InstallImage
import BaoHypervisor.Core.Vm.ReadsImage
import BaoHypervisor.Core.Vmm.Isolation
import BaoHypervisor.Core.Vmm.GuestMemory
