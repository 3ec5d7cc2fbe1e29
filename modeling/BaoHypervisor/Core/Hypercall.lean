import BaoHypervisor.Arch.Riscv.PageTable
import BaoHypervisor.Arch.Riscv.Vplic
import BaoHypervisor.Core.Health.Monitor
import BaoHypervisor.Core.Ipc
import BaoHypervisor.Core.Mem.PageTable.MapDev
import BaoHypervisor.Core.Mem.PageTable.Unmap
import BaoHypervisor.Theory.Run

/-!
# Hypercalls

A guest calls the hypervisor with a number and three registers. A call concerns the
caller's own VM: its IPC objects, its health and the rate limiters of its interrupts.
The exception is `HC_DMA_WRITE`, which plays a device: unless an IOMMU is active it
stores a word to any physical address, be it memory of another VM or data of the
hypervisor.

The data of the hypervisor are kept by name, and what a store to the memory that they
lie in makes of them is given by a layout (`HypLayout`).
-/

namespace BaoHypervisor

/-- A VM as hypercalls reach it: fields of its `struct vm`, and the memory that its
address space maps. -/
structure GuestVm where
  ipc : VmIpc
  health : VmHealth
  vplic : Vplic
  as : AddrSpace

/-- The static counters of `HC_PLIC_INJECT`. -/
structure InjectCounters where
  total : BitVec 64
  allowed : BitVec 64
  deferred : BitVec 64
  dropped : BitVec 64
deriving DecidableEq, Repr, Inhabited

/-- An injection into a rate limiter is counted by its outcome. -/
def InjectCounters.count (counters : InjectCounters) (action : IrqRlAction) : InjectCounters :=
  let counters := { counters with total := counters.total + 1#64 }
  match action with
  | .allow => { counters with allowed := counters.allowed + 1#64 }
  | .deferred => { counters with deferred := counters.deferred + 1#64 }
  | .dropped => { counters with dropped := counters.dropped + 1#64 }

/-- The data of the hypervisor that hypercalls read and change: the VMs, the shared memories, the
counters and the page tables of the CPU's own address space. -/
structure HypData where
  vms : ℕ → GuestVm
  shmemTable : ShmemTable
  counters : InjectCounters
  tables : PtEntries

/-- The data, the messages sent so far with their CPUs, and the bytes of physical memory. -/
structure HypState extends HypData where
  sent : List (ℕ × CpuMsg)
  memory : Addr → BitVec 8

/-- Where the `struct vm`s and the table of shared memories lie in physical memory, and what a byte
that is stored to an address makes of the data. -/
structure HypLayout where
  vmAt : ℕ → Addr → Prop
  shmemTableAt : Addr → Prop
  storeByte : Addr × BitVec 8 → HypData → HypData
  vms_storeByte : ∀ p d vm, ¬ vmAt vm p.1 → (storeByte p d).vms vm = d.vms vm
  shmemTable_storeByte : ∀ p d, ¬ shmemTableAt p.1 → (storeByte p d).shmemTable = d.shmemTable

/-- What a hypercall finds around it: the platform, the sections of the hypervisor's address
spaces, the pages of new tables, and the rounds that the search for a page has. -/
structure HypEnv where
  platformCpuNum : ℕ
  ipcCpumsgId : BitVec 32
  iommuActive : Bool
  sections : List VaSection
  newTable : ℕ → ℕ → Addr
  rounds : ℕ
  layout : HypLayout

/-- `cpu()->as`. -/
def HypEnv.mmu (env : HypEnv) : Mmu := Riscv.hypMmu env.sections env.newTable

/-- An index into one of the arrays of the caller, or into the table of shared
memories. -/
inductive HypercallIndex
  | ipcs (i : ℕ)
  | shmemTable (i : ℕ)
  | buckets (i : ℕ)
deriving DecidableEq, Repr

/-- The outcome of a hypercall: the value it returns, unless it stops the CPU, the
state it leaves, the indices it used, and the bytes that it stored, in order, with the physical
addresses that its arguments chose. -/
structure HypercallResult where
  ret : Option ℤ
  state : HypState
  indices : List HypercallIndex
  stores : List (Addr × BitVec 8)

@[match_pattern] abbrev hcIpc : ℕ := 1

@[match_pattern] abbrev hcHeartbeat : ℕ := 2

@[match_pattern] abbrev hcPlicInject : ℕ := 3

@[match_pattern] abbrev hcDmaWrite : ℕ := 4

def byteOf (val : BitVec 32) (k : ℕ) : BitVec 8 := (val >>> (8 * k)).setWidth 8

/-- The bytes that a store of a word to a virtual address changes, with their physical addresses.
There are none if it is not mapped. -/
def Mmu.storeWord (m : Mmu) (t : PtEntries) (va : ℕ) (val : BitVec 32) :
    Option (List (Addr × BitVec 8)) :=
  (List.range 4).mapM fun k => (m.memTranslate t ((va + k) % 2 ^ 64)).map (·, byteOf val k)

namespace HypState

/-- One byte of physical memory is stored to. -/
def store (layout : HypLayout) (s : HypState) (p : Addr × BitVec 8) : HypState where
  toHypData := layout.storeByte p s.toHypData
  sent := s.sent
  memory := Function.update s.memory p.1 p.2

variable (env : HypEnv) (s : HypState) (caller : ℕ) (now : BitVec 64)

def ipcCall (ipcId ipcEvent : BitVec 64) : HypercallResult :=
  let vm := (s.vms caller).ipc
  let result := ipcHypercall env.platformCpuNum env.ipcCpumsgId s.shmemTable vm ipcId ipcEvent
  { ret := some result.1
    state := { s with sent := s.sent ++ result.2 }
    indices :=
      if ipcId.toNat < vm.ipcNum then
        .ipcs ipcId.toNat ::
          match ipcGetShmem s.shmemTable (vm.ipcs ipcId.toNat).shmemId with
          | some shmem => [.shmemTable shmem]
          | none => []
      else []
    stores := [] }

def heartbeatCall : HypercallResult :=
  let vm := s.vms caller
  { ret := some 0
    state :=
      { s with
        vms := Function.update s.vms caller
          { vm with health := healthMonitorHeartbeat now vm.health } }
    indices := []
    stores := [] }

/-- The argument is cut to an `irqid_t` and not compared with the length of `buckets`. -/
def plicInjectCall (arg : BitVec 64) : HypercallResult :=
  let vm := s.vms caller
  let irqId := (arg.setWidth 32).toNat
  { ret := some 0
    state :=
      { s with
        vms := Function.update s.vms caller
          { vm with vplic := vm.vplic.access (.plicInject irqId now) }
        counters := s.counters.count (irqBucketConsume now (vm.vplic.buckets irqId)).2 }
    indices := [.buckets irqId]
    stores := [] }

def mapDevice (target : Addr) : Option (PtEntries × Option ℕ) :=
  env.mmu.memAllocMapDev env.rounds s.tables secHypGlobal none (target &&& ~~~ 0xfff#64) 1
    Riscv.pteHypDevFlags

/-- A store that is not mapped stops the CPU. Where no page is found the address is `INVALID_VA`,
which is not the 0 that the call compares with. -/
def dmaWriteCall (target : Addr) (arg : BitVec 64) : HypercallResult :=
  let val := arg.setWidth 32
  if env.iommuActive then { ret := some 1, state := s, indices := [], stores := [] }
  else
    match s.mapDevice env target with
    | none => { ret := none, state := s, indices := [], stores := [] }
    | some (tables, address) =>
        let s₁ := { s with tables := tables }
        let va := address.getD maxVa
        if va = 0 then { ret := some 1, state := s₁, indices := [], stores := [] }
        else
          match env.mmu.storeWord tables (va + (target &&& 0xfff#64).toNat) val with
          | none => { ret := none, state := s₁, indices := [], stores := [] }
          | some stores =>
              let s₂ := Run.exec (store env.layout) s₁ stores
              match env.mmu.memUnmap s₂.tables va 1 with
              | none => { ret := none, state := s₂, indices := [], stores := stores }
              | some tables =>
                  { ret := some 0
                    state := { s₂ with tables := tables }
                    indices := []
                    stores := stores }

/-- The hypercall `id` of a vCPU of the VM `caller`. -/
def hypercall (id arg0 arg1 _arg2 : BitVec 64) : HypercallResult :=
  match id.toNat with
  | hcIpc => s.ipcCall env caller arg0 arg1
  | hcHeartbeat => s.heartbeatCall caller now
  | hcPlicInject => s.plicInjectCall caller now arg0
  | hcDmaWrite => s.dmaWriteCall env arg0 arg1
  | _ => { ret := some (-2), state := s, indices := [], stores := [] }

/-! ## What a hypercall leaves alone -/

def InBounds : HypercallIndex → Prop
  | .ipcs i => i < (s.vms caller).ipc.ipcNum
  | .shmemTable i => i < s.shmemTable.size
  | .buckets i => i < plicMaxInterrupts

/-- A message that tells a master CPU of a shared memory of the caller, on another VM,
about an event. -/
def Notifies (p : ℕ × CpuMsg) : Prop :=
  p.1 < env.platformCpuNum ∧ p.2.handler = env.ipcCpumsgId ∧ p.2.event = ipcNotify ∧
    (s.vms caller).ipc.cpus.getLsbD (p.1 % 64) = false ∧
    ∃ i < (s.vms caller).ipc.ipcNum, ∃ shmem,
      ipcGetShmem s.shmemTable ((s.vms caller).ipc.ipcs i).shmemId = some shmem ∧
        (s.shmemTable.entry shmem).cpuMasters.getLsbD (p.1 % 64) = true

/-- The VM is as it was, in its `struct vm` and in its memory. -/
def SameGuest (s' : HypState) (vm : ℕ) : Prop :=
  s'.vms vm = s.vms vm ∧ ∀ a, (s.vms vm).as.Maps a → s'.memory a = s.memory a

/-- There is a page of `SEC_HYP_GLOBAL` for a device, in which the search for it stays. -/
structure HasDevicePage (sec : VaSection) (va : ℕ) : Prop where
  wellFormed : env.mmu.WellFormed s.tables
  sec_eq : env.sections[secHypGlobal]? = some sec
  last_le : sec.last ≤ maxVa
  stays : env.mmu.AllocStays s.tables sec 1
  found : ∃ t, env.mmu.memAllocVpage 1 env.rounds s.tables secHypGlobal none = some (t, some va)
  ne_zero : va ≠ 0

def deviceAddr (target : Addr) (k : ℕ) : Addr := BitVec.ofNat 64 ((target.toNat + k) % 2 ^ 56)

/-- A call that is confined to its caller. -/
structure Confined (id arg0 arg1 : BitVec 64) (r : HypercallResult) : Prop where
  inBounds : ∀ index ∈ r.indices, s.InBounds caller index
  guests : ∀ vm, vm ≠ caller → (∀ p ∈ r.stores, ¬ env.layout.vmAt vm p.1) →
    r.state.vms vm = s.vms vm
  shmemTable : (∀ p ∈ r.stores, ¬ env.layout.shmemTableAt p.1) →
    r.state.shmemTable = s.shmemTable
  notifies : ∃ sent, r.state.sent = s.sent ++ sent ∧ ∀ p ∈ sent, s.Notifies env caller p
  memory : ∀ a, (∀ p ∈ r.stores, p.1 ≠ a) → r.state.memory a = s.memory a
  noStores : id.toNat ≠ hcDmaWrite ∨ env.iommuActive = true → r.stores = []
  stores : r.stores = [] ∨ ∃ t address, s.mapDevice env arg0 = some (t, address) ∧
    List.Forall₂ (fun k p => p.2 = byteOf (arg1.setWidth 32) k ∧
      env.mmu.memTranslate t
        ((address.getD maxVa + (arg0 &&& 0xfff#64).toNat + k) % 2 ^ 64) = some p.1)
      (List.range 4) r.stores
  device : id.toNat = hcDmaWrite → env.iommuActive = false → ∀ sec va, s.HasDevicePage env sec va →
    arg0.toNat % pageSize + 4 ≤ pageSize →
    r.stores = (List.range 4).map (fun k => (deviceAddr arg0 k, byteOf (arg1.setWidth 32) k)) ∧
      ∀ k < 4, r.state.memory (deviceAddr arg0 k) = byteOf (arg1.setWidth 32) k

/-! ## Stores -/

section Stores

variable {env s} {layout : HypLayout} {stores : List (Addr × BitVec 8)}

theorem mapM_eq_some_iff {α β : Type*} {f : α → Option β} {l : List α} {bs : List β} :
    l.mapM f = some bs ↔ List.Forall₂ (fun a b => f a = some b) l bs := by
  induction l generalizing bs with
  | nil =>
      rw [List.mapM_nil, List.forall₂_nil_left_iff, Option.pure_def, Option.some.injEq]
      exact eq_comm
  | cons a l ih =>
      rw [List.mapM_cons, List.forall₂_cons_left_iff]
      simp only [Option.bind_eq_bind, Option.bind_eq_some_iff, Option.pure_def, ih,
        Option.some.injEq]
      constructor
      · rintro ⟨b, hb, rest, hrest, rfl⟩
        exact ⟨b, rest, hb, hrest, rfl⟩
      · rintro ⟨b, rest, hb, hrest, rfl⟩
        exact ⟨b, hb, rest, hrest, rfl⟩

theorem storeWord_eq_some_iff {m : Mmu} {t : PtEntries} {va : ℕ} {val : BitVec 32} :
    m.storeWord t va val = some stores ↔
      List.Forall₂ (fun k p => p.2 = byteOf val k ∧
        m.memTranslate t ((va + k) % 2 ^ 64) = some p.1) (List.range 4) stores := by
  have hbyte : ∀ (k : ℕ) (p : Addr × BitVec 8),
      (m.memTranslate t ((va + k) % 2 ^ 64)).map (·, byteOf val k) = some p ↔
        p.2 = byteOf val k ∧ m.memTranslate t ((va + k) % 2 ^ 64) = some p.1 := by
    rintro k ⟨a, b⟩
    rw [Option.map_eq_some_iff]
    constructor
    · rintro ⟨a', ha', heq⟩
      cases heq
      exact ⟨rfl, ha'⟩
    · rintro ⟨rfl, ha⟩
      exact ⟨a, ha, rfl⟩
  rw [Mmu.storeWord, mapM_eq_some_iff]
  simp only [hbyte]

theorem memory_exec_store (layout : HypLayout) (s : HypState) {a : Addr}
    (h : ∀ p ∈ stores, p.1 ≠ a) :
    (Run.exec (store layout) s stores).memory a = s.memory a := by
  have halong : Run.Along (store layout) (fun _ p => p.1 ≠ a) s stores :=
    Run.along_of_forall (fun p hp _ => h p hp) s
  exact halong.exec_invariant (I := fun s' => s'.memory a = s.memory a) rfl
    fun s' p hs hp => (Function.update_of_ne (Ne.symm hp) _ _).trans hs

theorem memory_exec_store_of_mem (layout : HypLayout) (s : HypState)
    (hnodup : (stores.map Prod.fst).Nodup) {p : Addr × BitVec 8} (hp : p ∈ stores) :
    (Run.exec (store layout) s stores).memory p.1 = p.2 := by
  induction stores generalizing s with
  | nil => cases hp
  | cons q stores ih =>
      rw [List.map_cons, List.nodup_cons] at hnodup
      rw [Run.exec_cons]
      rcases List.mem_cons.mp hp with rfl | hp
      · have hother : ∀ q ∈ stores, q.1 ≠ p.1 := fun q hq heq =>
          hnodup.1 (List.mem_map.mpr ⟨q, hq, heq⟩)
        rw [memory_exec_store layout _ hother]
        exact Function.update_self _ _ _
      · exact ih _ hnodup.2 hp

theorem sent_exec_store (layout : HypLayout) (s : HypState) :
    (Run.exec (store layout) s stores).sent = s.sent := by
  have hstep : ∀ (s' : HypState) p, s'.sent = s.sent → (s'.store layout p).sent = s.sent :=
    fun _ _ hs => hs
  exact Run.exec_invariant (I := fun s' : HypState => s'.sent = s.sent) rfl hstep stores

theorem vms_exec_store (s : HypState) {vm : ℕ} (h : ∀ p ∈ stores, ¬ layout.vmAt vm p.1) :
    (Run.exec (store layout) s stores).vms vm = s.vms vm := by
  have halong : Run.Along (store layout) (fun _ p => ¬ layout.vmAt vm p.1) s stores :=
    Run.along_of_forall (fun p hp _ => h p hp) s
  exact halong.exec_invariant (I := fun s' => s'.vms vm = s.vms vm) rfl
    fun s' p hs hp => (layout.vms_storeByte p s'.toHypData vm hp).trans hs

theorem shmemTable_exec_store (s : HypState) (h : ∀ p ∈ stores, ¬ layout.shmemTableAt p.1) :
    (Run.exec (store layout) s stores).shmemTable = s.shmemTable := by
  have halong : Run.Along (store layout) (fun _ p => ¬ layout.shmemTableAt p.1) s stores :=
    Run.along_of_forall (fun p hp _ => h p hp) s
  exact halong.exec_invariant (I := fun s' => s'.shmemTable = s.shmemTable) rfl
    fun s' p hs hp => (layout.shmemTable_storeByte p s'.toHypData hp).trans hs

end Stores

section Confined

variable {env s caller now} {id arg0 arg1 : BitVec 64}

/-- A call other than `HC_DMA_WRITE` stores nothing that its arguments choose. -/
theorem Confined.of_noStores {r : HypercallResult} (hstores : r.stores = [])
    (hid : id.toNat ≠ hcDmaWrite ∨ env.iommuActive = true)
    (hindices : ∀ index ∈ r.indices, s.InBounds caller index)
    (hguests : ∀ vm, vm ≠ caller → r.state.vms vm = s.vms vm)
    (hshmem : r.state.shmemTable = s.shmemTable)
    (sent : List (ℕ × CpuMsg)) (hsent : r.state.sent = s.sent ++ sent)
    (hnotifies : ∀ p ∈ sent, s.Notifies env caller p) (hmemory : r.state.memory = s.memory) :
    s.Confined env caller id arg0 arg1 r where
  inBounds := hindices
  guests vm hvm _ := hguests vm hvm
  shmemTable _ := hshmem
  notifies := ⟨sent, hsent, hnotifies⟩
  memory a _ := by rw [hmemory]
  noStores _ := hstores
  stores := .inl hstores
  device hdma hiommu := by
    rcases hid with hid | hid
    · exact absurd hdma hid
    · rw [hid] at hiommu
      cases hiommu

theorem ipcGetShmem_lt {table : ShmemTable} {shmemId shmem : ℕ}
    (h : ipcGetShmem table shmemId = some shmem) : shmem < table.size := by
  rw [ipcGetShmem] at h
  split_ifs at h with hlt
  exact Option.some.inj h ▸ hlt

theorem confined_ipcCall (hid : id.toNat ≠ hcDmaWrite) :
    s.Confined env caller id arg0 arg1 (s.ipcCall env caller arg0 arg1) := by
  refine .of_noStores rfl (.inl hid) (fun index hmem => ?_) (fun _ _ => rfl) rfl _ rfl
    (fun p hp => ?_) rfl
  · rw [ipcCall] at hmem
    dsimp only at hmem
    split_ifs at hmem with hlt
    · rcases List.mem_cons.mp hmem with rfl | hmem
      · exact hlt
      · cases hshmem : ipcGetShmem s.shmemTable ((s.vms caller).ipc.ipcs arg0.toNat).shmemId with
        | some shmem =>
            rw [hshmem] at hmem
            rw [List.mem_singleton.mp hmem]
            exact ipcGetShmem_lt hshmem
        | none =>
            rw [hshmem] at hmem
            cases hmem
    · cases hmem
  · rw [ipcHypercall] at hp
    split_ifs at hp with hlt
    · dsimp only at hp
      cases hshmem : ipcGetShmem s.shmemTable ((s.vms caller).ipc.ipcs arg0.toNat).shmemId with
      | some shmem =>
          rw [hshmem] at hp
          obtain ⟨i, hi, rfl⟩ := List.mem_map.mp hp
          rw [List.mem_filter, List.mem_range, BitVec.getLsbD_and, BitVec.getLsbD_not,
            Bool.and_eq_true, Bool.and_eq_true, Bool.not_eq_true'] at hi
          exact ⟨hi.1, rfl, rfl, hi.2.2.2, arg0.toNat, hlt, shmem, hshmem, hi.2.1⟩
      | none =>
          rw [hshmem] at hp
          cases hp
    · cases hp

theorem confined_heartbeatCall (hid : id.toNat ≠ hcDmaWrite) :
    s.Confined env caller id arg0 arg1 (s.heartbeatCall caller now) := by
  rw [heartbeatCall]
  exact .of_noStores rfl (.inl hid) (fun _ hmem => absurd hmem List.not_mem_nil)
    (fun _ hne => Function.update_of_ne hne _ _) rfl [] (List.append_nil _).symm
    (fun _ hmem => absurd hmem List.not_mem_nil) rfl

theorem confined_plicInjectCall (hid : id.toNat ≠ hcDmaWrite)
    (h : (arg0.setWidth 32).toNat < plicMaxInterrupts) :
    s.Confined env caller id arg0 arg1 (s.plicInjectCall caller now arg0) := by
  rw [plicInjectCall]
  refine .of_noStores rfl (.inl hid) (fun index hmem => ?_)
    (fun _ hne => Function.update_of_ne hne _ _) rfl [] (List.append_nil _).symm
    (fun _ hmem => absurd hmem List.not_mem_nil) rfl
  rw [List.mem_singleton.mp hmem]
  exact h

/-- The word is stored through the page that was mapped, or nothing is stored. -/
theorem dmaWriteCall_cases (env : HypEnv) (s : HypState) (target : Addr) (arg : BitVec 64) :
    let r := s.dmaWriteCall env target arg
    r.indices = [] ∧
      ((r.stores = [] ∧ ∃ tables, r.state = { s with tables := tables }) ∨
        env.iommuActive = false ∧ ∃ t address tables, s.mapDevice env target = some (t, address) ∧
          env.mmu.storeWord t (address.getD maxVa + (target &&& 0xfff#64).toNat)
            (arg.setWidth 32) = some r.stores ∧
          r.state =
            { Run.exec (store env.layout) { s with tables := t } r.stores with
              tables := tables }) := by
  have hnone : ∀ tables : PtEntries, ∃ tables', ({ s with tables := tables } : HypState) =
      { s with tables := tables' } := fun tables => ⟨tables, rfl⟩
  intro r
  have hr : r = s.dmaWriteCall env target arg := rfl
  rw [dmaWriteCall] at hr
  by_cases hiommu : env.iommuActive = true
  · rw [if_pos hiommu] at hr
    rw [hr]
    exact ⟨rfl, .inl ⟨rfl, hnone s.tables⟩⟩
  rw [if_neg hiommu] at hr
  cases hmap : s.mapDevice env target with
  | none =>
      rw [hmap] at hr
      rw [hr]
      exact ⟨rfl, .inl ⟨rfl, hnone s.tables⟩⟩
  | some p =>
      obtain ⟨t, address⟩ := p
      rw [hmap] at hr
      dsimp only at hr
      split_ifs at hr with hzero
      · rw [hr]
        exact ⟨rfl, .inl ⟨rfl, hnone t⟩⟩
      cases hstore : env.mmu.storeWord t (address.getD maxVa + (target &&& 0xfff#64).toNat)
          (arg.setWidth 32) with
      | none =>
          rw [hstore] at hr
          rw [hr]
          exact ⟨rfl, .inl ⟨rfl, hnone t⟩⟩
      | some stores =>
          rw [hstore] at hr
          dsimp only at hr
          split at hr
          next =>
            rw [hr]
            exact ⟨rfl, .inr ⟨Bool.eq_false_iff.mpr hiommu, t, address, _, rfl, hstore, rfl⟩⟩
          next tables _ =>
            rw [hr]
            exact ⟨rfl, .inr ⟨Bool.eq_false_iff.mpr hiommu, t, address, tables, rfl, hstore, rfl⟩⟩

theorem nodup_deviceAddr (target : Addr) : ((List.range 4).map (deviceAddr target)).Nodup := by
  refine List.nodup_range.map_on fun j hj k hk h => ?_
  rw [List.mem_range] at hj hk
  have hnat := congrArg BitVec.toNat h
  rw [deviceAddr, deviceAddr, BitVec.toNat_ofNat, BitVec.toNat_ofNat] at hnat
  omega

/-- The word goes to the device page, where there is a page for it. -/
theorem HasDevicePage.storeWord {sec : VaSection} {va : ℕ} (h : s.HasDevicePage env sec va)
    {target : Addr} (htarget : target.toNat % pageSize + 4 ≤ pageSize) (val : BitVec 32) :
    ∃ t, s.mapDevice env target = some (t, some va) ∧
      env.mmu.storeWord t (va + (target &&& 0xfff#64).toNat) val =
        some ((List.range 4).map fun k => (deviceAddr target k, byteOf val k)) := by
  have hoffset : (target &&& 0xfff#64).toNat = target.toNat % pageSize := by
    rw [BitVec.toNat_and]
    exact Nat.and_two_pow_sub_one_eq_mod target.toNat 12
  have hfloor : (target &&& ~~~ 0xfff#64).toNat = target.toNat / pageSize * pageSize :=
    toNat_alignFloor_page target
  have hspan : 1 * pageSize ≤ env.mmu.dscr.shape.span := by
    change 1 * pageSize ≤ 2 ^ 39
    decide
  obtain ⟨t₁, hfound⟩ := h.found
  have hflags : env.mmu.fmt.FlagsOk Riscv.pteHypDevFlags := trivial
  obtain ⟨t, hmap, hshows, hroom⟩ := Mmu.exists_memAllocMapDev h.wellFormed
    hflags Nat.one_pos hspan h.sec_eq h.last_le h.stays
    (hfloor ▸ Nat.dvd_mul_left _ _ : pageSize ∣ (target &&& ~~~ 0xfff#64).toNat) hfound
  refine ⟨t, hmap, storeWord_eq_some_iff.mpr ?_⟩
  rw [List.forall₂_map_right_iff, List.forall₂_same]
  intro k hk
  rw [List.mem_range] at hk
  have hx : target.toNat % pageSize + k < 1 * pageSize := by omega
  have hva : (va + target.toNat % pageSize + k) % 2 ^ 64 = va + (target.toNat % pageSize + k) := by
    rw [Nat.add_assoc]
    exact Nat.mod_eq_of_lt (by omega)
  have hsum : target.toNat / pageSize * pageSize + (target.toNat % pageSize + k) =
      target.toNat + k := by
    rw [← Nat.add_assoc, Nat.div_add_mod']
  refine ⟨rfl, ?_⟩
  rw [hoffset, hva, hshows.translate _ hx, hfloor, hsum]
  rfl

theorem stores_dmaWriteCall {target : Addr} {arg : BitVec 64} {t : PtEntries} {va : ℕ}
    {stores : List (Addr × BitVec 8)} (hiommu : env.iommuActive = false)
    (hmap : s.mapDevice env target = some (t, some va)) (hva : va ≠ 0)
    (hstore : env.mmu.storeWord t (va + (target &&& 0xfff#64).toNat) (arg.setWidth 32) =
      some stores) : (s.dmaWriteCall env target arg).stores = stores := by
  rw [dmaWriteCall, if_neg (by rw [hiommu]; exact Bool.false_ne_true), hmap]
  dsimp only
  rw [Option.getD_some, if_neg hva, hstore]
  dsimp only
  split <;> rfl

theorem confined_dmaWriteCall (hid : id.toNat = hcDmaWrite) :
    s.Confined env caller id arg0 arg1 (s.dmaWriteCall env arg0 arg1) := by
  have hcases := dmaWriteCall_cases env s arg0 arg1
  have hdevice : env.iommuActive = false → ∀ sec va, s.HasDevicePage env sec va →
      arg0.toNat % pageSize + 4 ≤ pageSize → (s.dmaWriteCall env arg0 arg1).stores =
        (List.range 4).map (fun k => (deviceAddr arg0 k, byteOf (arg1.setWidth 32) k)) := by
    intro hiommu sec va hpage hoffset
    obtain ⟨t, hmap, hstore⟩ := hpage.storeWord hoffset (arg1.setWidth 32)
    exact stores_dmaWriteCall hiommu hmap hpage.ne_zero hstore
  obtain ⟨r, hr⟩ : ∃ r, r = s.dmaWriteCall env arg0 arg1 := ⟨_, rfl⟩
  dsimp only at hcases
  rw [← hr] at hcases hdevice ⊢
  obtain ⟨hindices, ⟨hstores, tables, hstate⟩ |
    ⟨hiommu, t, address, tables, hmap, hstores, hstate⟩⟩ := hcases
  · refine ⟨fun index hmem => ?_, fun vm _ _ => ?_, fun _ => ?_, ⟨[], ?_, ?_⟩, fun a _ => ?_,
      fun _ => hstores, .inl hstores, fun _ hiommu sec va hpage hoffset => ?_⟩
    · rw [hindices] at hmem
      cases hmem
    · rw [hstate]
    · rw [hstate]
    · rw [hstate, List.append_nil]
    · exact fun _ hmem => absurd hmem List.not_mem_nil
    · rw [hstate]
    · have hbytes := hdevice hiommu sec va hpage hoffset
      rw [hstores] at hbytes
      cases hbytes
  · refine ⟨fun index hmem => ?_, fun vm _ hnot => ?_, fun hnot => ?_, ⟨[], ?_, ?_⟩,
      fun a hnot => ?_, fun hor => ?_, .inr ⟨t, address, hmap, storeWord_eq_some_iff.mp hstores⟩,
      fun _ _ sec va hpage hoffset => ?_⟩
    · rw [hindices] at hmem
      cases hmem
    · rw [hstate]
      exact vms_exec_store _ hnot
    · rw [hstate]
      exact shmemTable_exec_store _ hnot
    · rw [hstate, List.append_nil]
      exact sent_exec_store _ _
    · exact fun _ hmem => absurd hmem List.not_mem_nil
    · rw [hstate]
      exact memory_exec_store _ _ hnot
    · rw [hiommu] at hor
      exact absurd hid (hor.resolve_right Bool.false_ne_true)
    · have hbytes := hdevice hiommu sec va hpage hoffset
      refine ⟨hbytes, fun k hk => ?_⟩
      have hnodup : (r.stores.map Prod.fst).Nodup := by
        rw [hbytes, List.map_map]
        exact nodup_deviceAddr arg0
      have hmem : (deviceAddr arg0 k, byteOf (arg1.setWidth 32) k) ∈ r.stores := by
        rw [hbytes]
        exact List.mem_map.mpr ⟨k, List.mem_range.mpr hk, rfl⟩
      rw [hstate]
      exact memory_exec_store_of_mem _ _ hnodup hmem

end Confined

/-- A hypercall is confined to its caller, whatever its number and arguments: it indexes
inside the arrays, changes no other VM except by notifications, and stores nothing to
physical addresses of its choice. The exception is `HC_DMA_WRITE`, when no IOMMU is active:
it stores its second argument to the device page of the first one, and so to what lies
there. The interrupt of `HC_PLIC_INJECT` is one that the vPLIC has. -/
theorem hypercall_confined (id arg0 arg1 arg2 : BitVec 64)
    (h : id.toNat = hcPlicInject → (arg0.setWidth 32).toNat < plicMaxInterrupts) :
    s.Confined env caller id arg0 arg1 (s.hypercall env caller now id arg0 arg1 arg2) := by
  rw [hypercall]
  split
  next hid => exact confined_ipcCall (by rw [hid]; decide)
  next hid => exact confined_heartbeatCall (by rw [hid]; decide)
  next hid => exact confined_plicInjectCall (by rw [hid]; decide) (h hid)
  next hid => exact confined_dmaWriteCall hid
  next hid =>
    exact .of_noStores rfl (.inl hid) (fun _ hmem => absurd hmem List.not_mem_nil)
      (fun _ _ => rfl) rfl [] (List.append_nil _).symm (fun _ hmem => absurd hmem List.not_mem_nil)
      rfl

theorem pageSize_dvd_page : pageSize ∣ (0x1000#64).toNat := dvd_refl pageSize

/-- An address space of the page `pa`, at its own address. -/
def pageAt (pa : Addr) : AddrSpace := fun a =>
  if alignFloor a 0x1000#64 = pa then some ⟨0x1000#64, pa, pageSize_dvd_page⟩ else none

def heartbeatAt (vm : ℕ) : Addr := BitVec.ofNat 64 (0x80100000 + vm * pageSize)

/-- A layout of which the last heartbeats are known. -/
def heartbeatLayout : HypLayout where
  vmAt vm a := a = heartbeatAt vm
  shmemTableAt _ := False
  storeByte p d :=
    { d with
      vms := fun vm =>
        let guest := d.vms vm
        if p.1 = heartbeatAt vm then
          { guest with
            health :=
              { guest.health with
                lastHeartbeat :=
                  guest.health.lastHeartbeat &&& ~~~ 0xff#64 ||| p.2.setWidth 64 } }
        else guest }
  vms_storeByte _ _ _ h := if_neg h
  shmemTable_storeByte _ _ _ := rfl

/-- Two VMs, of which the second one has the page at `0x90000000`. -/
def twoVms : HypState where
  vms vm :=
    { ipc := { cpus := 1#64 <<< vm, ipcNum := 0, ipcs := fun _ => default }
      health := VmHealth.zero
      vplic := Vplic.zero
      as := if vm = 1 then pageAt 0x90000000#64 else fun _ => none }
  shmemTable := { size := 0, entry := fun _ => default }
  counters := default
  tables := emptyTables
  sent := []
  memory := fun _ => 0#8

def noIommu : HypEnv where
  platformCpuNum := 2
  ipcCpumsgId := 0#32
  iommuActive := false
  sections := [⟨0x200000, 0x3fffff⟩]
  newTable := fun lvl k => BitVec.ofNat 64 (0xa0000000 + (2048 * lvl + k) * pageSize)
  rounds := 4
  layout := heartbeatLayout

theorem hasDevicePage_twoVms : twoVms.HasDevicePage noIommu ⟨0x200000, 0x3fffff⟩ 0x200000 where
  wellFormed := Mmu.wellFormed_emptyTables _
  sec_eq := rfl
  last_le := by decide
  stays := by
    have hrun : noIommu.mmu.AllocEnds emptyTables ⟨0x200000, 0x3fffff⟩ false 0x200000 1
        (.run false 0x201000) := ⟨4, by decide +kernel⟩
    refine ⟨fun h => ?_, fun top h => ?_⟩
    · cases hrun.unique h
    · cases hrun.unique h
  found := by
    have hfound : (noIommu.mmu.memAllocVpage 1 4 emptyTables secHypGlobal none).map Prod.snd =
        some (some 0x200000) := by decide +kernel
    obtain ⟨⟨t, va⟩, heq, rfl⟩ := Option.map_eq_some_iff.mp hfound
    exact ⟨t, heq⟩
  ne_zero := by decide

/-- The four bytes that the first VM stores to the last heartbeat of the second one. -/
theorem hypercall_confined_dmaWrite :
    (twoVms.hypercall noIommu 0 0#64 4#64 0x80101000#64 0x44332211#64 0#64).stores =
      [(0x80101000#64, 0x11#8), (0x80101001#64, 0x22#8), (0x80101002#64, 0x33#8),
        (0x80101003#64, 0x44#8)] :=
  ((hypercall_confined noIommu twoVms 0 0#64 4#64 0x80101000#64 0x44332211#64 0#64
    (by decide)).device (by decide) rfl _ _ hasDevicePage_twoVms (by decide)).1.trans (by decide)

/-- The first VM stores to the memory of the second one. -/
theorem not_sameGuest_dmaWrite :
    ¬ twoVms.SameGuest
      (twoVms.hypercall noIommu 0 0#64 4#64 0x90000000#64 1#64 0#64).state 1 := by
  intro h
  have hbyte := h.2 0x90000000#64 ⟨0x90000000#64, by decide⟩
  revert hbyte
  decide +kernel

end HypState

end BaoHypervisor
