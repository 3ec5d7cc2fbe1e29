import BaoHypervisor.Core.Ipc
import BaoHypervisor.Core.Vm.Ids

/-!
# Who is notified

When a VM is initialised, its master enters itself in the masks of the shared memories of
the VM. A notification goes to all masters in the mask but the caller's, and each of them
looks up the interrupt by the numbers in the message. The message holds eight bits of the
number of the shared memory and of the event, so a notification reaches the right VMs, but
may be taken there for one of another shared memory or event.
-/

namespace BaoHypervisor

/-- The VMs of a system, each on CPUs of its own and with one of them as its master, and
the number of its shared memories. CPU numbers fit in a `cpumap_t`, and an IPC object
lists as many interrupts as it says. -/
structure IpcSystem where
  platformCpuNum : ℕ
  shmemTableSize : ℕ
  ipcCpumsgId : BitVec 32
  vmNum : ℕ
  vms : ℕ → VmIpc
  master : ℕ → ℕ
  interruptNum_le : ∀ v < vmNum, ∀ i < (vms v).ipcNum,
    ((vms v).ipcs i).interruptNum ≤ ((vms v).ipcs i).interrupts.length
  cpuNum_le : platformCpuNum ≤ 64
  master_mem : ∀ v < vmNum, (vms v).cpus.getLsbD (master v) = true
  master_lt : ∀ v < vmNum, master v < platformCpuNum
  disjoint : ∀ v < vmNum, ∀ w < vmNum, ∀ cpu, (vms v).cpus.getLsbD cpu = true →
    (vms w).cpus.getLsbD cpu = true → v = w

def Ipc.irqs (ipcObj : Ipc) (eventId : ℕ) : List ℕ :=
  if eventId < ipcObj.interruptNum then [ipcObj.interrupts.getD eventId 0] else []

namespace VmIpc

def ipcFindByShmemid (vm : VmIpc) (shmemId : ℕ) : Option Ipc :=
  ((List.range vm.ipcNum).find? fun i => (vm.ipcs i).shmemId = shmemId).map vm.ipcs

/-- `ipc_notify`: the interrupt that it injects into the vCPU. -/
def ipcNotifyIrq (vm : VmIpc) (shmemId eventId : ℕ) : Option ℕ :=
  match vm.ipcFindByShmemid shmemId with
  | some ipcObj =>
      if eventId < ipcObj.interruptNum then ipcObj.interrupts[eventId]? else none
  | none => none

def irqs (vm : VmIpc) (shmemId eventId : ℕ) : List ℕ :=
  ((vm.ipcFindByShmemid shmemId).map fun ipcObj => ipcObj.irqs eventId).getD []

/-- `ipc_handler`: the interrupt that it injects into the vCPU. -/
def ipcHandler (vm : VmIpc) (event : BitVec 32) (data : BitVec 64) : Option ℕ :=
  if event = ipcNotify then
    vm.ipcNotifyIrq (data.setWidth 8).toNat ((data >>> 8).setWidth 8).toNat
  else none

end VmIpc

/-! ## The message -/

theorem toNat_ipcMsgData (shmemId : ℕ) (eventId : BitVec 64) :
    (ipcMsgData shmemId eventId).toNat =
      shmemId % 256 ||| (eventId.toNat % 256) <<< 8 := by
  have hlow : (eventId &&& 0xff#64).toNat = eventId.toNat % 256 := by
    rw [BitVec.toNat_and]
    exact Nat.and_two_pow_sub_one_eq_mod eventId.toNat 8
  have hshmem : shmemId % 256 % 2 ^ 64 = shmemId % 256 := by omega
  have hevent : (eventId.toNat % 256) <<< 8 % 2 ^ 64 = (eventId.toNat % 256) <<< 8 := by
    rw [Nat.shiftLeft_eq]
    omega
  rw [ipcMsgData, BitVec.toNat_or, BitVec.toNat_ofNat, BitVec.toNat_shiftLeft, hlow, hshmem,
    hevent]

theorem toNat_setWidth_ipcMsgData (shmemId : ℕ) (eventId : BitVec 64) :
    ((ipcMsgData shmemId eventId).setWidth 8).toNat = shmemId % 256 := by
  have hhigh : ((eventId.toNat % 256) <<< 8) % 2 ^ 8 = 0 := by
    rw [Nat.shiftLeft_eq, Nat.mul_mod_left]
  rw [BitVec.toNat_setWidth, toNat_ipcMsgData, Nat.or_mod_two_pow, hhigh, Nat.or_zero,
    Nat.mod_mod_of_dvd _ (by decide)]

theorem toNat_setWidth_ushiftRight_ipcMsgData (shmemId : ℕ) (eventId : BitVec 64) :
    ((ipcMsgData shmemId eventId >>> 8).setWidth 8).toNat = eventId.toNat % 256 := by
  have hlow : (shmemId % 256) >>> 8 = 0 :=
    Nat.shiftRight_eq_zero _ _ (Nat.mod_lt _ (by decide))
  rw [BitVec.toNat_setWidth, BitVec.toNat_ushiftRight, toNat_ipcMsgData,
    Nat.shiftRight_or_distrib, hlow, Nat.zero_or, Nat.shiftLeft_shiftRight, Nat.mod_mod]

namespace IpcSystem

variable (sys : IpcSystem)

/-- The table after `ipc_init`. -/
def ipcInit : ShmemTable :=
  { size := sys.shmemTableSize, entry := fun _ => { cpuMasters := 0#64 } }

/-- A round of `vm_init_ipc`, the VM and its number of the round given by `r`. -/
def vmInitIpc (table : ShmemTable) (r : ℕ × ℕ) : ShmemTable :=
  if r.1 < sys.vmNum ∧ r.2 < (sys.vms r.1).ipcNum then
    match ipcGetShmem table ((sys.vms r.1).ipcs r.2).shmemId with
    | some shmem =>
        { table with
          entry := Function.update table.entry shmem
            { cpuMasters := (table.entry shmem).cpuMasters ||| cpuBit (sys.master r.1) } }
    | none => table
  else table

/-- The table after rounds of `vm_init_ipc` on the masters of some VMs, in any order. -/
def tableAfter (rounds : List (ℕ × ℕ)) : ShmemTable :=
  rounds.foldl sys.vmInitIpc sys.ipcInit

def Registered (rounds : List (ℕ × ℕ)) (v shmemId : ℕ) : Prop :=
  v < sys.vmNum ∧
    ∃ i < (sys.vms v).ipcNum, (v, i) ∈ rounds ∧ ((sys.vms v).ipcs i).shmemId = shmemId

instance (rounds : List (ℕ × ℕ)) (v shmemId : ℕ) : Decidable (sys.Registered rounds v shmemId) :=
  inferInstanceAs (Decidable (_ ∧ ∃ i < _, _ ∧ _))

/-- The interrupts injected into the VM when the messages are delivered. -/
def injected (v : ℕ) (sent : List (ℕ × CpuMsg)) : List ℕ :=
  sent.filterMap fun m =>
    if (sys.vms v).cpus.getLsbD m.1 = true then (sys.vms v).ipcHandler m.2.event m.2.data
    else none

/-- `ipc_hypercall` of a VM. -/
def call (rounds : List (ℕ × ℕ)) (caller : ℕ) (ipcId ipcEvent : BitVec 64) :
    ℤ × List (ℕ × CpuMsg) :=
  ipcHypercall sys.platformCpuNum sys.ipcCpumsgId (sys.tableAfter rounds) (sys.vms caller)
    ipcId ipcEvent

/-! ## The masks of the shared memories -/

theorem tableAfter_concat (rounds : List (ℕ × ℕ)) (r : ℕ × ℕ) :
    sys.tableAfter (rounds ++ [r]) = sys.vmInitIpc (sys.tableAfter rounds) r :=
  List.foldl_concat ..

theorem size_vmInitIpc (table : ShmemTable) (r : ℕ × ℕ) :
    (sys.vmInitIpc table r).size = table.size := by
  rw [vmInitIpc]
  split_ifs
  · split
    next => rfl
    next => rfl
  · rfl

theorem size_tableAfter (rounds : List (ℕ × ℕ)) :
    (sys.tableAfter rounds).size = sys.shmemTableSize := by
  induction rounds using List.reverseRecOn with
  | nil => rfl
  | append_singleton rounds r ih =>
      rw [tableAfter_concat, size_vmInitIpc, ih]

/-- A round adds the master of its VM to the masks of its shared memory. -/
theorem getLsbD_vmInitIpc {table : ShmemTable} {shmemId : ℕ} (hsize : shmemId < table.size)
    (r : ℕ × ℕ) (cpu : ℕ) :
    ((sys.vmInitIpc table r).entry shmemId).cpuMasters.getLsbD cpu = true ↔
      (table.entry shmemId).cpuMasters.getLsbD cpu = true ∨
        (r.1 < sys.vmNum ∧ r.2 < (sys.vms r.1).ipcNum ∧
          ((sys.vms r.1).ipcs r.2).shmemId = shmemId ∧ cpu = sys.master r.1 % 64) := by
  rw [vmInitIpc]
  by_cases hround : r.1 < sys.vmNum ∧ r.2 < (sys.vms r.1).ipcNum
  · rw [if_pos hround, ipcGetShmem]
    by_cases heq : ((sys.vms r.1).ipcs r.2).shmemId = shmemId
    · rw [heq, if_pos hsize]
      dsimp only
      rw [Function.update_self, BitVec.getLsbD_or, Bool.or_eq_true, getLsbD_cpuBit,
        decide_eq_true_iff]
      exact or_congr_right ⟨fun h => ⟨hround.1, hround.2, rfl, h⟩, fun h => h.2.2.2⟩
    · have hentry : ∀ mask, (Function.update table.entry ((sys.vms r.1).ipcs r.2).shmemId mask)
          shmemId = table.entry shmemId :=
        fun mask => Function.update_of_ne (Ne.symm heq) _ _
      rw [or_iff_left fun h => heq h.2.2.1]
      split_ifs
      · dsimp only
        rw [hentry]
      · rfl
  · rw [if_neg hround, or_iff_left fun h => hround ⟨h.1, h.2.1⟩]

theorem registered_concat (rounds : List (ℕ × ℕ)) (r : ℕ × ℕ) (v shmemId : ℕ) :
    sys.Registered (rounds ++ [r]) v shmemId ↔
      sys.Registered rounds v shmemId ∨
        (r.1 < sys.vmNum ∧ r.2 < (sys.vms r.1).ipcNum ∧
          ((sys.vms r.1).ipcs r.2).shmemId = shmemId ∧ v = r.1) := by
  constructor
  · rintro ⟨hv, i, hi, hmem, heq⟩
    rcases List.mem_append.mp hmem with hmem | hmem
    · exact .inl ⟨hv, i, hi, hmem, heq⟩
    · rw [List.mem_singleton] at hmem
      subst hmem
      exact .inr ⟨hv, hi, heq, rfl⟩
  · rintro (⟨hv, i, hi, hmem, heq⟩ | ⟨hv, hi, heq, rfl⟩)
    · exact ⟨hv, i, hi, List.mem_append_left _ hmem, heq⟩
    · exact ⟨hv, r.2, hi, List.mem_append_right _ (List.mem_singleton_self _), heq⟩

theorem master_mod {v : ℕ} (hv : v < sys.vmNum) : sys.master v % 64 = sys.master v :=
  Nat.mod_eq_of_lt ((sys.master_lt v hv).trans_le sys.cpuNum_le)

/-- The mask of a shared memory holds the masters of the VMs that registered it. -/
theorem getLsbD_tableAfter (rounds : List (ℕ × ℕ)) {shmemId : ℕ}
    (hsize : shmemId < sys.shmemTableSize) (cpu : ℕ) :
    ((sys.tableAfter rounds).entry shmemId).cpuMasters.getLsbD cpu = true ↔
      ∃ v, sys.Registered rounds v shmemId ∧ sys.master v = cpu := by
  induction rounds using List.reverseRecOn with
  | nil =>
      refine ⟨fun h => ?_, fun h => ?_⟩
      · rw [tableAfter, List.foldl_nil, ipcInit, BitVec.getLsbD_zero] at h
        cases h
      · obtain ⟨v, ⟨-, i, -, hmem, -⟩, -⟩ := h
        cases hmem
  | append_singleton rounds r ih =>
      have hsize' : shmemId < (sys.tableAfter rounds).size := by rwa [size_tableAfter]
      rw [tableAfter_concat, getLsbD_vmInitIpc sys hsize', ih]
      simp only [registered_concat, or_and_right, exists_or]
      refine or_congr_right ⟨fun h => ?_, fun h => ?_⟩
      · obtain ⟨hv, hi, heq, hcpu⟩ := h
        exact ⟨r.1, ⟨hv, hi, heq, rfl⟩, (hcpu.trans (sys.master_mod hv)).symm⟩
      · obtain ⟨v, ⟨hv, hi, heq, rfl⟩, rfl⟩ := h
        exact ⟨hv, hi, heq, (sys.master_mod hv).symm⟩

/-! ## The VMs that the messages reach -/

/-- The mask that `ipc_hypercall` sends to: the masters of the other VMs. -/
theorem getLsbD_masters {rounds : List (ℕ × ℕ)} {shmemId caller cpu : ℕ}
    (hsize : shmemId < sys.shmemTableSize) (hcaller : caller < sys.vmNum) :
    (((sys.tableAfter rounds).entry shmemId).cpuMasters &&& ~~~ (sys.vms caller).cpus).getLsbD
        cpu = true ↔
      ∃ v, v ≠ caller ∧ sys.Registered rounds v shmemId ∧ sys.master v = cpu := by
  rw [BitVec.getLsbD_and, Bool.and_eq_true, sys.getLsbD_tableAfter rounds hsize]
  constructor
  · rintro ⟨⟨v, hreg, rfl⟩, hnot⟩
    refine ⟨v, ?_, hreg, rfl⟩
    rintro rfl
    rw [BitVec.getLsbD_not, sys.master_mem v hcaller] at hnot
    simp at hnot
  · rintro ⟨v, hne, hreg, rfl⟩
    refine ⟨⟨v, hreg, rfl⟩, ?_⟩
    rw [BitVec.getLsbD_not, Bool.and_eq_true, decide_eq_true_iff, Bool.not_eq_true']
    refine ⟨(sys.master_lt v hreg.1).trans_le sys.cpuNum_le, Bool.eq_false_iff.mpr fun h => ?_⟩
    exact hne (sys.disjoint v hreg.1 caller hcaller _ (sys.master_mem v hreg.1) h)

/-- If only one of the numbers gives a value, that value is all a loop collects. -/
theorem filterMap_range_of_unique {α : Type*} {f : ℕ → Option α} {m n : ℕ} (hm : m < n)
    (h : ∀ i, i ≠ m → f i = none) : (List.range n).filterMap f = (f m).toList := by
  induction n with
  | zero => cases hm
  | succ n ih =>
      rw [List.range_succ, List.filterMap_append]
      by_cases heq : n = m
      · subst heq
        have hnil : (List.range n).filterMap f = [] := by
          rw [List.filterMap_eq_nil_iff]
          exact fun i hi => h i (List.mem_range.mp hi).ne
        rw [hnil, List.nil_append]
        cases hf : f n with
        | none => rw [List.filterMap_cons_none hf]; rfl
        | some a => rw [List.filterMap_cons_some hf]; rfl
      · rw [ih (by omega), List.filterMap_cons_none (h n heq), List.filterMap_nil,
          List.append_nil]

section Delivery

variable {rounds : List (ℕ × ℕ)} {shmemId caller : ℕ}

/-- A message to a CPU of a VM goes to its master, and only if the VM registered the
shared memory. -/
theorem sent_iff {v cpu : ℕ} (hsize : shmemId < sys.shmemTableSize) (hcaller : caller < sys.vmNum)
    (hv : v < sys.vmNum) (hne : v ≠ caller) :
    ((((sys.tableAfter rounds).entry shmemId).cpuMasters &&& ~~~ (sys.vms caller).cpus).getLsbD
        (cpu % 64) = true ∧ (sys.vms v).cpus.getLsbD cpu = true) ↔
      sys.Registered rounds v shmemId ∧ cpu = sys.master v := by
  rw [sys.getLsbD_masters hsize hcaller]
  constructor
  · rintro ⟨⟨w, -, hreg, hmaster⟩, hcpu⟩
    have hlt : cpu < 64 := by
      by_contra hge
      rw [BitVec.getLsbD_of_ge _ _ (not_lt.mp hge)] at hcpu
      cases hcpu
    rw [Nat.mod_eq_of_lt hlt] at hmaster
    subst hmaster
    obtain rfl := sys.disjoint w hreg.1 v hv _ (sys.master_mem w hreg.1) hcpu
    exact ⟨hreg, rfl⟩
  · rintro ⟨hreg, rfl⟩
    exact ⟨⟨v, hne, hreg, (sys.master_mod hv).symm⟩, sys.master_mem v hv⟩

theorem injected_sendToMasters {v : ℕ} (hsize : shmemId < sys.shmemTableSize)
    (hcaller : caller < sys.vmNum) (hv : v < sys.vmNum) (hne : v ≠ caller) (msg : CpuMsg) :
    sys.injected v (sendToMasters sys.platformCpuNum
        (((sys.tableAfter rounds).entry shmemId).cpuMasters &&& ~~~ (sys.vms caller).cpus) msg) =
      if sys.Registered rounds v shmemId then
        ((sys.vms v).ipcHandler msg.event msg.data).toList
      else [] := by
  have hsent : ∀ cpu, _ ↔ sys.Registered rounds v shmemId ∧ cpu = sys.master v :=
    fun cpu => sys.sent_iff hsize hcaller hv hne
  rw [injected, sendToMasters, List.filterMap_map, List.filterMap_filter]
  split_ifs with hreg
  · rw [filterMap_range_of_unique (sys.master_lt v hv)]
    · obtain ⟨hmask, hcpu⟩ := (hsent (sys.master v)).mpr ⟨hreg, rfl⟩
      rw [if_pos hmask]
      dsimp only [Function.comp_apply]
      rw [if_pos hcpu]
    · intro cpu hother
      split_ifs with hmask
      · dsimp only [Function.comp_apply]
        rw [if_neg fun hcpu => hother ((hsent cpu).mp ⟨hmask, hcpu⟩).2]
      · rfl
  · rw [List.filterMap_eq_nil_iff]
    intro cpu _
    split_ifs with hmask
    · dsimp only [Function.comp_apply]
      rw [if_neg fun hcpu => hreg ((hsent cpu).mp ⟨hmask, hcpu⟩).1]
    · rfl

/-- The handler injects the interrupt that the VM lists for the numbers in the message. -/
theorem toList_ipcHandler {v : ℕ} (hv : v < sys.vmNum) (shmemId : ℕ) (eventId : BitVec 64) :
    ((sys.vms v).ipcHandler ipcNotify (ipcMsgData shmemId eventId)).toList =
      (sys.vms v).irqs (shmemId % 256) (eventId.toNat % 256) := by
  rw [VmIpc.ipcHandler, if_pos rfl, toNat_setWidth_ipcMsgData,
    toNat_setWidth_ushiftRight_ipcMsgData, VmIpc.ipcNotifyIrq, VmIpc.irqs,
    VmIpc.ipcFindByShmemid]
  cases hfind : (List.range (sys.vms v).ipcNum).find? fun i =>
      ((sys.vms v).ipcs i).shmemId = shmemId % 256 with
  | none => rfl
  | some i =>
      have hi : i < (sys.vms v).ipcNum := List.mem_range.mp (List.mem_of_find?_eq_some hfind)
      rw [Option.map_some, Option.map_some, Option.getD_some, Ipc.irqs]
      dsimp only
      split_ifs with hevent
      · rw [List.getD_eq_getElem?_getD,
          List.getElem?_eq_getElem (hevent.trans_le (sys.interruptNum_le v hv i hi))]
        rfl
      · rfl

/-- What a notification that returns success does to another VM. -/
theorem injected_call {v : ℕ} {ipcId ipcEvent : BitVec 64} (hcaller : caller < sys.vmNum)
    (hret : (sys.call rounds caller ipcId ipcEvent).1 = 0) (hv : v < sys.vmNum)
    (hne : v ≠ caller) :
    sys.injected v (sys.call rounds caller ipcId ipcEvent).2 =
      if sys.Registered rounds v ((sys.vms caller).ipcs ipcId.toNat).shmemId then
        (sys.vms v).irqs (((sys.vms caller).ipcs ipcId.toNat).shmemId % 256)
          (ipcEvent.toNat % 256)
      else [] := by
  rw [call, ipcHypercall] at hret ⊢
  by_cases hid : ipcId.toNat < (sys.vms caller).ipcNum
  · rw [if_pos hid] at hret ⊢
    dsimp only at hret ⊢
    rw [ipcGetShmem, sys.size_tableAfter] at hret ⊢
    by_cases hsize : ((sys.vms caller).ipcs ipcId.toNat).shmemId < sys.shmemTableSize
    · rw [if_pos hsize]
      dsimp only
      rw [sys.injected_sendToMasters hsize hcaller hv hne]
      dsimp only
      rw [sys.toList_ipcHandler hv]
    · rw [if_neg hsize] at hret
      cases hret
  · rw [if_neg hid] at hret
    cases hret

end Delivery

/-- Every other VM that registered the shared memory of the object gets the interrupt that
it lists for the event, and no other VM gets one. -/
def Notified (rounds : List (ℕ × ℕ)) (caller : ℕ) (ipcId ipcEvent : BitVec 64) : Prop :=
  ∀ v < sys.vmNum, v ≠ caller →
    sys.injected v (sys.call rounds caller ipcId ipcEvent).2 =
      if sys.Registered rounds v ((sys.vms caller).ipcs ipcId.toNat).shmemId then
        (sys.vms v).irqs ((sys.vms caller).ipcs ipcId.toNat).shmemId ipcEvent.toNat
      else []

def SameIrqs (v shmemId eventId : ℕ) : Prop :=
  (sys.vms v).irqs (shmemId % 256) (eventId % 256) = (sys.vms v).irqs shmemId eventId

theorem sameIrqs_of_lt {shmemId eventId : ℕ} (v : ℕ) (hshmem : shmemId < 256)
    (hevent : eventId < 256) : sys.SameIrqs v shmemId eventId := by
  rw [SameIrqs, Nat.mod_eq_of_lt hshmem, Nat.mod_eq_of_lt hevent]

/-- A notification that returns success notifies the VMs that share the memory if and only
if they list the same interrupt for the eight bits that the message holds of the number
of the shared memory and of the event. -/
theorem ipcHypercall_notified_iff (rounds : List (ℕ × ℕ)) {caller : ℕ}
    (hcaller : caller < sys.vmNum) {ipcId ipcEvent : BitVec 64}
    (hret : (sys.call rounds caller ipcId ipcEvent).1 = 0) :
    sys.Notified rounds caller ipcId ipcEvent ↔
      ∀ v, v ≠ caller →
        sys.Registered rounds v ((sys.vms caller).ipcs ipcId.toNat).shmemId →
          sys.SameIrqs v ((sys.vms caller).ipcs ipcId.toNat).shmemId ipcEvent.toNat := by
  constructor
  · intro h v hne hreg
    have hv := h v hreg.1 hne
    rwa [sys.injected_call hcaller hret hreg.1 hne, if_pos hreg, if_pos hreg] at hv
  · intro h v hv hne
    rw [sys.injected_call hcaller hret hv hne]
    split_ifs with hreg
    · exact h v hne hreg
    · rfl

/-- Two VMs on CPUs of their own, which share a memory and list one interrupt for it. -/
def twoGuests : IpcSystem where
  platformCpuNum := 2
  shmemTableSize := 1
  ipcCpumsgId := 0#32
  vmNum := 2
  vms v :=
    { cpus := cpuBit v
      ipcNum := 1
      ipcs := fun _ => { shmemId := 0, interruptNum := 1, interrupts := [52] } }
  master v := v
  interruptNum_le _ _ _ _ := le_rfl
  cpuNum_le := by decide
  master_mem := by decide
  master_lt _ hv := hv
  disjoint v hv w hw cpu hcpu hcpu' := by
    rw [getLsbD_cpuBit, decide_eq_true_iff] at hcpu hcpu'
    omega

theorem ipcHypercall_notified_twoGuests :
    twoGuests.Notified [(0, 0), (1, 0)] 0 0#64 0#64 :=
  (twoGuests.ipcHypercall_notified_iff [(0, 0), (1, 0)] (by decide) (by decide)).mpr
    fun v _ _ => twoGuests.sameIrqs_of_lt v (by decide) (by decide)

/-- The other VM lists no interrupt for the event 256, but it gets the one of event 0. -/
theorem ipcHypercall_notifies_other :
    (twoGuests.call [(0, 0), (1, 0)] 0 0#64 256#64).1 = 0 ∧
      twoGuests.Registered [(0, 0), (1, 0)] 1 0 ∧ (twoGuests.vms 1).irqs 0 256 = [] ∧
        twoGuests.injected 1 (twoGuests.call [(0, 0), (1, 0)] 0 0#64 256#64).2 = [52] ∧
          ¬ twoGuests.Notified [(0, 0), (1, 0)] 0 0#64 256#64 := by
  refine ⟨by decide, by decide, by decide, by decide, fun h => ?_⟩
  have hinjected := h 1 (by decide) (by decide)
  revert hinjected
  decide

end IpcSystem

end BaoHypervisor
