import BaoHypervisor.Core.Mem.PageTable.SharedMap
import BaoHypervisor.Arch.Riscv.PageTable
import BaoHypervisor.Core.Vm.MemRegions

/-!
# The memory of VMs

The master CPU of each VM maps its memory in `vm_init`, and all of them do so at the same time. The
pages that one of them gets for its VM or for a page table come from the pools that it shares with
the others. However their calls come, no page is used twice, by two VMs or by one, but those that
the configuration gives to both (`pages_apart`). So a guest has no page table and no page of
another guest in its address space.
-/

namespace BaoHypervisor

/-- `struct vm_dev_region`, as far as it is mapped. -/
structure VmDevRegion where
  pa : Addr
  va : Addr
  size : SizeT

/-- `struct ipc`, as far as it is mapped. -/
structure IpcRegion where
  base : Addr
  size : SizeT
  shmemId : ℕ

/-- The region that `vm_init_ipc` maps, if there is the shared memory. -/
def ipcMemRegion (shmemlist : List Shmem) (ipc : IpcRegion) : Option VmMemRegion :=
  (shmemlist[ipc.shmemId]?).map fun shmem =>
    { base := ipc.base
      size := if shmem.size < ipc.size then shmem.size else ipc.size
      placePhys := true
      phys := shmem.phys
      colors := shmem.colors }

/-- What `vm_init` maps for a VM without colours: `arch` is for `vm_arch_init`, and `devFlags` are
`PTE_VM_DEV_FLAGS`. -/
structure VmSetup where
  mmu : Mmu
  config : VmConfig
  devs : List VmDevRegion
  ipcs : List IpcRegion
  shmemlist : List Shmem
  arch : List MapRequest
  devFlags : Pte

namespace VmSetup

variable (vm : VmSetup)

/-- The call of `vm_map_mem_region`. -/
def mapMemRegion (reg : VmMemRegion) : MapRequest where
  sectionIdx := 0
  page := if reg.placePhys then some reg.phys else none
  at' := targetVa reg.base
  n := reg.pageNum
  flags := vm.mmu.fmt.vmFlags
  fixed := true

/-- A call of `vm_map_img_rgn_inplace`. -/
def mapImgPart (page : Option Addr) (va : Addr) (n : SizeT) : MapRequest where
  sectionIdx := 0
  page := page
  at' := targetVa va
  n := n.toNat
  flags := vm.mmu.fmt.vmFlags
  fixed := false

/-- The calls of `vm_map_img_rgn_inplace`. -/
def mapImgRgnInplace (reg : VmMemRegion) : List MapRequest :=
  [vm.mapImgPart none reg.base (vm.config.nBefore reg),
    vm.mapImgPart (some vm.config.image.loadAddr) vm.config.image.baseAddr vm.config.nImg,
    vm.mapImgPart none (vm.config.image.baseAddr + pageBytes vm.config.nImg) (vm.config.nAft reg)]

/-- The calls of `vm_init_mem_regions` for a region. -/
def initMemRegion (reg : VmMemRegion) : List MapRequest :=
  if vm.config.imgIsInRgn reg ∧ vm.config.IsInplace reg then vm.mapImgRgnInplace reg
  else [vm.mapMemRegion reg]

/-- The call of `vm_init_dev` for a device, if it has an address. -/
def initDev (dev : VmDevRegion) : Option MapRequest :=
  (targetVa dev.va).map fun va =>
    { sectionIdx := 0
      page := some dev.pa
      at' := some va
      n := (numPages dev.size).toNat
      flags := vm.devFlags
      fixed := false }

/-- The calls of `mem_alloc_map` in `vm_init`. -/
def requests : List MapRequest :=
  vm.arch ++ vm.config.regions.flatMap vm.initMemRegion ++ vm.devs.filterMap vm.initDev ++
    (vm.ipcs.filterMap (ipcMemRegion vm.shmemlist)).map vm.mapMemRegion

/-- The address space after `vm_init`, with pools that are shared. -/
def vmInit (numPools rounds : ℕ) : PoolProg (Option PtEntries) :=
  vm.mmu.allocMapsProg numPools rounds vm.requests emptyTables

/-- The pages that the configuration gives to the VM. -/
def given : Set ℕ :=
  {p | ∃ r ∈ vm.requests, ∃ base ∈ r.page, base.toNat / pageSize ≤ p ∧
    p < base.toNat / pageSize + r.n}

/-- The pages that the configuration gives to the VM are aligned, and some that entries have room
for. -/
structure Ok (width : ℕ) : Prop where
  addrWidth : vm.mmu.fmt.addrWidth = width
  flags : ∀ r ∈ vm.requests, vm.mmu.fmt.FlagsOk r.flags
  page : ∀ r ∈ vm.requests, ∀ base ∈ r.page, pageSize ∣ base.toNat ∧
    base.toNat + r.n * pageSize ≤ 2 ^ width

variable {vm} {width : ℕ}

theorem Ok.requestOk (h : vm.Ok width) {r : MapRequest} (hr : r ∈ vm.requests) :
    vm.mmu.RequestOk vm.given r where
  flags := h.flags r hr
  page := by
    intro base hbase
    obtain ⟨hpage, hfits⟩ := h.page r hr base hbase
    refine ⟨hpage, by rw [h.addrWidth]; exact hfits, fun i hi => ?_⟩
    exact ⟨r, hr, base, hbase, Nat.le_add_right _ _, Nat.add_lt_add_left hi _⟩

theorem Ok.satSome_vmInit (h : vm.Ok width) (numPools rounds : ℕ) :
    Client.SatSome (vm.mmu.Backed vm.given) [] (vm.vmInit numPools rounds) :=
  Mmu.satSome_allocMapsProg (Mmu.backed_emptyTables vm.mmu vm.given) fun _ => h.requestOk

end VmSetup

/-! ## All VMs -/

section Vms

variable {ι : Type*} [DecidableEq ι]

/-- CPUs make calls for pools, in the order of `schedule`. -/
def shareRun {α : Type*} (pools : List PagePool) (clients : ι → PoolProg α) (schedule : List ι) :
    Client.Shared ι (List PagePool) PoolCall (Option Addr) α :=
  Run.exec (Client.step ppAllocAt) ⟨pools, clients⟩ schedule

/-- VMs are set up by CPUs, among others that make calls for pools. The pools are apart, the pages
that are given to the VMs are marked in them, and no call has run over the end of its pool. -/
structure SharedSetup (vms : Set ι) (vm : ι → VmSetup) (rounds : ι → ℕ)
    (pools : List PagePool) (clients : ι → PoolProg (Option PtEntries)) (schedule : List ι)
    (width : ℕ) : Prop where
  vmInit : ∀ i ∈ vms, clients i = (vm i).vmInit pools.length (rounds i)
  ok : ∀ i ∈ vms, (vm i).Ok width
  apart : pools.Pairwise PagePool.Apart
  room : ∀ pool ∈ pools, pool.base.toNat + pool.size.toNat * pageSize ≤ 2 ^ width
  reserved : ∀ i ∈ vms, ∀ p ∈ (vm i).given, ∀ r, IsPage pools r p → r ∈ outPages pools
  inside : ∀ r ∈ outPages (shareRun pools clients schedule).obj, r ∉ outPages pools →
    Inside pools r

variable {vms : Set ι} {vm : ι → VmSetup} {rounds : ι → ℕ} {pools : List PagePool}
  {clients : ι → PoolProg (Option PtEntries)} {schedule : List ι} {width : ℕ}
  {log : List (ι × PoolCall × Option Addr)} {i j : ι} {e e' : PoolCall × Option Addr} {p : ℕ}

theorem mem_callsOf : e ∈ Client.callsOf i log ↔ (i, e) ∈ log := by
  simp [Client.callsOf]

theorem callsOf_sublist (i : ι) : (Client.callsOf i log).Sublist (log.map Prod.snd) :=
  List.filter_sublist.map Prod.snd

omit [DecidableEq ι] in
theorem Sound.not_hasPage (h : Sound width (log.map Prod.snd)) (hij : i ≠ j)
    (he : (i, e) ∈ log) (he' : (j, e') ∈ log) (hp : HasPage e p) : ¬ HasPage e' p := by
  have hdiff : log.Pairwise fun a b => a.1 ≠ b.1 → ¬ (HasPage a.2 p ∧ HasPage b.2 p) :=
    (List.pairwise_map.mp h.apart).imp fun hne _ => hne p
  have hall := hdiff.forall_of_forall_of_flip (fun _ _ hne => absurd rfl hne)
    (hdiff.imp fun hab hne hboth => hab hne.symm hboth.symm)
  exact fun hp' => hall he he' hij ⟨hp, hp'⟩

/-- What holds of the tables of a VM whatever the pools answer. -/
theorem SharedSetup.backed (h : SharedSetup vms vm rounds pools clients schedule width)
    (hi : i ∈ vms) {t : PtEntries}
    (ht : (shareRun pools clients schedule).clients i = .ret (some t)) :
    (vm i).mmu.Backed (vm i).given
      (Client.callsOf i (Client.calls ppAllocAt ⟨pools, clients⟩ schedule)) t := by
  have hstart : ∀ j, Client.Sat (fun log r => j ∈ vms → ∀ t ∈ r,
      (vm j).mmu.Backed (vm j).given log t) [] (clients j) := by
    intro j
    by_cases hj : j ∈ vms
    · rw [h.vmInit j hj]
      exact Client.Sat.mono ((h.ok j hj).satSome_vmInit pools.length (rounds j))
        fun _ _ hr _ => hr
    · exact (Client.sat_true [] (clients j)).mono fun _ _ _ hmem => absurd hmem hj
  have hend : Client.Sat _ (Client.callsOf i (Client.calls ppAllocAt ⟨pools, clients⟩ schedule))
      _ := Client.sat_exec (s := ⟨pools, clients⟩) hstart schedule i
  rw [shareRun] at ht
  rw [ht, Client.sat_ret] at hend
  exact hend hi t rfl

/-- A page that a VM uses is given to it and shown, or a call of its CPU has returned it. It was
free then, and is given to no VM. -/
theorem SharedSetup.given_or_returned (h : SharedSetup vms vm rounds pools clients schedule width)
    (hi : i ∈ vms) {t : PtEntries}
    (ht : (shareRun pools clients schedule).clients i = .ret (some t)) {u : PageUse}
    (hu : (vm i).mmu.Uses t u p) :
    (p ∈ (vm i).given ∧ ∃ v, u = .shown v) ∨
      (∀ k ∈ vms, p ∉ (vm k).given) ∧ (∃ r ∉ outPages pools, IsPage pools r p) ∧
        ∃ e, (i, e) ∈ Client.calls ppAllocAt ⟨pools, clients⟩ schedule ∧ HasPage e p := by
  obtain ⟨hsound, hfree⟩ := replays_sound (Client.replays_exec ⟨pools, clients⟩ schedule)
    h.apart h.room h.inside
  have hsound' := (h.ok i hi).addrWidth ▸ hsound.sublist (callsOf_sublist i)
  refine ((h.backed hi ht).held hsound' u p hu).imp_right ?_
  rintro ⟨e, he, hp⟩
  obtain ⟨r, hr, -, hpage⟩ := hfree e ((callsOf_sublist i).subset he) p hp
  refine ⟨fun k hk hgiven => hr (h.reserved k hk p hgiven r hpage), ⟨r, hr, hpage⟩, e, ?_, hp⟩
  exact mem_callsOf.mp he

/-- However the calls of the CPUs come, each page that VMs show or that is one of a page table has
one use, but for pages that the configuration gives to VMs, which are shown only. -/
theorem SharedSetup.pages_apart (h : SharedSetup vms vm rounds pools clients schedule width)
    (hi : i ∈ vms) (hj : j ∈ vms) {t t' : PtEntries}
    (ht : (shareRun pools clients schedule).clients i = .ret (some t))
    (ht' : (shareRun pools clients schedule).clients j = .ret (some t'))
    {u u' : PageUse} (hu : (vm i).mmu.Uses t u p) (hu' : (vm j).mmu.Uses t' u' p) :
    (i = j ∧ u = u') ∨
      ((∃ v, u = .shown v) ∧ (∃ v, u' = .shown v) ∧ p ∈ (vm i).given ∧ p ∈ (vm j).given) := by
  obtain ⟨hsound, -⟩ := replays_sound (Client.replays_exec ⟨pools, clients⟩ schedule)
    h.apart h.room h.inside
  rcases h.given_or_returned hi ht hu with ⟨hgiven, hshown⟩ | ⟨hnot, -, e, he, hp⟩
  · rcases h.given_or_returned hj ht' hu' with ⟨hgiven', hshown'⟩ | ⟨hnot', -⟩
    · exact .inr ⟨hshown, hshown', hgiven, hgiven'⟩
    · exact absurd hgiven (hnot' i hi)
  · rcases h.given_or_returned hj ht' hu' with ⟨hgiven', -⟩ | ⟨-, -, e', he', hp'⟩
    · exact absurd hgiven' (hnot j hj)
    · by_cases hij : i = j
      · subst hij
        obtain rfl : t = t' := Option.some.inj (Client.ret.inj (ht.symm.trans ht'))
        have hsound' := (h.ok i hi).addrWidth ▸ hsound.sublist (callsOf_sublist i)
        exact .inl ⟨rfl, (h.backed hi ht).sole hsound' u u' p hu hu' (hnot i hi)⟩
      · exact absurd hp' (hsound.not_hasPage hij he he' hp)

end Vms

def markedPool : PagePool where
  base := 0x80000000#64
  size := 16#64
  free := 16#64
  last := 0
  bitmap := fun w => if w = 0 then 0xffff0000#32 else BitVec.allOnes 32
  base_aligned := rfl
  extent := by decide

theorem bits_markedPool {i : ℕ} (h : 16 ≤ i) : markedPool.bits i = true := by
  have hword : ∀ i < 32, 16 ≤ i → (0xffff0000#32).getLsbD i = true := by decide
  have hbits : markedPool.bits i =
      (if i / 32 = 0 then 0xffff0000#32 else BitVec.allOnes 32).getLsbD (i % 32) :=
    Bitmap.bitmapGet_eq_getLsbD _ i
  rw [hbits]
  by_cases hi : i < 32
  · rw [if_pos (Nat.div_eq_of_lt hi), Nat.mod_eq_of_lt hi]
    exact hword i hi h
  · rw [if_neg fun hzero => hi (Nat.lt_of_div_eq_zero (by decide) hzero), BitVec.getLsbD_allOnes,
      decide_eq_true (Nat.mod_lt i (by decide))]

def sharingVm : VmSetup where
  mmu := Riscv.vmMmu fun _ _ => 0#64
  config :=
    { (default : VmConfig) with
      image := { (default : VmImage) with baseAddr := 0x100000#64, size := 0x1000#64 }
      regions := [⟨0x1000#64, 0x1000#64, 0#64, false, 0#64⟩] }
  devs := []
  ipcs := [⟨0x2000#64, 0x1000#64, 0⟩]
  shmemlist := [⟨0x1000#64, 0#64, true, 0x90000000#64⟩]
  arch := []
  devFlags := 0#64

abbrev sharingRun : Client.Shared Bool (List PagePool) PoolCall (Option Addr) (Option PtEntries) :=
  shareRun [markedPool] (fun _ => sharingVm.vmInit 1 6) [false, true, true, false, true, false]

theorem page_sharingVm : ∀ r ∈ sharingVm.requests, ∀ base ∈ r.page,
    base = 0x90000000#64 ∧ r.n = 1 := by
  have hrequests : sharingVm.requests.map (fun r => (r.page, r.n)) =
      [(none, 1), (some 0x90000000#64, 1)] := by decide +kernel
  intro r hr base hbase
  have hmem := List.mem_map_of_mem (f := fun r : MapRequest => (r.page, r.n)) hr
  rw [hrequests] at hmem
  simp only [List.mem_cons, List.not_mem_nil, or_false, Prod.mk.injEq] at hmem
  rcases hmem with ⟨hpage, -⟩ | ⟨hpage, hn⟩
  · rw [hpage] at hbase
    cases hbase
  · rw [hpage] at hbase
    exact ⟨(Option.some.inj hbase).symm, hn⟩

theorem sharedSetup_sharing : SharedSetup (Set.univ : Set Bool) (fun _ => sharingVm) (fun _ => 6)
    [markedPool] (fun _ => sharingVm.vmInit 1 6) [false, true, true, false, true, false] 56 where
  vmInit := fun _ _ => rfl
  ok := fun _ _ => ⟨rfl, fun _ _ => trivial, fun r hr base hbase => by
    obtain ⟨rfl, hn⟩ := page_sharingVm r hr base hbase
    rw [hn]
    decide⟩
  apart := List.pairwise_singleton _ _
  room := by
    rintro pool hpool
    obtain rfl := List.mem_singleton.mp hpool
    decide
  reserved := by
    rintro - - p ⟨r, hr, base, hbase, hle, hlt⟩ q ⟨pool, hpool, hq, hp⟩
    obtain ⟨rfl, hn⟩ := page_sharingVm r hr base hbase
    obtain rfl := List.mem_singleton.mp (List.mem_of_getElem? hpool)
    have hfirst : markedPool.firstPage = 0x80000 := by decide
    have hsize : markedPool.size.toNat = 16 := rfl
    have hbase : (0x90000000#64 : Addr).toNat / pageSize = 0x90000 := by decide
    omega
  inside := by
    apply inside_of_marked (Client.replays_exec ⟨[markedPool], fun _ => sharingVm.vmInit 1 6⟩ _)
    intro pool hpool i hi
    obtain rfl := List.mem_singleton.mp hpool
    exact bits_markedPool hi

/-- The page that both VMs show is one that the configuration gives to both. -/
theorem pages_apart_sharing : ∃ t t',
    sharingRun.clients false = .ret (some t) ∧ sharingRun.clients true = .ret (some t') ∧
      sharingVm.mmu.Uses t (.shown 2) 0x90000 ∧ sharingVm.mmu.Uses t' (.shown 2) 0x90000 ∧
        0x90000 ∈ sharingVm.given := by
  have hdone : ∀ i, ∃ t, sharingRun.clients i = .ret (some t) ∧
      sharingVm.mmu.memTranslate t 0x2000 = some 0x90000000#64 := by
    intro i
    have hresult : (sharingRun.clients i).result.bind (fun t => t.bind fun t =>
        sharingVm.mmu.memTranslate t 0x2000) = some 0x90000000#64 := by
      cases i
      · decide +kernel
      · decide +kernel
    obtain ⟨r, hr, htrans⟩ := Option.bind_eq_some_iff.mp hresult
    obtain ⟨t, rfl, ht⟩ := Option.bind_eq_some_iff.mp htrans
    exact ⟨t, Client.eq_ret_of_result hr, ht⟩
  obtain ⟨t, ht, htrans⟩ := hdone false
  obtain ⟨t', ht', htrans'⟩ := hdone true
  have hu : sharingVm.mmu.Uses t (.shown 2) 0x90000 := ⟨0x2000, _, by decide, htrans, by decide⟩
  have hu' : sharingVm.mmu.Uses t' (.shown 2) 0x90000 := ⟨0x2000, _, by decide, htrans', by decide⟩
  have hshared := (sharedSetup_sharing.pages_apart (Set.mem_univ false) (Set.mem_univ true) ht ht'
    hu hu').resolve_left fun h => Bool.false_ne_true h.1
  exact ⟨t, t', ht, ht', hu, hu', hshared.2.2.1⟩

end BaoHypervisor
