import BaoHypervisor.Arch.Spinlock
import BaoHypervisor.Core.Objpool.Calls

/-!
# An object pool that CPUs share

`objpool_alloc` and `objpool_free` guard the bitmap of the pool with a spinlock. CPUs call them and
run them an instruction at a time, and the scan of the bitmap a bit at a time, in any order. They
get the objects that they would get if the calls were made one after the other (`shared_exec`).
-/

namespace BaoHypervisor

open Bitmap

namespace Objpool

/-- The bitmap in memory, and the variables `n` and `obj` of each CPU. -/
structure SharedPool (ι : Type*) where
  bitmap : Bitmap
  n : ι → Option ℕ
  obj : ι → Option Addr

variable {ι : Type*} [DecidableEq ι] (objpool : Objpool)

section Steps

variable (i : ι)

/-- A round of `bitmap_find_nth` for the first clear bit. -/
def findStep (k : ℕ) (m : SharedPool ι) : SharedPool ι :=
  if m.n i = none ∧ bitmapGet m.bitmap k = false then
    { m with n := Function.update m.n i (some k) }
  else m

def setStep (m : SharedPool ι) : SharedPool ι :=
  match m.n i with
  | some k => { m with bitmap := bitmapSet m.bitmap k }
  | none => m

def objStep (m : SharedPool ι) : SharedPool ι :=
  match m.n i with
  | some k => { m with obj := Function.update m.obj i (some (objpool.object k)) }
  | none => m

/-- What `objpool_alloc` does with the lock held. -/
def allocSteps : List (SharedPool ι → SharedPool ι) :=
  (fun m => { m with n := Function.update m.n i none, obj := Function.update m.obj i none }) ::
    ((List.range objpool.num.toNat).map (findStep i) ++ [setStep i, objpool.objStep i])

end Steps

/-- An object of the pool, or its end, as `objpool_free` finds out. -/
def isPoolObject (obj : Addr) : Bool :=
  inRange obj objpool.pool (objpool.objsize * objpool.num) &&
    decide ((obj - objpool.pool) % objpool.objsize = 0#64)

/-- What `objpool_free` does with the lock held. -/
def freeSteps (obj : Addr) : List (SharedPool ι → SharedPool ι) :=
  [fun m => { m with
    bitmap := bitmapClear m.bitmap ((obj - objpool.pool) / objpool.objsize).toNat }]

def callSteps (i : ι) : PoolCall → List (SharedPool ι → SharedPool ι)
  | .alloc => objpool.allocSteps i
  | .free obj => objpool.freeSteps obj

def locks : PoolCall → Bool
  | .alloc => true
  | .free obj => objpool.isPoolObject obj

/-- A CPU calls one of the functions, goes on with it, or loses its reservation. -/
inductive PoolAct (ι : Type*) where
  | call (i : ι) (regs : LockRegs) (c : PoolCall)
  | tick (i : ι) (allowed : Bool)
  | drop (i : ι)

def PoolAct.spin : PoolAct ι → List (SpinAct ι (SharedPool ι))
  | .call i regs c => if objpool.locks c then [.call i regs (objpool.callSteps i c)] else []
  | .tick i allowed => [.tick i allowed]
  | .drop i => [.drop i]

/-- A call as a whole: the pool and what the last `objpool_alloc` of each CPU has returned. -/
def callWhole (t : PoolState × (ι → Option Addr)) (c : ι × PoolCall) :
    PoolState × (ι → Option Addr) :=
  (objpool.stepCall t.1 c.2,
    match c.2 with
    | .alloc => Function.update t.2 c.1 (objpool.objpoolAlloc t.1.bitmap).1
    | .free _ => t.2)

variable {objpool} {i : ι} {m : SharedPool ι}

theorem runAll_findStep (i : ι) (left k : ℕ) (m : SharedPool ι) :
    Serial.runAll ((List.range' k left).map (findStep i)) m =
      ⟨m.bitmap, Function.update m.n i
        ((m.n i).or (bitmapFindNthLoop m.bitmap 1 false left k 0)), m.obj⟩ := by
  induction left generalizing k m with
  | zero => simp [bitmapFindNthLoop]
  | succ left ih =>
      rw [List.range'_succ, List.map_cons, Serial.runAll_cons, ih, findStep]
      cases hn : m.n i with
      | some b => simp [hn]
      | none => cases hget : bitmapGet m.bitmap k <;> simp [hn, hget, bitmapFindNthLoop]

theorem runAll_allocSteps (objpool : Objpool) (i : ι) (m : SharedPool ι) :
    (Serial.runAll (objpool.allocSteps i) m).bitmap = (objpool.objpoolAlloc m.bitmap).2 ∧
      (Serial.runAll (objpool.allocSteps i) m).obj =
        Function.update m.obj i (objpool.objpoolAlloc m.bitmap).1 := by
  have hloop : bitmapFindNth m.bitmap objpool.num.toNat 1 0 false =
      bitmapFindNthLoop m.bitmap 1 false objpool.num.toNat 0 0 := bitmapFindNth_one ..
  rw [allocSteps, Serial.runAll_cons, Serial.runAll_append, List.range_eq_range',
    runAll_findStep, objpoolAlloc, hloop]
  cases bitmapFindNthLoop m.bitmap 1 false objpool.num.toNat 0 0 with
  | none => simp [setStep, objStep]
  | some k => simp [setStep, objStep]

/-- The steps of a call that takes the lock make the whole call. -/
theorem runAll_callSteps {c : PoolCall} (hlocks : objpool.locks c = true) {m : SharedPool ι}
    {t : PoolState × (ι → Option Addr)} (hbitmap : m.bitmap = t.1.bitmap) (hobj : m.obj = t.2) :
    (Serial.runAll (objpool.callSteps i c) m).bitmap = (objpool.callWhole t (i, c)).1.bitmap ∧
      (Serial.runAll (objpool.callSteps i c) m).obj = (objpool.callWhole t (i, c)).2 := by
  cases c with
  | alloc =>
      obtain ⟨hbitmap', hobj'⟩ := runAll_allocSteps objpool i m
      rw [hbitmap] at hbitmap' hobj'
      rw [hobj] at hobj'
      exact ⟨hbitmap', hobj'⟩
  | free obj =>
      have hobject : objpool.isPoolObject obj = true := hlocks
      rw [isPoolObject] at hobject
      refine ⟨?_, hobj⟩
      simp only [callSteps, freeSteps, Serial.runAll_cons, Serial.runAll_nil, callWhole, stepCall,
        objpoolFree, hobject, if_true, hbitmap]

/-- No step of a CPU touches the variable `obj` of another one. -/
theorem obj_callSteps {c : PoolCall} {j : ι} (hj : j ≠ i) :
    ∀ f ∈ objpool.callSteps i c, ∀ m : SharedPool ι, (f m).obj j = m.obj j := by
  intro f hf m
  cases c with
  | alloc =>
      rw [callSteps, allocSteps] at hf
      simp only [List.mem_cons, List.mem_append, List.mem_map, List.not_mem_nil, or_false] at hf
      rcases hf with rfl | ⟨k, -, rfl⟩ | rfl | rfl
      · simp [hj]
      · rw [findStep]
        split <;> rfl
      · rw [setStep]
        split <;> rfl
      · rw [objStep]
        split <;> simp [hj]
  | free obj =>
      rw [callSteps, freeSteps, List.mem_singleton] at hf
      rw [hf]

omit [DecidableEq ι] in
theorem obj_runAll {steps : List (SharedPool ι → SharedPool ι)} {j : ι}
    (h : ∀ f ∈ steps, ∀ m : SharedPool ι, (f m).obj j = m.obj j) (m : SharedPool ι) :
    (Serial.runAll steps m).obj j = m.obj j := by
  induction steps generalizing m with
  | nil => rfl
  | cons f steps ih =>
      rw [Serial.runAll_cons, ih fun g hg => h g (List.mem_cons_of_mem f hg)]
      exact h f List.mem_cons_self m

theorem foldl_callSteps {order : List (ι × PoolCall)} (hlocks : ∀ c ∈ order, objpool.locks c.2)
    {t : PoolState × (ι → Option Addr)} (hbitmap : m.bitmap = t.1.bitmap) (hobj : m.obj = t.2) :
    let m' := Serial.outcome m (order.map fun c => (c.1, objpool.callSteps c.1 c.2))
    m'.bitmap = (Run.exec objpool.callWhole t order).1.bitmap ∧
      m'.obj = (Run.exec objpool.callWhole t order).2 := by
  induction order generalizing m t with
  | nil => exact ⟨hbitmap, hobj⟩
  | cons c order ih =>
      obtain ⟨hc, horder⟩ := List.forall_mem_cons.mp hlocks
      obtain ⟨hbitmap', hobj'⟩ := runAll_callSteps (i := c.1) hc hbitmap hobj
      exact ih horder hbitmap' hobj'

theorem mem_spin {acts : List (PoolAct ι)} {regs : LockRegs}
    {steps : List (SharedPool ι → SharedPool ι)}
    (h : SpinAct.call i regs steps ∈ acts.flatMap (PoolAct.spin objpool)) :
    ∃ c, objpool.locks c = true ∧ steps = objpool.callSteps i c := by
  obtain ⟨act, -, hact⟩ := List.mem_flatMap.mp h
  cases act with
  | call j regs' c =>
      rw [PoolAct.spin] at hact
      split at hact
      · rw [List.mem_singleton] at hact
        cases hact
        exact ⟨c, ‹_›, rfl⟩
      · cases hact
  | tick _ _ | drop _ => simp [PoolAct.spin] at hact

theorem exists_order {entered : List (ι × List (SharedPool ι → SharedPool ι))}
    (h : ∀ e ∈ entered, ∃ c, objpool.locks c = true ∧ e.2 = objpool.callSteps e.1 c) :
    ∃ order : List (ι × PoolCall), (∀ c ∈ order, objpool.locks c.2 = true) ∧
      entered = order.map fun c => (c.1, objpool.callSteps c.1 c.2) := by
  induction entered with
  | nil => exact ⟨[], by simp, rfl⟩
  | cons e entered ih =>
      obtain ⟨he, hentered⟩ := List.forall_mem_cons.mp h
      obtain ⟨c, hlocks, hsteps⟩ := he
      obtain ⟨order, horder, rfl⟩ := ih hentered
      refine ⟨(e.1, c) :: order, List.forall_mem_cons.mpr ⟨hlocks, horder⟩, ?_⟩
      rw [List.map_cons, ← hsteps]

theorem tracks_callWhole {t : PoolState × (ι → Option Addr)} (h : objpool.Tracks t.1)
    (order : List (ι × PoolCall)) : objpool.Tracks (Run.exec objpool.callWhole t order).1 :=
  Run.exec_invariant (I := fun t : PoolState × (ι → Option Addr) => objpool.Tracks t.1) h
    (fun _ c ht => ht.step c.2) order

/-- However CPUs run their calls, there is an order of the calls, that in which they get the lock,
such that each CPU has got the objects, and the bitmap has the bits, of the calls made as a whole
in that order. No object is handed out twice. -/
theorem shared_exec (arch : LockArch) {bitmap : Bitmap}
    (hclear : ∀ n < objpool.num.toNat, bitmapGet bitmap n = false) (acts : List (PoolAct ι)) :
    let as := acts.flatMap (PoolAct.spin objpool)
    let m : SharedPool ι := ⟨bitmap, fun _ => none, fun _ => none⟩
    let s := Run.exec (SpinState.step arch) (.start m) as
    ∃ order : List (ι × PoolCall),
      Run.emitted (SpinState.step arch) (SpinState.enters arch) (.start m) as =
        order.map (fun c => (c.1, objpool.callSteps c.1 c.2)) ∧
      objpool.Tracks (Run.exec objpool.callWhole (⟨bitmap, []⟩, fun _ => none) order).1 ∧
      (∀ i, s.inside i = none →
        s.data.obj i = (Run.exec objpool.callWhole (⟨bitmap, []⟩, fun _ => none) order).2 i) ∧
      ((∀ i, s.inside i = none) → s.data.bitmap =
        (Run.exec objpool.callWhole (⟨bitmap, []⟩, fun _ => none) order).1.bitmap) := by
  intro as m s
  have hcalls : ∀ i regs steps, .call i regs steps ∈ as →
      ∃ c, objpool.locks c = true ∧ steps = objpool.callSteps i c := fun _ _ _ => mem_spin
  obtain ⟨order, hlocks, horder⟩ := exists_order (SpinState.forall_mem_enters arch
    (x := m) (P := fun e => ∃ c, objpool.locks c = true ∧ e.2 = objpool.callSteps e.1 c) hcalls)
  have hserial := (SpinState.serves_exec arch m as).2
  rw [horder] at hserial
  obtain ⟨hbitmap, hobj⟩ := foldl_callSteps hlocks (m := m)
    (t := (⟨bitmap, []⟩, fun _ => none)) rfl rfl
  refine ⟨order, horder, tracks_callWhole (tracks_start hclear) order, fun i hi => ?_,
    fun hnone => ?_⟩
  · rw [← hobj]
    by_cases hnone : ∀ j, s.inside j = none
    · rw [← hserial.done hnone]
    · -- the steps that the CPU inside has left are not those of this one
      obtain ⟨j, hj⟩ := not_forall.mp hnone
      obtain ⟨rest, hrest⟩ := Option.ne_none_iff_exists'.mp hj
      have hji : i ≠ j := fun heq => hj (heq ▸ hi)
      rw [← hserial.rest hrest]
      have hothers := SpinState.forall_mem_inside
        (P := fun k f => ∀ l, l ≠ k → ∀ m : SharedPool ι, (f m).obj l = m.obj l)
        (fun k regs steps hmem f hf l hl => by
          obtain ⟨c, -, rfl⟩ := hcalls k regs steps hmem
          exact obj_callSteps hl f hf) hrest
      exact (obj_runAll (fun f hf => hothers f hf i hji) s.data).symm
  · rw [hserial.done hnone, hbitmap]

/-- Two CPUs call `objpool_alloc`, the second one while the first one scans the bitmap. -/
def twoCalls : List (PoolAct (Bool)) :=
  [.call false ⟨0, 0#32, false⟩ .alloc] ++ List.replicate 6 (.tick false true) ++
    [.call true ⟨0, 0#32, false⟩ .alloc] ++ List.replicate 4 (.tick true true) ++
    List.replicate 4 (.tick false true) ++ List.replicate 11 (.tick true true)

theorem shared_exec_two :
    ∃ (hpool : (0x1000#64 : Addr) ≠ 0#64) (hsize : 0 < (8#64 : SizeT).toNat)
      (hfits : (0x1000#64 : Addr).toNat + (8#64 : SizeT).toNat * (2#64 : SizeT).toNat < 2 ^ 64),
      let objpool : Objpool := ⟨0x1000#64, 8#64, 2#64, hpool, hsize, hfits⟩
      let as := twoCalls.flatMap (PoolAct.spin objpool)
      let m : SharedPool (Bool) := ⟨fun _ => 0#32, fun _ => none, fun _ => none⟩
      let s := Run.exec (SpinState.step .riscv) (.start m) as
      ∃ order : List (Bool × PoolCall),
        Run.emitted (SpinState.step .riscv) (SpinState.enters .riscv) (.start m) as =
          order.map (fun c => (c.1, objpool.callSteps c.1 c.2)) ∧
        objpool.Tracks (Run.exec objpool.callWhole (⟨fun _ => 0#32, []⟩, fun _ => none) order).1 ∧
        (∀ i, s.inside i = none → s.data.obj i =
          (Run.exec objpool.callWhole (⟨fun _ => 0#32, []⟩, fun _ => none) order).2 i) ∧
        ((∀ i, s.inside i = none) → s.data.bitmap =
          (Run.exec objpool.callWhole (⟨fun _ => 0#32, []⟩, fun _ => none) order).1.bitmap) :=
  ⟨by decide, by decide, by decide, shared_exec .riscv (by decide) _⟩

end Objpool

end BaoHypervisor
