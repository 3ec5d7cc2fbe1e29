import BaoHypervisor.Arch.Spinlock

/-!
# Progress of spinlocks

A CPU that waits for a lock cannot be shut out for good: whatever has happened before, if the owner
of the lock goes on and the CPU then runs alone, it gets into its section (`exists_ticks_enter`).
-/

namespace BaoHypervisor

namespace LockArch

variable (arch : LockArch)

/-- The lock, the reservation of the CPU and its registers, after an instruction that no other CPU
disturbs. -/
def solo (t : Spinlock × Bool × LockRegs) : Spinlock × Bool × LockRegs :=
  match arch.spinLock[t.2.2.pc]? with
  | none => t
  | some instr =>
      match instr.access t.2.2 with
      | .none => (t.1, t.2.1, instr.next t.2.2 0#32)
      | .load => (t.1, true, instr.next t.2.2 t.1)
      | .store =>
          if t.2.1 then (1#32, false, instr.next t.2.2 0#32)
          else (t.1, false, instr.next t.2.2 1#32)

variable {arch} {regs : LockRegs}

theorem pc_cases (h : regs.pc < arch.spinLock.length) :
    regs.pc = 0 ∨ regs.pc = 1 ∨ regs.pc = 2 ∨ regs.pc = 3 ∨ regs.pc = 4 := by
  cases arch <;>
    simp only [spinLock, riscvSpinLock, aarch64SpinLock, aarch32SpinLock, List.length_cons,
      List.length_nil] at h <;>
    omega

theorem exists_solo_of_won (hlt : regs.pc < arch.spinLock.length) (h : arch.view regs = .won)
    (lock : Spinlock) (reserved : Bool) :
    ∃ k, arch.spinLock.length ≤ (arch.solo^[k] (lock, reserved, regs)).2.2.pc := by
  have hcases := pc_cases hlt
  obtain ⟨pc, tmp, z⟩ := regs
  refine ⟨2, ?_⟩
  cases arch <;> rcases hcases with rfl | rfl | rfl | rfl | rfl <;>
    cases z <;> simp [view] at h <;>
    simp [Function.iterate_succ_apply, solo, LockInstr.access, LockInstr.next, h,
      spinLock, riscvSpinLock, aarch64SpinLock, aarch32SpinLock]

/-- A CPU that runs alone while the lock is free comes to the end of `spin_lock`: it may have to go
back to the exclusive load once. -/
theorem exists_solo_of_free (hlt : regs.pc < arch.spinLock.length) (reserved : Bool) :
    ∃ k, arch.spinLock.length ≤ (arch.solo^[k] (0#32, reserved, regs)).2.2.pc := by
  have hcases := pc_cases hlt
  obtain ⟨pc, tmp, z⟩ := regs
  refine ⟨2 * arch.spinLock.length, ?_⟩
  cases arch <;> rcases hcases with rfl | rfl | rfl | rfl | rfl <;>
    by_cases htmp : tmp = 0#32 <;> cases z <;> cases reserved <;>
    simp [Function.iterate_succ_apply, solo, LockInstr.access, LockInstr.next, htmp,
      spinLock, riscvSpinLock, aarch64SpinLock, aarch32SpinLock]

end LockArch

namespace SpinState

variable {ι σ : Type*} [DecidableEq ι] {arch : LockArch} {s : SpinState ι σ} {i j : ι}
  {regs : LockRegs} {steps rest : List (σ → σ)}

/-- CPUs take the next instructions or steps, and no exclusive store fails for no reason. -/
def ticks (arch : LockArch) (s : SpinState ι σ) (is : List ι) : SpinState ι σ :=
  Run.exec (step arch) s (is.map fun i => .tick i true)

@[simp] theorem ticks_nil : s.ticks arch [] = s := rfl

@[simp] theorem ticks_cons (i : ι) (is : List ι) :
    s.ticks arch (i :: is) = (s.step arch (.tick i true)).ticks arch is := rfl

theorem ticks_append (is js : List ι) :
    s.ticks arch (is ++ js) = (s.ticks arch is).ticks arch js := by
  rw [ticks, List.map_append, Run.exec_append]
  rfl

theorem Inv.ticks (h : s.Inv arch) (is : List ι) : (s.ticks arch is).Inv arch :=
  Run.exec_invariant h (fun _ a hs => (moves_step hs a).1) _

theorem tickLock_true (s : SpinState ι σ) (i : ι) (steps : List (σ → σ))
    (hlt : regs.pc < arch.spinLock.length) :
    (s.tickLock arch i true regs steps).lock = (arch.solo (s.lock, s.reserved i, regs)).1 ∧
      (s.tickLock arch i true regs steps).reserved i =
        (arch.solo (s.lock, s.reserved i, regs)).2.1 ∧
      (s.tickLock arch i true regs steps).cpus = Function.update s.cpus i
        (settle arch (arch.solo (s.lock, s.reserved i, regs)).2.2 steps) := by
  rw [tickLock, LockArch.solo, List.getElem?_eq_getElem hlt]
  cases hacc : arch.spinLock[regs.pc].access regs with
  | none => simp [hacc, accessLock]
  | load => simp [hacc, accessLock]
  | store => cases hres : s.reserved i <;> simp [hacc, accessLock, storeExclusive, hres]

/-- A CPU that comes to the end of `spin_lock` on its own gets into its section. -/
theorem exists_ticks_critical {k : ℕ} (hi : s.cpus i = .locking regs steps)
    (hlt : regs.pc < arch.spinLock.length)
    (hend : arch.spinLock.length ≤ (arch.solo^[k] (s.lock, s.reserved i, regs)).2.2.pc) :
    ∃ m, (s.ticks arch (List.replicate m i)).cpus =
      Function.update s.cpus i (.critical steps) := by
  induction k generalizing s regs with
  | zero => exact absurd hlt (Nat.not_lt_of_le hend)
  | succ k ih =>
      obtain ⟨hlock, hres, hcpus⟩ := tickLock_true s i steps hlt
      have hstep : s.step arch (.tick i true) = s.tickLock arch i true regs steps := by
        rw [step, hi]
      rw [← hstep] at hlock hres hcpus
      rw [settle] at hcpus
      split at hcpus
      · rename_i hlt'
        have hsolo : arch.solo (s.lock, s.reserved i, regs) =
            ((s.step arch (.tick i true)).lock, (s.step arch (.tick i true)).reserved i,
              (arch.solo (s.lock, s.reserved i, regs)).2.2) :=
          Prod.ext hlock.symm (Prod.ext hres.symm rfl)
        rw [Function.iterate_succ_apply, hsolo] at hend
        obtain ⟨m, hm⟩ := ih (by rw [hcpus, Function.update_self]) hlt' hend
        refine ⟨m + 1, ?_⟩
        rw [List.replicate_succ, ticks_cons, hm, hcpus, Function.update_idem]
      · exact ⟨1, by rw [List.replicate_one, ticks_cons, ticks_nil, hcpus]⟩

/-- The CPU in its section goes through it and releases the lock. -/
theorem exists_ticks_leave (arch : LockArch) (hj : s.cpus j = .critical rest) :
    ∃ m, (s.ticks arch (List.replicate m j)).lock = 0#32 ∧
      (s.ticks arch (List.replicate m j)).cpus = Function.update s.cpus j .outside := by
  induction rest generalizing s with
  | nil =>
      refine ⟨1, ?_⟩
      rw [List.replicate_one, ticks_cons, ticks_nil, step, hj]
      exact ⟨rfl, rfl⟩
  | cons f rest ih =>
      have hstep : s.step arch (.tick j true) =
          { s with data := f s.data, cpus := Function.update s.cpus j (.critical rest) } := by
        rw [step, hj]
      obtain ⟨m, hlock, hcpus⟩ := ih (s := s.step arch (.tick j true)) (by simp [hstep])
      refine ⟨m + 1, ?_⟩
      rw [List.replicate_succ, ticks_cons, hcpus, hstep]
      exact ⟨hstep ▸ hlock, Function.update_idem ..⟩

/-- The owner of the lock gets on, through its section if it is in it, until the lock is free. -/
theorem Inv.exists_ticks_free (h : s.Inv arch) (hj : (s.cpus j).Owns arch) :
    ∃ m, (s.ticks arch (List.replicate m j)).lock = 0#32 ∧
      ∀ i, i ≠ j → (s.ticks arch (List.replicate m j)).cpus i = s.cpus i := by
  cases hphase : s.cpus j with
  | outside => simp [hphase, SpinPhase.Owns] at hj
  | critical rest =>
      obtain ⟨m, hlock, hcpus⟩ := exists_ticks_leave arch hphase
      exact ⟨m, hlock, fun i hi => by rw [hcpus, Function.update_of_ne hi]⟩
  | locking regs steps =>
      have hlt := h.pc_lt j regs steps hphase
      have hwon : arch.view regs = .won := by simpa [hphase, SpinPhase.Owns] using hj
      obtain ⟨k, hk⟩ := LockArch.exists_solo_of_won hlt hwon s.lock (s.reserved j)
      obtain ⟨m, hm⟩ := exists_ticks_critical hphase hlt hk
      obtain ⟨m', hlock, hcpus⟩ := exists_ticks_leave arch
        (s := s.ticks arch (List.replicate m j)) (by rw [hm, Function.update_self])
      refine ⟨m + m', ?_, fun i hi => ?_⟩
      · rw [List.replicate_add, ticks_append, hlock]
      · rw [List.replicate_add, ticks_append, hcpus, Function.update_of_ne hi, hm,
          Function.update_of_ne hi]

theorem Inv.exists_ticks_of_free (h : s.Inv arch) (hi : s.cpus i = .locking regs steps)
    (hfree : s.lock = 0#32) :
    ∃ m, (s.ticks arch (List.replicate m i)).cpus i = .critical steps := by
  have hlt := h.pc_lt i regs steps hi
  obtain ⟨k, hk⟩ := LockArch.exists_solo_of_free hlt (s.reserved i)
  obtain ⟨m, hm⟩ := exists_ticks_critical hi hlt (by rwa [hfree])
  exact ⟨m, by rw [hm, Function.update_self]⟩

/-- Whatever CPUs have done before, one that is in `spin_lock` gets into its section if first the
owner of the lock, where it is another CPU, and then the CPU itself get on. -/
theorem exists_ticks_enter (x : σ) {as : List (SpinAct ι σ)}
    (hi : (Run.exec (step arch) (start x) as).cpus i = .locking regs steps) :
    ∃ (owner : List ι) (m : ℕ),
      (∀ j ∈ owner, j ≠ i ∧ ((Run.exec (step arch) (start x) as).cpus j).Owns arch) ∧
        ((Run.exec (step arch) (start x) as).ticks arch (owner ++ List.replicate m i)).cpus i =
          .critical steps := by
  have hinv : (Run.exec (step arch) (start x) as).Inv arch :=
    Run.exec_invariant (inv_start arch x) (fun _ a hs => (moves_step hs a).1) as
  generalize Run.exec (step arch) (start x) as = s at hi hinv
  by_cases hfree : s.lock = 0#32
  · obtain ⟨m, hm⟩ := hinv.exists_ticks_of_free hi hfree
    exact ⟨[], m, by simp, hm⟩
  obtain ⟨j, hj⟩ := not_forall_not.mp (mt hinv.free.mpr hfree)
  by_cases hij : j = i
  · subst hij
    have hlt := hinv.pc_lt j regs steps hi
    have hwon : arch.view regs = .won := by simpa [hi, SpinPhase.Owns] using hj
    obtain ⟨k, hk⟩ := LockArch.exists_solo_of_won hlt hwon s.lock (s.reserved j)
    obtain ⟨m, hm⟩ := exists_ticks_critical hi hlt hk
    exact ⟨[], m, by simp, by rw [List.nil_append, hm, Function.update_self]⟩
  · obtain ⟨m, hlock, hothers⟩ := hinv.exists_ticks_free hj
    have hwaiting := (hothers i (Ne.symm hij)).trans hi
    obtain ⟨m', hm'⟩ := (hinv.ticks _).exists_ticks_of_free hwaiting hlock
    refine ⟨List.replicate m j, m', fun k hk => ?_, ?_⟩
    · rw [List.eq_of_mem_replicate hk]
      exact ⟨hij, hj⟩
    · rw [ticks_append, hm']

/-- One CPU is in its section and another one has found the lock taken. -/
theorem exists_ticks_enter_contended :
    ∃ (owner : List (Fin 2)) (m : ℕ),
      let s : SpinState (Fin 2) ℕ := Run.exec (step .riscv) (start 0)
        [.call 0 ⟨0, 0#32, false⟩ [(· + 1), (· * 2)], .tick 0 true, .tick 0 true, .tick 0 true,
          .tick 0 true, .tick 0 true, .call 1 ⟨0, 0#32, false⟩ [(· + 3)], .tick 1 true]
      (∀ j ∈ owner, j ≠ 1 ∧ (s.cpus j).Owns .riscv) ∧
        (s.ticks .riscv (owner ++ List.replicate m 1)).cpus 1 = .critical [(· + 3)] :=
  exists_ticks_enter 0 rfl

end SpinState

end BaoHypervisor
