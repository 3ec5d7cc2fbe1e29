import BaoHypervisor.Core.Vm
import BaoHypervisor.Theory.CountBarrier

/-!
# The barrier of the CPUs

The count of a `struct cpu_synctoken` is a word that all rounds share. As long as the
count does not wrap, the CPUs at the barrier take the steps of a barrier that counts with
natural numbers (`Tracks`). `ALIGN` adds `n - 1` before it divides, so it already wraps
for the last but one CPU of a round `k` with `(k + 1) * n > 2 ^ 64 + 1`, which then
waits for no one.
-/

namespace BaoHypervisor

/-- `struct cpu_synctoken`, with the words of the source. -/
structure CpuSynctokenWord where
  n : SizeT
  ready : Bool
  count : SizeT
deriving DecidableEq, Repr, Inhabited

theorem toNat_align (val unit : SizeT) (hunit : 0 < unit.toNat) :
    (align val unit).toNat =
      (val.toNat + (unit.toNat - 1)) % 2 ^ 64 / unit.toNat * unit.toNat := by
  have hsub : val + unit - 1#64 = val + (unit - 1#64) := by bv_omega
  have hone : (unit - 1#64).toNat = unit.toNat - 1 := by bv_omega
  have hle : (val.toNat + (unit.toNat - 1)) % 2 ^ 64 / unit.toNat * unit.toNat < 2 ^ 64 :=
    lt_of_le_of_lt (Nat.div_mul_le_self _ _) (Nat.mod_lt _ (by decide))
  rw [align, hsub, BitVec.toNat_mul, BitVec.toNat_udiv, BitVec.toNat_add, hone,
    Nat.mod_eq_of_lt hle]

namespace CpuSynctokenWord

def cpuSyncInit (n : SizeT) : CpuSynctokenWord := { n := n, ready := true, count := 0#64 }

/-- What `cpu_sync_barrier` does under the lock: the token it leaves, and `next_count`. -/
def arrive (token : CpuSynctokenWord) : CpuSynctokenWord × SizeT :=
  let count := token.count + 1#64
  ({ token with count := count }, align count token.n)

/-- The exit condition of the last loop of `cpu_sync_barrier`. -/
def Passes (token : CpuSynctokenWord) (nextCount : SizeT) : Prop := ¬ token.count < nextCount

instance (token : CpuSynctokenWord) (nextCount : SizeT) :
    Decidable (token.Passes nextCount) :=
  inferInstanceAs (Decidable (¬ _))

def nat (token : CpuSynctokenWord) : CpuSynctoken :=
  { n := token.n.toNat, count := token.count.toNat }

theorem nat_arrive {token : CpuSynctokenWord} (hpos : 0 < token.n.toNat)
    (hfit : token.count.toNat + token.n.toNat < 2 ^ 64) :
    token.arrive.1.nat = token.nat.cpuSyncBarrier.1 ∧
      token.arrive.2.toNat = token.nat.cpuSyncBarrier.2 := by
  have hcount : (token.count + 1#64).toNat = token.count.toNat + 1 := by bv_omega
  rw [arrive, nat, nat, CpuSynctoken.cpuSyncBarrier]
  dsimp only
  rw [toNat_align _ _ hpos, hcount, Nat.mod_eq_of_lt (by omega),
    Nat.add_sub_assoc (Nat.succ_le_of_lt hpos)]
  exact ⟨rfl, rfl⟩

end CpuSynctokenWord

/-- The CPUs at the barrier of a token: how many calls each has entered, and the
`next_count` of the call it is in. -/
structure BarrierState (ι : Type*) where
  token : CpuSynctokenWord
  entered : ι → ℕ
  nextCount : ι → Option SizeT

namespace BarrierState

variable {ι : Type*}

/-- The calls of `cpu_sync_barrier` that the CPU has left. -/
def left (s : BarrierState ι) (cpu : ι) : ℕ :=
  match s.nextCount cpu with
  | none => s.entered cpu
  | some _ => s.entered cpu - 1

/-- The CPUs are about to call `cpu_sync_barrier` after `rounds` rounds. -/
def start (n : SizeT) (rounds : ℕ) : BarrierState ι where
  token := { CpuSynctokenWord.cpuSyncInit n with count := BitVec.ofNat 64 (rounds * n.toNat) }
  entered := fun _ => rounds
  nextCount := fun _ => none

variable [DecidableEq ι]

section Step

variable (s : BarrierState ι) (cpu : ι)

/-- The section of `cpu_sync_barrier` under the lock. -/
def enter : BarrierState ι where
  token := s.token.arrive.1
  entered := Function.update s.entered cpu (s.entered cpu + 1)
  nextCount := Function.update s.nextCount cpu (some s.token.arrive.2)

def leave : BarrierState ι :=
  { s with nextCount := Function.update s.nextCount cpu none }

/-- One turn of a CPU: it enters its next call, or it reads the count and leaves its call
if it may. -/
def step : BarrierState ι :=
  match s.nextCount cpu with
  | none => if s.token.ready then s.enter cpu else s
  | some nextCount => if s.token.Passes nextCount then s.leave cpu else s

end Step

theorem step_of_ready {s : BarrierState ι} {cpu : ι} (hnext : s.nextCount cpu = none)
    (hready : s.token.ready = true) : s.step cpu = s.enter cpu := by
  rw [step, hnext]
  dsimp only
  rw [if_pos hready]

theorem step_of_passes {s : BarrierState ι} {cpu : ι} {nextCount : SizeT}
    (hnext : s.nextCount cpu = some nextCount) (hpass : s.token.Passes nextCount) :
    s.step cpu = s.leave cpu := by
  rw [step, hnext]
  dsimp only
  rw [if_pos hpass]

abbrev after (n : SizeT) (schedule : List ι) : BarrierState ι :=
  Run.exec step (start n 0) schedule

/-! ## The barrier that counts with natural numbers -/

omit [DecidableEq ι] in
theorem left_of_none {s : BarrierState ι} {cpu : ι} (h : s.nextCount cpu = none) :
    s.left cpu = s.entered cpu := by
  rw [left, h]

omit [DecidableEq ι] in
theorem left_of_some {s : BarrierState ι} {cpu : ι} {nextCount : SizeT}
    (h : s.nextCount cpu = some nextCount) : s.left cpu = s.entered cpu - 1 := by
  rw [left, h]

/-- The two counts that a CPU waits for are the same, or the word has wrapped to zero and
the other one has been reached. -/
def NextTracks (count : ℕ) : Option SizeT → Option ℕ → Prop
  | none, none => True
  | some nextCount, some next => nextCount.toNat = next ∨ nextCount = 0#64 ∧ next ≤ count
  | _, _ => False

theorem NextTracks.mono {count count' : ℕ} (hle : count ≤ count') {x : Option SizeT}
    {y : Option ℕ} (h : NextTracks count x y) : NextTracks count' x y := by
  cases x with
  | none =>
      cases y with
      | none => trivial
      | some next => exact h
  | some nextCount =>
      cases y with
      | none => exact h
      | some next =>
          rcases h with heq | ⟨hzero, hreached⟩
          · exact .inl heq
          · exact .inr ⟨hzero, hreached.trans hle⟩

variable [Fintype ι]

/-- The words hold the natural numbers. -/
structure Tracks (s : BarrierState ι) (t : CountBarrier.State ι) : Prop where
  n_eq : s.token.n.toNat = Fintype.card ι
  ready : s.token.ready = true
  count_eq : s.token.count.toNat = t.count
  entered_eq : s.entered = t.entered
  next : ∀ cpu, NextTracks t.count (s.nextCount cpu) (t.waiting cpu)

section Tracks

variable {s : BarrierState ι} {t : CountBarrier.State ι} {cpu : ι} {n : SizeT} {rounds : ℕ}

omit [DecidableEq ι] in
theorem Tracks.waiting_of_none (h : Tracks s t) (hnone : s.nextCount cpu = none) :
    t.waiting cpu = none := by
  have hnext := h.next cpu
  rw [hnone] at hnext
  cases hwait : t.waiting cpu with
  | none => rfl
  | some next =>
      rw [hwait] at hnext
      exact hnext.elim

omit [DecidableEq ι] in
theorem Tracks.waiting_of_some (h : Tracks s t) {nextCount : SizeT}
    (hsome : s.nextCount cpu = some nextCount) :
    ∃ next, t.waiting cpu = some next ∧
      (nextCount.toNat = next ∨ nextCount = 0#64 ∧ next ≤ t.count) := by
  have hnext := h.next cpu
  rw [hsome] at hnext
  cases hwait : t.waiting cpu with
  | none =>
      rw [hwait] at hnext
      exact hnext.elim
  | some next =>
      rw [hwait] at hnext
      exact ⟨next, rfl, hnext⟩

omit [DecidableEq ι] in
theorem Tracks.left_eq (h : Tracks s t) (cpu : ι) : s.left cpu = t.left cpu := by
  cases hnext : s.nextCount cpu with
  | none =>
      rw [left_of_none hnext, CountBarrier.State.left_of_none (h.waiting_of_none hnext),
        h.entered_eq]
  | some nextCount =>
      obtain ⟨next, hwait, -⟩ := h.waiting_of_some hnext
      rw [left_of_some hnext, CountBarrier.State.left_of_some hwait, h.entered_eq]

omit [DecidableEq ι] in
theorem Tracks.passes_iff (h : Tracks s t) {nextCount : SizeT} {next : ℕ}
    (hnext : nextCount.toNat = next ∨ nextCount = 0#64 ∧ next ≤ t.count) :
    s.token.Passes nextCount ↔ next ≤ t.count := by
  rw [CpuSynctokenWord.Passes, BitVec.lt_def, h.count_eq, Nat.not_lt]
  rcases hnext with rfl | ⟨rfl, hreached⟩
  · exact Iff.rfl
  · exact iff_of_true (Nat.zero_le _) hreached

omit [DecidableEq ι] in
theorem tracks_start (hn : n.toNat = Fintype.card ι) (h : rounds * n.toNat < 2 ^ 64) :
    Tracks (start n rounds : BarrierState ι) (CountBarrier.State.start rounds) where
  n_eq := hn
  ready := rfl
  count_eq := by
    rw [start, CountBarrier.State.start, ← hn]
    exact BitVec.toNat_ofNat _ _ |>.trans (Nat.mod_eq_of_lt h)
  entered_eq := rfl
  next := fun _ => trivial

/-- Entering keeps the two barriers in step while the count does not wrap. -/
theorem Tracks.enter (h : Tracks s t) (hinv : t.Inv) (hnone : s.nextCount cpu = none)
    (hone : Fintype.card ι ≠ 1) (hrounds : (rounds + 1) * Fintype.card ι ≤ 2 ^ 64 + 1)
    (hle : ∀ c, (t.enter cpu).entered c ≤ rounds) : Tracks (s.enter cpu) (t.enter cpu) := by
  have hwait := h.waiting_of_none hnone
  have hcount := (hinv.enter hwait).count_le hle
  have hself : t.entered cpu + 1 ≤ rounds := by
    have hcpu := hle cpu
    rw [CountBarrier.State.enter] at hcpu
    dsimp only at hcpu
    rwa [Function.update_self] at hcpu
  have hmul : (t.entered cpu + 1) * Fintype.card ι ≤ rounds * Fintype.card ι :=
    Nat.mul_le_mul_right _ hself
  have hcard : 0 < Fintype.card ι := Fintype.card_pos_iff.mpr ⟨cpu⟩
  rw [CountBarrier.State.enter] at hcount
  dsimp only at hcount
  rw [Nat.add_mul, Nat.one_mul] at hrounds
  have hword : (s.token.count + 1#64).toNat = t.count + 1 := by
    have heq := h.count_eq
    bv_omega
  refine ⟨h.n_eq, h.ready, hword, ?_, fun c => ?_⟩
  · rw [BarrierState.enter, CountBarrier.State.enter, h.entered_eq]
  · rw [BarrierState.enter, CountBarrier.State.enter]
    dsimp only
    by_cases hc : c = cpu
    · subst hc
      rw [Function.update_self, Function.update_self]
      by_cases hwrap : t.count + Fintype.card ι < 2 ^ 64
      · have hnat := (CpuSynctokenWord.nat_arrive (by rwa [h.n_eq])
          (by rwa [h.n_eq, h.count_eq])).2
        rw [CpuSynctokenWord.nat, h.n_eq, h.count_eq] at hnat
        exact .inl hnat
      · -- the sum in `ALIGN` is `2 ^ 64`, and this CPU is the last of its round
        have hsum : t.count + 1 + (Fintype.card ι - 1) = 2 ^ 64 := by omega
        have halign := toNat_align (s.token.count + 1#64) s.token.n (by rwa [h.n_eq])
        rw [hword, h.n_eq, hsum, Nat.mod_self, Nat.zero_div, Nat.zero_mul] at halign
        refine .inr ⟨BitVec.eq_of_toNat_eq halign, ?_⟩
        rw [hinv.roundUp_eq hwait]
        omega
    · rw [Function.update_of_ne hc, Function.update_of_ne hc]
      exact (h.next c).mono (Nat.le_succ _)

theorem Tracks.leave (h : Tracks s t) : Tracks (s.leave cpu) (t.leave cpu) := by
  refine ⟨h.n_eq, h.ready, h.count_eq, h.entered_eq, fun c => ?_⟩
  rw [BarrierState.leave, CountBarrier.State.leave]
  dsimp only
  by_cases hc : c = cpu
  · rw [hc, Function.update_self, Function.update_self]
    trivial
  · rw [Function.update_of_ne hc, Function.update_of_ne hc]
    exact h.next c

theorem Tracks.step (h : Tracks s t) (hinv : t.Inv) (cpu : ι) (hone : Fintype.card ι ≠ 1)
    (hrounds : (rounds + 1) * Fintype.card ι ≤ 2 ^ 64 + 1)
    (hle : ∀ c, (s.step cpu).entered c ≤ rounds) : Tracks (s.step cpu) (t.step cpu) := by
  rw [BarrierState.step] at hle ⊢
  cases hnext : s.nextCount cpu with
  | none =>
      rw [hnext] at hle
      dsimp only at hle ⊢
      rw [if_pos h.ready] at hle ⊢
      rw [CountBarrier.State.step, h.waiting_of_none hnext]
      refine h.enter hinv hnext hone hrounds fun c => ?_
      have hentered := hle c
      rwa [BarrierState.enter, h.entered_eq] at hentered
  | some nextCount =>
      obtain ⟨next, hwait, hagree⟩ := h.waiting_of_some hnext
      rw [CountBarrier.State.step, hwait]
      dsimp only
      by_cases hpass : s.token.Passes nextCount
      · rw [if_pos hpass, if_neg (Nat.not_lt.mpr ((h.passes_iff hagree).mp hpass))]
        exact h.leave
      · rw [if_neg hpass, if_pos (Nat.not_le.mp fun hle => hpass ((h.passes_iff hagree).mpr hle))]
        exact h

end Tracks

section Runs

variable {n : SizeT} {rounds : ℕ}

omit [Fintype ι] in
theorem entered_le_enter (s : BarrierState ι) (cpu c : ι) :
    s.entered c ≤ (s.enter cpu).entered c := by
  rw [enter]
  dsimp only
  by_cases hc : c = cpu
  · rw [hc, Function.update_self]
    exact Nat.le_succ _
  · rw [Function.update_of_ne hc]

omit [Fintype ι] in
theorem entered_le_step (s : BarrierState ι) (cpu c : ι) :
    s.entered c ≤ (s.step cpu).entered c := by
  rw [step]
  cases s.nextCount cpu with
  | none =>
      dsimp only
      split_ifs
      · exact s.entered_le_enter cpu c
      · exact le_rfl
  | some nextCount =>
      dsimp only
      split_ifs
      · exact le_rfl
      · exact le_rfl

omit [Fintype ι] in
theorem entered_le_exec (s : BarrierState ι) (schedule : List ι) (c : ι) :
    s.entered c ≤ (Run.exec step s schedule).entered c :=
  Run.exec_invariant (I := fun s' => s.entered c ≤ s'.entered c) le_rfl
    (fun s' cpu hs => hs.trans (entered_le_step s' cpu c)) schedule

/-- A run of few enough rounds is a run of the barrier that counts with natural
numbers. -/
theorem tracks_exec (hn : n.toNat = Fintype.card ι) (hone : Fintype.card ι ≠ 1)
    (hrounds : (rounds + 1) * Fintype.card ι ≤ 2 ^ 64 + 1) (before : ℕ) (schedule : List ι)
    (hle : ∀ c, (Run.exec step (start n before) schedule).entered c ≤ rounds) :
    Tracks (Run.exec step (start n before) schedule)
      (Run.exec CountBarrier.State.step (CountBarrier.State.start before) schedule) := by
  induction schedule using List.reverseRecOn with
  | nil =>
      refine tracks_start hn ?_
      by_cases hcard : Fintype.card ι = 0
      · rw [hn, hcard, Nat.mul_zero]
        decide
      · obtain ⟨c⟩ := Fintype.card_pos_iff.mp (Nat.pos_of_ne_zero hcard)
        have hmul := Nat.mul_le_mul_right (Fintype.card ι) (hle c)
        rw [Nat.add_mul, Nat.one_mul] at hrounds
        rw [hn]
        change before * _ ≤ _ at hmul
        omega
  | append_singleton schedule cpu ih =>
      rw [Run.exec_concat] at hle ⊢
      rw [Run.exec_concat]
      have hinv := Run.exec_invariant (CountBarrier.State.inv_start (ι := ι) before)
        (fun t c ht => ht.step c) schedule
      refine (ih fun c => ?_).step hinv cpu hone hrounds hle
      exact (entered_le_step _ cpu c).trans (hle c)

end Runs

/-! ## Rounds that fit in the count -/

/-- The count does not wrap before the last CPU has entered round `rounds`. One CPU
alone never waits. -/
def RoundsFit (n : SizeT) (rounds : ℕ) : Prop :=
  n = 1#64 ∨ (rounds + 1) * n.toNat ≤ 2 ^ 64 + 1

instance (n : SizeT) (rounds : ℕ) : Decidable (RoundsFit n rounds) :=
  inferInstanceAs (Decidable (_ ∨ _))

section Fit

variable {n : SizeT} {rounds before : ℕ} {schedule : List ι}

omit [Fintype ι] in
/-- One CPU waits for the count that it has just stored. -/
theorem nextCount_eq_of_one [Subsingleton ι] (before : ℕ) (schedule : List ι) :
    let s := Run.exec step (start 1#64 before) schedule
    ∀ cpu nextCount, s.nextCount cpu = some nextCount → nextCount = s.token.count := by
  refine (Run.exec_invariant (I := fun s : BarrierState ι => s.token.n = 1#64 ∧
    ∀ cpu nextCount, s.nextCount cpu = some nextCount → nextCount = s.token.count)
    ⟨rfl, fun _ _ h => by cases h⟩ ?_ schedule).2
  rintro s cpu ⟨hn, hnext⟩
  rw [step]
  cases hcpu : s.nextCount cpu with
  | none =>
      dsimp only
      split_ifs
      · refine ⟨hn, fun c nextCount hc => ?_⟩
        rw [enter, Subsingleton.elim c cpu] at hc
        dsimp only at hc
        rw [Function.update_self] at hc
        rw [← Option.some.inj hc, enter, CpuSynctokenWord.arrive]
        dsimp only
        have halign := toNat_align (s.token.count + 1#64) 1#64 (by decide)
        rw [hn]
        refine BitVec.eq_of_toNat_eq (halign.trans ?_)
        rw [show (1#64).toNat = 1 from rfl, Nat.sub_self, Nat.add_zero, Nat.div_one,
          Nat.mul_one, Nat.mod_eq_of_lt (BitVec.isLt _)]
      · exact ⟨hn, hnext⟩
  | some nextCount =>
      dsimp only
      split_ifs
      · refine ⟨hn, fun c nextCount hc => ?_⟩
        rw [leave, Subsingleton.elim c cpu] at hc
        dsimp only at hc
        rw [Function.update_self] at hc
        cases hc
      · exact ⟨hn, hnext⟩

/-- No CPU leaves a call before all CPUs have entered it. -/
theorem left_le_entered (hn : n.toNat = Fintype.card ι) (hfit : RoundsFit n rounds)
    (hle : ∀ c, (Run.exec step (start n before) schedule).entered c ≤ rounds) (c d : ι) :
    (Run.exec step (start n before) schedule).left c ≤
      (Run.exec step (start n before) schedule).entered d := by
  by_cases hone : Fintype.card ι = 1
  · have := Fintype.card_le_one_iff_subsingleton.mp hone.le
    rw [Subsingleton.elim d c, left]
    split <;> omega
  · have hrounds : (rounds + 1) * Fintype.card ι ≤ 2 ^ 64 + 1 := by
      rcases hfit with rfl | hrounds
      · exact absurd hn.symm hone
      · rwa [← hn]
    have htracks := tracks_exec hn hone hrounds before schedule hle
    have hinv := Run.exec_invariant (CountBarrier.State.inv_start (ι := ι) before)
      (fun t c ht => ht.step c) schedule
    rw [htracks.left_eq, htracks.entered_eq]
    exact hinv.left_le c d

/-- Once all CPUs have entered a call, a CPU in it may leave. -/
theorem passes_of_entered (hn : n.toNat = Fintype.card ι) (hfit : RoundsFit n rounds)
    (hle : ∀ c, (Run.exec step (start n before) schedule).entered c ≤ rounds) {c : ι}
    {nextCount : SizeT}
    (hnext : (Run.exec step (start n before) schedule).nextCount c = some nextCount)
    (hall : ∀ d, (Run.exec step (start n before) schedule).entered c ≤
      (Run.exec step (start n before) schedule).entered d) :
    (Run.exec step (start n before) schedule).token.Passes nextCount := by
  by_cases hone : Fintype.card ι = 1
  · have := Fintype.card_le_one_iff_subsingleton.mp hone.le
    have hn1 : n = 1#64 := BitVec.eq_of_toNat_eq (hn.trans hone)
    subst hn1
    rw [nextCount_eq_of_one before schedule c nextCount hnext, CpuSynctokenWord.Passes,
      BitVec.lt_def]
    exact Nat.lt_irrefl _
  · have hrounds : (rounds + 1) * Fintype.card ι ≤ 2 ^ 64 + 1 := by
      rcases hfit with rfl | hrounds
      · exact absurd hn.symm hone
      · rwa [← hn]
    have htracks := tracks_exec hn hone hrounds before schedule hle
    have hinv := Run.exec_invariant (CountBarrier.State.inv_start (ι := ι) before)
      (fun t c ht => ht.step c) schedule
    obtain ⟨next, hwait, hagree⟩ := htracks.waiting_of_some hnext
    rw [htracks.passes_iff hagree, hinv.passes_iff hwait, ← htracks.entered_eq]
    exact hall

end Fit

/-! ## A round too many -/

section Full

variable {n : SizeT} {s : BarrierState ι} {cpus : List ι} {rounds : ℕ}

omit [Fintype ι] in
/-- CPUs outside enter one after the other. -/
theorem exec_enter (hready : s.token.ready = true) (hnodup : cpus.Nodup)
    (hout : ∀ c ∈ cpus, s.nextCount c = none) :
    let s' := Run.exec step s cpus
    s'.token.n = s.token.n ∧ s'.token.ready = true ∧
      s'.token.count = s.token.count + BitVec.ofNat 64 cpus.length ∧
      (∀ c, s'.entered c = if c ∈ cpus then s.entered c + 1 else s.entered c) ∧
      (∀ c ∈ cpus, (s'.nextCount c).isSome = true) ∧
      ∀ c ∉ cpus, s'.nextCount c = s.nextCount c := by
  induction cpus generalizing s with
  | nil => exact ⟨rfl, hready, by simp, fun _ => by simp, by simp, fun _ _ => rfl⟩
  | cons c cs ih =>
      obtain ⟨hc, hcs⟩ := List.nodup_cons.mp hnodup
      have hstep : s.step c = s.enter c := step_of_ready (hout c List.mem_cons_self) hready
      have hne : ∀ d ∈ cs, d ≠ c := fun d hd heq => hc (heq ▸ hd)
      obtain ⟨hn, hready', hcount, hentered, hin, hrest⟩ := ih (s := s.enter c) hready hcs
        fun d hd => (Function.update_of_ne (hne d hd) _ _).trans
          (hout d (List.mem_cons_of_mem c hd))
      rw [Run.exec_cons, hstep]
      refine ⟨hn, hready', ?_, fun d => ?_, fun d hd => ?_, fun d hd => ?_⟩
      · rw [hcount, enter, CpuSynctokenWord.arrive, List.length_cons, BitVec.ofNat_add]
        dsimp only
        rw [BitVec.add_assoc, BitVec.add_comm 1#64]
      · rw [hentered, enter]
        dsimp only
        by_cases hdc : d = c
        · rw [hdc, if_neg hc, if_pos List.mem_cons_self, Function.update_self]
        · rw [Function.update_of_ne hdc]
          simp only [List.mem_cons, hdc, false_or]
      · rcases List.mem_cons.mp hd with rfl | hd
        · rw [hrest d hc, enter]
          dsimp only
          rw [Function.update_self, Option.isSome_some]
        · exact hin d hd
      · rw [List.mem_cons, not_or] at hd
        rw [hrest d hd.2, enter]
        exact Function.update_of_ne hd.1 _ _

omit [Fintype ι] in
/-- CPUs that may leave do so one after the other. -/
theorem exec_leave (hnodup : cpus.Nodup)
    (hin : ∀ c ∈ cpus, ∃ nextCount, s.nextCount c = some nextCount ∧ s.token.Passes nextCount) :
    Run.exec step s cpus =
      { s with nextCount := fun c => if c ∈ cpus then none else s.nextCount c } := by
  induction cpus generalizing s with
  | nil => simp
  | cons c cs ih =>
      obtain ⟨hc, hcs⟩ := List.nodup_cons.mp hnodup
      obtain ⟨nextCount, hnext, hpass⟩ := hin c List.mem_cons_self
      have hstep : s.step c = s.leave c := step_of_passes hnext hpass
      have hne : ∀ d ∈ cs, d ≠ c := fun d hd heq => hc (heq ▸ hd)
      rw [Run.exec_cons, hstep, ih hcs fun d hd => ?_]
      · rw [leave]
        congr 1
        funext d
        by_cases hdc : d = c
        · simp [hdc]
        · simp [hdc]
      · obtain ⟨next, hd, hpass⟩ := hin d (List.mem_cons_of_mem c hd)
        exact ⟨next, (Function.update_of_ne (hne d ‹_›) _ _).trans hd, hpass⟩

theorem length_eq_card (hnodup : cpus.Nodup) (hall : ∀ c, c ∈ cpus) :
    cpus.length = Fintype.card ι := by
  rw [← Finset.card_univ, ← List.toFinset_card_of_nodup hnodup]
  congr 1
  exact Finset.eq_univ_of_forall fun c => List.mem_toFinset.mpr (hall c)

/-- All CPUs enter a call and then leave it. -/
theorem exec_round (hn : n.toNat = Fintype.card ι) (hfit : RoundsFit n (rounds + 1))
    (hnodup : cpus.Nodup) (hall : ∀ c, c ∈ cpus) :
    Run.exec step (start n rounds) (cpus ++ cpus) = (start n (rounds + 1) : BarrierState ι) := by
  obtain ⟨htn, hready, hcount, hentered, hin, -⟩ :=
    exec_enter (s := start n rounds) rfl hnodup fun _ _ => rfl
  have hround : ∀ c, (Run.exec step (start n rounds) cpus).entered c = rounds + 1 :=
    fun c => (hentered c).trans (if_pos (hall c))
  have hlength : cpus.length = n.toNat := by
    rw [hn, length_eq_card hnodup hall]
  rw [Run.exec_append, exec_leave hnodup fun c _ => ?_]
  · have htoken : (Run.exec step (start n rounds) cpus).token =
        (start n (rounds + 1) : BarrierState ι).token := by
      have hword : (Run.exec step (start n rounds) cpus).token.count =
          BitVec.ofNat 64 ((rounds + 1) * n.toNat) := by
        rw [hcount, hlength, Nat.add_mul, Nat.one_mul, BitVec.ofNat_add]
        rfl
      cases htoken : (Run.exec step (start n rounds) cpus).token with
      | mk n' ready count =>
          rw [htoken] at htn hready hword
          dsimp only at htn hready hword
          rw [htn, hready, hword]
          rfl
    rw [start]
    congr 1
    · funext c
      exact hround c
    · funext c
      exact if_pos (hall c)
  · obtain ⟨nextCount, hnext⟩ := Option.isSome_iff_exists.mp (hin c (hall c))
    refine ⟨nextCount, hnext, passes_of_entered hn hfit (fun d => (hround d).le) hnext ?_⟩
    intro d
    rw [hround, hround]

/-- All CPUs go through the barrier `rounds` times. -/
def fullRounds (cpus : List ι) (rounds : ℕ) : List ι :=
  (List.replicate rounds (cpus ++ cpus)).flatten

theorem exec_fullRounds (hn : n.toNat = Fintype.card ι) (hfit : RoundsFit n rounds)
    (hnodup : cpus.Nodup) (hall : ∀ c, c ∈ cpus) :
    after n (fullRounds cpus rounds) = (start n rounds : BarrierState ι) := by
  induction rounds with
  | zero => rfl
  | succ rounds ih =>
      have hfit' : RoundsFit n rounds := by
        rcases hfit with heq | hle
        · exact .inl heq
        · refine .inr ?_
          rw [Nat.add_mul] at hle ⊢
          rw [Nat.add_mul] at hle
          omega
      rw [fullRounds, List.replicate_succ', List.flatten_append, List.flatten_singleton, after,
        Run.exec_append]
      exact (congrArg (Run.exec step · (cpus ++ cpus)) (ih hfit')).trans
        (exec_round hn hfit hnodup hall)

/-- In a round that does not fit behind one that does, `ALIGN` returns zero for the last
CPU but one. -/
theorem align_eq_zero (hfit : RoundsFit n rounds) (hnot : ¬ RoundsFit n (rounds + 1))
    {count : SizeT} (hcount : count = BitVec.ofNat 64 (rounds * n.toNat + (n.toNat - 1)))
    (hpos : 0 < n.toNat) : align count n = 0#64 := by
  rw [RoundsFit, not_or, Nat.not_le] at hnot
  obtain ⟨hone, hnot⟩ := hnot
  have hle := hfit.resolve_left hone
  rw [Nat.add_mul, Nat.one_mul] at hle hnot
  rw [Nat.add_mul, Nat.one_mul] at hnot
  refine BitVec.eq_of_toNat_eq ?_
  rw [toNat_align _ _ hpos, hcount, BitVec.toNat_ofNat, BitVec.toNat_ofNat, Nat.zero_mod]
  have hsmall : ((rounds * n.toNat + (n.toNat - 1)) % 2 ^ 64 + (n.toNat - 1)) % 2 ^ 64 <
      n.toNat := by
    have hlt := n.isLt
    omega
  rw [Nat.div_eq_of_lt hsmall, Nat.zero_mul]

/-- When the next round does not fit, the last CPU but one to enter it leaves at once. -/
theorem left_early {cs : List ι} {c d : ι} (hn : n.toNat = Fintype.card ι)
    (hfit : RoundsFit n rounds) (hnot : ¬ RoundsFit n (rounds + 1))
    (hnodup : (cs ++ [c, d]).Nodup) (hall : ∀ e, e ∈ cs ++ [c, d]) :
    let s := after n (fullRounds (cs ++ [c, d]) rounds ++ (cs ++ [c, c]))
    s.left c = rounds + 1 ∧ s.entered d = rounds ∧ ∀ e, s.entered e ≤ rounds + 1 := by
  intro s
  obtain ⟨hcs, hcd, hdisj⟩ := List.nodup_append.mp hnodup
  have hc : c ∉ cs := fun hmem => hdisj c hmem c (by simp) rfl
  have hd : d ∉ cs := fun hmem => hdisj d hmem d (by simp) rfl
  have hdc : d ≠ c := fun heq => (List.nodup_cons.mp hcd).1 (by simp [heq])
  have hlength := length_eq_card hnodup hall
  rw [List.length_append, ← hn] at hlength
  change cs.length + 2 = n.toNat at hlength
  obtain ⟨hsn, hready, hcount, hentered, -, hout⟩ :=
    exec_enter (s := (start n rounds : BarrierState ι)) rfl hcs fun _ _ => rfl
  -- all CPUs but the last two are in the round
  set s₁ := Run.exec step (start n rounds) cs with hs₁
  have hnone : s₁.nextCount c = none := hout c hc
  have hzero : s₁.token.arrive.2 = 0#64 := by
    rw [CpuSynctokenWord.arrive, hsn]
    refine align_eq_zero hfit hnot ?_ (by omega)
    rw [hcount, start, show n.toNat - 1 = cs.length + 1 by omega, BitVec.ofNat_add,
      BitVec.ofNat_add, BitVec.add_assoc]
  have henter : s₁.step c = s₁.enter c := step_of_ready hnone hready
  have hleave : (s₁.enter c).step c = (s₁.enter c).leave c := by
    have hnext : (s₁.enter c).nextCount c = some 0#64 := by
      rw [enter, hzero]
      exact Function.update_self _ _ _
    have hpass : (s₁.enter c).token.Passes 0#64 := by
      rw [CpuSynctokenWord.Passes, BitVec.lt_def]
      exact Nat.not_lt_zero _
    exact step_of_passes hnext hpass
  have hs : s = (s₁.enter c).leave c := by
    rw [show s = Run.exec step (after n (fullRounds (cs ++ [c, d]) rounds)) (cs ++ [c, c]) from
      Run.exec_append _ _ _ _, exec_fullRounds hn hfit hnodup hall, Run.exec_append, ← hs₁,
      Run.exec_cons, henter, Run.exec_cons, hleave, Run.exec_nil]
  have hcround : s₁.entered c = rounds := (hentered c).trans (if_neg hc)
  have hdround : s₁.entered d = rounds := (hentered d).trans (if_neg hd)
  rw [hs]
  refine ⟨?_, ?_, fun e => ?_⟩
  · rw [left_of_none (s := (s₁.enter c).leave c) (Function.update_self _ _ _), leave, enter]
    dsimp only
    rw [Function.update_self, hcround]
  · rw [leave, enter]
    dsimp only
    rw [Function.update_of_ne hdc, hdround]
  · rw [leave, enter]
    dsimp only
    by_cases hec : e = c
    · rw [hec, Function.update_self, hcround]
    · rw [Function.update_of_ne hec, hentered]
      split_ifs
      · exact le_rfl
      · exact Nat.le_succ _

theorem exists_last_fit (h : ¬ RoundsFit n rounds) :
    ∃ last < rounds, RoundsFit n last ∧ ¬ RoundsFit n (last + 1) := by
  induction rounds with
  | zero =>
      refine absurd (.inr ?_) h
      have hlt := n.isLt
      omega
  | succ rounds ih =>
      by_cases hfit : RoundsFit n rounds
      · exact ⟨rounds, Nat.lt_succ_self _, hfit, h⟩
      · obtain ⟨last, hlt, hlast⟩ := ih hfit
        exact ⟨last, Nat.lt_succ_of_lt hlt, hlast⟩

end Full

/-! ## When the barrier is right -/

/-- In the last state of a run no CPU has left a call that another one has not entered. A
CPU in a call that all CPUs had entered after the first steps of the run may leave. -/
structure Correct (n : SizeT) (run : List ι) : Prop where
  left_le : ∀ c d, (after n run).left c ≤ (after n run).entered d
  passes : ∀ first rest, run = first ++ rest →
    ∀ k, (∀ d, k ≤ (after n first).entered d) →
    ∀ c nextCount, (after n run).entered c = k → (after n run).nextCount c = some nextCount →
      (after n run).token.Passes nextCount

theorem correct_of_fit {n : SizeT} {rounds : ℕ} {run : List ι} (hn : n.toNat = Fintype.card ι)
    (hfit : RoundsFit n rounds) (hle : ∀ c, (after n run).entered c ≤ rounds) :
    Correct n run where
  left_le := left_le_entered hn hfit hle
  passes := by
    intro first rest hrun k hall c nextCount hc hnext
    refine passes_of_entered hn hfit hle hnext fun d => ?_
    rw [hc, hrun, Run.exec_append]
    exact (hall d).trans (entered_le_exec _ rest d)

omit [Fintype ι] in
theorem not_correct_of_early {n : SizeT} {run : List ι} {c d : ι} {rounds : ℕ}
    (hleft : (after n run).left c = rounds + 1) (hentered : (after n run).entered d = rounds) :
    ¬ Correct n run := by
  intro hcorrect
  have hsafe := hcorrect.left_le c d
  rw [hleft, hentered] at hsafe
  exact Nat.not_succ_le_self rounds hsafe

/-- The barrier is right in all runs of `rounds` rounds exactly when these fit in the
count. -/
theorem cpuSyncBarrier_correct_iff (n : SizeT) (hn : n ≠ 0#64) (rounds : ℕ) :
    (∀ run : List (Fin n.toNat), (∀ c, (after n run).entered c ≤ rounds) → Correct n run) ↔
      RoundsFit n rounds := by
  have hcard : n.toNat = Fintype.card (Fin n.toNat) := (Fintype.card_fin _).symm
  constructor
  · intro hcorrect
    by_contra hnot
    obtain ⟨last, hlt, hfit, hnot⟩ := exists_last_fit hnot
    have htwo : 2 ≤ n.toNat := by
      have hone : n ≠ 1#64 := fun heq => hnot (.inl heq)
      bv_omega
    obtain ⟨cs, c, d, hcs⟩ : ∃ cs c d, List.finRange n.toNat = cs ++ [c, d] := by
      obtain ⟨init, d, hinit⟩ := List.eq_nil_or_concat (List.finRange n.toNat) |>.resolve_left
        fun hnil => by
          have hlength := congrArg List.length hnil
          rw [List.length_finRange, List.length_nil] at hlength
          omega
      obtain ⟨cs, c, rfl⟩ := List.eq_nil_or_concat init |>.resolve_left fun hnil => by
        have hlength := congrArg List.length hinit
        rw [List.length_finRange, hnil] at hlength
        change n.toNat = 1 at hlength
        omega
      exact ⟨cs, c, d, by rw [hinit]; simp⟩
    have hnodup := List.nodup_finRange n.toNat
    have hall := List.mem_finRange (n := n.toNat)
    rw [hcs] at hnodup
    simp only [hcs] at hall
    obtain ⟨hleft, hentered, hle⟩ := left_early hcard hfit hnot hnodup hall
    exact not_correct_of_early hleft hentered (hcorrect _ fun e => (hle e).trans hlt)
  · exact fun hfit run hle => correct_of_fit hcard hfit hle

theorem cpuSyncBarrier_correct_iff_three :
    (∀ run : List (Fin 3), (∀ c, (after 3#64 run).entered c ≤ 5) → Correct 3#64 run) ↔
      RoundsFit 3#64 5 :=
  cpuSyncBarrier_correct_iff 3#64 (by decide) 5

/-- Two CPUs after `2 ^ 63 - 1` rounds, when the first one calls the barrier once more. -/
theorem cpuSyncBarrier_wraps :
    let run := fullRounds [(0 : Fin 2), 1] (2 ^ 63 - 1) ++ [0, 0]
    (after 2#64 run).left 0 = 2 ^ 63 ∧ (after 2#64 run).entered 1 = 2 ^ 63 - 1 ∧
      ¬ Correct 2#64 run := by
  have hfit : RoundsFit 2#64 (2 ^ 63 - 1) := by decide
  have hnot : ¬ RoundsFit 2#64 (2 ^ 63 - 1 + 1) := by decide
  have hearly := @left_early (Fin 2) _ _ 2#64 (2 ^ 63 - 1) [] 0 1 rfl hfit hnot (by decide)
    (by decide)
  rw [List.nil_append, List.nil_append] at hearly
  exact ⟨hearly.1, hearly.2.1, not_correct_of_early hearly.1 hearly.2.1⟩

end BarrierState

end BaoHypervisor
