import BaoHypervisor.Arch.Riscv.Vplic.Delivery
import BaoHypervisor.Theory.Run

/-!
# Claims of the vPLIC

The contexts of a VM share the pending and active bits. A claim takes a source
that is pending and not active, and makes it active. So no source is claimed
twice without a completion in between, and every claim uses up a pending bit
that was set before it.

A claim drains deferred sources and may set the pending bit of a source that it
has just cleared, so the rises of a bit are counted between the writes of the
claim and not only between the states before and after it.
-/

namespace BaoHypervisor

namespace Vplic

open Bitmap FirstMax

def claimResult (v : Vplic) : Access → Option ℕ
  | .claim vcntxt now =>
      if v.vcntxtValid vcntxt then some (v.vplicClaim vcntxt now).2.1 else none
  | _ => none

/-- How often an access makes the pending bit of a source go from clear to set. -/
def pendRises (i : ℕ) (v : Vplic) : Access → ℕ
  | .claim vcntxt now =>
      if v.vcntxtValid vcntxt then
        let intId := v.vplicNextPending vcntxt
        let taken := { v with pend := bitmapClear v.pend intId, act := bitmapSet v.act intId }
        Run.rise (bitmapGet v.pend i) (bitmapGet taken.pend i) +
          Run.total (drainDeferred now)
            (fun w j => Run.rise (bitmapGet w.pend i) (bitmapGet (drainDeferred now w j).pend i))
            taken drainedIds
      else 0
  | a => Run.rise (bitmapGet v.pend i) (bitmapGet (v.access a).pend i)

/-- The source is the first one of the greatest priority among those that are
pending, not active and enabled, and its priority exceeds the threshold. -/
structure Selected (v : Vplic) (vcntxt i : ℕ) : Prop where
  lt : i < plicMaxInterrupts
  pend : bitmapGet v.pend i = true
  act : bitmapGet v.act i = false
  enbl : bitmapGet (v.enbl vcntxt) i = true
  threshold : v.threshold vcntxt < v.prio i
  le : ∀ j < plicMaxInterrupts, bitmapGet v.pend j = true → bitmapGet v.act j = false →
    bitmapGet (v.enbl vcntxt) j = true → v.prio j ≤ v.prio i
  first : ∀ j < plicMaxInterrupts, bitmapGet v.pend j = true → bitmapGet v.act j = false →
    bitmapGet (v.enbl vcntxt) j = true → v.prio j = v.prio i → i ≤ j

/-- No context has enabled the bit behind the end of its enables. It is the first
bit of the next context, or the first one of the thresholds: both belong to a
machine context, which the guest cannot reach. -/
def NoneBehind (v : Vplic) : Prop :=
  ∀ vcntxt, bitmapGet (v.enbl vcntxt) plicMaxInterrupts = false

section Claim

variable {v : Vplic} {vcntxt i : ℕ} {now : BitVec 64} {a : Access}

/-- What a claim delivers was selected. -/
theorem selected_vplicNextPending (hbehind : v.NoneBehind)
    (hne : v.vplicNextPending vcntxt ≠ 0) : v.Selected vcntxt (v.vplicNextPending vcntxt) := by
  rcases vplicNextPending_cases v vcntxt with ⟨hzero, -⟩ | ⟨hsome, hfirst⟩
  · exact absurd hzero hne
  · generalize v.vplicNextPending vcntxt = i at *
    obtain ⟨hcand, hprio⟩ := deliverable_iff.mp hsome
    have hle := candidate_le hcand
    obtain ⟨hpend, hact, henbl⟩ := (candidate_iff hle).mp hcand
    have hlt : i < plicMaxInterrupts := by
      refine lt_of_le_of_ne hle fun heq => ?_
      rw [heq, hbehind vcntxt] at henbl
      exact Bool.false_ne_true henbl
    have hget : ∀ j < plicMaxInterrupts, v.vplicGetPrio j = v.prio j := fun j hj =>
      if_pos hj.le
    rw [hget i hlt] at hprio
    refine ⟨hlt, hpend, hact, henbl, hprio, ?_, ?_⟩
    · intro j hj hpend' hact' henbl'
      have hcand' := (candidate_iff hj.le).mpr ⟨hpend', hact', henbl'⟩
      have hmax := hfirst.le j (mem_range_of_candidate hcand') hcand'
      rwa [hget j hj, hget i hlt] at hmax
    · intro j hj hpend' hact' henbl' hprio'
      have hcand' := (candidate_iff hj.le).mpr ⟨hpend', hact', henbl'⟩
      refine hfirst.first j (mem_range_of_candidate hcand') hcand' ?_
      rw [hget j hj, hget i hlt, hprio']

theorem NoneBehind.access (h : v.NoneBehind) (ha : a.Below) : (v.access a).NoneBehind := by
  cases a with
  | setPrio id prio =>
      rw [Vplic.access, vplicSetPrio]
      split_ifs <;> exact h
  | setThreshold vcntxt threshold =>
      rw [Vplic.access, vplicSetThreshold]
      split_ifs <;> exact h
  | setEnbl vcntxt id set =>
      have hid : id < plicMaxInterrupts := ha
      obtain ⟨map, heq, hmap, -⟩ := vplicSetEnbl_frame v vcntxt id set
      rw [Vplic.access]
      split_ifs
      · intro c
        rw [heq]
        dsimp only
        by_cases hc : c = vcntxt
        · rw [hc, Function.update_self, hmap _ hid.ne']
          exact h vcntxt
        · rw [Function.update_of_ne hc]
          exact h c
      · exact h
  | claim vcntxt now =>
      rw [Vplic.access]
      split_ifs
      · obtain ⟨pend, act, deferred, buckets, heq⟩ := vplicClaim_frame v vcntxt now
        rw [heq]
        exact h
      · exact h
  | complete vcntxt id =>
      rw [Vplic.access]
      split_ifs <;> exact h
  | plicInject id now => exact h
  | inject vcpuId id now =>
      obtain ⟨pend, deferred, buckets, heq⟩ := vplicInject_frame v now vcpuId id
      rw [Vplic.access, heq]
      exact h

theorem claimResult_eq_some (h : v.claimResult a = some i) :
    ∃ vcntxt now, a = .claim vcntxt now ∧ v.vcntxtValid vcntxt = true ∧
      v.vplicNextPending vcntxt = i := by
  cases a with
  | claim vcntxt now =>
      rw [claimResult] at h
      split_ifs at h with hvalid
      rw [snd_vplicClaim] at h
      exact ⟨vcntxt, now, rfl, hvalid, Option.some.inj h⟩
  | _ => cases h

theorem act_of_claimResult (h : v.claimResult a = some i)
    (hlt : i < plicMaxInterrupts) : bitmapGet (v.access a).act i = true := by
  obtain ⟨vcntxt, now, rfl, hvalid, hnext⟩ := claimResult_eq_some h
  have hact := vplicGetAct_vplicClaim now hnext hlt.le
  rw [vplicGetAct, Bool.and_eq_true] at hact
  rw [access, if_pos hvalid]
  exact hact.2

theorem act_access (hact : bitmapGet v.act i = true)
    (ha : ∀ vcntxt, v.vcntxtValid vcntxt = true → a ≠ .complete vcntxt i)
    (hi : i < plicMaxInterrupts) : bitmapGet (v.access a).act i = true := by
  have hget : ∀ w : Vplic, w.vplicGetAct i = bitmapGet w.act i := fun w => by
    rw [vplicGetAct, decide_eq_true hi.le, Bool.true_and]
  by_cases hcomplete : ∃ vcntxt, a = .complete vcntxt i
  · obtain ⟨vcntxt, rfl⟩ := hcomplete
    rw [access, if_neg fun hvalid => ha vcntxt hvalid rfl]
    exact hact
  · rw [← hget] at hact ⊢
    exact vplicGetAct_access hact fun vcntxt heq => hcomplete ⟨vcntxt, heq⟩

theorem idle_of_claimResult (h : v.claimResult a = some i) (hpos : 0 < i) :
    bitmapGet v.pend i = true ∧ bitmapGet v.act i = false := by
  obtain ⟨vcntxt, now, -, -, hnext⟩ := claimResult_eq_some h
  have hcand : v.candidate vcntxt (v.vplicNextPending vcntxt) = true :=
    candidate_vplicNextPending (by omega)
  rw [hnext] at hcand
  obtain ⟨hpend, hact, -⟩ := (candidate_iff (candidate_le hcand)).mp hcand
  exact ⟨hpend, hact⟩

/-- Each claim of a source uses up its pending bit, and the bit is set afterwards
only if it was set before or has risen. -/
theorem claim_add_pend_le (v : Vplic) (a : Access) (hpos : 0 < i) :
    (if v.claimResult a = some i then 1 else 0) + (bitmapGet (v.access a).pend i).toNat ≤
      v.pendRises i a + (bitmapGet v.pend i).toNat := by
  have hother : (if v.claimResult a = some i then 1 else 0) = 0 →
      v.pendRises i a = Run.rise (bitmapGet v.pend i) (bitmapGet (v.access a).pend i) →
      (if v.claimResult a = some i then 1 else 0) + (bitmapGet (v.access a).pend i).toNat ≤
        v.pendRises i a + (bitmapGet v.pend i).toNat := by
    intro hresult hrises
    have hstep := Run.toNat_le_rise (bitmapGet v.pend i) (bitmapGet (v.access a).pend i)
    rw [hresult, hrises]
    omega
  cases a with
  | claim vcntxt now =>
      by_cases hvalid : v.vcntxtValid vcntxt = true
      · have hidle := idle_of_claimResult (v := v) (a := .claim vcntxt now) (i := i)
        rw [claimResult, if_pos hvalid, snd_vplicClaim] at hidle ⊢
        rw [access, if_pos hvalid, pendRises, if_pos hvalid, vplicClaim]
        dsimp only
        generalize drainedIds = ids
        have hdrain := @Run.toNat_exec_le _ _ (drainDeferred now) (fun w => bitmapGet w.pend i)
          { v with
            pend := bitmapClear v.pend (v.vplicNextPending vcntxt)
            act := bitmapSet v.act (v.vplicNextPending vcntxt) } ids
        rw [Run.exec] at hdrain
        dsimp only at hdrain
        rw [bitmapGet_bitmapClear] at hdrain
        by_cases hi : v.vplicNextPending vcntxt = i
        · obtain ⟨hpend, -⟩ := hidle (by rw [hi]) hpos
          rw [decide_eq_true hi.symm, Bool.not_true, Bool.and_false, Bool.toNat_false] at hdrain
          rw [if_pos (by rw [hi]), hpend, Bool.toNat_true]
          omega
        · have hne : ¬ i = v.vplicNextPending vcntxt := fun heq => hi heq.symm
          rw [decide_eq_false hne, Bool.not_false, Bool.and_true] at hdrain
          rw [if_neg fun heq => hi (Option.some.inj heq)]
          omega
      · rw [claimResult, if_neg hvalid, access, if_neg hvalid, if_neg (by simp)]
        omega
  | setPrio id prio => exact hother rfl rfl
  | setEnbl vcntxt id set => exact hother rfl rfl
  | setThreshold vcntxt threshold => exact hother rfl rfl
  | complete vcntxt id => exact hother rfl rfl
  | plicInject id now => exact hother rfl rfl
  | inject vcpuId id now => exact hother rfl rfl

end Claim

section Run

variable (platCpuNum cpuNum : ℕ) (criticality : VmCriticality) (now : BitVec 64) (hw : Bitmap)

/-- The claims of a run that returned `i`. -/
def claimCount (i : ℕ) (v : Vplic) (as : List Access) : ℕ :=
  Run.total (guestAccess platCpuNum) (fun v a => if v.claimResult a = some i then 1 else 0) v as

/-- The rises of the pending bit of `i` in a run. -/
def pendRiseCount (i : ℕ) (v : Vplic) (as : List Access) : ℕ :=
  Run.total (guestAccess platCpuNum) (pendRises i) v as

variable {platCpuNum cpuNum criticality now hw}

theorem claimCount_add_pend_le (platCpuNum : ℕ) {i : ℕ} (hpos : 0 < i) {as : List Access}
    (has : ∀ a ∈ as, a.Below) (v : Vplic) :
    claimCount platCpuNum i v as +
        (bitmapGet (Run.exec (guestAccess platCpuNum) v as).pend i).toNat ≤
      pendRiseCount platCpuNum i v as + (bitmapGet v.pend i).toNat := by
  induction as generalizing v with
  | nil => exact le_rfl
  | cons a as ih =>
      have hstep := claim_add_pend_le v a hpos
      rw [← guestAccess_of_below platCpuNum v (has a List.mem_cons_self)] at hstep
      have hrun := ih (fun b hb => has b (List.mem_cons_of_mem a hb)) (v.guestAccess platCpuNum a)
      rw [claimCount, pendRiseCount] at hrun ⊢
      rw [Run.exec_cons, Run.total, Run.total]
      omega

theorem act_exec (platCpuNum : ℕ) {i : ℕ} (hi : i < plicMaxInterrupts) {as : List Access}
    (has : ∀ a ∈ as, a.Below) {v : Vplic} (hact : bitmapGet v.act i = true)
    (hnone : ∀ vcntxt, v.vcntxtValid vcntxt = true → Access.complete vcntxt i ∉ as) :
    bitmapGet (Run.exec (guestAccess platCpuNum) v as).act i = true := by
  induction as generalizing v with
  | nil => exact hact
  | cons a as ih =>
      rw [Run.exec_cons, guestAccess_of_below platCpuNum v (has a List.mem_cons_self)]
      refine ih (fun b hb => has b (List.mem_cons_of_mem a hb)) ?_ fun vcntxt hvalid hmem => ?_
      · refine act_access hact (fun vcntxt hvalid heq => ?_) hi
        exact hnone vcntxt hvalid (List.mem_cons.mpr (.inl heq.symm))
      · rw [vcntxtValid_access] at hvalid
        exact hnone vcntxt hvalid (List.mem_cons_of_mem a hmem)

theorem vcntxtValid_exec {as : List Access} (has : ∀ a ∈ as, a.Below) (v : Vplic) (vcntxt : ℕ) :
    (Run.exec (guestAccess platCpuNum) v as).vcntxtValid vcntxt = v.vcntxtValid vcntxt := by
  induction as generalizing v with
  | nil => rfl
  | cons a as ih =>
      rw [Run.exec_cons, ih fun b hb => has b (List.mem_cons_of_mem a hb),
        guestAccess_of_below platCpuNum v (has a List.mem_cons_self), vcntxtValid_access]

/-- Between two claims that return `i` there is a completion of `i`. -/
theorem complete_between_claims {i : ℕ} (hpos : 0 < i) (hi : i < plicMaxInterrupts)
    {before between : List Access} {a b : Access} {v : Vplic}
    (has : ∀ c ∈ before ++ a :: between, c.Below)
    (ha : (Run.exec (guestAccess platCpuNum) v before).claimResult a = some i)
    (hb : (Run.exec (guestAccess platCpuNum) v (before ++ a :: between)).claimResult b =
      some i) :
    ∃ vcntxt, v.vcntxtValid vcntxt = true ∧ Access.complete vcntxt i ∈ between := by
  by_contra hnone
  have hbefore : ∀ c ∈ before, c.Below := fun c hc => has c (List.mem_append_left _ hc)
  have hbelow : a.Below := has a (by simp)
  have hact := act_of_claimResult ha hi
  rw [← guestAccess_of_below platCpuNum _ hbelow] at hact
  have hbetween : ∀ c ∈ between, c.Below := fun c hc => has c (by simp [hc])
  have hact' := act_exec platCpuNum hi hbetween hact fun vcntxt hvalid hmem => by
    rw [guestAccess_of_below platCpuNum _ hbelow, vcntxtValid_access,
      vcntxtValid_exec hbefore] at hvalid
    exact hnone ⟨vcntxt, hvalid, hmem⟩
  rw [← Run.exec_cons, ← Run.exec_append] at hact'
  rw [(idle_of_claimResult hb hpos).2] at hact'
  exact Bool.false_ne_true hact'

/-- In every run from `vplic_init`: no source is claimed twice without a completion
in between, it is claimed no more often than its pending bit rises, and every claim
that returns a source returns the one that was to be selected. -/
theorem claims_exclusive (platCpuNum cpuNum : ℕ) (criticality : VmCriticality)
    (now : BitVec 64) (hw : Bitmap) (as : List Access) (has : ∀ a ∈ as, a.Below) :
    let v := boot cpuNum criticality now hw
    (∀ i, 0 < i → i < plicMaxInterrupts →
      (∀ before a between b after, as = before ++ a :: between ++ b :: after →
        (Run.exec (guestAccess platCpuNum) v before).claimResult a = some i →
        (Run.exec (guestAccess platCpuNum) v (before ++ a :: between)).claimResult b = some i →
        ∃ vcntxt, v.vcntxtValid vcntxt = true ∧ Access.complete vcntxt i ∈ between) ∧
      claimCount platCpuNum i v as ≤ pendRiseCount platCpuNum i v as) ∧
    Run.Along (guestAccess platCpuNum)
      (fun w a => ∀ vcntxt t i, a = .claim vcntxt t → i ≠ 0 → w.claimResult a = some i →
        w.Selected vcntxt i) v as := by
  intro v
  refine ⟨fun i hpos hi => ⟨?_, ?_⟩, ?_⟩
  · rintro before a between b after rfl ha hb
    exact complete_between_claims hpos hi
      (fun c hc => has c (List.mem_append_left _ hc)) ha hb
  · have hcount := claimCount_add_pend_le platCpuNum hpos has v
    have hclear : bitmapGet v.pend i = false :=
      congrArg SourceState.pend (source_boot cpuNum criticality now hw hi)
    rw [hclear, Bool.toNat_false] at hcount
    omega
  · have hbelow : Run.Along (guestAccess platCpuNum) (fun _ a => a.Below) v as :=
      Run.along_of_forall (fun a ha _ => has a ha) v
    refine hbelow.imp_of_invariant (I := NoneBehind) ?_ fun w a hbehind ha => ⟨?_, ?_⟩
    · intro vcntxt
      simp [v, boot, vplicInit, zero, bitmapGet_eq_getLsbD]
    · rw [guestAccess_of_below platCpuNum w ha]
      exact hbehind.access ha
    · rintro vcntxt t i rfl hne hresult
      obtain ⟨vcntxt', t', hclaim, -, hnext⟩ := claimResult_eq_some hresult
      obtain ⟨rfl, -⟩ := Access.claim.inj hclaim
      rw [← hnext] at hne ⊢
      exact selected_vplicNextPending hbehind hne

end Run

/-- A run in which source 5 is enabled, injected and claimed. -/
theorem claims_exclusive_five :
    claimCount 4 5 (boot 2 .low 0#64 fun _ => 0#32)
        [.setPrio 5 1#32, .setEnbl 1 5 true, .inject 0 5 0#64, .claim 1 0#64] ≤
      pendRiseCount 4 5 (boot 2 .low 0#64 fun _ => 0#32)
        [.setPrio 5 1#32, .setEnbl 1 5 true, .inject 0 5 0#64, .claim 1 0#64] :=
  ((claims_exclusive 4 2 .low 0#64 (fun _ => 0#32)
    [.setPrio 5 1#32, .setEnbl 1 5 true, .inject 0 5 0#64, .claim 1 0#64]
    (by decide)).1 5 (by decide) (by decide)).2

end Vplic

end BaoHypervisor
