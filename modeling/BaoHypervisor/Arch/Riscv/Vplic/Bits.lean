import BaoHypervisor.Arch.Riscv.Vplic.Layout
import BaoHypervisor.Theory.Run

/-!
# The bits of the vPLIC that a guest sees

What a guest sees of its interrupts are bits, and each access sets some of them, clears some, and
leaves the others (`bit_guestAccess`). So what a bit is behind a run is what the last access that
writes it has made of it (`bit_exec`).
-/

namespace BaoHypervisor

open Bitmap

/-- A bit that a guest sees. The priorities and the thresholds are words, one behind the other. -/
inductive VplicBit
  | pend (id : ℕ)
  | act (id : ℕ)
  | deferred (id : ℕ)
  | enbl (vcntxt id : ℕ)
  | prio (bit : ℕ)
  | threshold (bit : ℕ)
deriving DecidableEq, Repr

/-- The bit is one of the sources or of the contexts that there are. -/
def VplicBit.Observable (cntxtNum : ℕ) : VplicBit → Prop
  | .pend id | .act id | .deferred id => id < plicMaxInterrupts
  | .enbl vcntxt id => vcntxt < cntxtNum ∧ id < plicMaxInterrupts
  | .prio bit => bit < plicMaxInterrupts * granuleLen
  | .threshold bit => bit < cntxtNum * granuleLen

namespace SourceState

variable {s : SourceState} (now : BitVec 64)

instance : Decidable (s.Drains now) := inferInstanceAs (Decidable (_ ∧ _))

/-- A drain that lets something out clears the deferred bit. -/
theorem deferred_drain_iff :
    (s.drain now).deferred = true ↔ s.deferred = true ∧ ¬ s.Drains now := by
  rw [drain, Drains, irqBucketDrainDeferred_eq, ← deferredCount_irqBucketRefill now]
  generalize irqBucketRefill now s.bucket = r
  by_cases hdeferred : s.deferred = true
  · rw [if_pos hdeferred, and_iff_right hdeferred, and_iff_right hdeferred]
    dsimp only
    by_cases hle : r.deferredCount ≤ r.tokens
    · rw [if_pos hle]
      dsimp only
      by_cases hcount : 0#32 < r.deferredCount
      · rw [if_pos hcount]
        exact iff_of_false Bool.false_ne_true (not_not.mpr ⟨hcount, by bv_omega⟩)
      · rw [if_neg hcount]
        exact iff_of_true hdeferred fun h => hcount h.1
    · rw [if_neg hle]
      dsimp only
      by_cases htokens : 0#32 < r.tokens
      · rw [if_pos htokens]
        exact iff_of_false Bool.false_ne_true (not_not.mpr ⟨by bv_omega, htokens⟩)
      · rw [if_neg htokens]
        exact iff_of_true hdeferred fun h => htokens h.2
  · rw [if_neg hdeferred]
    exact iff_of_false hdeferred fun h => hdeferred h.1

theorem deferred_drain : (s.drain now).deferred = if s.Drains now then false else s.deferred := by
  rw [Bool.eq_iff_iff, deferred_drain_iff]
  split_ifs with h
  · exact iff_of_false (fun hnot => hnot.2 h) not_false
  · exact and_iff_left h

theorem pend_drain : (s.drain now).pend = if s.Drains now then true else s.pend := by
  rw [Bool.eq_iff_iff, pend_drain_iff]
  split_ifs with h
  · exact iff_of_true (.inr h) rfl
  · exact or_iff_left h

end SourceState

namespace Vplic

variable (platCpuNum : ℕ) (v : Vplic)

def bit : VplicBit → Bool
  | .pend id => bitmapGet v.pend id
  | .act id => bitmapGet v.act id
  | .deferred id => bitmapGet v.deferred id
  | .enbl vcntxt id => bitmapGet (v.enbl vcntxt) id
  | .prio bit => bitmapGet v.prio bit
  | .threshold bit => bitmapGet v.threshold bit

/-- Which bit is found as a bit of `act`, on a platform of `platCpuNum` CPUs. -/
def actBit (bit : ℕ) : Option VplicBit :=
  if bit < plicMaxInterrupts then some (.act bit)
  else
    let bit := bit - plicMaxInterrupts
    if bit < plicMaxInterrupts then some (.deferred bit)
    else
      let bit := bit - plicMaxInterrupts
      if bit < plicMaxInterrupts * granuleLen then some (.prio bit)
      else
        let bit := bit - plicMaxInterrupts * granuleLen
        let cntxts := platCpuNum * 2
        if bit < cntxts * plicMaxInterrupts then
          some (.enbl (bit / plicMaxInterrupts) (bit % plicMaxInterrupts))
        else
          let bit := bit - cntxts * plicMaxInterrupts
          if bit < cntxts * granuleLen then some (.threshold bit) else none

/-- What an access makes of a bit, if it writes it. -/
def writes : Access → VplicBit → Option Bool
  | .setPrio id prio, .prio bit =>
      if id ≤ plicMaxInterrupts ∧ bit / granuleLen = id then
        some (prio.getLsbD (bit % granuleLen))
      else none
  | .setEnbl vcntxt id set, .enbl vcntxt' id' =>
      if v.vcntxtValid vcntxt ∧ id ≤ plicMaxInterrupts ∧ vcntxt' = vcntxt ∧ id' = id then some set
      else none
  | .setThreshold vcntxt threshold, .threshold bit =>
      if v.vcntxtValid vcntxt ∧ bit / granuleLen = vcntxt then
        some (threshold.getLsbD (bit % granuleLen))
      else none
  | .claim vcntxt now, .pend id =>
      if v.vcntxtValid vcntxt ∧ id ∈ drainedIds ∧ (v.source id).Drains now then some true
      else if v.vcntxtValid vcntxt ∧ id = v.vplicNextPending vcntxt then some false
      else none
  | .claim vcntxt _, .act id =>
      if v.vcntxtValid vcntxt ∧ id = v.vplicNextPending vcntxt then some true else none
  | .claim vcntxt now, .deferred id =>
      if v.vcntxtValid vcntxt ∧ id ∈ drainedIds ∧ (v.source id).Drains now then some false
      else none
  | .complete vcntxt id, b =>
      if v.vcntxtValid vcntxt ∧ actBit platCpuNum id = some b then some false else none
  | .inject _ id now, .pend id' =>
      if id' = id ∧ 0 < id ∧ id ≤ plicMaxInterrupts ∧ v.vplicGetPend id = false ∧
          (irqBucketConsume now (v.buckets id)).2 = .allow then
        some true
      else none
  | .inject _ id now, .deferred id' =>
      if id' = id ∧ 0 < id ∧ id ≤ plicMaxInterrupts ∧ v.vplicGetPend id = false ∧
          (irqBucketConsume now (v.buckets id)).2 = .deferred then
        some true
      else none
  | _, _ => none

/-! ## A step -/

def clear : VplicBit → Vplic
  | .pend id => { v with pend := bitmapClear v.pend id }
  | .act id => { v with act := bitmapClear v.act id }
  | .deferred id => { v with deferred := bitmapClear v.deferred id }
  | .enbl vcntxt id =>
      { v with enbl := Function.update v.enbl vcntxt (bitmapClear (v.enbl vcntxt) id) }
  | .prio bit => { v with prio := bitmapClear v.prio bit }
  | .threshold bit => { v with threshold := bitmapClear v.threshold bit }

theorem bit_clear (b b' : VplicBit) :
    (v.clear b).bit b' = if some b = some b' then false else v.bit b' := by
  have hclear : ∀ (map : Bitmap) (i j : ℕ),
      bitmapGet (bitmapClear map i) j = if i = j then false else bitmapGet map j := by
    intro map i j
    rw [bitmapGet_bitmapClear]
    by_cases hij : i = j
    · simp [hij]
    · simp [hij, Ne.symm hij]
  cases b with
  | enbl vcntxt id =>
      cases b' with
      | enbl vcntxt' id' =>
          simp only [clear, bit, Option.some.injEq, VplicBit.enbl.injEq]
          by_cases hcntxt : vcntxt = vcntxt'
          · subst hcntxt
            rw [Function.update_self, hclear]
            simp
          · rw [Function.update_of_ne (Ne.symm hcntxt), if_neg fun h => hcntxt h.1]
      | _ => rfl
  | _ => cases b' <;> simp [clear, bit, hclear]

theorem clearAct_of_actBit {n : ℕ} {b : VplicBit} (h : actBit platCpuNum n = some b) :
    v.clearAct platCpuNum n = v.clear b := by
  rw [actBit] at h
  rw [clearAct]
  dsimp only at h ⊢
  split_ifs at h ⊢ <;> cases h <;> rfl

theorem bit_clearAct (n : ℕ) (b : VplicBit) :
    (v.clearAct platCpuNum n).bit b =
      if actBit platCpuNum n = some b then false else v.bit b := by
  cases h : actBit platCpuNum n with
  | some b' => rw [clearAct_of_actBit platCpuNum v h, bit_clear]
  | none =>
      -- behind the thresholds there are the buckets
      rw [if_neg (Option.some_ne_none b).symm]
      rw [actBit] at h
      rw [clearAct]
      dsimp only at h ⊢
      split_ifs at h ⊢ <;> cases b <;> rfl

theorem bit_vplicSetPrio (id : ℕ) (prio : BitVec 32) (bit : ℕ) :
    bitmapGet (v.vplicSetPrio id prio).1.prio bit =
      if id ≤ plicMaxInterrupts ∧ bit / granuleLen = id then prio.getLsbD (bit % granuleLen)
      else bitmapGet v.prio bit := by
  rw [vplicSetPrio]
  by_cases hid : id ≤ plicMaxInterrupts
  · by_cases hne : v.vplicGetPrio id ≠ prio
    · rw [if_pos ⟨hid, hne⟩, bitmapGet_update]
      simp only [hid, true_and]
    · rw [if_neg fun h => hne h.2]
      have hsame : v.prio id = prio := by
        rw [not_not, vplicGetPrio, if_pos hid] at hne
        exact hne
      split_ifs with h
      · rw [bitmapGet_eq_getLsbD, h.2, hsame]
      · rfl
  · rw [if_neg fun h => hid h.1, if_neg fun h => hid h.1]

theorem bit_vplicSetEnbl (vcntxt id : ℕ) (set : Bool) (vcntxt' id' : ℕ) :
    bitmapGet ((v.vplicSetEnbl vcntxt id set).1.enbl vcntxt') id' =
      if id ≤ plicMaxInterrupts ∧ vcntxt' = vcntxt ∧ id' = id then set
      else bitmapGet (v.enbl vcntxt') id' := by
  obtain ⟨map, heq, hother, hself⟩ := vplicSetEnbl_frame v vcntxt id set
  by_cases hid : id ≤ plicMaxInterrupts
  · rw [heq]
    dsimp only
    by_cases hcntxt : vcntxt' = vcntxt
    · subst hcntxt
      rw [Function.update_self]
      by_cases hsame : id' = id
      · subst hsame
        rw [if_pos ⟨hid, rfl, rfl⟩, hself hid]
      · rw [hother id' hsame, if_neg fun h => hsame h.2.2]
    · rw [Function.update_of_ne hcntxt, if_neg fun h => hcntxt h.2.1]
  · rw [vplicSetEnbl, if_neg fun h => hid h.1, if_neg fun h => hid h.1]

theorem vplicSetPrio_frame (id : ℕ) (prio : BitVec 32) :
    ∃ prios, (v.vplicSetPrio id prio).1 = { v with prio := prios } := by
  rw [vplicSetPrio]
  by_cases hchanged : id ≤ plicMaxInterrupts ∧ v.vplicGetPrio id ≠ prio
  · rw [if_pos hchanged]
    exact ⟨_, rfl⟩
  · rw [if_neg hchanged]
    exact ⟨v.prio, rfl⟩

theorem getD_some_ite {c : Prop} [Decidable c] (x y : Bool) :
    (if c then some x else none).getD y = if c then x else y := by
  split_ifs <;> rfl

/-- A claim sets a source active, and makes it pending again only if it is drained. -/
theorem bit_vplicClaim (vcntxt : ℕ) (now : BitVec 64) (id : ℕ) :
    bitmapGet (v.vplicClaim vcntxt now).1.pend id =
        (if id ∈ drainedIds ∧ (v.source id).Drains now then true
        else if id = v.vplicNextPending vcntxt then false else bitmapGet v.pend id) ∧
      bitmapGet (v.vplicClaim vcntxt now).1.act id =
        (if id = v.vplicNextPending vcntxt then true else bitmapGet v.act id) ∧
      bitmapGet (v.vplicClaim vcntxt now).1.deferred id =
        if id ∈ drainedIds ∧ (v.source id).Drains now then false
        else bitmapGet v.deferred id := by
  have hsource := source_vplicClaim_eq v vcntxt now id
  dsimp only at hsource
  obtain ⟨s, hs⟩ : ∃ s, s =
      if id = v.vplicNextPending vcntxt then (v.source id).take else v.source id := ⟨_, rfl⟩
  have hpend : s.pend = if id = v.vplicNextPending vcntxt then false else bitmapGet v.pend id := by
    rw [hs]
    split_ifs <;> rfl
  have hact : s.act = if id = v.vplicNextPending vcntxt then true else bitmapGet v.act id := by
    rw [hs]
    split_ifs <;> rfl
  have hdeferred : s.deferred = bitmapGet v.deferred id := by
    rw [hs]
    split_ifs <;> rfl
  have hdrains : s.Drains now ↔ (v.source id).Drains now := by
    rw [hs]
    split_ifs <;> rfl
  rw [← hs] at hsource
  have hpend' := congrArg SourceState.pend hsource
  have hact' := congrArg SourceState.act hsource
  have hdeferred' := congrArg SourceState.deferred hsource
  rw [← hact, ← hdeferred, ← hpend]
  by_cases hmem : id ∈ drainedIds
  · rw [if_pos hmem] at hpend' hact' hdeferred'
    rw [SourceState.pend_drain] at hpend'
    rw [SourceState.deferred_drain] at hdeferred'
    refine ⟨hpend'.trans ?_, hact'.trans (SourceState.act_drain now s), hdeferred'.trans ?_⟩
    · simp only [hdrains, hmem, true_and]
    · simp only [hdrains, hmem, true_and]
  · rw [if_neg hmem] at hpend' hact' hdeferred'
    rw [if_neg fun h => hmem h.1, if_neg fun h => hmem h.1]
    exact ⟨hpend', hact', hdeferred'⟩

/-- An injection makes a source pending or deferred, as its bucket says. -/
theorem bit_vplicInject (vcpuId id : ℕ) (now : BitVec 64) (id' : ℕ) :
    bitmapGet (v.vplicInject vcpuId id now).1.pend id' =
        (if id' = id ∧ 0 < id ∧ id ≤ plicMaxInterrupts ∧ v.vplicGetPend id = false ∧
            (irqBucketConsume now (v.buckets id)).2 = .allow then true
        else bitmapGet v.pend id') ∧
      bitmapGet (v.vplicInject vcpuId id now).1.deferred id' =
        if id' = id ∧ 0 < id ∧ id ≤ plicMaxInterrupts ∧ v.vplicGetPend id = false ∧
            (irqBucketConsume now (v.buckets id)).2 = .deferred then true
        else bitmapGet v.deferred id' := by
  rw [vplicInject]
  by_cases hnew : 0 < id ∧ id ≤ plicMaxInterrupts ∧ v.vplicGetPend id = false
  · rw [if_pos hnew]
    dsimp only
    obtain ⟨hpos, hle, hpend⟩ := hnew
    cases haction : (irqBucketConsume now (v.buckets id)).2 <;>
      by_cases hid : id' = id <;> simp [hpos, hle, hpend, hid, bitmapGet_bitmapSet]
  · rw [if_neg hnew, if_neg fun h => hnew ⟨h.2.1, h.2.2.1, h.2.2.2.1⟩,
      if_neg fun h => hnew ⟨h.2.1, h.2.2.1, h.2.2.2.1⟩]
    exact ⟨rfl, rfl⟩

/-- Each access writes the bits that it is said to write, and leaves all others. -/
theorem bit_guestAccess (a : Access) (b : VplicBit) :
    (v.guestAccess platCpuNum a).bit b = (v.writes platCpuNum a b).getD (v.bit b) := by
  cases a with
  | setPrio id prio =>
      change (v.vplicSetPrio id prio).1.bit b = _
      cases b with
      | prio bit => exact (bit_vplicSetPrio v id prio bit).trans (getD_some_ite _ _).symm
      | _ =>
          obtain ⟨prios, heq⟩ := vplicSetPrio_frame v id prio
          rw [heq]
          rfl
  | setEnbl vcntxt id set =>
      change (if v.vcntxtValid vcntxt then (v.vplicSetEnbl vcntxt id set).1 else v).bit b = _
      by_cases hvalid : v.vcntxtValid vcntxt = true
      · rw [if_pos hvalid]
        cases b with
        | enbl vcntxt' id' =>
            refine (bit_vplicSetEnbl v vcntxt id set vcntxt' id').trans ?_
            rw [writes, getD_some_ite]
            simp only [hvalid, true_and]
            rfl
        | _ =>
            obtain ⟨map, heq, -⟩ := vplicSetEnbl_frame v vcntxt id set
            rw [heq]
            rfl
      · rw [if_neg hvalid]
        cases b with
        | enbl vcntxt' id' => rw [writes, if_neg fun h => hvalid h.1, Option.getD_none]
        | _ => rfl
  | setThreshold vcntxt threshold =>
      change (if v.vcntxtValid vcntxt then (v.vplicSetThreshold vcntxt threshold).1
        else v).bit b = _
      by_cases hvalid : v.vcntxtValid vcntxt = true
      · rw [if_pos hvalid]
        cases b with
        | threshold bit =>
            refine (bitmapGet_update v.threshold vcntxt threshold bit).trans ?_
            rw [writes, getD_some_ite]
            simp only [hvalid, true_and]
            rfl
        | _ => rfl
      · rw [if_neg hvalid]
        cases b with
        | threshold bit => rw [writes, if_neg fun h => hvalid h.1, Option.getD_none]
        | _ => rfl
  | claim vcntxt now =>
      change (if v.vcntxtValid vcntxt then (v.vplicClaim vcntxt now).1 else v).bit b = _
      by_cases hvalid : v.vcntxtValid vcntxt = true
      · rw [if_pos hvalid]
        cases b with
        | pend id =>
            refine (bit_vplicClaim v vcntxt now id).1.trans ?_
            rw [writes]
            simp only [hvalid, true_and]
            split_ifs <;> rfl
        | act id =>
            refine (bit_vplicClaim v vcntxt now id).2.1.trans ?_
            rw [writes, getD_some_ite]
            simp only [hvalid, true_and]
            rfl
        | deferred id =>
            refine (bit_vplicClaim v vcntxt now id).2.2.trans ?_
            rw [writes, getD_some_ite]
            simp only [hvalid, true_and]
            rfl
        | _ =>
            obtain ⟨pend, act, deferred, buckets, heq⟩ := vplicClaim_frame v vcntxt now
            rw [heq]
            rfl
      · rw [if_neg hvalid]
        cases b with
        | pend id =>
            rw [writes, if_neg fun h => hvalid h.1, if_neg fun h => hvalid h.1, Option.getD_none]
        | act id => rw [writes, if_neg fun h => hvalid h.1, Option.getD_none]
        | deferred id => rw [writes, if_neg fun h => hvalid h.1, Option.getD_none]
        | _ => rfl
  | complete vcntxt id =>
      change (if v.vcntxtValid vcntxt then v.clearAct platCpuNum id else v).bit b = _
      rw [writes]
      by_cases hvalid : v.vcntxtValid vcntxt = true
      · rw [if_pos hvalid, bit_clearAct, getD_some_ite]
        simp only [hvalid, true_and]
      · rw [if_neg hvalid, if_neg fun h => hvalid h.1, Option.getD_none]
  | plicInject id now => cases b <;> rfl
  | inject vcpuId id now =>
      change (v.vplicInject vcpuId id now).1.bit b = _
      cases b with
      | pend id' => exact (bit_vplicInject v vcpuId id now id').1.trans (getD_some_ite _ _).symm
      | deferred id' => exact (bit_vplicInject v vcpuId id now id').2.trans (getD_some_ite _ _).symm
      | _ =>
          obtain ⟨pend, deferred, buckets, heq⟩ := vplicInject_frame v now vcpuId id
          rw [heq]
          rfl

/-! ## Runs -/

def bitWrites (as : List Access) (b : VplicBit) : List Bool :=
  Run.emitted (guestAccess platCpuNum) (fun v a => (v.writes platCpuNum a b).toList) v as

def LeftClear (as : List Access) (b : VplicBit) : Prop :=
  ∀ set ∈ (v.bitWrites platCpuNum as b).getLast?, set = false

theorem bit_exec (as : List Access) (b : VplicBit) :
    (Run.exec (guestAccess platCpuNum) v as).bit b =
      ((v.bitWrites platCpuNum as b).getLast?).getD (v.bit b) :=
  Run.observe_exec (fun v => v.bit b) (fun v a => v.writes platCpuNum a b)
    (fun v a => bit_guestAccess platCpuNum v a b) v as

theorem bit_exec_eq_false_iff {v : Vplic} (as : List Access) {b : VplicBit}
    (hclear : v.bit b = false) :
    (Run.exec (guestAccess platCpuNum) v as).bit b = false ↔ v.LeftClear platCpuNum as b := by
  rw [bit_exec, LeftClear, hclear]
  cases (v.bitWrites platCpuNum as b).getLast? with
  | none => exact iff_of_true rfl fun _ h => absurd h (Option.not_mem_none _)
  | some set => simp

theorem act_of_actBit {n id : ℕ} (h : actBit platCpuNum n = some (.act id)) : n = id := by
  rw [actBit] at h
  dsimp only at h
  split_ifs at h <;> cases h
  rfl

/-- Only its completion makes an active source inactive. -/
theorem vplicGetAct_guestAccess {v : Vplic} {id : ℕ} (hact : v.vplicGetAct id = true)
    {a : Access} (ha : ∀ vcntxt, a ≠ .complete vcntxt id) :
    (v.guestAccess platCpuNum a).vplicGetAct id = true := by
  rw [vplicGetAct, Bool.and_eq_true] at hact ⊢
  refine ⟨hact.1, ?_⟩
  change (v.guestAccess platCpuNum a).bit (.act id) = true
  rw [bit_guestAccess]
  cases a with
  | claim vcntxt now =>
      rw [writes, getD_some_ite]
      split_ifs
      · rfl
      · exact hact.2
  | complete vcntxt n =>
      rw [writes, if_neg fun h => ha vcntxt (by rw [act_of_actBit platCpuNum h.2])]
      exact hact.2
  | _ => exact hact.2

theorem bit_boot (cpuNum : ℕ) (criticality : VmCriticality) (now : BitVec 64) (hw : Bitmap)
    (b : VplicBit) : (boot cpuNum criticality now hw).bit b = false := by
  cases b <;> simp [bit, boot, vplicInit, zero, bitmapGet_eq_getLsbD]

end Vplic

end BaoHypervisor
