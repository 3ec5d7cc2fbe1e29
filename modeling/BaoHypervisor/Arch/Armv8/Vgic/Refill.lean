import BaoHypervisor.Arch.Armv8.Vgic.Remote
import BaoHypervisor.Arch.Armv8.Vgic.RoundTrip
import BaoHypervisor.Theory.Drain
import BaoHypervisor.Theory.Loop
import Mathlib.Data.Prod.Lex
import Mathlib.Data.List.Range

/-!
# The end of the maintenance loops

A round of `vgic_handle_trapped_eoir` clears a list register that had ended, and no round makes
another one end, so the loop comes to its end. A round of `vgic_refill_lrs` takes the most urgent
interrupt from the spilled lists, unless another vCPU owns it: then it changes nothing and is taken
again, with the lock of the lists held. So the loop ends exactly if no interrupt of another vCPU
comes up while a list register is empty (`RefillEnds`).
-/

namespace BaoHypervisor

variable {cpuNum intNum : ℕ}

namespace VgicState

section Loops

variable (vm : VgicVm cpuNum intNum) (v : Fin cpuNum)

/-- The loop of `vgic_refill_lrs` by its rounds. -/
def refillStep : IntState × VgicState cpuNum intNum → Option (IntState × VgicState cpuNum intNum)
  | (flags, s) =>
      match vm.firstLr (s.gichGetElrsr v), s.vgicHighestPrioSpilled vm v flags with
      | some _, some (irq, _) =>
          some (if (s.vgicGetOwnership v irq).1 then .pendAct else flags, s.refillRound vm v flags)
      | _, _ => none

/-- The loop of `vgic_handle_trapped_eoir` by its rounds. -/
def trappedStep (s : VgicState cpuNum intNum) : Option (VgicState cpuNum intNum) :=
  (vm.firstLr (s.gichGetEisr v)).map fun _ => s.trappedEoirRound vm v

theorem vgicRefillLrs_eq_run (n : ℕ) (flags : IntState) (s : VgicState cpuNum intNum) :
    vgicRefillLrs vm v n flags s = (Loop.run (refillStep vm v) n (flags, s)).2 := by
  induction n generalizing flags s with
  | zero => rfl
  | succ n ih =>
      unfold vgicRefillLrs
      rw [Loop.run, refillStep]
      cases vm.firstLr (s.gichGetElrsr v) with
      | none => rfl
      | some i =>
          cases s.vgicHighestPrioSpilled vm v flags with
          | none => rfl
          | some irq => exact ih _ _

theorem vgicHandleTrappedEoir_eq_run (n : ℕ) (s : VgicState cpuNum intNum) :
    vgicHandleTrappedEoir vm v n s = Loop.run (trappedStep vm v) n s := by
  induction n generalizing s with
  | zero => rfl
  | succ n ih =>
      rw [vgicHandleTrappedEoir, Loop.run, trappedStep]
      cases vm.firstLr (s.gichGetEisr v) with
      | none => rfl
      | some i => exact ih _

end Loops

section Waiting

variable (s : VgicState cpuNum intNum) (vm : VgicVm cpuNum intNum) (v : Fin cpuNum)
  (flags : IntState) (r : IntRef cpuNum intNum)

/-- The interrupts that `vgic_highest_prio_spilled` goes through. -/
def waiting : List (IntRef cpuNum intNum) := s.spilledNodes (.vcpu v) ++ s.spilledNodes .vm

def urgency : ℕ ×ₗ ℕ := toLex ((s.ints r).prio.toNat, r.id)

/-- `vgic_highest_prio_spilled` takes no interrupt that is not more urgent than this. -/
def leastUrgency : ℕ ×ₗ ℕ := toLex (0xff, 1020)

/-- `vgic_highest_prio_spilled` may find the interrupt. -/
def eligible : Bool :=
  (s.vgicGetState vm v r).meets flags && decide (s.urgency r < leastUrgency)

def foreign : Bool := (s.ints r).owner.any fun w => w != v

def owned : VgicState cpuNum intNum := s.setInt r { s.ints r with owner := some v }

/-- What `vgic_write_lr` writes for the interrupt when the vCPU owns it. -/
def placedLr : ListReg :=
  (vm.vgicLr r ((s.owned v r).ints r) ((s.owned v r).vgicGetState vm v r)).1

def takesLr : Bool := !(s.placedLr vm v r).isEmpty

def freeLrs : ℕ := (List.range vm.numLrs).countP (s.gichGetElrsr v)

/-- The spilled lists end, and an interrupt is in the one that `vgic_add_spilled` puts it in. -/
structure Filed : Prop where
  chain : ∀ q, Linked.Chain s.link (s.spilled q).head (s.spilledNodes q)
  own : ∀ q, ∀ r ∈ s.spilledNodes q, r.list = q

/-- The interrupt is the one that `vgic_highest_prio_spilled` finds. -/
structure MostUrgent : Prop where
  mem : r ∈ s.waiting v
  eligible : s.eligible vm v flags r = true
  le : ∀ x ∈ s.waiting v, s.eligible vm v flags x = true → s.urgency r ≤ s.urgency x

/-- No list register is empty, or the most urgent interrupt is not one of another vCPU, and before
each that is, behind it, there are enough interrupts to fill the list registers. -/
def RefillEnds : Prop :=
  s.freeLrs vm v = 0 ∨
    ∀ p, s.MostUrgent vm v flags p →
      s.foreign v p = false ∧
        ∀ b ∈ s.waiting v, s.foreign v b = true → s.eligible vm v .pendAct b = true →
          s.freeLrs vm v ≤ (s.waiting v).countP fun x =>
            s.eligible vm v .pendAct x && s.takesLr vm v x &&
              (decide (s.urgency x < s.urgency b) || x == p)

end Waiting

variable {s s' : VgicState cpuNum intNum} {vm : VgicVm cpuNum intNum} {v : Fin cpuNum}
  {flags : IntState} {r x p : IntRef cpuNum intNum} {i : ℕ}

/-! ## What is found in the spilled lists -/

theorem Filed.nodup (h : s.Filed) : (s.waiting v).Nodup := by
  refine List.nodup_append.mpr ⟨(h.chain _).nodup, (h.chain _).nodup, ?_⟩
  rintro a ha b hb rfl
  cases (h.own _ a ha).symm.trans (h.own _ a hb)

theorem Filed.at (h : s.Filed) (hx : x ∈ s.waiting v) : x.At v :=
  IntRef.at_of_list ((List.mem_append.mp hx).imp (h.own _ x) (h.own _ x))

theorem Filed.id_ne (h : s.Filed) (hx : x ∈ s.waiting v) (hp : p ∈ s.waiting v) (hne : x ≠ p) :
    x.id ≠ p.id := by
  intro heq
  refine hne (Option.some.inj ?_)
  rw [← IntRef.vgicGetInt_id (h.at hx), heq, IntRef.vgicGetInt_id (h.at hp)]

theorem MostUrgent.lt (h : s.MostUrgent vm v flags p) (hfiled : s.Filed) (hx : x ∈ s.waiting v)
    (helig : s.eligible vm v flags x = true) (hne : x ≠ p) : s.urgency p < s.urgency x := by
  refine lt_of_le_of_ne (h.le x hx helig) fun heq => hfiled.id_ne hx h.mem hne ?_
  exact (congrArg (fun u => (ofLex u).2) heq).symm

def foundUrgency (s : VgicState cpuNum intNum)
    (found : Option (IntRef cpuNum intNum × SpilledList cpuNum)) : ℕ ×ₗ ℕ :=
  (found.map fun irq => s.urgency irq.1).getD leastUrgency

theorem higherPrio_eq (found : Option (IntRef cpuNum intNum × SpilledList cpuNum))
    (next : IntRef cpuNum intNum × SpilledList cpuNum) :
    s.higherPrio vm v flags found next =
      if (s.vgicGetState vm v next.1).meets flags = true ∧
          s.urgency next.1 < s.foundUrgency found then some next
      else found := by
  have hlt : s.urgency next.1 < s.foundUrgency found ↔
      (s.ints next.1).prio.toNat < (found.map fun irq => (s.ints irq.1).prio.toNat).getD 0xff ∨
        (s.ints next.1).prio.toNat =
            (found.map fun irq => (s.ints irq.1).prio.toNat).getD 0xff ∧
          next.1.id < (found.map fun irq => irq.1.id).getD 1020 := by
    rw [urgency, Prod.Lex.lt_iff]
    cases found <;> rfl
  rw [higherPrio, if_congr (and_congr_right fun _ => hlt) rfl rfl]
  cases (s.vgicGetState vm v next.1).meets flags <;> simp

/-- The search keeps what it began with, or ends with the most urgent one. -/
theorem foldl_higherPrio_cases (entries : List (IntRef cpuNum intNum × SpilledList cpuNum))
    (found : Option (IntRef cpuNum intNum × SpilledList cpuNum)) :
    (entries.foldl (s.higherPrio vm v flags) found = found ∧
        ∀ e ∈ entries, (s.vgicGetState vm v e.1).meets flags = true →
          s.foundUrgency found ≤ s.urgency e.1) ∨
      ∃ e ∈ entries, entries.foldl (s.higherPrio vm v flags) found = some e ∧
        (s.vgicGetState vm v e.1).meets flags = true ∧ s.urgency e.1 < s.foundUrgency found ∧
          ∀ x ∈ entries, (s.vgicGetState vm v x.1).meets flags = true →
            s.urgency e.1 ≤ s.urgency x.1 := by
  induction entries generalizing found with
  | nil => exact .inl ⟨rfl, fun _ hmem => by cases hmem⟩
  | cons next entries ih =>
      rw [List.foldl_cons, higherPrio_eq]
      split_ifs with hnext
      · obtain ⟨hmeets, hlt⟩ := hnext
        refine .inr ?_
        rcases ih (some next) with ⟨heq, hle⟩ | ⟨e, he, heq, hmeets', hlt', hle⟩
        · refine ⟨next, List.mem_cons_self, heq, hmeets, hlt, fun x hx hx' => ?_⟩
          rcases List.mem_cons.mp hx with rfl | hx
          · exact le_rfl
          · exact hle x hx hx'
        · have hbetter : s.urgency e.1 < s.urgency next.1 := hlt'
          refine ⟨e, List.mem_cons_of_mem _ he, heq, hmeets', hbetter.trans hlt, fun x hx hx' => ?_⟩
          rcases List.mem_cons.mp hx with rfl | hx
          · exact hbetter.le
          · exact hle x hx hx'
      · have hskip : (s.vgicGetState vm v next.1).meets flags = true →
            s.foundUrgency found ≤ s.urgency next.1 := fun hmeets =>
          not_lt.mp fun hlt => hnext ⟨hmeets, hlt⟩
        rcases ih found with ⟨heq, hle⟩ | ⟨e, he, heq, hmeets, hlt, hle⟩
        · refine .inl ⟨heq, fun x hx hx' => ?_⟩
          rcases List.mem_cons.mp hx with rfl | hx
          · exact hskip hx'
          · exact hle x hx hx'
        · refine .inr ⟨e, List.mem_cons_of_mem _ he, heq, hmeets, hlt, fun x hx hx' => ?_⟩
          rcases List.mem_cons.mp hx with rfl | hx
          · exact hlt.le.trans (hskip hx')
          · exact hle x hx hx'

theorem mem_entries {q : SpilledList cpuNum} :
    (r, q) ∈ (s.spilledNodes (.vcpu v)).map (fun irq => (irq, SpilledList.vcpu v)) ++
        (s.spilledNodes .vm).map (fun irq => (irq, SpilledList.vm)) ↔
      (q = .vcpu v ∨ q = .vm) ∧ r ∈ s.spilledNodes q := by
  simp only [List.mem_append, List.mem_map, Prod.mk.injEq]
  constructor
  · rintro (⟨irq, hirq, rfl, rfl⟩ | ⟨irq, hirq, rfl, rfl⟩)
    · exact ⟨.inl rfl, hirq⟩
    · exact ⟨.inr rfl, hirq⟩
  · rintro ⟨rfl | rfl, hr⟩
    · exact .inl ⟨r, hr, rfl, rfl⟩
    · exact .inr ⟨r, hr, rfl, rfl⟩

theorem eligible_iff : s.eligible vm v flags r = true ↔
    (s.vgicGetState vm v r).meets flags = true ∧ s.urgency r < leastUrgency := by
  rw [eligible, Bool.and_eq_true, decide_eq_true_eq]

theorem vgicHighestPrioSpilled_none (h : s.vgicHighestPrioSpilled vm v flags = none)
    (hr : r ∈ s.waiting v) : s.eligible vm v flags r = false := by
  rw [vgicHighestPrioSpilled] at h
  rcases foldl_higherPrio_cases _ none with ⟨-, hle⟩ | ⟨e, -, heq, -⟩
  · rw [Bool.eq_false_iff]
    intro helig
    obtain ⟨hmeets, hlt⟩ := eligible_iff.mp helig
    rcases List.mem_append.mp hr with hr | hr
    · exact not_le.mpr hlt (hle (r, .vcpu v) (mem_entries.mpr ⟨.inl rfl, hr⟩) hmeets)
    · exact not_le.mpr hlt (hle (r, .vm) (mem_entries.mpr ⟨.inr rfl, hr⟩) hmeets)
  · cases h.symm.trans heq

theorem vgicHighestPrioSpilled_some {q : SpilledList cpuNum}
    (h : s.vgicHighestPrioSpilled vm v flags = some (r, q)) :
    s.MostUrgent vm v flags r ∧ (q = .vcpu v ∨ q = .vm) ∧ r ∈ s.spilledNodes q := by
  rw [vgicHighestPrioSpilled] at h
  rcases foldl_higherPrio_cases _ none with ⟨heq, -⟩ | ⟨e, he, heq, hmeets, hlt, hle⟩
  · cases h.symm.trans heq
  · obtain rfl := Option.some.inj (h.symm.trans heq)
    obtain ⟨hq, hr⟩ := mem_entries.mp he
    refine ⟨⟨?_, eligible_iff.mpr ⟨hmeets, hlt⟩, fun x hx helig => ?_⟩, hq, hr⟩
    · rcases hq with rfl | rfl
      · exact List.mem_append_left _ hr
      · exact List.mem_append_right _ hr
    · have hx' := (eligible_iff.mp helig).1
      rcases List.mem_append.mp hx with hx | hx
      · exact hle (x, .vcpu v) (mem_entries.mpr ⟨.inl rfl, hx⟩) hx'
      · exact hle (x, .vm) (mem_entries.mpr ⟨.inr rfl, hx⟩) hx'

/-- The most urgent of the interrupts that meet the filter, and the list that it is in. -/
structure LeastSpilled (s : VgicState cpuNum intNum) (vm : VgicVm cpuNum intNum) (v : Fin cpuNum)
    (flags : IntState) (r : IntRef cpuNum intNum) (q : SpilledList cpuNum) : Prop where
  list : q = .vcpu v ∨ q = .vm
  mem : r ∈ s.spilledNodes q
  meets : (s.vgicGetState vm v r).meets flags = true
  le : ∀ x ∈ s.waiting v, (s.vgicGetState vm v x).meets flags = true → s.urgency r ≤ s.urgency x

theorem LeastSpilled.mem_waiting {q : SpilledList cpuNum} (h : s.LeastSpilled vm v flags r q) :
    r ∈ s.waiting v := by
  rcases h.list with rfl | rfl
  · exact List.mem_append_left _ h.mem
  · exact List.mem_append_right _ h.mem

theorem LeastSpilled.unique (hids : ((s.waiting v).map IntRef.id).Nodup)
    {q q' : SpilledList cpuNum} (h : s.LeastSpilled vm v flags r q)
    (h' : s.LeastSpilled vm v flags x q') : (r, q) = (x, q') := by
  have hsame : s.urgency r = s.urgency x :=
    le_antisymm (h.le x h'.mem_waiting h'.meets) (h'.le r h.mem_waiting h.meets)
  have hid : r.id = x.id := congrArg (fun u => (ofLex u).2) hsame
  obtain rfl := List.inj_on_of_nodup_map hids h.mem_waiting h'.mem_waiting hid
  have hapart := (List.nodup_append.mp (List.Nodup.of_map _ hids)).2.2
  have hmem := h.mem
  have hmem' := h'.mem
  rcases h.list with rfl | rfl <;> rcases h'.list with rfl | rfl
  · rfl
  · exact absurd rfl (hapart r hmem r hmem')
  · exact absurd rfl (hapart r hmem' r hmem)
  · rfl

theorem urgency_lt_least (h : r.id < 1020) : s.urgency r < leastUrgency := by
  have hprio := (s.ints r).prio.isLt
  rw [urgency, leastUrgency, Prod.Lex.lt_iff]
  show (s.ints r).prio.toNat < 0xff ∨ (s.ints r).prio.toNat = 0xff ∧ r.id < 1020
  omega

theorem eligible_eq_meets (h : r.id < 1020) :
    s.eligible vm v flags r = (s.vgicGetState vm v r).meets flags := by
  rw [eligible, decide_eq_true (urgency_lt_least h), Bool.and_true]

/-- Of interrupts with different valid numbers, `vgic_highest_prio_spilled` finds the most urgent
one whose state meets the filter, with its list, and none exactly if no state does. -/
theorem vgicHighestPrioSpilled_iff (hvalid : ∀ x ∈ s.waiting v, x.id < 1020)
    (hids : ((s.waiting v).map IntRef.id).Nodup) :
    (s.vgicHighestPrioSpilled vm v flags = none ↔
      ∀ x ∈ s.waiting v, (s.vgicGetState vm v x).meets flags = false) ∧
    ∀ r q, s.vgicHighestPrioSpilled vm v flags = some (r, q) ↔
      s.LeastSpilled vm v flags r q := by
  have hfound : ∀ r q, s.vgicHighestPrioSpilled vm v flags = some (r, q) →
      s.LeastSpilled vm v flags r q := by
    intro r q h
    obtain ⟨hurgent, hq, hr⟩ := vgicHighestPrioSpilled_some h
    have hmeets := (eligible_iff.mp hurgent.eligible).1
    refine ⟨hq, hr, hmeets, fun x hx hx' => hurgent.le x hx ?_⟩
    rw [eligible_eq_meets (hvalid x hx), hx']
  have hnone : s.vgicHighestPrioSpilled vm v flags = none →
      ∀ x ∈ s.waiting v, (s.vgicGetState vm v x).meets flags = false := fun h x hx => by
    rw [← eligible_eq_meets (hvalid x hx)]
    exact vgicHighestPrioSpilled_none h hx
  refine ⟨⟨hnone, fun h => ?_⟩, fun r q => ⟨hfound r q, fun h => ?_⟩⟩
  · cases hcase : s.vgicHighestPrioSpilled vm v flags with
    | none => rfl
    | some found =>
        have hleast := hfound found.1 found.2 hcase
        cases (h _ hleast.mem_waiting).symm.trans hleast.meets
  · cases hcase : s.vgicHighestPrioSpilled vm v flags with
    | none => cases (hnone hcase r h.mem_waiting).symm.trans h.meets
    | some found => exact congrArg some ((hfound found.1 found.2 hcase).unique hids h)

/-- A private and a shared interrupt wait, pending and as little urgent as can be. -/
def spilledLowest (v : Fin cpuNum) (x y : IntRef cpuNum intNum) : VgicState cpuNum intNum :=
  let s := uniform { initialInt none with state := .pending }
  let own := Function.update s.spilled (.vcpu v) ⟨some x, some x⟩
  { s with spilled := Function.update own .vm ⟨some y, some y⟩ }

theorem vgicHighestPrioSpilled_lowest :
    let s : VgicState 2 96 := spilledLowest 0 (.priv 0 27) (.spi 3)
    (s.vgicHighestPrioSpilled twoVcpus 0 .pendAct = none ↔
      ∀ x ∈ s.waiting 0, (s.vgicGetState twoVcpus 0 x).meets .pendAct = false) ∧
    ∀ r q, s.vgicHighestPrioSpilled twoVcpus 0 .pendAct = some (r, q) ↔
      s.LeastSpilled twoVcpus 0 .pendAct r q :=
  vgicHighestPrioSpilled_iff (by decide) (by decide)

/-! ## A round -/

theorem vgicGetOwnership_of_foreign (h : s.foreign v r = true) :
    s.vgicGetOwnership v r = (false, s) := by
  rw [foreign] at h
  rw [vgicGetOwnership]
  cases howner : (s.ints r).owner with
  | none =>
      rw [howner] at h
      cases h
  | some w =>
      rw [howner] at h
      have hne : w ≠ v := by simpa using h
      dsimp only
      rw [beq_eq_false_iff_ne.mpr hne]

theorem vgicGetOwnership_of_not_foreign (h : s.foreign v r = false) :
    s.vgicGetOwnership v r = (true, s.owned v r) := by
  rw [vgicGetOwnership, owned]
  rw [foreign] at h
  cases howner : (s.ints r).owner with
  | none => rfl
  | some w =>
      rw [howner] at h
      have hw : w = v := by simpa using h
      subst hw
      have hself : s.setInt r { s.ints r with owner := some w } = s := by
        rw [← howner, setInt]
        exact congrArg (fun ints => { s with ints }) (Function.update_eq_self r s.ints)
      rw [hself]
      simp

theorem refillStep_of_foreign {q : SpilledList cpuNum}
    (hfirst : vm.firstLr (s.gichGetElrsr v) = some i)
    (hfound : s.vgicHighestPrioSpilled vm v flags = some (p, q))
    (hforeign : s.foreign v p = true) : refillStep vm v (flags, s) = some (flags, s) := by
  rw [refillStep, hfirst, hfound]
  simp only [vgicGetOwnership_of_foreign hforeign, refillRound, hfirst, hfound,
    Bool.false_eq_true, if_false]

theorem refillStep_of_not_foreign {q : SpilledList cpuNum}
    (hfirst : vm.firstLr (s.gichGetElrsr v) = some i)
    (hfound : s.vgicHighestPrioSpilled vm v flags = some (p, q))
    (hforeign : s.foreign v p = false) :
    refillStep vm v (flags, s) =
      some (.pendAct, (((s.owned v p).removeSpilled p q).vgicWriteLr vm v p i)) := by
  rw [refillStep, hfirst, hfound]
  simp only [vgicGetOwnership_of_not_foreign hforeign, refillRound, hfirst, hfound, if_true]

/-- What the loop looks at of an interrupt that waits. -/
structure SameFor (s s' : VgicState cpuNum intNum) (vm : VgicVm cpuNum intNum) (v : Fin cpuNum)
    (x : IntRef cpuNum intNum) : Prop where
  state : s'.vgicGetState vm v x = s.vgicGetState vm v x
  prio : (s'.ints x).prio = (s.ints x).prio
  foreign : s'.foreign v x = s.foreign v x
  placed : s'.placedLr vm v x = s.placedLr vm v x

/-- The list registers that change show another interrupt, or none, and the interrupt changes at
most in that it is no longer in a list register that is empty. -/
structure Undisturbed (s s' : VgicState cpuNum intNum) (v : Fin cpuNum)
    (x : IntRef cpuNum intNum) : Prop where
  lrs : ∀ j, s'.lrs v j = s.lrs v j ∨
    ¬ ((s'.lrs v j).vid = x.id ∧ (s'.lrs v j).state ≠ .inv) ∧
      ¬ ((s.lrs v j).vid = x.id ∧ (s.lrs v j).state ≠ .inv)
  ints : s'.ints x = s.ints x ∨
    (s.ints x).owner = some v ∧ (s.lrs v (s.ints x).lr).state = .inv ∧
      ∃ owner, (owner = some v ∨ owner = none) ∧
        s'.ints x = { s.ints x with inLr := false, owner := owner }

theorem Undisturbed.owned (h : Undisturbed s s' v x) :
    Undisturbed (s.owned v x) (s'.owned v x) v x := by
  refine ⟨h.lrs, ?_⟩
  rw [VgicState.owned, VgicState.owned, ints_setInt_self, ints_setInt_self]
  rcases h.ints with heq | ⟨-, hlr, owner, -, heq⟩
  · exact .inl (by rw [heq])
  · exact .inr ⟨rfl, hlr, some v, .inl rfl, by rw [heq]⟩

theorem Undisturbed.vgicGetState_eq (h : Undisturbed s s' v x) :
    s'.vgicGetState vm v x = s.vgicGetState vm v x := by
  rcases h.ints with heq | ⟨-, hlr, owner, -, heq⟩
  · exact vgicGetState_of_lrs heq h.lrs
  · refine vgicGetState_congr ?_ (by rw [heq]) (by rw [heq])
    rw [gichGetLr_of_inv hlr, gichGetLr_of_not_inLr (by rw [heq])]

theorem Undisturbed.sameFor (h : Undisturbed s s' v x) : SameFor s s' vm v x where
  state := h.vgicGetState_eq
  prio := by
    rcases h.ints with heq | ⟨-, -, owner, -, heq⟩ <;> rw [heq]
  foreign := by
    rw [VgicState.foreign, VgicState.foreign]
    rcases h.ints with heq | ⟨howner, -, owner, rfl | rfl, heq⟩
    · rw [heq]
    · rw [heq, howner]
    · rw [heq, howner]
      simp
  placed := by
    have hstate : (s'.owned v x).vgicGetState vm v x = (s.owned v x).vgicGetState vm v x :=
      h.owned.vgicGetState_eq
    rw [placedLr, placedLr, hstate]
    rcases h.owned.ints with heq | ⟨-, -, owner, -, heq⟩
    · rw [heq]
    · rw [heq]
      rfl

/-- The interrupt is the only one that waits no more, it is in the list register if it takes
one, and nothing has changed for the others. -/
structure Refilled (s s' : VgicState cpuNum intNum) (vm : VgicVm cpuNum intNum) (v : Fin cpuNum)
    (p : IntRef cpuNum intNum) : Prop where
  filed : s'.Filed
  waiting : s'.waiting v = (s.waiting v).erase p
  freeLrs : s'.freeLrs vm v + (s.takesLr vm v p).toNat = s.freeLrs vm v
  same : ∀ x ∈ s.waiting v, x ≠ p → SameFor s s' vm v x

theorem Filed.congr (h : s.Filed) (hlink : s'.link = s.link) (hspilled : s'.spilled = s.spilled) :
    s'.Filed := by
  have hnodes := spilledNodes_congr hlink hspilled
  refine ⟨fun q => ?_, fun q x hx => ?_⟩
  · rw [hlink, hspilled, hnodes]
    exact h.chain q
  · rw [hnodes] at hx
    exact h.own q x hx

/-- An interrupt is taken out of its list, and the other lists stay as they are. -/
theorem Filed.removeSpilled (h : s.Filed) {q : SpilledList cpuNum} (hp : p ∈ s.spilledNodes q) :
    (s.removeSpilled p q).Filed ∧
      (s.removeSpilled p q).spilledNodes =
        Function.update s.spilledNodes q ((s.spilledNodes q).erase p) := by
  have hlen := IntRef.length_le_of_nodup (h.chain q).nodup
  obtain ⟨hchain, hlink⟩ := NodeList.chain_listRm (h.chain q) hp hlen
  have hchain' : ∀ q', Linked.Chain (s.removeSpilled p q).link
      ((s.removeSpilled p q).spilled q').head
      (Function.update s.spilledNodes q ((s.spilledNodes q).erase p) q') := by
    intro q'
    by_cases hq : q' = q
    · subst hq
      rw [Function.update_self, VgicState.removeSpilled]
      dsimp only
      rw [Function.update_self]
      exact hchain
    · rw [Function.update_of_ne hq, VgicState.removeSpilled]
      dsimp only
      rw [Function.update_of_ne hq]
      refine (h.chain q').congr fun x hx => hlink x fun hmem => hq ?_
      rw [← h.own q' x hx, h.own q x hmem]
  have hnodes : (s.removeSpilled p q).spilledNodes =
      Function.update s.spilledNodes q ((s.spilledNodes q).erase p) := by
    funext q'
    exact (hchain' q').walk_eq (IntRef.length_le_of_nodup (hchain' q').nodup)
  refine ⟨⟨fun q' => ?_, fun q' x hx => ?_⟩, hnodes⟩
  · rw [hnodes]
    exact hchain' q'
  · rw [hnodes] at hx
    by_cases hq : q' = q
    · subst hq
      rw [Function.update_self] at hx
      exact h.own q' x (List.mem_of_mem_erase hx)
    · rw [Function.update_of_ne hq] at hx
      exact h.own q' x hx

theorem lrs_refilled {q : SpilledList cpuNum} (hempty : (s.lrs v i).state = .inv) (j : ℕ) :
    (((s.owned v p).removeSpilled p q).vgicWriteLr vm v p i).lrs v j =
      if j = i then s.placedLr vm v p else s.lrs v j := by
  rw [vgicWriteLr, lrs_placeInt, ints_forgetPrev_self,
    vgicGetState_forgetPrev (s := (s.owned v p).removeSpilled p q) hempty vm v p p,
    (samePlaces_forgetPrev ((s.owned v p).removeSpilled p q) vm v p i).lrs]
  by_cases hj : j = i
  · rw [if_pos ⟨rfl, hj⟩, if_pos hj]
    rfl
  · rw [if_neg fun h => hj h.2, if_neg hj]
    rfl

theorem undisturbed_refilled (hfiled : s.Filed) {q : SpilledList cpuNum}
    (hempty : (s.lrs v i).state = .inv) (hp : p ∈ s.waiting v) (hx : x ∈ s.waiting v)
    (hne : x ≠ p) :
    Undisturbed s (((s.owned v p).removeSpilled p q).vgicWriteLr vm v p i) v x := by
  refine ⟨fun j => ?_, ?_⟩
  · rw [lrs_refilled hempty]
    split
    · rename_i hj
      refine .inr ⟨fun hshows => ?_, fun hshows => hshows.2 (hj ▸ hempty)⟩
      rw [placedLr, (VgicVm.vgicLr_eq vm p _ _).1] at hshows
      exact hfiled.id_ne hx hp hne hshows.1.symm
    · exact .inl rfl
  · have howned : ((s.owned v p).removeSpilled p q).ints x = s.ints x := ints_setInt_of_ne hne
    rw [vgicWriteLr, ints_placeInt_of_ne hne]
    rcases ints_forgetPrev ((s.owned v p).removeSpilled p q) vm v p i x with
      heq | ⟨-, howner, -, hlr, owner, hor, heq⟩
    · exact .inl (heq.trans howned)
    · rw [howned] at howner hlr heq
      exact .inr ⟨howner, by rw [hlr]; exact hempty, owner, hor, heq⟩

/-- A round that moves an interrupt into a list register. -/
theorem refilled (hfiled : s.Filed) {q : SpilledList cpuNum}
    (hfirst : vm.firstLr (s.gichGetElrsr v) = some i)
    (hfound : s.vgicHighestPrioSpilled vm v flags = some (p, q)) :
    Refilled s (((s.owned v p).removeSpilled p q).vgicWriteLr vm v p i) vm v p := by
  obtain ⟨hurgent, hq, hp⟩ := vgicHighestPrioSpilled_some hfound
  have hempty : (s.lrs v i).isEmpty = true := VgicVm.of_firstLr hfirst
  have hinv : (s.lrs v i).state = .inv := by
    rw [ListReg.isEmpty, Bool.and_eq_true, beq_iff_eq] at hempty
    exact hempty.1
  have howned : (s.owned v p).Filed := hfiled.congr rfl rfl
  have hnodes : (s.owned v p).spilledNodes = s.spilledNodes := spilledNodes_congr rfl rfl
  obtain ⟨hremoved, hupdate⟩ := howned.removeSpilled (p := p) (q := q) (by rwa [hnodes])
  have hsame := samePlaces_forgetPrev ((s.owned v p).removeSpilled p q) vm v p i
  have hnodes' : (((s.owned v p).removeSpilled p q).vgicWriteLr vm v p i).spilledNodes =
      Function.update s.spilledNodes q ((s.spilledNodes q).erase p) := by
    rw [← hnodes, ← hupdate]
    exact spilledNodes_congr hsame.link hsame.spilled
  refine ⟨hremoved.congr hsame.link hsame.spilled, ?_, ?_, fun x hx hne =>
    (undisturbed_refilled hfiled hinv hurgent.mem hx hne).sameFor⟩
  · rw [waiting, waiting, hnodes']
    rcases hq with rfl | rfl
    · rw [Function.update_self, Function.update_of_ne (by simp), List.erase_append_left _ hp]
    · have hnot : p ∉ s.spilledNodes (.vcpu v) := fun hmem => by
        cases (hfiled.own _ p hmem).symm.trans (hfiled.own _ p hp)
      rw [Function.update_self, Function.update_of_ne (by simp), List.erase_append_right _ hnot]
  · have hmem : i ∈ List.range vm.numLrs := List.mem_of_find?_eq_some hfirst
    have hcount := Drain.countP_eq_of_mem hmem List.nodup_range
      (f := s.gichGetElrsr v) (g := s.gichGetElrsr v) fun _ _ _ => rfl
    have hcount' := Drain.countP_eq_of_mem hmem List.nodup_range
      (f := (((s.owned v p).removeSpilled p q).vgicWriteLr vm v p i).gichGetElrsr v)
      (g := s.gichGetElrsr v) fun j _ hj => by
        rw [gichGetElrsr, gichGetElrsr, lrs_refilled hinv, if_neg hj]
    have hthere : (((s.owned v p).removeSpilled p q).vgicWriteLr vm v p i).gichGetElrsr v i =
        !s.takesLr vm v p := by
      rw [gichGetElrsr, lrs_refilled hinv, if_pos rfl, takesLr, Bool.not_not]
    have hbefore : s.gichGetElrsr v i = true := hempty
    rw [freeLrs, freeLrs, hcount, hcount', hthere, hbefore]
    cases s.takesLr vm v p <;> simp [Nat.add_comm]

theorem freeLrs_eq_zero_iff : s.freeLrs vm v = 0 ↔ vm.firstLr (s.gichGetElrsr v) = none := by
  rw [freeLrs, List.countP_eq_zero, VgicVm.firstLr, List.find?_eq_none]

variable (vm v flags) in
/-- The loop is at its end, or the most urgent interrupt is taken, or the round is for nothing. -/
theorem refillStep_cases (hfiled : s.Filed) :
    (refillStep vm v (flags, s) = none ∧
      (s.freeLrs vm v = 0 ∨ ∀ x ∈ s.waiting v, s.eligible vm v flags x = false)) ∨
    ∃ p, s.MostUrgent vm v flags p ∧ s.freeLrs vm v ≠ 0 ∧
      (s.foreign v p = true ∧ refillStep vm v (flags, s) = some (flags, s) ∨
        s.foreign v p = false ∧
          ∃ s', refillStep vm v (flags, s) = some (.pendAct, s') ∧ Refilled s s' vm v p) := by
  cases hfirst : vm.firstLr (s.gichGetElrsr v) with
  | none =>
      refine .inl ⟨?_, .inl (freeLrs_eq_zero_iff.mpr hfirst)⟩
      rw [refillStep, hfirst]
  | some i =>
      have hfree : s.freeLrs vm v ≠ 0 := fun heq => by
        cases hfirst.symm.trans (freeLrs_eq_zero_iff.mp heq)
      cases hfound : s.vgicHighestPrioSpilled vm v flags with
      | none =>
          refine .inl ⟨?_, .inr fun x hx => vgicHighestPrioSpilled_none hfound hx⟩
          rw [refillStep, hfirst, hfound]
      | some irq =>
          obtain ⟨p, q⟩ := irq
          refine .inr ⟨p, (vgicHighestPrioSpilled_some hfound).1, hfree, ?_⟩
          cases hforeign : s.foreign v p with
          | true => exact .inl ⟨rfl, refillStep_of_foreign hfirst hfound hforeign⟩
          | false =>
              exact .inr ⟨rfl, _, refillStep_of_not_foreign hfirst hfound hforeign,
                refilled hfiled hfirst hfound⟩

/-! ## The end of the loop -/

/-- Before each interrupt of another vCPU there are enough to fill the list registers. -/
def Covers (s : VgicState cpuNum intNum) (vm : VgicVm cpuNum intNum) (v : Fin cpuNum) : Prop :=
  Drain.Covered (s.eligible vm v .pendAct) (s.foreign v) (s.takesLr vm v) s.urgency
    (s.freeLrs vm v) (s.waiting v)

theorem Refilled.covers_iff (h : Refilled s s' vm v p) (hfiled : s.Filed) :
    s'.Covers vm v ↔
      Drain.Covered (s.eligible vm v .pendAct) (s.foreign v) (s.takesLr vm v) s.urgency
        (s'.freeLrs vm v) ((s.waiting v).erase p) := by
  have hsame : ∀ x ∈ (s.waiting v).erase p, SameFor s s' vm v x := fun x hx => by
    obtain ⟨hne, hx⟩ := hfiled.nodup.mem_erase_iff.mp hx
    exact h.same x hx hne
  have hurgency : ∀ x ∈ (s.waiting v).erase p, s'.urgency x = s.urgency x := fun x hx => by
    rw [urgency, urgency, (hsame x hx).prio]
  rw [Covers, h.waiting]
  refine Drain.covered_congr (fun x hx => ?_) (fun x hx => (hsame x hx).foreign)
    (fun x hx => ?_) hurgency
  · rw [eligible, eligible, (hsame x hx).state, hurgency x hx]
  · rw [takesLr, takesLr, (hsame x hx).placed]

theorem ends_pendAct_iff (hfiled : s.Filed) :
    Loop.Ends (refillStep vm v) (.pendAct, s) ↔ s.Covers vm v := by
  refine Loop.ends_iff (σ := IntState × VgicState cpuNum intNum)
    (I := fun st => st.1 = .pendAct ∧ st.2.Filed) (C := fun st => st.2.Covers vm v)
    (fun st => (st.2.waiting v).length) ?_ ?_ ⟨rfl, hfiled⟩
  · rintro ⟨flags, s⟩ ⟨rfl, hfiled⟩ hnone b hb hforeign helig
    rcases refillStep_cases vm v .pendAct hfiled with
      ⟨-, hfree | hnot⟩ | ⟨p, -, -, ⟨-, hsome⟩ | ⟨-, s', hsome, -⟩⟩
    · dsimp only
      rw [hfree]
      exact Nat.zero_le _
    · rw [hnot b hb] at helig
      cases helig
    · cases hnone.symm.trans hsome
    · cases hnone.symm.trans hsome
  · rintro ⟨flags, s⟩ st ⟨rfl, hfiled⟩ hround
    rcases refillStep_cases vm v .pendAct hfiled with
      ⟨hnone, -⟩ | ⟨p, hurgent, hfree, ⟨hforeign, hsome⟩ | ⟨hforeign, s', hsome, hrefilled⟩⟩
    · cases hnone.symm.trans hround
    · obtain rfl := Option.some.inj (hsome.symm.trans hround)
      refine .inl ⟨rfl, fun hcovers => hfree ?_⟩
      have hle := hcovers p hurgent.mem hforeign hurgent.eligible
      have hzero : ((s.waiting v).countP fun x => s.eligible vm v .pendAct x &&
          s.takesLr vm v x && decide (s.urgency x < s.urgency p)) = 0 := by
        refine List.countP_eq_zero.mpr fun x hx hall => ?_
        rw [Bool.and_eq_true, Bool.and_eq_true, decide_eq_true_eq] at hall
        exact not_lt.mpr (hurgent.le x hx hall.1.1) hall.2
      exact Nat.le_zero.mp (hle.trans_eq hzero)
    · obtain rfl := Option.some.inj (hsome.symm.trans hround)
      refine .inr ⟨⟨rfl, hrefilled.filed⟩, ?_, ?_⟩
      · have hlen := List.length_erase_of_mem hurgent.mem
        have hpos := List.length_pos_of_mem hurgent.mem
        dsimp only
        rw [hrefilled.waiting, hlen]
        exact Nat.sub_lt hpos Nat.one_pos
      · exact (hrefilled.covers_iff hfiled).trans (Drain.covered_erase_iff hurgent.mem
          hfiled.nodup hurgent.eligible hforeign
          (fun x hx helig hne => hurgent.lt hfiled hx helig hne) hrefilled.freeLrs)

theorem eligible_pendAct (h : s.eligible vm v flags r = true) :
    s.eligible vm v .pendAct r = true := by
  obtain ⟨hmeets, hlt⟩ := eligible_iff.mp h
  refine eligible_iff.mpr ⟨?_, hlt⟩
  revert hmeets
  rcases s.vgicGetState vm v r with ⟨_ | _, _ | _⟩ <;> simp [IntState.meets, IntState.pendAct]

/-- The loop of `vgic_refill_lrs` ends exactly under the condition. -/
theorem ends_refill_iff (hfiled : s.Filed) :
    Loop.Ends (refillStep vm v) (flags, s) ↔ s.RefillEnds vm v flags := by
  rcases refillStep_cases vm v flags hfiled with
    ⟨hnone, hwhy⟩ | ⟨p, hurgent, hfree, ⟨hforeign, hsome⟩ | ⟨hforeign, s', hsome, hrefilled⟩⟩
  · refine iff_of_true (Loop.ends_of_none hnone) (hwhy.imp_right fun hnot p hp => ?_)
    cases (hnot p hp.mem).symm.trans hp.eligible
  · refine iff_of_false (Loop.not_ends_of_fixed hsome) ?_
    rintro (hzero | hall)
    · exact hfree hzero
    · cases hforeign.symm.trans (hall p hurgent).1
  · have hunique : ∀ p', s.MostUrgent vm v flags p' → p' = p := by
      intro p' hp'
      by_contra hne
      exact lt_asymm (hurgent.lt hfiled hp'.mem hp'.eligible hne)
        (hp'.lt hfiled hurgent.mem hurgent.eligible (Ne.symm hne))
    rw [Loop.ends_iff_of_some hsome, ends_pendAct_iff hrefilled.filed, hrefilled.covers_iff hfiled,
      RefillEnds, or_iff_right hfree]
    have hcount : ∀ b, ((s.waiting v).countP fun x => s.eligible vm v .pendAct x &&
        s.takesLr vm v x && (decide (s.urgency x < s.urgency b) || x == p)) =
          (s.takesLr vm v p).toNat + ((s.waiting v).erase p).countP fun x =>
            s.eligible vm v .pendAct x && s.takesLr vm v x &&
              decide (s.urgency x < s.urgency b) := by
      intro b
      rw [Drain.countP_eq_of_mem hurgent.mem hfiled.nodup fun x _ hne => by
        rw [beq_eq_false_iff_ne.mpr hne, Bool.or_false], eligible_pendAct hurgent.eligible]
      simp
    have hfreeLrs := hrefilled.freeLrs
    constructor
    · intro h p' hp'
      rw [hunique p' hp']
      refine ⟨hforeign, fun b hb hblock helig => ?_⟩
      have hne : b ≠ p := fun heq => by rw [heq, hforeign] at hblock; cases hblock
      have hle := h b (hfiled.nodup.mem_erase_iff.mpr ⟨hne, hb⟩) hblock helig
      rw [hcount b]
      omega
    · intro h b hb hblock helig
      have hle := (h p hurgent).2 b (List.mem_of_mem_erase hb) hblock helig
      rw [hcount b] at hle
      omega

/-! ## List registers that have ended -/

def NoNewEnded (s s' : VgicState cpuNum intNum) (v : Fin cpuNum) : Prop :=
  ∀ j, s'.gichGetEisr v j = true → s.gichGetEisr v j = true

theorem NoNewEnded.trans {s'' : VgicState cpuNum intNum} (h : NoNewEnded s s' v)
    (h' : NoNewEnded s' s'' v) : NoNewEnded s s'' v :=
  fun j hj => h j (h' j hj)

theorem noNewEnded_of_lrs (h : s'.lrs = s.lrs) : NoNewEnded s s' v := by
  intro j hj
  rwa [gichGetEisr, h] at hj

theorem noNewEnded_gichWriteLr {lr : ListReg} (h : lr.isEnded = false) :
    NoNewEnded s (s.gichWriteLr v i lr) v := by
  intro j hj
  rw [gichGetEisr, lrs_gichWriteLr] at hj
  split at hj
  · cases h.symm.trans hj
  · exact hj

theorem noNewEnded_vgicRemoveLr : NoNewEnded s (s.vgicRemoveLr vm v r) v := by
  rw [vgicRemoveLr]
  split
  · exact noNewEnded_of_lrs rfl
  split
  · exact (noNewEnded_gichWriteLr rfl).trans (noNewEnded_of_lrs rfl)
  · exact noNewEnded_of_lrs rfl

theorem noNewEnded_vgicSpillLr : NoNewEnded s (s.vgicSpillLr vm v i) v := by
  rw [vgicSpillLr]
  split
  · rename_i spilled _
    have hremoved : NoNewEnded s (s.vgicRemoveLr vm v spilled) v := noNewEnded_vgicRemoveLr
    exact hremoved.trans (noNewEnded_of_lrs (vgicYieldOwnership_frame _ vm v spilled).1.lrs)
  · exact noNewEnded_of_lrs rfl

/-- What is written for an SGI has not ended: on the GICv2 its bit for the end is set only while
it is pending, and on the GICv3 never. -/
theorem isEnded_vgicLr (hsgi : gicIsSgi r.id = true) (interrupt : VgicInt cpuNum)
    (state : IntState) : (vm.vgicLr r interrupt state).1.isEnded = false := by
  have hhw : VgicVm.vgicIntIsHw r interrupt = false := by
    rw [VgicVm.vgicIntIsHw, hsgi]
    rfl
  rw [VgicVm.vgicLr, hhw]
  cases hversion : vm.version with
  | gicv2 =>
      rw [if_neg Bool.false_ne_true, if_pos ⟨rfl, hsgi⟩]
      cases hact : state.act with
      | true => rfl
      | false =>
          rw [if_neg Bool.false_ne_true]
          by_cases hpend : interrupt.sgiPend = 0#8
          · rw [hpend]
            rfl
          · obtain ⟨k, -, hk, -⟩ := exists_highestSet (exists_getLsbD hpend)
            rw [hk]
            rfl
  | gicv3 =>
      have hnot : ¬ (GicVersion.gicv3 = .gicv2 ∧ gicIsSgi r.id = true) := fun h => by cases h.1
      rw [if_neg Bool.false_ne_true, if_neg hnot, ListReg.isEnded, gicIsPriv_of_gicIsSgi hsgi]
      exact Bool.and_false _

theorem noNewEnded_vgicWriteLr (hsgi : gicIsSgi r.id = true) :
    NoNewEnded s (s.vgicWriteLr vm v r i) v := by
  have hforget : NoNewEnded s (s.forgetPrev vm v r i) v :=
    noNewEnded_of_lrs (samePlaces_forgetPrev s vm v r i).lrs
  exact hforget.trans (noNewEnded_gichWriteLr (isEnded_vgicLr hsgi _ _))

theorem noNewEnded_vgicAddLr (hsgi : gicIsSgi r.id = true) :
    NoNewEnded s (s.vgicAddLr vm v r) v := by
  rw [vgicAddLr]
  split
  · exact noNewEnded_of_lrs rfl
  split
  · exact noNewEnded_vgicWriteLr hsgi
  split
  · exact noNewEnded_vgicSpillLr.trans (noNewEnded_vgicWriteLr hsgi)
  · exact noNewEnded_of_lrs rfl

/-- A round clears a list register that had ended. -/
theorem trappedEoirRound_ended (hfirst : vm.firstLr (s.gichGetEisr v) = some i) :
    NoNewEnded s (s.trappedEoirRound vm v) v ∧
      (s.trappedEoirRound vm v).gichGetEisr v i = false := by
  rw [trappedEoirRound, hfirst]
  dsimp only
  generalize (vgicGetInt (s.lrs v i).vid v).getD (.priv v 0) = r
  have hcleared : NoNewEnded s (s.endedLr v r i) v :=
    (noNewEnded_gichWriteLr rfl).trans (noNewEnded_of_lrs rfl)
  have hzero : (s.endedLr v r i).gichGetEisr v i = false := by
    have hlr : (s.endedLr v r i).lrs v i = .zero :=
      (lrs_gichWriteLr s v v i i .zero).trans (if_pos ⟨rfl, rfl⟩)
    rw [gichGetEisr, hlr]
    rfl
  have hrest : NoNewEnded (s.endedLr v r i)
      (if gicIsSgi r.id then (s.endedLr v r i).vgicAddLr vm v r
        else (s.endedLr v r i).vgicYieldOwnership vm v r) v := by
    split
    · rename_i hsgi
      exact noNewEnded_vgicAddLr hsgi
    · exact noNewEnded_of_lrs (vgicYieldOwnership_frame _ vm v r).1.lrs
  refine ⟨hcleared.trans hrest, ?_⟩
  rw [Bool.eq_false_iff]
  intro hended
  cases hzero.symm.trans (hrest i hended)

/-- The loop of `vgic_handle_trapped_eoir` ends. -/
theorem ends_trapped (vm : VgicVm cpuNum intNum) (v : Fin cpuNum) (s : VgicState cpuNum intNum) :
    Loop.Ends (trappedStep vm v) s := by
  refine Loop.ends_of_measure (I := fun _ => True)
    (fun s => (List.range vm.numLrs).countP (s.gichGetEisr v)) ?_ trivial
  rintro s s' - hround
  obtain ⟨i, hfirst, rfl⟩ := Option.map_eq_some_iff.mp hround
  obtain ⟨hmono, hcleared⟩ := trappedEoirRound_ended hfirst
  have hmem : i ∈ List.range vm.numLrs := List.mem_of_find?_eq_some hfirst
  have hended : s.gichGetEisr v i = true := VgicVm.of_firstLr hfirst
  refine ⟨trivial, ?_⟩
  rw [Drain.countP_eq_of_mem hmem List.nodup_range (f := s.gichGetEisr v) fun _ _ _ => rfl,
    Drain.countP_eq_of_mem hmem List.nodup_range
      (f := (s.trappedEoirRound vm v).gichGetEisr v) fun _ _ _ => rfl, hended, hcleared]
  have hle := List.countP_mono_left (l := (List.range vm.numLrs).erase i)
    fun j _ hj => hmono j hj
  rw [Bool.toNat_true, Bool.toNat_false, Nat.zero_add, Nat.add_comm]
  exact Nat.lt_succ_of_le hle

/-- Both loops of a maintenance interrupt end, without a step of another CPU, exactly under the
condition for `vgic_refill_lrs`. -/
theorem ends_maintenance_iff (vm : VgicVm cpuNum intNum) (v : Fin cpuNum) (flags : IntState)
    (s : VgicState cpuNum intNum) (hfiled : s.Filed) :
    Loop.Ends (refillStep vm v) (flags, s) ∧ Loop.Ends (trappedStep vm v) s ↔
      s.RefillEnds vm v flags := by
  rw [and_iff_left (ends_trapped vm v s)]
  exact ends_refill_iff hfiled

/-- A maintenance interrupt is handled in so many rounds of each loop, whatever the rounds that the
loops may take. -/
theorem exists_gicMaintenanceHandler (vm : VgicVm cpuNum intNum) (v : Fin cpuNum) (misr : Misr)
    (eoiCount : ℕ) (s : VgicState cpuNum intNum) :
    ∃ n s', (∀ m, n ≤ m → (if misr.eoi then vgicHandleTrappedEoir vm v m s else s) = s') ∧
      (s'.Filed → s'.RefillEnds vm v (if misr.np then .pending else .pendAct) →
        ∃ k, ∀ m, k ≤ m → gicMaintenanceHandler vm v misr eoiCount m s =
          gicMaintenanceHandler vm v misr eoiCount k s) := by
  obtain ⟨n, hn⟩ := ends_trapped vm v s
  have htrapped : ∀ m, n ≤ m → (if misr.eoi then vgicHandleTrappedEoir vm v m s else s) =
      if misr.eoi then vgicHandleTrappedEoir vm v n s else s := by
    intro m hm
    rw [vgicHandleTrappedEoir_eq_run, vgicHandleTrappedEoir_eq_run, Loop.run_eq_of_endsIn hn hm]
  refine ⟨n, _, htrapped, fun hfiled hrefill => ?_⟩
  obtain ⟨k, hk⟩ := (ends_refill_iff hfiled).mpr hrefill
  refine ⟨max n k, fun m hm => ?_⟩
  have hle := max_le_iff.mp hm
  rw [gicMaintenanceHandler, gicMaintenanceHandler, htrapped m hle.1,
    htrapped (max n k) (Nat.le_max_left n k), vgicRefillLrs_eq_run, vgicRefillLrs_eq_run,
    Loop.run_eq_of_endsIn hk hle.2, Loop.run_eq_of_endsIn hk (Nat.le_max_right n k)]

def spilledActive (owner : Fin 2) : VgicState 2 96 :=
  let s := (uniform (initialInt none)).setInt (.spi 0)
    { initialInt (some owner) with state := .active, prio := 0x20#8, enabled := true }
  { s with spilled := Function.update s.spilled .vm ⟨some (.spi 0), some (.spi 0)⟩ }

theorem spilledNodes_spilledActive (owner : Fin 2) :
    (spilledActive owner).spilledNodes =
      Function.update (fun _ => []) .vm [(.spi 0 : IntRef 2 96)] := by
  funext q
  cases q with
  | vcpu w => rfl
  | vm => rfl

theorem filed_spilledActive (owner : Fin 2) : (spilledActive owner).Filed := by
  refine ⟨fun q => ?_, fun q x hx => ?_⟩
  · rw [spilledNodes_spilledActive]
    cases q with
    | vcpu w => rfl
    | vm => exact ⟨rfl, rfl⟩
  · rw [spilledNodes_spilledActive] at hx
    cases q with
    | vcpu w => cases hx
    | vm =>
        rw [List.mem_singleton.mp hx]
        rfl

/-- vCPU 1 owns the interrupt, and vCPU 0 tries to take it for ever. -/
theorem not_ends_refill_spilledActive :
    (spilledActive 1).Filed ∧
      ¬ Loop.Ends (refillStep twoVcpus 0) (.pendAct, spilledActive 1) :=
  ⟨filed_spilledActive 1, Loop.not_ends_of_fixed
    (refillStep_of_foreign (i := 0) (p := .spi 0) (q := .vm) rfl rfl rfl)⟩

/-- vCPU 0 owns the interrupt itself. -/
theorem ends_maintenance_spilledActive :
    Loop.Ends (refillStep twoVcpus 0) (.pendAct, spilledActive 0) ∧
      Loop.Ends (trappedStep twoVcpus 0) (spilledActive 0) := by
  refine (ends_maintenance_iff twoVcpus 0 .pendAct (spilledActive 0)
    (filed_spilledActive 0)).mpr (.inr fun p hp => ?_)
  have hforeign : ∀ x ∈ (spilledActive 0).waiting 0, (spilledActive 0).foreign 0 x = false := by
    intro x hx
    rw [waiting, spilledNodes_spilledActive] at hx
    rw [List.mem_singleton.mp hx]
    rfl
  refine ⟨hforeign p hp.mem, fun b hb hblock => ?_⟩
  cases (hforeign b hb).symm.trans hblock

end VgicState

end BaoHypervisor
