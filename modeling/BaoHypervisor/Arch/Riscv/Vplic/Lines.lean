import BaoHypervisor.Arch.Riscv.Vplic.Delivery
import BaoHypervisor.Theory.Run

/-!
# Virtual interrupt lines

A hart of the guest sees its external interrupt line, `HVIP.VSEIP`. An operation
of the vPLIC changes the pending condition of contexts on any hart, and asks for
the lines of some of them to be brought up to date: on its own hart at once, on
another one through an `UPDATE_HART_LINE` message. Until then the update is due.

A context is covered while its line is set or an update of it is due. The
operations leave a context uncovered that has something to deliver when they make
a source deliverable to a context whose line they do not ask for: priorities and
enables of hardware interrupts, the drain of a claim, the completion by another
context, and the injection of a hardware interrupt on another hart.
-/

namespace BaoHypervisor

open Bitmap

def linesToUpdate (effects : List VplicEffect) : List ℕ :=
  effects.filterMap fun
    | .updateHartLine vcntxt => some vcntxt
    | _ => none

theorem linesToUpdate_map (vcntxts : List ℕ) :
    linesToUpdate (vcntxts.map .updateHartLine) = vcntxts := by
  rw [linesToUpdate, List.filterMap_map]
  exact List.filterMap_some

/-- The vPLIC of a VM, the lines of its harts, and the updates that are due: each
with the hart that runs it and the context. -/
structure LineState where
  vplic : Vplic
  vseip : ℕ → Bool
  due : List (ℕ × ℕ)

inductive LineAct
  | access (hart : ℕ) (a : Vplic.Access)
  | update (k : ℕ)
deriving DecidableEq, Repr

def LineAct.Below : LineAct → Prop
  | .access _ a => a.Below
  | .update _ => True

instance : DecidablePred LineAct.Below
  | .access _ a => inferInstanceAs (Decidable a.Below)
  | .update _ => inferInstanceAs (Decidable True)

namespace LineState

open Vplic

/-- `vplic_update_hart_line` on `hart`, or `vplic_ipi_handler` there. The update of
another hart's line is sent to it. -/
def updateHartLine (s : LineState) (hart vcntxt : ℕ) : LineState :=
  if vcntxt / 2 = hart then
    { s with vseip := Function.update s.vseip hart (decide (s.vplic.vplicNextPending vcntxt ≠ 0)) }
  else { s with due := s.due ++ [(vcntxt / 2, vcntxt)] }

def step (platCpuNum : ℕ) (s : LineState) : LineAct → LineState
  | .access hart a =>
      { s with
        vplic := s.vplic.guestAccess platCpuNum a
        due := s.due ++ (linesToUpdate (s.vplic.guestEffects platCpuNum a)).map (hart, ·) }
  | .update k =>
      match s.due[k]? with
      | some (hart, vcntxt) => { s with due := s.due.eraseIdx k }.updateHartLine hart vcntxt
      | none => s

def Covered (s : LineState) (vcntxt : ℕ) : Prop :=
  s.vseip (vcntxt / 2) = true ∨ ∃ hart, (hart, vcntxt) ∈ s.due

def Exposed (s : LineState) (vcntxt : ℕ) : Prop :=
  s.vplic.vcntxtValid vcntxt = true ∧ ¬ s.Covered vcntxt

/-- Every context with something to deliver is covered. -/
def LinesCovered (s : LineState) : Prop :=
  ∀ vcntxt, s.vplic.vcntxtValid vcntxt = true →
    (∃ id, s.vplic.deliverable vcntxt id = true) → s.Covered vcntxt

/-- With no update due, the line of every context with a pending interrupt is set. -/
def LinesDelivered (s : LineState) : Prop :=
  s.due = [] → ∀ vcntxt, s.vplic.vcntxtValid vcntxt = true →
    s.vplic.vplicNextPending vcntxt ≠ 0 → s.vseip (vcntxt / 2) = true

theorem LinesCovered.delivered {s : LineState} (h : s.LinesCovered) : s.LinesDelivered := by
  intro hdue vcntxt hvalid hne
  rcases vplicNextPending_cases s.vplic vcntxt with ⟨hzero, -⟩ | ⟨hsome, -⟩
  · exact absurd hzero hne
  · rcases h vcntxt hvalid ⟨_, hsome⟩ with hline | ⟨hart, hmem⟩
    · exact hline
    · rw [hdue] at hmem
      cases hmem

/-- No access makes a source deliverable to a context that is exposed and whose
line it does not ask for. -/
def KeepsLines (s : LineState) : LineAct → Prop
  | .access _ (.setPrio id prio) =>
      s.vplic.vplicGetHw id = true → ∀ vcntxt, s.Exposed vcntxt →
        s.vplic.candidate vcntxt id = true → ¬ s.vplic.threshold vcntxt < prio
  | .access _ (.setEnbl vcntxt id set) =>
      s.vplic.vplicGetHw id = true → set = true → s.Exposed vcntxt →
        (s.vplic.source id).pend = true → (s.vplic.source id).act = false →
          ¬ s.vplic.threshold vcntxt < s.vplic.prio id
  | .access _ (.claim vcntxt now) =>
      s.vplic.vcntxtValid vcntxt = true → ∀ vcntxt' ≠ vcntxt, s.Exposed vcntxt' →
        ∀ id, 0 < id → id < plicMaxInterrupts → id ≠ s.vplic.vplicNextPending vcntxt →
          (s.vplic.source id).Drains now → (s.vplic.source id).act = false →
            ¬ s.vplic.Unmasked vcntxt' id
  | .access _ (.complete vcntxt id) =>
      s.vplic.vcntxtValid vcntxt = true → ∀ vcntxt' ≠ vcntxt, s.Exposed vcntxt' →
        (s.vplic.source id).pend = true → ¬ s.vplic.Unmasked vcntxt' id
  | .access _ (.inject vcpuId id now) =>
      0 < id → s.vplic.vplicGetHw id = true → (s.vplic.source id).pend = false →
        (s.vplic.source id).LetsThrough now → (s.vplic.source id).act = false →
          ∀ vcntxt ≠ vcpuId * 2 + 1, s.Exposed vcntxt → ¬ s.vplic.Unmasked vcntxt id
  | _ => True

/-! ## One access -/

section Access

variable {platCpuNum : ℕ} {s : LineState} {hart : ℕ} {a : Access}

theorem covered_access_iff (vcntxt : ℕ) :
    (s.step platCpuNum (.access hart a)).Covered vcntxt ↔
      s.Covered vcntxt ∨ vcntxt ∈ linesToUpdate (s.vplic.guestEffects platCpuNum a) := by
  rw [Covered, Covered, step, or_assoc]
  refine or_congr_right ?_
  simp only [List.mem_append, List.mem_map, Prod.mk.injEq]
  constructor
  · rintro ⟨h, hmem | ⟨c, hmem, rfl, rfl⟩⟩
    · exact .inl ⟨h, hmem⟩
    · exact .inr hmem
  · rintro (⟨h, hmem⟩ | hmem)
    · exact ⟨h, .inl hmem⟩
    · exact ⟨hart, .inr ⟨vcntxt, hmem, rfl, rfl⟩⟩

/-- An access whose effect on the contexts it does not ask for is `N` keeps the
lines covered exactly when nothing new is deliverable to an exposed one. -/
theorem linesCovered_access_iff (h : s.LinesCovered) (ha : a.Below) {N : ℕ → ℕ → Prop}
    (hold : ∀ vcntxt id, s.vplic.vcntxtValid vcntxt = true →
      vcntxt ∉ linesToUpdate (s.vplic.guestEffects platCpuNum a) →
      (s.vplic.access a).deliverable vcntxt id = true →
      s.vplic.deliverable vcntxt id = true ∨ N vcntxt id)
    (hnew : ∀ vcntxt id, s.vplic.vcntxtValid vcntxt = true →
      vcntxt ∉ linesToUpdate (s.vplic.guestEffects platCpuNum a) → N vcntxt id →
      (s.vplic.access a).deliverable vcntxt id = true) :
    (s.step platCpuNum (.access hart a)).LinesCovered ↔
      ∀ vcntxt, s.Exposed vcntxt →
        vcntxt ∉ linesToUpdate (s.vplic.guestEffects platCpuNum a) → ∀ id, ¬ N vcntxt id := by
  have hvplic : (s.step platCpuNum (.access hart a)).vplic = s.vplic.access a :=
    guestAccess_of_below platCpuNum s.vplic ha
  have hvalid : ∀ vcntxt, (s.vplic.access a).vcntxtValid vcntxt = s.vplic.vcntxtValid vcntxt :=
    vcntxtValid_access s.vplic a
  constructor
  · intro h' vcntxt hexposed hlines id hid
    have hcovered := h' vcntxt (by rw [hvplic, hvalid]; exact hexposed.1)
      ⟨id, by rw [hvplic]; exact hnew vcntxt id hexposed.1 hlines hid⟩
    rcases (covered_access_iff vcntxt).mp hcovered with hcovered | hmem
    · exact hexposed.2 hcovered
    · exact hlines hmem
  · rintro hnone vcntxt hvcntxt ⟨id, hid⟩
    rw [hvplic, hvalid] at hvcntxt
    rw [hvplic] at hid
    rw [covered_access_iff]
    by_contra hnot
    obtain ⟨huncovered, hlines⟩ := not_or.mp hnot
    rcases hold vcntxt id hvcntxt hlines hid with hbefore | hnew'
    · exact huncovered (h vcntxt hvcntxt ⟨id, hbefore⟩)
    · exact hnone vcntxt ⟨hvcntxt, huncovered⟩ hlines id hnew'

theorem deliverable_setPrio (v : Vplic) {id : ℕ} (hid : id ≤ plicMaxInterrupts)
    (prio : BitVec 32) (vcntxt j : ℕ) :
    (v.access (.setPrio id prio)).deliverable vcntxt j = true ↔
      if j = id then v.candidate vcntxt id = true ∧ v.threshold vcntxt < prio
      else v.deliverable vcntxt j = true := by
  have haccess : v.access (.setPrio id prio) =
      { v with prio := Function.update v.prio id prio } := by
    rw [access, vplicSetPrio, vplicGetPrio, if_pos hid]
    by_cases hchanged : id ≤ plicMaxInterrupts ∧ v.prio id ≠ prio
    · rw [if_pos hchanged]
    · rw [if_neg hchanged]
      have hsame : v.prio id = prio := not_not.mp fun hne => hchanged ⟨hid, hne⟩
      rw [← hsame, Function.update_eq_self]
  rw [haccess, deliverable_iff]
  split_ifs with hj
  · rw [hj, vplicGetPrio, if_pos hid]
    dsimp only
    rw [Function.update_self]
    rfl
  · rw [deliverable_iff, vplicGetPrio]
    dsimp only
    rw [Function.update_of_ne hj]
    rfl

theorem linesCovered_access (h : s.LinesCovered) (ha : a.Below)
    (hold : ∀ vcntxt id, s.vplic.vcntxtValid vcntxt = true →
      vcntxt ∉ linesToUpdate (s.vplic.guestEffects platCpuNum a) →
      (s.vplic.access a).deliverable vcntxt id = true →
      s.vplic.deliverable vcntxt id = true) :
    (s.step platCpuNum (.access hart a)).LinesCovered :=
  (linesCovered_access_iff h ha (N := fun _ _ => False)
    (fun vcntxt id hvalid hlines hid => .inl (hold vcntxt id hvalid hlines hid))
    (fun _ _ _ _ hfalse => hfalse.elim)).mpr fun _ _ _ _ hfalse => hfalse

theorem vcntxtValid_iff {v : Vplic} {vcntxt : ℕ} :
    v.vcntxtValid vcntxt = true ↔ vcntxt < v.cntxtNum ∧ plicSupervisor vcntxt = true := by
  rw [vcntxtValid, Bool.and_eq_true, decide_eq_true_iff]

theorem linesCovered_setPrio_iff (h : s.LinesCovered) {id : ℕ} {prio : BitVec 32}
    (hid : id < plicMaxInterrupts) :
    (s.step platCpuNum (.access hart (.setPrio id prio))).LinesCovered ↔
      s.KeepsLines (.access hart (.setPrio id prio)) := by
  have hdeliverable := deliverable_setPrio s.vplic hid.le prio
  rw [KeepsLines]
  by_cases hhw : s.vplic.vplicGetHw id = true
  · have hlines : linesToUpdate (s.vplic.guestEffects platCpuNum (.setPrio id prio)) = [] := by
      rw [guestEffects, vplicSetPrio, if_pos hhw]
      split_ifs <;> rfl
    rw [forall_prop_of_true hhw]
    refine (linesCovered_access_iff (a := .setPrio id prio) h hid
      (N := fun vcntxt j => j = id ∧ s.vplic.candidate vcntxt id = true ∧
        s.vplic.threshold vcntxt < prio) ?_ ?_).trans ?_
    · intro vcntxt j _ _ hj
      rw [hdeliverable] at hj
      split_ifs at hj with heq
      · exact .inr ⟨heq, hj⟩
      · exact .inl hj
    · rintro vcntxt j _ _ ⟨heq, hj⟩
      rw [hdeliverable, if_pos heq]
      exact hj
    · rw [hlines]
      constructor
      · intro hnone vcntxt hexposed hcand hprio
        exact hnone vcntxt hexposed List.not_mem_nil id ⟨rfl, hcand, hprio⟩
      · rintro hnone vcntxt hexposed - j ⟨-, hcand, hprio⟩
        exact hnone vcntxt hexposed hcand hprio
  · refine iff_of_true (linesCovered_access (a := .setPrio id prio) h hid ?_)
      fun hhw' => absurd hhw' hhw
    intro vcntxt j hvalid hlines hj
    rw [hdeliverable] at hj
    split_ifs at hj with heq
    · -- A context that has the source enabled is asked for, unless nothing changed.
      have henbl : s.vplic.vplicGetEnbl id vcntxt = true := by
        have hcand := hj.1
        rw [candidate, Bool.and_eq_true] at hcand
        exact hcand.2
      by_cases hchanged : id ≤ plicMaxInterrupts ∧ s.vplic.vplicGetPrio id ≠ prio
      · refine absurd ?_ hlines
        obtain ⟨hlt, hsupervisor⟩ := vcntxtValid_iff.mp hvalid
        rw [guestEffects, vplicSetPrio, if_pos hchanged]
        dsimp only
        rw [if_neg hhw, linesToUpdate]
        simp [hlt, hsupervisor, henbl]
      · have hsame : s.vplic.vplicGetPrio id = prio :=
          not_not.mp fun hne => hchanged ⟨hid.le, hne⟩
        rw [heq, deliverable_iff, hsame]
        exact hj
    · exact hj

theorem deliverable_setEnbl (v : Vplic) (vcntxt : ℕ) {id : ℕ} (hid : id ≤ plicMaxInterrupts)
    (set : Bool) (c j : ℕ) :
    (v.vplicSetEnbl vcntxt id set).1.deliverable c j = true ↔
      if c = vcntxt ∧ j = id then
        set = true ∧ (v.source id).pend = true ∧ (v.source id).act = false ∧
          v.threshold vcntxt < v.prio id
      else v.deliverable c j = true := by
  obtain ⟨map, heq, hother, hself⟩ := vplicSetEnbl_frame v vcntxt id set
  rw [heq, deliverable_iff_source, Unmasked]
  dsimp only
  by_cases hc : c = vcntxt
  · rw [hc, Function.update_self]
    by_cases hj : j = id
    · rw [if_pos ⟨rfl, hj⟩, hj, hself hid, and_iff_right hid]
      constructor
      · rintro ⟨hpend, hact, hset, hprio⟩
        exact ⟨hset, hpend, hact, hprio⟩
      · rintro ⟨hset, hpend, hact, hprio⟩
        exact ⟨hpend, hact, hset, hprio⟩
    · rw [if_neg fun h => hj h.2, hother j hj, deliverable_iff_source]
      rfl
  · rw [Function.update_of_ne hc, if_neg fun h => hc h.1, deliverable_iff_source]
    rfl

theorem linesCovered_setEnbl_iff (h : s.LinesCovered) {vcntxt id : ℕ} {set : Bool}
    (hid : id < plicMaxInterrupts) :
    (s.step platCpuNum (.access hart (.setEnbl vcntxt id set))).LinesCovered ↔
      s.KeepsLines (.access hart (.setEnbl vcntxt id set)) := by
  have hdeliverable := deliverable_setEnbl s.vplic vcntxt hid.le set
  rw [KeepsLines]
  by_cases hvalid : s.vplic.vcntxtValid vcntxt = true
  · have haccess : s.vplic.access (.setEnbl vcntxt id set) =
        (s.vplic.vplicSetEnbl vcntxt id set).1 := if_pos hvalid
    by_cases hhw : s.vplic.vplicGetHw id = true
    · have hlines : linesToUpdate (s.vplic.guestEffects platCpuNum (.setEnbl vcntxt id set)) =
          [] := by
        rw [guestEffects, vplicSetEnbl, if_pos hhw]
        split_ifs <;> rfl
      rw [forall_prop_of_true hhw]
      refine (linesCovered_access_iff (a := .setEnbl vcntxt id set) h hid
        (N := fun c j => (c = vcntxt ∧ j = id) ∧ set = true ∧ (s.vplic.source id).pend = true ∧
          (s.vplic.source id).act = false ∧ s.vplic.threshold vcntxt < s.vplic.prio id)
        ?_ ?_).trans ?_
      · intro c j _ _ hj
        rw [haccess, hdeliverable] at hj
        split_ifs at hj with heq
        · exact .inr ⟨heq, hj⟩
        · exact .inl hj
      · rintro c j _ _ ⟨heq, hj⟩
        rw [haccess, hdeliverable, if_pos heq]
        exact hj
      · rw [hlines]
        constructor
        · intro hnone hset hexposed hpend hact hprio
          exact hnone vcntxt hexposed List.not_mem_nil id
            ⟨⟨rfl, rfl⟩, hset, hpend, hact, hprio⟩
        · rintro hnone c hexposed - j ⟨⟨rfl, -⟩, hset, hpend, hact, hprio⟩
          exact hnone hset hexposed hpend hact hprio
    · refine iff_of_true (linesCovered_access (a := .setEnbl vcntxt id set) h hid ?_)
        fun hhw' => absurd hhw' hhw
      intro c j _ hlines hj
      rw [haccess] at hj
      rw [guestEffects, if_pos hvalid] at hlines
      by_cases hchanged : id ≤ plicMaxInterrupts ∧ s.vplic.vplicGetEnbl id vcntxt ≠ set
      · rw [vplicSetEnbl, if_pos hchanged] at hlines
        dsimp only at hlines
        rw [if_neg hhw] at hlines
        rw [hdeliverable, if_neg fun heq => hlines (by simp [linesToUpdate, heq.1])] at hj
        exact hj
      · rwa [vplicSetEnbl, if_neg hchanged] at hj
  · refine iff_of_true (linesCovered_access (a := .setEnbl vcntxt id set) h hid ?_)
      fun _ _ hexposed => absurd hexposed.1 hvalid
    intro c j _ _ hj
    rwa [access, if_neg hvalid] at hj

theorem linesCovered_setThreshold (h : s.LinesCovered) (vcntxt : ℕ) (threshold : BitVec 32) :
    (s.step platCpuNum (.access hart (.setThreshold vcntxt threshold))).LinesCovered := by
  refine linesCovered_access (a := .setThreshold vcntxt threshold) h
    (show 0 < plicMaxInterrupts by decide) ?_
  intro c j _ hlines hj
  rw [access] at hj
  rw [guestEffects] at hlines
  split_ifs at hj hlines
  · have hc : c ≠ vcntxt := by
      rintro rfl
      exact hlines (by simp [vplicSetThreshold, linesToUpdate])
    rw [vplicSetThreshold, deliverable_iff] at hj
    dsimp only at hj
    rw [Function.update_of_ne hc] at hj
    exact deliverable_iff.mpr hj
  · exact hj

theorem linesCovered_claim_iff (h : s.LinesCovered) (vcntxt : ℕ) (now : BitVec 64) :
    (s.step platCpuNum (.access hart (.claim vcntxt now))).LinesCovered ↔
      s.KeepsLines (.access hart (.claim vcntxt now)) := by
  have hbelow : (Access.claim vcntxt now).Below := show 0 < plicMaxInterrupts by decide
  rw [KeepsLines]
  by_cases hvalid : s.vplic.vcntxtValid vcntxt = true
  · have haccess : s.vplic.access (.claim vcntxt now) = (s.vplic.vplicClaim vcntxt now).1 :=
      if_pos hvalid
    have hlines : linesToUpdate (s.vplic.guestEffects platCpuNum (.claim vcntxt now)) =
        [vcntxt] := by
      rw [guestEffects, if_pos hvalid, vplicClaim]
      rfl
    have hunmasked : ∀ c j, (s.vplic.vplicClaim vcntxt now).1.Unmasked c j ↔
        s.vplic.Unmasked c j := by
      intro c j
      obtain ⟨pend, act, deferred, buckets, heq⟩ := vplicClaim_frame s.vplic vcntxt now
      rw [heq]
      rfl
    rw [forall_prop_of_true hvalid]
    refine (linesCovered_access_iff h hbelow
      (N := fun c j => (0 < j ∧ j < plicMaxInterrupts) ∧ j ≠ s.vplic.vplicNextPending vcntxt ∧
        (s.vplic.source j).Drains now ∧ (s.vplic.source j).act = false ∧
          s.vplic.Unmasked c j) ?_ ?_).trans ?_
    · intro c j _ _ hj
      rw [haccess, deliverable_iff_source, source_vplicClaim_eq, hunmasked] at hj
      dsimp only at hj
      obtain ⟨hle, hpend, hact, hmask⟩ := hj
      have hne : j ≠ s.vplic.vplicNextPending vcntxt := by
        intro heq
        rw [if_pos heq] at hact
        split_ifs at hact
        · rw [SourceState.act_drain] at hact
          exact Bool.false_ne_true hact.symm
        · exact Bool.false_ne_true hact.symm
      rw [if_neg hne] at hpend hact
      by_cases hmem : j ∈ drainedIds
      · rw [if_pos hmem] at hpend hact
        rw [SourceState.act_drain] at hact
        rcases (SourceState.pend_drain_iff now).mp hpend with hpend | hdrains
        · exact .inl (deliverable_iff_source.mpr ⟨hle, hpend, hact, hmask⟩)
        · exact .inr ⟨mem_drainedIds.mp hmem, hne, hdrains, hact, hmask⟩
      · rw [if_neg hmem] at hpend hact
        exact .inl (deliverable_iff_source.mpr ⟨hle, hpend, hact, hmask⟩)
    · rintro c j _ _ ⟨hrange, hne, hdrains, hact, hmask⟩
      rw [haccess, deliverable_iff_source, source_vplicClaim_eq, hunmasked]
      dsimp only
      rw [if_neg hne, if_pos (mem_drainedIds.mpr hrange), SourceState.act_drain,
        SourceState.pend_drain_iff]
      exact ⟨hrange.2.le, .inr hdrains, hact, hmask⟩
    · rw [hlines]
      simp only [List.mem_singleton]
      constructor
      · intro hnone c hc hexposed j hpos hlt hne hdrains hact hmask
        exact hnone c hexposed hc j ⟨⟨hpos, hlt⟩, hne, hdrains, hact, hmask⟩
      · rintro hnone c hexposed hc j ⟨⟨hpos, hlt⟩, hne, hdrains, hact, hmask⟩
        exact hnone c hc hexposed j hpos hlt hne hdrains hact hmask
  · refine iff_of_true (linesCovered_access h hbelow fun c j _ _ hj => ?_)
      fun hvalid' => absurd hvalid' hvalid
    rwa [access, if_neg hvalid] at hj

theorem linesCovered_complete_iff (h : s.LinesCovered) {vcntxt id : ℕ}
    (hid : id < plicMaxInterrupts) :
    (s.step platCpuNum (.access hart (.complete vcntxt id))).LinesCovered ↔
      s.KeepsLines (.access hart (.complete vcntxt id)) := by
  rw [KeepsLines]
  by_cases hvalid : s.vplic.vcntxtValid vcntxt = true
  · have haccess : s.vplic.access (.complete vcntxt id) =
        (s.vplic.vplicComplete vcntxt id).1 := if_pos hvalid
    have hlines : linesToUpdate (s.vplic.guestEffects platCpuNum (.complete vcntxt id)) =
        [vcntxt] := by
      rw [guestEffects, if_pos hvalid, completeAny_of_lt platCpuNum s.vplic vcntxt hid,
        vplicComplete]
      split_ifs <;> rfl
    have hunmasked : ∀ c j, (s.vplic.vplicComplete vcntxt id).1.Unmasked c j ↔
        s.vplic.Unmasked c j := fun _ _ => Iff.rfl
    rw [forall_prop_of_true hvalid]
    refine (linesCovered_access_iff (a := .complete vcntxt id) h hid
      (N := fun c j => j = id ∧ (s.vplic.source id).pend = true ∧ s.vplic.Unmasked c id)
      ?_ ?_).trans ?_
    · intro c j _ _ hj
      rw [haccess, deliverable_iff_source, source_vplicComplete, hunmasked] at hj
      split_ifs at hj with heq
      · subst heq
        exact .inr ⟨rfl, hj.2.1, hj.2.2.2⟩
      · exact .inl (deliverable_iff_source.mpr hj)
    · rintro c j _ _ ⟨rfl, hpend, hmask⟩
      rw [haccess, deliverable_iff_source, source_vplicComplete, hunmasked, if_pos rfl]
      exact ⟨hid.le, hpend, rfl, hmask⟩
    · rw [hlines]
      simp only [List.mem_singleton]
      constructor
      · intro hnone c hc hexposed hpend hmask
        exact hnone c hexposed hc id ⟨rfl, hpend, hmask⟩
      · rintro hnone c hexposed hc j ⟨-, hpend, hmask⟩
        exact hnone c hc hexposed hpend hmask
  · refine iff_of_true (linesCovered_access (a := .complete vcntxt id) h hid
      fun c j _ _ hj => ?_) fun hvalid' => absurd hvalid' hvalid
    rwa [access, if_neg hvalid] at hj

/-- What an injection that is let through asks for. -/
theorem linesToUpdate_inject (platCpuNum : ℕ) (v : Vplic) (vcpuId : ℕ) {id : ℕ}
    {now : BitVec 64} (hpos : 0 < id) (hid : id ≤ plicMaxInterrupts)
    (hpend : (v.source id).pend = false)
    (hthrough : (v.source id).LetsThrough now) (vcntxt : ℕ) :
    vcntxt ∈ linesToUpdate (v.guestEffects platCpuNum (.inject vcpuId id now)) ↔
      if v.vplicGetHw id then vcntxt = vcpuId * 2 + 1
      else v.vcntxtValid vcntxt = true ∧ v.Unmasked vcntxt id := by
  have hget : v.vplicGetPend id = false := by
    rw [vplicGetPend, decide_eq_true hid, Bool.true_and]
    exact hpend
  have hallow : (irqBucketConsume now (v.buckets id)).2 = .allow :=
    (SourceState.letsThrough_iff (s := v.source id) now).mp hthrough
  have henbl : v.vplicGetEnbl id vcntxt = bitmapGet (v.enbl vcntxt) id := by
    rw [vplicGetEnbl, decide_eq_true hid, Bool.true_and]
  have hprio : v.vplicGetPrio id = v.prio id := if_pos hid
  rw [guestEffects, vplicInject, if_pos ⟨hpos, hid, hget⟩]
  dsimp only
  rw [hallow]
  dsimp only
  by_cases hhw : v.vplicGetHw id = true
  · have hhw' : bitmapGet v.hw id = true := by
      rw [vplicGetHw, Bool.and_eq_true] at hhw
      exact hhw.2
    simp [linesToUpdate, vplicGetHw, hid, hhw']
  · have hhw' : bitmapGet v.hw id = false := by
      rw [vplicGetHw, decide_eq_true hid, Bool.true_and, Bool.not_eq_true] at hhw
      exact hhw
    simp [linesToUpdate, vplicGetHw, vplicGetPrio, vplicGetEnbl, hid, hhw', vcntxtValid_iff,
      Unmasked, and_assoc]

theorem linesCovered_inject_iff (h : s.LinesCovered) (vcpuId : ℕ) {id : ℕ} (now : BitVec 64)
    (hid : id < plicMaxInterrupts) :
    (s.step platCpuNum (.access hart (.inject vcpuId id now))).LinesCovered ↔
      s.KeepsLines (.access hart (.inject vcpuId id now)) := by
  have hsource : ∀ j, (s.vplic.access (.inject vcpuId id now)).source j =
      if j = id ∧ 0 < id then (s.vplic.source j).inject now else s.vplic.source j := by
    intro j
    rw [access, source_vplicInject]
    simp only [hid.le, and_true]
  have hunmasked : ∀ c j, (s.vplic.access (.inject vcpuId id now)).Unmasked c j ↔
      s.vplic.Unmasked c j := by
    intro c j
    obtain ⟨pend, deferred, buckets, heq⟩ := vplicInject_frame s.vplic now vcpuId id
    rw [access, heq]
    rfl
  rw [KeepsLines]
  refine (linesCovered_access_iff (a := .inject vcpuId id now) h hid
    (N := fun c j => (j = id ∧ 0 < id) ∧ (s.vplic.source id).pend = false ∧
      (s.vplic.source id).LetsThrough now ∧ (s.vplic.source id).act = false ∧
        s.vplic.Unmasked c id) ?_ ?_).trans ?_
  · intro c j _ _ hj
    rw [deliverable_iff_source, hsource, hunmasked] at hj
    split_ifs at hj with heq
    · rw [SourceState.pend_inject_iff, SourceState.act_inject] at hj
      obtain ⟨hle, hpend, hact, hmask⟩ := hj
      by_cases hbefore : (s.vplic.source j).pend = true
      · exact .inl (deliverable_iff_source.mpr ⟨hle, hbefore, hact, hmask⟩)
      · have hthrough := hpend.resolve_left hbefore
        rw [heq.1] at hbefore hthrough hact hmask
        exact .inr ⟨heq, Bool.eq_false_iff.mpr hbefore, hthrough, hact, hmask⟩
    · exact .inl (deliverable_iff_source.mpr hj)
  · rintro c j _ _ ⟨heq, -, hthrough, hact, hmask⟩
    rw [deliverable_iff_source, hsource, hunmasked, if_pos heq, SourceState.pend_inject_iff,
      SourceState.act_inject, heq.1]
    exact ⟨hid.le, .inr hthrough, hact, hmask⟩
  · constructor
    · intro hnone hpos hhw hpend hthrough hact c hc hexposed hmask
      have hlines := linesToUpdate_inject platCpuNum s.vplic vcpuId hpos hid.le
        hpend hthrough c
      rw [if_pos hhw] at hlines
      exact hnone c hexposed (fun hmem => hc (hlines.mp hmem)) id
        ⟨⟨rfl, hpos⟩, hpend, hthrough, hact, hmask⟩
    · rintro hkeeps c hexposed hnot j ⟨⟨-, hpos⟩, hpend, hthrough, hact, hmask⟩
      have hlines := linesToUpdate_inject platCpuNum s.vplic vcpuId hpos hid.le
        hpend hthrough c
      rw [hlines] at hnot
      by_cases hhw : s.vplic.vplicGetHw id = true
      · rw [if_pos hhw] at hnot
        exact hkeeps hpos hhw hpend hthrough hact c hnot hexposed hmask
      · rw [if_neg hhw] at hnot
        exact hnot ⟨hexposed.1, hmask⟩

/-- An access that names an interrupt below `plicMaxInterrupts` keeps every context
with something to deliver covered exactly when it meets its condition. -/
theorem linesCovered_step_access_iff (h : s.LinesCovered) (ha : a.Below) :
    (s.step platCpuNum (.access hart a)).LinesCovered ↔ s.KeepsLines (.access hart a) := by
  cases a with
  | setPrio id prio => exact linesCovered_setPrio_iff h ha
  | setEnbl vcntxt id set => exact linesCovered_setEnbl_iff h ha
  | setThreshold vcntxt threshold =>
      exact iff_of_true (linesCovered_setThreshold h vcntxt threshold) trivial
  | claim vcntxt now => exact linesCovered_claim_iff h vcntxt now
  | complete vcntxt id => exact linesCovered_complete_iff h ha
  | plicInject id now =>
      exact iff_of_true (linesCovered_access h ha fun _ _ _ _ hj => hj) trivial
  | inject vcpuId id now => exact linesCovered_inject_iff h vcpuId now ha

end Access

/-! ## One update -/

/-- Source 0 is never pending, and updates are asked for supervisor contexts only. -/
structure WellFormed (s : LineState) : Prop where
  pend_zero : (s.vplic.source 0).pend = false
  supervisor : ∀ hart vcntxt, (hart, vcntxt) ∈ s.due → plicSupervisor vcntxt = true

section Update

variable {platCpuNum : ℕ} {s : LineState}

theorem WellFormed.vplicNextPending_ne_zero (hs : s.WellFormed) {vcntxt : ℕ}
    (h : ∃ id, s.vplic.deliverable vcntxt id = true) :
    s.vplic.vplicNextPending vcntxt ≠ 0 := by
  refine (vplicNextPending_ne_zero_iff (Bool.eq_false_iff.mpr fun hzero => ?_)).mpr h
  rw [deliverable_iff_source, hs.pend_zero] at hzero
  exact Bool.false_ne_true hzero.2.1

theorem eq_of_plicSupervisor {c c' : ℕ} (hc : plicSupervisor c = true)
    (hc' : plicSupervisor c' = true) (h : c / 2 = c' / 2) : c = c' := by
  rw [plicSupervisor, decide_eq_true_iff] at hc hc'
  omega

/-- An update that is carried out leaves all contexts with something to deliver
covered: the line of its own context it sets, and the others it leaves alone. -/
theorem linesCovered_update (hs : s.WellFormed) (h : s.LinesCovered) (k : ℕ) :
    (s.step platCpuNum (.update k)).LinesCovered := by
  rw [step]
  cases hk : s.due[k]? with
  | none => exact h
  | some p =>
      obtain ⟨hart, c⟩ := p
      have hsupervisor : plicSupervisor c = true :=
        hs.supervisor hart c (List.mem_of_getElem? hk)
      have hkept : ∀ {hart' c'}, (hart', c') ∈ s.due → c' ≠ c →
          (hart', c') ∈ s.due.eraseIdx k := by
        intro hart' c' hmem hne
        obtain ⟨i, hi⟩ := List.mem_iff_getElem?.mp hmem
        refine List.mem_eraseIdx_iff_getElem?.mpr ⟨i, fun hik => hne ?_, hi⟩
        rw [hik, hk, Option.some.injEq, Prod.mk.injEq] at hi
        exact hi.2.symm
      dsimp only
      rw [updateHartLine]
      intro c' hvalid hsome
      by_cases hself : c / 2 = hart
      · rw [if_pos hself] at hvalid hsome ⊢
        by_cases hc : c' = c
        · left
          rw [hc] at hsome ⊢
          dsimp only
          rw [hself, Function.update_self]
          exact decide_eq_true (hs.vplicNextPending_ne_zero hsome)
        · have hhart : c' / 2 ≠ hart := fun heq =>
            hc (eq_of_plicSupervisor (vcntxtValid_iff.mp hvalid).2 hsupervisor
              (heq.trans hself.symm))
          rcases h c' hvalid hsome with hline | ⟨hart', hmem⟩
          · left
            dsimp only
            rwa [Function.update_of_ne hhart]
          · exact .inr ⟨hart', hkept hmem hc⟩
      · rw [if_neg hself] at hvalid hsome ⊢
        rcases h c' hvalid hsome with hline | ⟨hart', hmem⟩
        · exact .inl hline
        · right
          by_cases hc : c' = c
          · exact ⟨c / 2, List.mem_append_right _ (by rw [hc]; exact List.mem_singleton_self _)⟩
          · exact ⟨hart', List.mem_append_left _ (hkept hmem hc)⟩

/-- No access makes source 0 pending. -/
theorem pend_zero_access (v : Vplic) (h : (v.source 0).pend = false) (a : Access) :
    ((v.access a).source 0).pend = false := by
  cases a with
  | setPrio id prio =>
      rw [access, vplicSetPrio]
      split_ifs <;> exact h
  | setEnbl vcntxt id set =>
      rw [access, vplicSetEnbl]
      split_ifs <;> exact h
  | setThreshold vcntxt threshold =>
      rw [access, vplicSetThreshold]
      split_ifs <;> exact h
  | claim vcntxt now =>
      rw [access]
      split_ifs
      · rw [source_vplicClaim_eq]
        dsimp only
        rw [if_neg fun hmem => (mem_drainedIds.mp hmem).1.false]
        split_ifs
        · rfl
        · exact h
      · exact h
  | complete vcntxt id =>
      rw [access]
      split_ifs
      · rw [source_vplicComplete]
        split_ifs <;> exact h
      · exact h
  | plicInject id now =>
      rw [source_plicInject]
      split_ifs <;> exact h
  | inject vcpuId id now =>
      rw [access, source_vplicInject, if_neg fun hid => by omega]
      exact h

/-- An access asks for the lines of supervisor contexts only. -/
theorem plicSupervisor_of_mem_linesToUpdate (v : Vplic) (a : Access) {vcntxt : ℕ}
    (h : vcntxt ∈ linesToUpdate (v.guestEffects platCpuNum a)) :
    plicSupervisor vcntxt = true := by
  have hvcntxt : ∀ {c}, v.vcntxtValid c = true → vcntxt = c → plicSupervisor vcntxt = true :=
    fun hvalid heq => heq ▸ (vcntxtValid_iff.mp hvalid).2
  cases a with
  | setPrio id prio =>
      rw [guestEffects, vplicSetPrio] at h
      split_ifs at h
      · simp [linesToUpdate] at h
      · rw [linesToUpdate_map, List.mem_filter, Bool.and_eq_true] at h
        exact h.2.1
      · cases h
  | setEnbl c id set =>
      by_cases hvalid : v.vcntxtValid c = true
      · rw [guestEffects, if_pos hvalid, vplicSetEnbl] at h
        by_cases hchanged : id ≤ plicMaxInterrupts ∧ v.vplicGetEnbl id c ≠ set
        · rw [if_pos hchanged] at h
          dsimp only at h
          by_cases hhw : v.vplicGetHw id = true
          · simp [linesToUpdate, hhw] at h
          · exact hvcntxt hvalid (by simpa [linesToUpdate, hhw] using h)
        · rw [if_neg hchanged] at h
          cases h
      · rw [guestEffects, if_neg hvalid] at h
        cases h
  | setThreshold c threshold =>
      rw [guestEffects, vplicSetThreshold] at h
      split_ifs at h with hvalid
      · exact hvcntxt hvalid (by simpa [linesToUpdate] using h)
      · cases h
  | claim c now =>
      rw [guestEffects, vplicClaim] at h
      split_ifs at h with hvalid
      · exact hvcntxt hvalid (by simpa [linesToUpdate] using h)
      · cases h
  | complete c id =>
      rw [guestEffects, completeAny] at h
      split_ifs at h with hvalid
      all_goals first
        | exact hvcntxt hvalid (by simpa [linesToUpdate] using h)
        | cases h
  | plicInject id now => cases h
  | inject vcpuId id now =>
      rw [guestEffects, vplicInject] at h
      split_ifs at h
      · dsimp only at h
        cases haction : (irqBucketConsume now (v.buckets id)).2 with
        | allow =>
            rw [haction] at h
            dsimp only at h
            split_ifs at h
            · have heq : vcntxt = vcpuId * 2 + 1 := by simpa [linesToUpdate] using h
              rw [heq, plicSupervisor, decide_eq_true_iff]
              omega
            · rw [linesToUpdate_map, List.mem_filter, Bool.and_eq_true, Bool.and_eq_true] at h
              exact h.2.1.1
        | _ =>
            rw [haction] at h
            cases h
      · cases h

end Update

/-! ## Runs -/

theorem wellFormed_step {platCpuNum : ℕ} {s : LineState} (hs : s.WellFormed) {a : LineAct}
    (ha : a.Below) : (s.step platCpuNum a).WellFormed := by
  cases a with
  | access hart a =>
      constructor
      · rw [step, guestAccess_of_below platCpuNum s.vplic ha]
        exact pend_zero_access s.vplic hs.pend_zero a
      · intro hart' vcntxt hmem
        rw [step, List.mem_append, List.mem_map] at hmem
        rcases hmem with hmem | ⟨c, hmem, heq⟩
        · exact hs.supervisor hart' vcntxt hmem
        · obtain ⟨-, rfl⟩ := Prod.mk.inj heq
          exact plicSupervisor_of_mem_linesToUpdate s.vplic a hmem
  | update k =>
      rw [step]
      cases hk : s.due[k]? with
      | none => exact hs
      | some p =>
          obtain ⟨hart, c⟩ := p
          dsimp only
          rw [updateHartLine]
          split_ifs
          · exact ⟨hs.pend_zero, fun hart' vcntxt hmem =>
              hs.supervisor hart' vcntxt (List.mem_of_mem_eraseIdx hmem)⟩
          · refine ⟨hs.pend_zero, fun hart' vcntxt hmem => ?_⟩
            rcases List.mem_append.mp hmem with hmem | hmem
            · exact hs.supervisor hart' vcntxt (List.mem_of_mem_eraseIdx hmem)
            · obtain ⟨-, rfl⟩ := Prod.mk.inj (List.mem_singleton.mp hmem)
              exact hs.supervisor hart vcntxt (List.mem_of_getElem? hk)

/-- A VM that is about to start, with all lines clear. -/
def boot (cpuNum : ℕ) (criticality : VmCriticality) (now : BitVec 64) (hw : Bitmap) :
    LineState where
  vplic := Vplic.boot cpuNum criticality now hw
  vseip := fun _ => false
  due := []

section Boot

variable (platCpuNum cpuNum : ℕ) (criticality : VmCriticality) (now : BitVec 64) (hw : Bitmap)

theorem wellFormed_boot : (boot cpuNum criticality now hw).WellFormed := by
  refine ⟨?_, fun _ _ hmem => absurd hmem List.not_mem_nil⟩
  rw [boot, source_boot _ _ _ _ (by decide)]

theorem linesCovered_boot : (boot cpuNum criticality now hw).LinesCovered := by
  rintro vcntxt - ⟨id, hid⟩
  have henbl := (deliverable_iff_source.mp hid).2.2.2.1
  simp [boot, Vplic.boot, vplicInit, zero, bitmapGet_eq_getLsbD] at henbl

/-- In a run whose accesses name interrupts below `plicMaxInterrupts`, every context
with something to deliver is covered after every step exactly when every access
meets its condition. Then no line is lost: whenever no update is due, the line of
every context with a pending interrupt is set. -/
theorem along_linesDelivered (as : List LineAct) (has : ∀ a ∈ as, a.Below) :
    (Run.Along (step platCpuNum) (fun s a => (s.step platCpuNum a).LinesCovered)
        (boot cpuNum criticality now hw) as ↔
      Run.Along (step platCpuNum) KeepsLines (boot cpuNum criticality now hw) as) ∧
    (Run.Along (step platCpuNum) KeepsLines (boot cpuNum criticality now hw) as →
      Run.Along (step platCpuNum) (fun s a => (s.step platCpuNum a).LinesDelivered)
        (boot cpuNum criticality now hw) as) := by
  have hbelow : Run.Along (step platCpuNum) (fun _ a => a.Below)
      (boot cpuNum criticality now hw) as :=
    Run.along_of_forall (fun a ha _ => has a ha) _
  have hcovered : Run.Along (step platCpuNum) (fun s a => (s.step platCpuNum a).LinesCovered)
        (boot cpuNum criticality now hw) as ↔
      Run.Along (step platCpuNum) KeepsLines (boot cpuNum criticality now hw) as := by
    refine hbelow.invariant_iff (J := WellFormed) (wellFormed_boot cpuNum criticality now hw)
      (fun _ _ hs ha => wellFormed_step hs ha)
      (linesCovered_boot cpuNum criticality now hw) ?_
    intro s a hs h ha
    cases a with
    | access hart a => exact linesCovered_step_access_iff h ha
    | update k => exact iff_of_true (linesCovered_update hs h k) trivial
  exact ⟨hcovered, fun h => (hcovered.mpr h).mono fun _ _ h => h.delivered⟩

end Boot

/-- A run in which source 5 gets a priority. -/
theorem along_linesDelivered_once :
    (Run.Along (step 4) (fun s a => (s.step 4 a).LinesCovered)
        (boot 2 .low 0#64 fun _ => 0#32) [.access 0 (.setPrio 5 1#32)] ↔
      Run.Along (step 4) KeepsLines (boot 2 .low 0#64 fun _ => 0#32)
        [.access 0 (.setPrio 5 1#32)]) ∧
    (Run.Along (step 4) KeepsLines (boot 2 .low 0#64 fun _ => 0#32)
        [.access 0 (.setPrio 5 1#32)] →
      Run.Along (step 4) (fun s a => (s.step 4 a).LinesDelivered)
        (boot 2 .low 0#64 fun _ => 0#32) [.access 0 (.setPrio 5 1#32)]) :=
  along_linesDelivered 4 2 .low 0#64 (fun _ => 0#32) [.access 0 (.setPrio 5 1#32)] (by decide)

/-- Source 5 is a hardware interrupt, enabled on hart 1, where it arrives. Hart 0
enables it as well while it is pending: its line stays clear. -/
theorem not_linesDelivered_setEnbl :
    ¬ (Run.exec (step 4) (boot 2 .low 0#64 (bitmapSet (fun _ => 0#32) 5))
      [.access 0 (.setPrio 5 1#32), .access 1 (.setEnbl 3 5 true), .access 1 (.inject 1 5 0#64),
        .update 0, .access 0 (.setEnbl 1 5 true)]).LinesDelivered := by
  intro h
  have hline := h (by decide +kernel) 1 (by decide +kernel) ((vplicNextPending_ne_zero_iff
    (by decide +kernel)).mpr ⟨5, by decide +kernel⟩)
  revert hline
  decide +kernel

end LineState

end BaoHypervisor
