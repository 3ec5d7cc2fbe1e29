import BaoHypervisor.Arch.Armv8.Vgic.RoundTrip
import BaoHypervisor.Theory.FirstMax
import Mathlib.Data.Prod.Lex

/-!
# Displaced interrupts

When no list register is empty, `vgic_add_lr` looks for a pending interrupt that is less urgent
than the one that it adds, and spills the least urgent one of all. An interrupt is less urgent
than another one when its priority is the larger number, or its own number is with the same
priority. The loop finds none on the GICv3, where the bits of the state do not fit in the
variable that is to hold them.
-/

namespace BaoHypervisor

variable {cpuNum intNum : ℕ}

/-- The priority and the number of the interrupt in a list register: larger ones are less
urgent. -/
def ListReg.rank (lr : ListReg) : ℕ ×ₗ ℕ := toLex (lr.prio.toNat, lr.vid)

def VgicInt.rank (r : IntRef cpuNum intNum) (interrupt : VgicInt cpuNum) : ℕ ×ₗ ℕ :=
  toLex (interrupt.prio.toNat, r.id)

namespace VgicVm

variable {vm : VgicVm cpuNum intNum} {lrs : ℕ → ListReg}

/-! ## The loop of `vgic_add_lr` -/

/-- What the loop keeps of the pending list registers is the least urgent one so far, from what
it began with. -/
structure Tracks (start : ℕ ×ₗ ℕ) (scan : Scan) (best : (ℕ ×ₗ ℕ) × ℕ) : Prop where
  rank : toLex (scan.minPrioPend, scan.minIdPend) = best.1
  le : start ≤ best.1
  ind : scan.pendInd = if start < best.1 then some best.2 else none

theorem Tracks.scanLr {start : ℕ ×ₗ ℕ} {scan : Scan} {best : (ℕ ×ₗ ℕ) × ℕ}
    (h : Tracks start scan best) (lrs : ℕ → ListReg) (hversion : vm.version = .gicv2) (i : ℕ) :
    Tracks start (vm.scanLr lrs scan i)
        (FirstMax.select (fun i => (lrs i).state == .pending) (fun i => (lrs i).rank) best i) ∧
      (vm.scanLr lrs scan i).pendFound =
        scan.pendFound + if (lrs i).state == .pending then 1 else 0 := by
  have hless : (best.1 < (lrs i).rank) ↔ scan.minPrioPend < (lrs i).prio.toNat ∨
      (lrs i).prio.toNat = scan.minPrioPend ∧ scan.minIdPend < (lrs i).vid := by
    rw [← h.rank, ListReg.rank, Prod.Lex.toLex_lt_toLex, eq_comm (a := scan.minPrioPend)]
  have hkeep : ¬ (((lrs i).state == .pending) = true ∧ best.1 < (lrs i).rank) →
      FirstMax.select (fun i => (lrs i).state == .pending) (fun i => (lrs i).rank) best i =
        best := fun h => if_neg h
  have htake : ((lrs i).state == .pending) = true ∧ best.1 < (lrs i).rank →
      FirstMax.select (fun i => (lrs i).state == .pending) (fun i => (lrs i).rank) best i =
        ((lrs i).rank, i) := fun h => if_pos h
  rw [VgicVm.scanLr, hversion]
  dsimp only
  cases hact : (lrs i).state.act with
  | true =>
      have hnot : ((lrs i).state == .pending) = false := by
        rw [beq_eq_false_iff_ne]
        intro heq
        rw [heq] at hact
        cases hact
      rw [if_pos rfl, hkeep fun hp => Bool.false_ne_true (hnot.symm.trans hp.1), hnot,
        if_neg Bool.false_ne_true]
      split_ifs
      · exact ⟨⟨h.rank, h.le, h.ind⟩, rfl⟩
      · exact ⟨h, rfl⟩
  | false =>
      rw [if_neg Bool.false_ne_true]
      cases hpend : (lrs i).state.pend with
      | false =>
          have hnot : ((lrs i).state == .pending) = false := by
            rw [beq_eq_false_iff_ne]
            intro heq
            rw [heq] at hpend
            cases hpend
          rw [if_neg Bool.false_ne_true, hkeep fun hp => Bool.false_ne_true (hnot.symm.trans hp.1),
            hnot, if_neg Bool.false_ne_true]
          exact ⟨h, rfl⟩
      | true =>
          have hstate : ((lrs i).state == .pending) = true := by
            rw [beq_iff_eq]
            cases hs : (lrs i).state
            rw [hs] at hact hpend
            exact congrArg₂ IntState.mk hpend hact
          rw [if_pos rfl, if_pos hstate]
          split_ifs with hprio
          · rw [htake ⟨hstate, hless.mpr hprio⟩]
            refine ⟨⟨rfl, h.le.trans (hless.mpr hprio).le, ?_⟩, rfl⟩
            rw [if_pos (h.le.trans_lt (hless.mpr hprio))]
          · rw [hkeep fun hp => hprio (hless.mp hp.2)]
            exact ⟨⟨h.rank, h.le, h.ind⟩, rfl⟩

theorem Tracks.foldl {start : ℕ ×ₗ ℕ} {scan : Scan} {best : (ℕ ×ₗ ℕ) × ℕ}
    (h : Tracks start scan best) (lrs : ℕ → ListReg) (hversion : vm.version = .gicv2)
    (is : List ℕ) :
    Tracks start (is.foldl (vm.scanLr lrs) scan)
        (is.foldl (FirstMax.select (fun i => (lrs i).state == .pending) fun i => (lrs i).rank)
          best) ∧
      (is.foldl (vm.scanLr lrs) scan).pendFound =
        scan.pendFound + is.countP fun i => (lrs i).state == .pending := by
  induction is generalizing scan best with
  | nil => exact ⟨h, rfl⟩
  | cons i is ih =>
      obtain ⟨hstep, hfound⟩ := h.scanLr lrs hversion i
      obtain ⟨htracks, hcount⟩ := ih hstep
      refine ⟨htracks, ?_⟩
      rw [List.foldl_cons, hcount, hfound, List.countP_cons]
      omega

/-- The list register holds the least urgent of the pending interrupts. -/
structure LeastUrgent (vm : VgicVm cpuNum intNum) (lrs : ℕ → ListReg) (i : ℕ) : Prop where
  lt : i < vm.numLrs
  pending : (lrs i).state = .pending
  le : ∀ j < vm.numLrs, (lrs j).state = .pending → (lrs j).rank ≤ (lrs i).rank

/-- On the GICv2, the list register of the least urgent pending interrupt is taken, if that one is
less urgent. -/
theorem spillInd_gicv2 (hversion : vm.version = .gicv2) {i j : ℕ} (hi : i < vm.numLrs)
    (hj : j < vm.numLrs) (hne : i ≠ j) (hpendi : (lrs i).state = .pending)
    (hpendj : (lrs j).state = .pending) (r : IntRef cpuNum intNum) (interrupt : VgicInt cpuNum) :
    (vm.spillInd r lrs interrupt = none ∧ ∀ k < vm.numLrs, (lrs k).state = .pending →
        (lrs k).rank ≤ interrupt.rank r) ∨
      ∃ k, vm.spillInd r lrs interrupt = some k ∧ LeastUrgent vm lrs k ∧
        interrupt.rank r < (lrs k).rank := by
  have hstart : Tracks (interrupt.rank r)
      { minPrioPend := interrupt.prio.toNat, minPrioAct := interrupt.prio.toNat
        minIdPend := r.id, minIdAct := r.id, pendFound := 0, pendInd := none, actInd := none }
      (interrupt.rank r, 0) := ⟨rfl, le_rfl, (if_neg (lt_irrefl _)).symm⟩
  obtain ⟨htracks, hfound⟩ := hstart.foldl lrs hversion (List.range vm.numLrs)
  have htwo : 1 < (List.range vm.numLrs).countP fun i => (lrs i).state == .pending := by
    have hsub : [i, j] ⊆ (List.range vm.numLrs).filter fun i => (lrs i).state == .pending := by
      intro k hk
      rw [List.mem_filter, List.mem_range, beq_iff_eq]
      rcases List.mem_pair.mp hk with rfl | rfl
      · exact ⟨hi, hpendi⟩
      · exact ⟨hj, hpendj⟩
    have hnodup : [i, j].Nodup := List.nodup_cons.mpr
      ⟨fun hmem => hne (List.mem_singleton.mp hmem), List.nodup_singleton j⟩
    rw [List.countP_eq_length_filter]
    exact (List.subperm_of_subset hnodup hsub).length_le
  rw [spillInd, hfound, Nat.zero_add, if_pos htwo, htracks.ind]
  rcases FirstMax.foldl_select_cases (fun i => (lrs i).state == .pending)
      (fun i => (lrs i).rank) List.pairwise_lt_range (interrupt.rank r, 0)
    with ⟨heq, hle⟩ | ⟨k, heq, hlt, hmax⟩
  · refine .inl ⟨?_, fun k hk hpend => hle k (List.mem_range.mpr hk) (beq_iff_eq.mpr hpend)⟩
    rw [heq, if_neg (lt_irrefl _)]
  · refine .inr ⟨k, ?_, ⟨List.mem_range.mp hmax.mem, beq_iff_eq.mp hmax.eligible,
      fun j hj hpend => hmax.le j (List.mem_range.mpr hj) (beq_iff_eq.mpr hpend)⟩, hlt⟩
    rw [heq, if_pos hlt]

theorem spillInd_gicv3 (hversion : vm.version = .gicv3) (r : IntRef cpuNum intNum)
    (lrs : ℕ → ListReg) (interrupt : VgicInt cpuNum) : vm.spillInd r lrs interrupt = none := by
  have hscan : ∀ (is : List ℕ) (scan : Scan), is.foldl (vm.scanLr lrs) scan = scan := by
    intro is
    induction is with
    | nil => exact fun _ => rfl
    | cons i is ih =>
        intro scan
        have hround : vm.scanLr lrs scan i = scan := by
          rw [VgicVm.scanLr, hversion]
          rfl
        rw [List.foldl_cons, hround, ih]
  rw [spillInd, hscan]
  rfl

/-- The list register that `vgic_add_lr` takes, by the words that it reads. -/
def spillWord (vm : VgicVm cpuNum intNum) (r : IntRef cpuNum intNum) (words : ℕ → BitVec 64)
    (interrupt : VgicInt cpuNum) : Option ℕ :=
  let scan := (List.range vm.numLrs).foldl (vm.scanWord words)
    { minPrioPend := interrupt.prio.toNat, minPrioAct := interrupt.prio.toNat
      minIdPend := r.id, minIdAct := r.id, pendFound := 0, pendInd := none, actInd := none }
  if 1 < scan.pendFound then scan.pendInd else scan.actInd

/-- A list register that is taken by its word is that of the least urgent of at least two pending
interrupts, on the GICv2. -/
theorem leastUrgent_of_spillWord {words : ℕ → BitVec 64}
    (hwords : ∀ i, vm.version.readLr (words i) = lrs i) {i j k : ℕ} (hi : i < vm.numLrs)
    (hj : j < vm.numLrs) (hne : i ≠ j) (hpendi : (lrs i).state = .pending)
    (hpendj : (lrs j).state = .pending) {r : IntRef cpuNum intNum} {interrupt : VgicInt cpuNum}
    (h : vm.spillWord r words interrupt = some k) :
    vm.version = .gicv2 ∧ LeastUrgent vm lrs k ∧ interrupt.rank r < (lrs k).rank := by
  have heq : vm.spillInd r lrs interrupt = some k := by
    rw [← h, spillWord, scanWord_eq vm hwords]
    rfl
  cases hversion : vm.version with
  | gicv3 =>
      rw [spillInd_gicv3 hversion] at heq
      cases heq
  | gicv2 =>
      rcases spillInd_gicv2 hversion hi hj hne hpendi hpendj r interrupt with
        ⟨hnone, -⟩ | ⟨k', hk', hleast, hlt⟩
      · cases hnone.symm.trans heq
      · obtain rfl := Option.some.inj (hk'.symm.trans heq)
        exact ⟨rfl, hleast, hlt⟩

end VgicVm

namespace VgicState

variable {s s' : VgicState cpuNum intNum} {vm : VgicVm cpuNum intNum} {v : Fin cpuNum}
  {r x : IntRef cpuNum intNum} {i : ℕ}

/-! ## States in list registers -/

/-- A list register can show the state of the interrupt: pending and active at once not for one of
the hardware, and pending for an SGI of the GICv2 by a source of it only. -/
structure Shows (vm : VgicVm cpuNum intNum) (r : IntRef cpuNum intNum) (interrupt : VgicInt cpuNum)
    (state : IntState) : Prop where
  hw : VgicVm.vgicIntIsHw r interrupt = true → state ≠ .pendAct
  pend : vm.version = .gicv2 → gicIsSgi r.id = true → state.pend = true →
    interrupt.sgiPend ≠ 0#8

theorem eq_iff {state state' : IntState} {act : Bool} (h : state.act = act)
    (h' : state'.act = act) : state' = state ↔ (state'.pend = true ↔ state.pend = true) := by
  obtain ⟨pend, act⟩ := state
  obtain ⟨pend', act'⟩ := state'
  obtain rfl : act' = act := h'.trans h.symm
  rw [IntState.mk.injEq, and_iff_left rfl, Bool.eq_iff_iff]

/-- The state of an interrupt that is written to a list register is kept if the list register can
show it. -/
theorem softState_vgicLr_iff (interrupt : VgicInt cpuNum) :
    softState vm r { interrupt with
        state := (vm.vgicLr r interrupt (softState vm r interrupt)).1.state
        sgiPend := (vm.vgicLr r interrupt (softState vm r interrupt)).2 } =
      softState vm r interrupt ↔ Shows vm r interrupt (softState vm r interrupt) := by
  obtain ⟨state, hstate⟩ : ∃ state, state = softState vm r interrupt := ⟨_, rfl⟩
  rw [← hstate]
  by_cases hversion : vm.version = .gicv2 ∧ gicIsSgi r.id = true
  · have hsoft := softState_of_sgi interrupt hversion
    rw [← hstate] at hsoft
    have hpend : interrupt.sgiPend ≠ 0#8 → state.pend = true := by
      intro hne
      rw [hsoft, bne_iff_ne.mpr hne, Bool.or_true]
    have hshows : Shows vm r interrupt state ↔
        (state.pend = true → interrupt.sgiPend ≠ 0#8) := by
      refine ⟨fun h => h.pend hversion.1 hversion.2, fun h => ⟨fun hhw => ?_, fun _ _ => h⟩⟩
      rw [vgicIntIsHw_of_sgi interrupt hversion] at hhw
      cases hhw
    rw [hshows, softState_of_sgi _ hversion]
    dsimp only
    cases hact : state.act with
    | true =>
        obtain ⟨hactive, -, hkept⟩ := vgicLr_of_act interrupt hversion hact
        rw [hactive, hkept, eq_iff hact rfl]
        dsimp only [IntState.active]
        rw [Bool.false_or, bne_iff_ne]
        exact ⟨fun h => h.mpr, fun h => ⟨hpend, h⟩⟩
    | false =>
        by_cases hne : interrupt.sgiPend ≠ 0#8
        · obtain ⟨k, -, hhigh, -⟩ := exists_highestSet (exists_getLsbD hne)
          rw [(vgicLr_of_pend interrupt hversion hact hhigh).1, eq_iff hact rfl]
          dsimp only [IntState.pending]
          rw [Bool.true_or]
          exact iff_of_true (iff_of_true rfl (hpend hne)) fun _ => hne
        · have hzero := not_not.mp hne
          have hnone : VgicVm.highestSet interrupt.sgiPend.getLsbD 8 = none := by
            rw [hzero]
            decide
          have hlr : (vm.vgicLr r interrupt state).1.state = .inv ∧
              (vm.vgicLr r interrupt state).2 = 0#8 := by
            rw [VgicVm.vgicLr, vgicIntIsHw_of_sgi interrupt hversion, if_neg Bool.false_ne_true,
              if_pos hversion, hact, if_neg Bool.false_ne_true, hnone]
            exact ⟨rfl, hzero⟩
          rw [hlr.1, hlr.2, hzero, eq_iff hact rfl]
          dsimp only [IntState.inv]
          exact ⟨fun h hp => absurd (h.mpr hp) (by decide),
            fun h => ⟨fun hp => absurd hp (by decide), fun hp => absurd rfl (h hp)⟩⟩
  · have hsoft : ∀ interrupt' : VgicInt cpuNum, softState vm r interrupt' = interrupt'.state :=
      fun interrupt' => if_neg fun h => hversion ⟨h.1, h.2.1⟩
    rw [hsoft]
    dsimp only
    by_cases hhw : VgicVm.vgicIntIsHw r interrupt = true
    · rw [VgicVm.vgicLr, if_pos hhw]
      dsimp only
      refine ⟨fun heq => ⟨fun _ hboth => ?_, fun h hsgi => absurd ⟨h, hsgi⟩ hversion⟩, fun h => ?_⟩
      · rw [if_pos hboth, hboth] at heq
        cases heq
      · exact if_neg (h.hw hhw)
    · rw [VgicVm.vgicLr, if_neg hhw, if_neg hversion]
      exact iff_of_true rfl ⟨fun h => absurd h hhw, fun h hsgi => absurd ⟨h, hsgi⟩ hversion⟩

theorem vgicGetState_placeInt (howner : (s.ints r).owner = some v) :
    (s.placeInt vm v r i).vgicGetState vm v r =
      softState vm r { s.ints r with
        state := (vm.vgicLr r (s.ints r) (s.vgicGetState vm v r)).1.state
        sgiPend := (vm.vgicLr r (s.ints r) (s.vgicGetState vm v r)).2 } := by
  rw [vgicGetState, softState, ints_placeInt_self]
  dsimp only
  by_cases hvalid : (vm.vgicLr r (s.ints r) (s.vgicGetState vm v r)).1.state = .inv
  · rw [gichGetLr_of_inv, hvalid]
    · rfl
    · rw [ints_placeInt_self, lrs_placeInt, if_pos ⟨rfl, rfl⟩, hvalid]
  · rw [gichGetLr_placeInt howner hvalid]
    rfl

/-! ## What is done with the interrupts -/

/-- The interrupt is put into its spilled list. -/
structure Pushed (s s' : VgicState cpuNum intNum) (x : IntRef cpuNum intNum) : Prop where
  link : s'.link = (NodeList.listPush s.link (s.spilled x.list) x).1
  spilled : s'.spilled =
    Function.update s.spilled x.list (NodeList.listPush s.link (s.spilled x.list) x).2

/-- The interrupt `x` is spilled from the list register `i` and `r` is put in its place, both with
the states that they have, and no other list register changes. -/
structure Displaced (s s' : VgicState cpuNum intNum) (vm : VgicVm cpuNum intNum) (v : Fin cpuNum)
    (r x : IntRef cpuNum intNum) (i : ℕ) : Prop where
  held : s.Holds v i x
  pushed : Pushed s s' x
  out : (s'.ints x).inLr = false
  spilledState : s'.vgicGetState vm v x = s.vgicGetState vm v x
  register : (s'.lrs v i).vid = r.id
  placed : (s'.ints r).inLr = true ∧ (s'.ints r).lr = i
  state : s'.vgicGetState vm v r = s.vgicGetState vm v r
  others : ∀ w j, ¬ (w = v ∧ j = i) → s'.lrs w j = s.lrs w j

/-- The interrupt has to wait. -/
structure Waits (s s' : VgicState cpuNum intNum) (r : IntRef cpuNum intNum) : Prop where
  pushed : Pushed s s' r
  lrs : s'.lrs = s.lrs

/-- A pending interrupt in a list register is less urgent. -/
def LessUrgent (s : VgicState cpuNum intNum) (vm : VgicVm cpuNum intNum) (v : Fin cpuNum)
    (r : IntRef cpuNum intNum) : Prop :=
  ∃ i < vm.numLrs, (s.lrs v i).state = .pending ∧ (s.ints r).rank r < (s.lrs v i).rank

/-- Pending interrupts in list registers know that they are there. -/
def PendingKnown (s : VgicState cpuNum intNum) (vm : VgicVm cpuNum intNum) (v : Fin cpuNum) :
    Prop :=
  ∀ i < vm.numLrs, (s.lrs v i).state = .pending → ∃ x, s.Holds v i x ∧
    (s.ints x).owner = some v ∧ (s.ints x).inLr = true ∧ (s.ints x).lr = i

/-! ## Spilling -/

/-- The interrupt `x` is spilled from the list register `i`. -/
structure SpilledFrom (s s' : VgicState cpuNum intNum) (v : Fin cpuNum) (x : IntRef cpuNum intNum)
    (i : ℕ) : Prop where
  pushed : Pushed s s' x
  lrs : ∀ w j, s'.lrs w j = if w = v ∧ j = i then .zero else s.lrs w j
  ints : ∀ y ≠ x, s'.ints y = s.ints y
  out : (s'.ints x).inLr = false
  state : (s'.ints x).state = .pending

theorem gichGetLr_of_holds (h : s.Holds v i x) (howner : (s.ints x).owner = some v)
    (hin : (s.ints x).inLr = true) (hlr : (s.ints x).lr = i) :
    s.gichGetLr vm v x = some (s.lrs v i) := by
  rw [gichGetLr_of_owner howner hin, hlr, if_pos ⟨(IntRef.of_vgicGetInt h.2).2.symm, h.1⟩]

theorem pushed_vgicAddSpilled (hat : x.At v) : Pushed s (s.vgicAddSpilled v x) x := by
  rw [vgicAddSpilled, hat.list]
  exact ⟨rfl, rfl⟩

theorem spilledFrom_vgicSpillLr (vm : VgicVm cpuNum intNum) (h : s.Holds v i x)
    (howner : (s.ints x).owner = some v) (hin : (s.ints x).inLr = true) (hlr : (s.ints x).lr = i)
    (hpend : (s.lrs v i).state = .pending) : SpilledFrom s (s.vgicSpillLr vm v i) v x i := by
  have hat : x.At v := h.at
  have hback : (takenBack vm x (s.ints x) (s.lrs v i)).state = .pending := by
    rw [takenBack]
    split_ifs <;> exact hpend
  rw [vgicSpillLr, h.2]
  dsimp only
  rw [vgicRemoveLr_of_found howner hin (gichGetLr_of_holds h howner hin hlr), hlr]
  obtain ⟨p, hp⟩ : ∃ p, p = ((s.gichWriteLr v i .zero).setInt x
    (takenBack vm x (s.ints x) (s.lrs v i))).vgicAddSpilled v x := ⟨_, rfl⟩
  have hints : p.ints x = takenBack vm x (s.ints x) (s.lrs v i) ∧
      ∀ y ≠ x, p.ints y = s.ints y := by
    rw [hp]
    exact ⟨ints_setInt_self, fun y hy => ints_setInt_of_ne hy⟩
  have hpushed : Pushed s p x := by
    obtain ⟨hlink, hspilled⟩ := @pushed_vgicAddSpilled _ _ ((s.gichWriteLr v i .zero).setInt x
      (takenBack vm x (s.ints x) (s.lrs v i))) v x hat
    rw [hp]
    exact ⟨hlink, hspilled⟩
  have hlrs : ∀ w j, p.lrs w j = if w = v ∧ j = i then .zero else s.lrs w j := by
    intro w j
    rw [hp]
    exact lrs_gichWriteLr ..
  rw [← hp]
  have hyield := (vgicYieldOwnership_frame p vm v x).1
  refine ⟨⟨hyield.link.trans hpushed.link, hyield.spilled.trans hpushed.spilled⟩,
    fun w j => by rw [hyield.lrs, hlrs], fun y hy => ?_, ?_, ?_⟩
  · rw [(vgicYieldOwnership_frame p vm v x).2 y hy, hints.2 y hy]
  all_goals
    rcases vgicYieldOwnership_cases p vm v x with heq | ⟨heq, -⟩
  · rw [heq, hints.1, (takenBack_eq ..).2.1]
  · rw [heq, ints_setInt_self, hints.1, (takenBack_eq ..).2.1]
  · rw [heq, hints.1, hback]
  · rw [heq, ints_setInt_self, hints.1, hback]

theorem softState_of_pending {interrupt : VgicInt cpuNum} (h : interrupt.state = .pending) :
    softState vm x interrupt = .pending := by
  rw [softState, h]
  split_ifs <;> rfl

/-- The interrupt is written to the list register that it takes from another one. -/
theorem displaced_of_spilled (h : s.Holds v i x) (hin : (s.ints r).inLr = false)
    (howner : (s.ints r).owner = some v) (hne : x ≠ r) {p : VgicState cpuNum intNum}
    (hspilled : SpilledFrom s p v x i) (hx : s.vgicGetState vm v x = .pending) :
    ((p.vgicWriteLr vm v r i).vgicGetState vm v r = s.vgicGetState vm v r ↔
        Shows vm r (s.ints r) (s.vgicGetState vm v r)) ∧
      (Shows vm r (s.ints r) (s.vgicGetState vm v r) →
        Displaced s (p.vgicWriteLr vm v r i) vm v r x i) := by
  have hempty : (p.lrs v i).state = .inv := by
    rw [hspilled.lrs, if_pos ⟨rfl, rfl⟩]
    rfl
  have hsoft : s.vgicGetState vm v r = softState vm r (s.ints r) :=
    vgicGetState_of_none (gichGetLr_of_not_inLr hin)
  obtain ⟨q, hq⟩ : ∃ q, q = p.forgetPrev vm v r i := ⟨_, rfl⟩
  have hsame : SamePlaces p q := hq ▸ samePlaces_forgetPrev p vm v r i
  have hqr : q.ints r = s.ints r := by
    rw [hq, ints_forgetPrev_self, hspilled.ints r hne.symm]
  have hqx : q.ints x = p.ints x := by
    rcases ints_forgetPrev p vm v r i x with heq | ⟨-, -, hinx, -⟩
    · rw [hq, heq]
    · cases hspilled.out.symm.trans hinx
  have hqstate : q.vgicGetState vm v r = softState vm r (s.ints r) := by
    rw [vgicGetState_of_none (gichGetLr_of_not_inLr (by rwa [hqr])), hqr]
  have hstate : (q.placeInt vm v r i).vgicGetState vm v r = s.vgicGetState vm v r ↔
      Shows vm r (s.ints r) (s.vgicGetState vm v r) := by
    rw [vgicGetState_placeInt (by rwa [hqr]), hqr, hqstate, hsoft]
    exact softState_vgicLr_iff (s.ints r)
  have hplaced := @ints_placeInt_self _ _ q vm v r i
  have hintsx : (q.placeInt vm v r i).ints x = p.ints x := (ints_placeInt_of_ne hne).trans hqx
  rw [vgicWriteLr, ← hq]
  refine ⟨hstate, fun hshows => ⟨h, ⟨hsame.link.trans hspilled.pushed.link,
    hsame.spilled.trans hspilled.pushed.spilled⟩, ?_, ?_, ?_, ?_, hstate.mpr hshows,
    fun w j hwj => ?_⟩⟩
  · rw [hintsx, hspilled.out]
  · rw [hx, vgicGetState_of_none (gichGetLr_of_not_inLr (by rw [hintsx, hspilled.out])), hintsx,
      softState_of_pending hspilled.state]
  · rw [lrs_placeInt, if_pos ⟨rfl, rfl⟩]
    exact (VgicVm.vgicLr_eq vm r _ _).1
  · rw [hplaced]
    exact ⟨rfl, rfl⟩
  · rw [lrs_placeInt, if_neg hwj, hsame.lrs, hspilled.lrs, if_neg hwj]

theorem vgicGetState_of_pending {lr : ListReg} (hget : s.gichGetLr vm v x = some lr)
    (hpend : lr.state = .pending) : s.vgicGetState vm v x = .pending := by
  rw [vgicGetState, hget]
  dsimp only [Option.map_some, Option.getD_some]
  rw [hpend]
  split_ifs <;> rfl

/-- With no list register empty and at least two pending interrupts in them, `vgic_add_lr` puts an
interrupt in the place of the least urgent one of these, if that one is less urgent, and lets it
wait otherwise. -/
def DisplacesLeastUrgent (s s' : VgicState cpuNum intNum) (vm : VgicVm cpuNum intNum)
    (v : Fin cpuNum) (r : IntRef cpuNum intNum) : Prop :=
  (s.LessUrgent vm v r → ∃ i x, VgicVm.LeastUrgent vm (s.lrs v) i ∧ Displaced s s' vm v r x i) ∧
    (¬ s.LessUrgent vm v r → Waits s s' r)

/-- It does so if no pending interrupt is less urgent, or on the GICv2 if a list register can show
the state of the interrupt. -/
theorem displacesLeastUrgent_vgicAddLr_iff (hat : r.At v) (howner : (s.ints r).owner = some v)
    (henabled : (s.ints r).enabled = true) (hin : (s.ints r).inLr = false)
    (hfull : ∀ i < vm.numLrs, s.gichGetElrsr v i = false) {i j : ℕ} (hi : i < vm.numLrs)
    (hj : j < vm.numLrs) (hne : i ≠ j) (hpendi : (s.lrs v i).state = .pending)
    (hpendj : (s.lrs v j).state = .pending) (hknown : s.PendingKnown vm v) :
    DisplacesLeastUrgent s (s.vgicAddLr vm v r) vm v r ↔
      ¬ s.LessUrgent vm v r ∨
        vm.version = .gicv2 ∧ Shows vm r (s.ints r) (s.vgicGetState vm v r) := by
  have hnone : vm.firstLr (s.gichGetElrsr v) = none := by
    refine List.find?_eq_none.mpr fun k hk => ?_
    rw [hfull k (List.mem_range.mp hk)]
    exact Bool.false_ne_true
  have hskip : ¬ ((s.ints r).enabled = false ∨ (s.ints r).inLr = true) := by
    rw [henabled, hin]
    decide
  rw [vgicAddLr, if_neg hskip, hnone]
  dsimp only
  have hwaits : Waits s (s.vgicAddSpilled v r) r := ⟨pushed_vgicAddSpilled hat, rfl⟩
  cases hversion : vm.version with
  | gicv3 =>
      rw [VgicVm.spillInd_gicv3 hversion]
      dsimp only
      refine ⟨fun h => .inl fun hless => ?_, fun h => ?_⟩
      · obtain ⟨k, x, -, hdisplaced⟩ := h.1 hless
        -- The list register is said to hold another interrupt now, but has not changed.
        obtain rfl : x = r := by
          have hget := hdisplaced.held.2
          rw [show (s.lrs v k).vid = r.id from hdisplaced.register,
            IntRef.vgicGetInt_id hat] at hget
          exact (Option.some.inj hget).symm
        cases hdisplaced.out.symm.trans hdisplaced.placed.1
      · have hmost := h.resolve_right fun h => by cases h.1
        exact ⟨fun hless => absurd hless hmost, fun _ => hwaits⟩
  | gicv2 =>
      rcases VgicVm.spillInd_gicv2 hversion hi hj hne hpendi hpendj r (s.ints r)
        with ⟨heq, hle⟩ | ⟨k, heq, hleast, hlt⟩
      · rw [heq]
        dsimp only
        have hmost : ¬ s.LessUrgent vm v r := by
          rintro ⟨k, hk, hpend, hless⟩
          exact absurd hless (hle k hk hpend).not_gt
        exact iff_of_true ⟨fun hless => absurd hless hmost, fun _ => hwaits⟩ (.inl hmost)
      · rw [heq]
        dsimp only
        obtain ⟨x, hholds, hownerx, hinx, hlrx⟩ := hknown k hleast.lt hleast.pending
        have hx : x ≠ r := by
          rintro rfl
          cases hinx.symm.trans hin
        have hless : s.LessUrgent vm v r := ⟨k, hleast.lt, hleast.pending, hlt⟩
        obtain ⟨hstate, hdisplaced⟩ := displaced_of_spilled hholds hin howner hx
          (spilledFrom_vgicSpillLr vm hholds hownerx hinx hlrx hleast.pending)
          (vgicGetState_of_pending (gichGetLr_of_holds hholds hownerx hinx hlrx) hleast.pending)
        refine ⟨fun h => ?_, fun h => ⟨fun _ => ?_, fun hmost => absurd hless hmost⟩⟩
        · obtain ⟨_, _, -, hdone⟩ := h.1 hless
          exact .inr ⟨rfl, hstate.mp hdone.state⟩
        · exact ⟨k, x, hleast, hdisplaced (h.resolve_left (not_not.mpr hless)).2⟩

def onGic (vm : VgicVm cpuNum intNum) (version : GicVersion) : VgicVm cpuNum intNum :=
  { vm with version := version }

/-- Two list registers hold the pending interrupts `x` and `y`, and the more urgent `z` is to be
added. -/
def crowded (vm : VgicVm cpuNum intNum) (v : Fin cpuNum) (x y z : IntRef cpuNum intNum) :
    VgicState cpuNum intNum :=
  let s := ((start vm fun _ => false).makePending v x).vgicWriteLr vm v x 0
  let s := (s.makePending v y).vgicWriteLr vm v y 1
  s.setInt z { s.ints z with owner := some v, state := .pending, prio := 0x10#8, enabled := true }

theorem displacesLeastUrgent_crowded :
    let vm := onGic (oneVcpu 2) .gicv2
    let s := crowded vm 0 (.spi 0) (.spi 1) (.spi 2)
    DisplacesLeastUrgent s (s.vgicAddLr vm 0 (.spi 2)) vm 0 (.spi 2) := by
  intro vm s
  refine (displacesLeastUrgent_vgicAddLr_iff (r := .spi 2) (v := 0) (i := 0) (j := 1)
    trivial rfl rfl rfl (by decide) (by decide) (by decide) (by decide) (by decide) (by decide)
    fun i hi hpend => ?_).mpr
      (.inr ⟨rfl, by decide, fun _ => by decide⟩)
  obtain rfl | rfl : i = 0 ∨ i = 1 := by
    have hlt : i < 2 := hi
    omega
  · exact ⟨.spi 0, ⟨by decide, by decide⟩, rfl, rfl, rfl⟩
  · exact ⟨.spi 1, ⟨by decide, by decide⟩, rfl, rfl, rfl⟩

/-- On the GICv3, the more urgent interrupt has to wait. -/
theorem not_displacesLeastUrgent_gicv3 :
    let vm := onGic (oneVcpu 2) .gicv3
    let s := crowded vm 0 (.spi 0) (.spi 1) (.spi 2)
    (∀ i < 2, s.gichGetElrsr 0 i = false ∧ (s.lrs 0 i).state = .pending) ∧
      (s.ints (.spi 2)).enabled = true ∧ (s.ints (.spi 2)).inLr = false ∧
        ¬ DisplacesLeastUrgent s (s.vgicAddLr vm 0 (.spi 2)) vm 0 (.spi 2) := by
  intro vm s
  refine ⟨by decide, rfl, rfl, fun h => ?_⟩
  obtain ⟨i, x, hleast, hdone⟩ := h.1 ⟨0, by decide, by decide, by decide⟩
  have hregister := hdone.register
  obtain rfl | rfl : i = 0 ∨ i = 1 := by
    have hlt : i < 2 := hleast.lt
    omega
  · exact absurd hregister (by decide)
  · exact absurd hregister (by decide)

end VgicState

end BaoHypervisor
