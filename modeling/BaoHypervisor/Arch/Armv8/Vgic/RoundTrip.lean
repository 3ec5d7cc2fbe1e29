import BaoHypervisor.Arch.Armv8.Vgic.ListRegisters
import BaoHypervisor.Arch.Armv8.Vgic.Runs

/-!
# Into a list register and back

`vgic_write_lr` moves the state of an interrupt into a list register, and `vgic_remove_lr` moves
it back. An SGI of the GICv2 is pending as long as a source of it is: the sources stay in
`sgi.pend`, apart from the one that the list register names.

While a list register is empty, what it is written for does not matter for the state of any other
interrupt.
-/

namespace BaoHypervisor

variable {cpuNum intNum : ℕ}

namespace VgicState

variable {s s' : VgicState cpuNum intNum} {vm : VgicVm cpuNum intNum} {v w : Fin cpuNum}
  {r x : IntRef cpuNum intNum} {i : ℕ}

/-! ## States -/

theorem gichGetLr_of_not_inLr (h : (s.ints x).inLr = false) : s.gichGetLr vm w x = none := by
  rw [gichGetLr]
  exact if_pos (.inl h)

theorem gichGetLr_of_owner_ne (h : (s.ints x).owner ≠ some w) : s.gichGetLr vm w x = none := by
  rw [gichGetLr]
  refine if_pos (.inr fun heq => h ?_)
  obtain ⟨u, hu, hphys⟩ := Option.map_eq_some_iff.mp heq
  rw [hu, vm.physId_injective hphys]

theorem gichGetLr_of_inv (h : (s.lrs w (s.ints x).lr).state = .inv) :
    s.gichGetLr vm w x = none := by
  rw [gichGetLr]
  dsimp only
  split_ifs with hskip hlr
  · rfl
  · exact absurd h hlr.2
  · rfl

theorem vgicGetState_congr (hlr : s'.gichGetLr vm w x = s.gichGetLr vm w x)
    (hstate : (s'.ints x).state = (s.ints x).state)
    (hsgi : (s'.ints x).sgiPend = (s.ints x).sgiPend) :
    s'.vgicGetState vm w x = s.vgicGetState vm w x := by
  rw [vgicGetState, vgicGetState, hlr, hstate, hsgi]

theorem vgicGetState_of_lrs (hints : s'.ints x = s.ints x)
    (hlrs : ∀ j, s'.lrs w j = s.lrs w j ∨
      ¬ ((s'.lrs w j).vid = x.id ∧ (s'.lrs w j).state ≠ .inv) ∧
        ¬ ((s.lrs w j).vid = x.id ∧ (s.lrs w j).state ≠ .inv)) :
    s'.vgicGetState vm w x = s.vgicGetState vm w x := by
  refine vgicGetState_congr ?_ (by rw [hints]) (by rw [hints])
  rw [gichGetLr, gichGetLr, hints]
  rcases hlrs (s.ints x).lr with heq | ⟨hnot', hnot⟩
  · rw [heq]
  · dsimp only
    rw [if_neg hnot', if_neg hnot]

/-! ## The interrupt that was there before -/

theorem vgicGetState_forgetPrev (hempty : (s.lrs v i).state = .inv) (vm : VgicVm cpuNum intNum)
    (w : Fin cpuNum) (r x : IntRef cpuNum intNum) :
    (s.forgetPrev vm v r i).vgicGetState vm w x = s.vgicGetState vm w x := by
  have hsame := samePlaces_forgetPrev s vm v r i
  rcases ints_forgetPrev s vm v r i x with heq | ⟨-, howner, -, hlr, owner, -, heq⟩
  · refine vgicGetState_congr ?_ (by rw [heq]) (by rw [heq])
    rw [gichGetLr, gichGetLr, heq, hsame.lrs]
  · refine vgicGetState_congr ?_ (by rw [heq]) (by rw [heq])
    rw [gichGetLr_of_not_inLr (by rw [heq])]
    by_cases hw : w = v
    · subst hw
      exact (gichGetLr_of_inv (by rw [hlr]; exact hempty)).symm
    · refine (gichGetLr_of_owner_ne ?_).symm
      rw [howner]
      exact fun h => hw (Option.some.inj h).symm

/-! ## The list register -/

theorem lrs_placeInt (s : VgicState cpuNum intNum) (vm : VgicVm cpuNum intNum) (v : Fin cpuNum)
    (r : IntRef cpuNum intNum) (i : ℕ) (w : Fin cpuNum) (j : ℕ) :
    (s.placeInt vm v r i).lrs w j =
      if w = v ∧ j = i then (vm.vgicLr r (s.ints r) (s.vgicGetState vm v r)).1
      else s.lrs w j :=
  lrs_gichWriteLr ..

theorem ints_placeInt_of_ne (h : x ≠ r) : (s.placeInt vm v r i).ints x = s.ints x :=
  ints_setInt_of_ne h

theorem ints_placeInt_self : (s.placeInt vm v r i).ints r =
    { s.ints r with
      state := .inv
      inLr := true
      lr := i
      sgiPend := (vm.vgicLr r (s.ints r) (s.vgicGetState vm v r)).2 } :=
  ints_setInt_self

theorem gichGetLr_placeInt (howner : (s.ints r).owner = some v)
    (hvalid : (vm.vgicLr r (s.ints r) (s.vgicGetState vm v r)).1.state ≠ .inv) :
    (s.placeInt vm v r i).gichGetLr vm v r =
      some (vm.vgicLr r (s.ints r) (s.vgicGetState vm v r)).1 := by
  have hlr : ((s.placeInt vm v r i).ints r).lr = i := by rw [ints_placeInt_self]
  have hthere : (s.placeInt vm v r i).lrs v i =
      (vm.vgicLr r (s.ints r) (s.vgicGetState vm v r)).1 := by
    rw [lrs_placeInt, if_pos ⟨rfl, rfl⟩]
  rw [gichGetLr_of_owner (by rwa [ints_placeInt_self]) (by rw [ints_placeInt_self]), hlr, hthere,
    if_pos ⟨(VgicVm.vgicLr_eq vm r _ _).1, hvalid⟩]

/-! ## Sources of an SGI -/

theorem exists_highestSet {marked : ℕ → Bool} {n : ℕ} (h : ∃ k < n, marked k = true) :
    ∃ k < n, VgicVm.highestSet marked n = some k ∧ marked k = true := by
  obtain ⟨k, hk, hmark⟩ := h
  have hsome : ((List.range n).reverse.find? marked).isSome = true :=
    List.find?_isSome.mpr ⟨k, List.mem_reverse.mpr (List.mem_range.mpr hk), hmark⟩
  obtain ⟨j, hj⟩ := Option.isSome_iff_exists.mp hsome
  have hmem := List.mem_reverse.mp (List.mem_of_find?_eq_some hj)
  exact ⟨j, List.mem_range.mp hmem, hj, List.find?_some hj⟩

theorem exists_getLsbD {x : BitVec 8} (h : x ≠ 0#8) : ∃ k < 8, x.getLsbD k = true := by
  by_contra hnone
  refine h (BitVec.eq_of_getLsbD_eq fun k hk => ?_)
  rw [BitVec.getLsbD_zero, Bool.eq_false_iff]
  exact fun hbit => hnone ⟨k, hk, hbit⟩

/-- A source that is taken out and put back. -/
theorem putBack {x : BitVec 8} {k : ℕ} (h : x.getLsbD k = true) :
    x &&& ~~~ (1#8 <<< k) ||| 1#8 <<< k = x := by
  refine BitVec.eq_of_getLsbD_eq fun j hj => ?_
  have hbit : (1#8 <<< k).getLsbD j = decide (j = k) := by
    rw [BitVec.getLsbD_shiftLeft, BitVec.getLsbD_one]
    by_cases hjk : j = k
    · simp [hjk] at hj ⊢
      omega
    · simp only [hjk, hj]
      rcases Nat.lt_or_gt_of_ne hjk with hlt | hlt
      · simp [hlt]
      · have hne : j - k ≠ 0 := by omega
        simp [hne]
  rw [BitVec.getLsbD_or, BitVec.getLsbD_and, BitVec.getLsbD_not, hbit]
  by_cases hjk : j = k
  · rw [hjk, h]
    simp
  · simp [hjk, hj]

theorem pend_of_not_act {state : IntState} (hstate : state ≠ .inv) (hact : state.act = false) :
    state.pend = true := by
  obtain ⟨pend, act⟩ := state
  obtain rfl : act = false := hact
  cases pend with
  | false => exact absurd rfl hstate
  | true => rfl

/-- The state of an interrupt that is in no list register. -/
def softState (vm : VgicVm cpuNum intNum) (r : IntRef cpuNum intNum)
    (interrupt : VgicInt cpuNum) : IntState :=
  if vm.version = .gicv2 ∧ gicIsSgi r.id ∧ interrupt.sgiPend ≠ 0#8 then
    { interrupt.state with pend := true }
  else interrupt.state

theorem vgicGetState_of_none (h : s.gichGetLr vm w x = none) :
    s.vgicGetState vm w x = softState vm x (s.ints x) := by
  rw [vgicGetState, softState, h]
  rfl

/-- An SGI of the GICv2 has a state that is its sources'. -/
structure SgiOk (vm : VgicVm cpuNum intNum) (r : IntRef cpuNum intNum)
    (interrupt : VgicInt cpuNum) (state : IntState) : Prop where
  pend : vm.version = .gicv2 → gicIsSgi r.id = true → state.pend = true →
    interrupt.sgiPend ≠ 0#8
  act : vm.version = .gicv2 → gicIsSgi r.id = true → interrupt.sgiAct.toNat < 8

section Sgi

variable (interrupt : VgicInt cpuNum) {state : IntState}
  (hversion : vm.version = .gicv2 ∧ gicIsSgi r.id = true)
include hversion

theorem vgicIntIsHw_of_sgi : VgicVm.vgicIntIsHw r interrupt = false := by
  rw [VgicVm.vgicIntIsHw, hversion.2]
  rfl

theorem vgicLr_of_act (hact : state.act = true) :
    (vm.vgicLr r interrupt state).1.state = .active ∧
      (vm.vgicLr r interrupt state).1.cpuid = interrupt.sgiAct.toNat % 8 ∧
        (vm.vgicLr r interrupt state).2 = interrupt.sgiPend := by
  rw [VgicVm.vgicLr, vgicIntIsHw_of_sgi interrupt hversion, if_neg Bool.false_ne_true,
    if_pos hversion, if_pos hact]
  exact ⟨rfl, rfl, rfl⟩

theorem vgicLr_of_pend {k : ℕ} (hact : state.act = false)
    (hk : VgicVm.highestSet interrupt.sgiPend.getLsbD 8 = some k) :
    (vm.vgicLr r interrupt state).1.state = .pending ∧
      (vm.vgicLr r interrupt state).1.cpuid = k ∧
        (vm.vgicLr r interrupt state).2 = interrupt.sgiPend &&& ~~~ (1#8 <<< k) := by
  rw [VgicVm.vgicLr, vgicIntIsHw_of_sgi interrupt hversion, if_neg Bool.false_ne_true,
    if_pos hversion, hact, if_neg Bool.false_ne_true, hk]
  exact ⟨rfl, rfl, rfl⟩

theorem softState_of_sgi : softState vm r interrupt =
    { interrupt.state with pend := interrupt.state.pend || interrupt.sgiPend != 0#8 } := by
  rw [softState]
  by_cases hpend : interrupt.sgiPend ≠ 0#8
  · rw [if_pos ⟨hversion.1, hversion.2, hpend⟩, bne_iff_ne.mpr hpend, Bool.or_true]
  · rw [if_neg fun h => hpend h.2.2]
    rw [not_not.mp hpend]
    simp

theorem takenBack_of_act {lr : ListReg} (hact : lr.state.act = true) :
    (takenBack vm r interrupt lr).state = lr.state ∧
      (takenBack vm r interrupt lr).sgiAct = BitVec.ofNat 8 lr.cpuid ∧
        (takenBack vm r interrupt lr).sgiPend = interrupt.sgiPend := by
  rw [takenBack, if_pos hversion, if_pos hact]
  exact ⟨rfl, rfl, rfl⟩

theorem takenBack_of_pend {lr : ListReg} (hact : lr.state.act = false)
    (hpend : lr.state.pend = true) :
    (takenBack vm r interrupt lr).state = lr.state ∧
      (takenBack vm r interrupt lr).sgiAct = interrupt.sgiAct ∧
        (takenBack vm r interrupt lr).sgiPend = interrupt.sgiPend ||| 1#8 <<< lr.cpuid := by
  rw [takenBack, if_pos hversion, hact, if_neg Bool.false_ne_true, if_pos hpend]
  exact ⟨rfl, rfl, rfl⟩

/-- What goes into a list register for an SGI comes out of it again. -/
theorem softState_takenBack_sgi (hstate : state ≠ .inv) (hok : SgiOk vm r interrupt state)
    (hsgi : interrupt.sgiPend ≠ 0#8 → state.pend = true) {lr : ListReg} {placed : VgicInt cpuNum}
    (hlr : lr = (vm.vgicLr r interrupt state).1)
    (hpend : placed.sgiPend = (vm.vgicLr r interrupt state).2)
    (hact : placed.sgiAct = interrupt.sgiAct) :
    lr.state ≠ .inv ∧ softState vm r (takenBack vm r placed lr) = state ∧
      (takenBack vm r placed lr).sgiPend = interrupt.sgiPend ∧
        (takenBack vm r placed lr).sgiAct = interrupt.sgiAct := by
  have hsources : state.pend = (interrupt.sgiPend != 0#8) := by
    rw [Bool.eq_iff_iff, bne_iff_ne]
    exact ⟨hok.pend hversion.1 hversion.2, hsgi⟩
  rw [softState_of_sgi _ hversion]
  cases hstateAct : state.act with
  | true =>
      obtain ⟨hactive, hcpuid, hkept⟩ := vgicLr_of_act interrupt hversion hstateAct
      rw [← hlr] at hactive hcpuid
      obtain ⟨hback, hbackAct, hbackPend⟩ := takenBack_of_act placed hversion
        (show lr.state.act = true by rw [hactive]; rfl)
      have hsource : BitVec.ofNat 8 (interrupt.sgiAct.toNat % 8) = interrupt.sgiAct := by
        rw [Nat.mod_eq_of_lt (hok.act hversion.1 hversion.2), BitVec.ofNat_toNat,
          BitVec.setWidth_eq]
      rw [hback, hbackAct, hbackPend, hpend, hkept, hcpuid, hsource, hactive]
      refine ⟨by decide, ?_, rfl, rfl⟩
      dsimp only [IntState.active]
      rw [Bool.false_or, ← hsources, ← hstateAct]
  | false =>
      have hpending := pend_of_not_act hstate hstateAct
      have hne : interrupt.sgiPend ≠ 0#8 := hok.pend hversion.1 hversion.2 hpending
      obtain ⟨k, -, hhigh, hbit⟩ := exists_highestSet (exists_getLsbD hne)
      obtain ⟨hpend', hcpuid, hrest⟩ := vgicLr_of_pend interrupt hversion hstateAct hhigh
      rw [← hlr] at hpend' hcpuid
      obtain ⟨hback, hbackAct, hbackPend⟩ := takenBack_of_pend placed hversion
        (show lr.state.act = false by rw [hpend']; rfl) (by rw [hpend']; rfl)
      have hall : (takenBack vm r placed lr).sgiPend = interrupt.sgiPend := by
        rw [hbackPend, hpend, hrest, hcpuid, putBack hbit]
      rw [hall, hback, hbackAct, hact, hpend']
      refine ⟨by decide, ?_, rfl, rfl⟩
      dsimp only [IntState.pending]
      rw [Bool.true_or, ← hpending, ← hstateAct]

end Sgi

/-- What goes into a list register for an interrupt comes out of it again. -/
theorem softState_takenBack {interrupt placed : VgicInt cpuNum} {state : IntState} {lr : ListReg}
    (hhw : VgicVm.vgicIntIsHw r interrupt = false) (hstate : state ≠ .inv)
    (hok : SgiOk vm r interrupt state)
    (hsgi : vm.version = .gicv2 → gicIsSgi r.id = true → interrupt.sgiPend ≠ 0#8 →
      state.pend = true)
    (hlr : lr = (vm.vgicLr r interrupt state).1)
    (hpend : placed.sgiPend = (vm.vgicLr r interrupt state).2)
    (hact : placed.sgiAct = interrupt.sgiAct) :
    lr.state ≠ .inv ∧ softState vm r (takenBack vm r placed lr) = state ∧
      (takenBack vm r placed lr).sgiPend = interrupt.sgiPend ∧
        (takenBack vm r placed lr).sgiAct = interrupt.sgiAct := by
  by_cases hversion : vm.version = .gicv2 ∧ gicIsSgi r.id = true
  · exact softState_takenBack_sgi interrupt hversion hstate hok (hsgi hversion.1 hversion.2) hlr
      hpend hact
  · have hvalue : (vm.vgicLr r interrupt state).1.state = state ∧
        (vm.vgicLr r interrupt state).2 = interrupt.sgiPend := by
      rw [VgicVm.vgicLr, hhw, if_neg Bool.false_ne_true, if_neg hversion]
      exact ⟨rfl, rfl⟩
    have hsoft : ∀ back, softState vm r back = back.state := by
      intro back
      rw [softState, if_neg fun h => hversion ⟨h.1, h.2.1⟩]
    rw [hsoft, takenBack, if_neg hversion, hlr, hvalue.1]
    exact ⟨hstate, rfl, hpend.trans hvalue.2, hact⟩

/-- So it does when the list register is the word that `vgic_write_lr` puts together. -/
theorem softState_takenBack_word {interrupt placed : VgicInt cpuNum} {state : IntState}
    (hhw : VgicVm.vgicIntIsHw r interrupt = false) (hstate : state ≠ .inv)
    (hok : SgiOk vm r interrupt state)
    (hsgi : vm.version = .gicv2 → gicIsSgi r.id = true → interrupt.sgiPend ≠ 0#8 →
      state.pend = true)
    (hpend : placed.sgiPend = (vm.vgicLrWord r interrupt state).2)
    (hact : placed.sgiAct = interrupt.sgiAct) :
    let back := takenBack vm r placed (vm.version.readLr (vm.vgicLrWord r interrupt state).1)
    softState vm r back = state ∧ back.sgiPend = interrupt.sgiPend ∧
      back.sgiAct = interrupt.sgiAct := by
  obtain ⟨hword, hkept⟩ := vm.readLr_vgicLrWord r interrupt state
  exact (softState_takenBack hhw hstate hok hsgi hword (hpend.trans hkept) hact).2

/-! ## The round trip -/

theorem vgicRemoveLr_of_found {lr : ListReg} (howner : (s.ints r).owner = some v)
    (hin : (s.ints r).inLr = true) (hfound : s.gichGetLr vm v r = some lr) :
    s.vgicRemoveLr vm v r =
      (s.gichWriteLr v (s.ints r).lr .zero).setInt r (takenBack vm r (s.ints r) lr) := by
  have hthere : ¬ ((s.ints r).owner ≠ some v ∨ (s.ints r).inLr = false) := by
    rw [howner, hin]
    simp
  rw [vgicRemoveLr, if_neg hthere, hfound]

/-- What becomes of the list registers and of other interrupts when an interrupt is written to a
list register and the list register is cleared. -/
theorem placeInt_cleared (s : VgicState cpuNum intNum) (vm : VgicVm cpuNum intNum)
    (v : Fin cpuNum) (r : IntRef cpuNum intNum) (i : ℕ) (back : VgicInt cpuNum) :
    (∀ w j, (((s.placeInt vm v r i).gichWriteLr v i .zero).setInt r back).lrs w j =
        if w = v ∧ j = i then .zero else s.lrs w j) ∧
      ∀ x ≠ r, (((s.placeInt vm v r i).gichWriteLr v i .zero).setInt r back).ints x =
        s.ints x := by
  refine ⟨fun w j => ?_, fun x hx => (ints_setInt_of_ne hx).trans (ints_placeInt_of_ne hx)⟩
  change ((s.placeInt vm v r i).gichWriteLr v i .zero).lrs w j = _
  rw [lrs_gichWriteLr, lrs_placeInt]
  split_ifs
  · rfl
  · rfl

/-- The state of an interrupt and the sources of an SGI are those of before, as are the states of
all other interrupts on any CPU, and the list register is empty. -/
structure RoundTrip (s s' : VgicState cpuNum intNum) (vm : VgicVm cpuNum intNum) (v : Fin cpuNum)
    (r : IntRef cpuNum intNum) (i : ℕ) : Prop where
  state : s'.vgicGetState vm v r = s.vgicGetState vm v r
  sources : vm.version = .gicv2 → gicIsSgi r.id = true →
    (s'.ints r).sgiPend = (s.ints r).sgiPend ∧ (s'.ints r).sgiAct = (s.ints r).sgiAct
  others : ∀ x ≠ r, ∀ w, s'.vgicGetState vm w x = s.vgicGetState vm w x
  register : (s'.lrs v i).state = .inv

/-- An interrupt that is not of the hardware is written to an empty list register and removed from
it. -/
theorem roundTrip_vgicWriteLr (hempty : s.gichGetElrsr v i = true)
    (howner : (s.ints r).owner = some v) (hhw : VgicVm.vgicIntIsHw r (s.ints r) = false)
    (hstate : s.vgicGetState vm v r ≠ .inv)
    (hok : SgiOk vm r (s.ints r) (s.vgicGetState vm v r)) :
    RoundTrip s ((s.vgicWriteLr vm v r i).vgicRemoveLr vm v r) vm v r i := by
  have hinv : (s.lrs v i).state = .inv := by
    rw [gichGetElrsr, ListReg.isEmpty, Bool.and_eq_true, beq_iff_eq] at hempty
    exact hempty.1
  have hsgi : vm.version = .gicv2 → gicIsSgi r.id = true → (s.ints r).sgiPend ≠ 0#8 →
      (s.vgicGetState vm v r).pend = true := by
    intro hversion hid hpend
    rw [vgicGetState, if_pos ⟨hversion, hid, hpend⟩]
  obtain ⟨p, hp⟩ : ∃ p, p = s.forgetPrev vm v r i := ⟨_, rfl⟩
  have hsame : SamePlaces s p := hp ▸ samePlaces_forgetPrev s vm v r i
  have hints : p.ints r = s.ints r := hp ▸ ints_forgetPrev_self s vm v r i
  have hstates : ∀ w x, p.vgicGetState vm w x = s.vgicGetState vm w x := fun w x =>
    hp ▸ vgicGetState_forgetPrev hinv vm w r x
  obtain ⟨lr, hlr⟩ : ∃ lr, lr = (vm.vgicLr r (s.ints r) (s.vgicGetState vm v r)).1 := ⟨_, rfl⟩
  obtain ⟨placed, hplaced⟩ : ∃ placed, placed = (p.placeInt vm v r i).ints r := ⟨_, rfl⟩
  have hself := @ints_placeInt_self _ _ p vm v r i
  rw [hints, hstates] at hself
  have hpend : placed.sgiPend = (vm.vgicLr r (s.ints r) (s.vgicGetState vm v r)).2 := by
    rw [hplaced, hself]
  have hact : placed.sgiAct = (s.ints r).sgiAct := by rw [hplaced, hself]
  obtain ⟨hvalid, hsoft, hsources⟩ := softState_takenBack hhw hstate hok hsgi hlr hpend hact
  have hfound : (p.placeInt vm v r i).gichGetLr vm v r = some lr := by
    rw [hlr, ← hints, ← hstates] at hvalid ⊢
    exact gichGetLr_placeInt (by rwa [hints]) hvalid
  have hremove : (p.placeInt vm v r i).vgicRemoveLr vm v r =
      ((p.placeInt vm v r i).gichWriteLr v i .zero).setInt r (takenBack vm r placed lr) := by
    rw [vgicRemoveLr_of_found (by rwa [hself]) (by rw [hself]) hfound, hplaced]
    rw [show ((p.placeInt vm v r i).ints r).lr = i by rw [hself]]
  obtain ⟨hlrs, hothers⟩ := placeInt_cleared p vm v r i (takenBack vm r placed lr)
  have hback := (takenBack_eq vm r placed lr).2.1
  rw [vgicWriteLr, ← hp, hremove]
  refine ⟨?_, fun _ _ => ?_, fun x hx w => ?_, ?_⟩
  · rw [vgicGetState_of_none (gichGetLr_of_not_inLr (by rwa [ints_setInt_self])),
      ints_setInt_self, hsoft]
  · rwa [ints_setInt_self]
  · rw [← hstates]
    refine vgicGetState_of_lrs (hothers x hx) fun j => ?_
    rw [hlrs]
    split_ifs with hhere
    · refine .inr ⟨fun h => h.2 rfl, fun h => h.2 ?_⟩
      rw [hhere.1, hhere.2, hsame.lrs, hinv]
    · exact .inl rfl
  · rw [hlrs, if_pos ⟨rfl, rfl⟩]
    rfl

/-- After the reset, the interrupt is pending from two CPUs. -/
def twoSources (vm : VgicVm cpuNum intNum) (r : IntRef cpuNum intNum) :
    VgicState cpuNum intNum :=
  let s := start vm fun _ => false
  s.setInt r { s.ints r with state := .pending, sgiPend := 0b101#8 }

theorem roundTrip_vgicWriteLr_sgi :
    RoundTrip (twoSources (oneVcpu 4) (.priv 0 1))
      (((twoSources (oneVcpu 4) (.priv 0 1)).vgicWriteLr (oneVcpu 4) 0 (.priv 0 1) 0).vgicRemoveLr
        (oneVcpu 4) 0 (.priv 0 1)) (oneVcpu 4) 0 (.priv 0 1) 0 :=
  roundTrip_vgicWriteLr (by decide) (by decide) (by decide) (by decide)
    ⟨fun _ _ _ => by decide, fun _ _ => by decide⟩

end VgicState

end BaoHypervisor
