import BaoHypervisor.Arch.Armv8.Vgic.Placement

/-!
# Moves between list registers and spilled lists

A list register that holds nothing is written for an interrupt that is in no list register
and in no spilled list, after what it held before was spilled. So `vgic_add_lr` keeps the
invariant whenever the interrupt that it is asked to add is in no spilled list.
-/

namespace BaoHypervisor

variable {cpuNum intNum : ℕ}

namespace VgicVm

variable {vm : VgicVm cpuNum intNum} {r : IntRef cpuNum intNum}

/-- The value of a list register that is written names the interrupt, and asks for a
maintenance interrupt at its end on the GICv3 only if the interrupt is not private. -/
theorem vgicLr_eq (vm : VgicVm cpuNum intNum) (r : IntRef cpuNum intNum)
    (interrupt : VgicInt cpuNum) (state : IntState) :
    (vm.vgicLr r interrupt state).1.vid = r.id ∧
      (vm.version = .gicv3 → (vm.vgicLr r interrupt state).1.eoi = true →
        gicIsPriv r.id = false) := by
  have hlt := IntRef.id_lt vm.intNum_le r
  have hvid : r.id % vm.version.vids = r.id := by
    refine Nat.mod_eq_of_lt (hlt.trans_le ?_)
    cases vm.version with
    | gicv2 => decide
    | gicv3 => decide
  rw [vgicLr]
  by_cases hhw : vgicIntIsHw r interrupt
  · rw [if_pos hhw]
    exact ⟨hvid, fun _ heoi => by cases heoi⟩
  · rw [if_neg hhw]
    by_cases hsgi : vm.version = .gicv2 ∧ gicIsSgi r.id
    · rw [if_pos hsgi]
      refine ⟨?_, fun hversion => by cases hsgi.1.symm.trans hversion⟩
      dsimp only
      split_ifs
      · exact hvid
      · split
        · exact hvid
        · exact hvid
    · rw [if_neg hsgi]
      exact ⟨hvid, fun _ heoi => (Bool.not_eq_true' _).mp heoi⟩

theorem of_firstLr {marked : ℕ → Bool} {i : ℕ} (h : vm.firstLr marked = some i) :
    marked i = true :=
  List.find?_some h

end VgicVm

namespace VgicState

variable {s : VgicState cpuNum intNum} {vm : VgicVm cpuNum intNum} {v : Fin cpuNum}
  {r r' : IntRef cpuNum intNum} {i : ℕ}

/-! ## Writing a list register -/

theorem Inv.setCurrLrs (h : s.Inv vm) (currLrs : Fin cpuNum → ℕ → ℕ) :
    Inv { s with currLrs := currLrs } vm :=
  ⟨⟨h.listed.spans, h.listed.nodup, h.listed.own, h.listed.tail⟩,
    ⟨h.placed.recorded, h.placed.waiting⟩,
    ⟨h.fixed.owner, h.fixed.phys, h.fixed.vid, h.fixed.eoi⟩⟩

/-- `vgic_write_lr` changes at most one interrupt that it finds in its list register: it is there
no more, and may be without an owner. -/
theorem ints_forgetPrev (s : VgicState cpuNum intNum) (vm : VgicVm cpuNum intNum)
    (v : Fin cpuNum) (r : IntRef cpuNum intNum) (i : ℕ) (x : IntRef cpuNum intNum) :
    (s.forgetPrev vm v r i).ints x = s.ints x ∨
      x.id ≠ r.id ∧ (s.ints x).owner = some v ∧ (s.ints x).inLr = true ∧ (s.ints x).lr = i ∧
        ∃ owner, (owner = some v ∨ owner = none) ∧
          (s.forgetPrev vm v r i).ints x = { s.ints x with inLr := false, owner := owner } := by
  rw [forgetPrev]
  split_ifs with hprev
  · cases hget : vgicGetInt (s.currLrs v i) v with
    | none => exact .inl rfl
    | some prev =>
        dsimp only
        split_ifs with hthere
        · by_cases hx : x = prev
          · subst hx
            refine .inr ⟨?_, hthere.1, hthere.2.1, hthere.2.2, ?_⟩
            · rw [(IntRef.of_vgicGetInt hget).2]
              exact hprev.1
            · rcases vgicYieldOwnership_cases
                (s.setInt x { s.ints x with inLr := false }) vm v x with heq | ⟨heq, -⟩
              · refine ⟨some v, .inl rfl, ?_⟩
                rw [heq, ints_setInt_self, ← hthere.1]
              · refine ⟨none, .inr rfl, ?_⟩
                rw [heq, ints_setInt_self, ints_setInt_self]
          · have hframe := (vgicYieldOwnership_frame
              (s.setInt prev { s.ints prev with inLr := false }) vm v prev).2 x hx
            exact .inl (hframe.trans (ints_setInt_of_ne hx))
        · exact .inl rfl
  · exact .inl rfl

theorem samePlaces_forgetPrev (s : VgicState cpuNum intNum) (vm : VgicVm cpuNum intNum)
    (v : Fin cpuNum) (r : IntRef cpuNum intNum) (i : ℕ) :
    SamePlaces s (s.forgetPrev vm v r i) := by
  rw [forgetPrev]
  split_ifs
  · cases vgicGetInt (s.currLrs v i) v with
    | none => exact ⟨rfl, rfl, rfl⟩
    | some prev =>
        dsimp only
        split_ifs
        · exact (samePlaces_setInt ..).trans (vgicYieldOwnership_frame _ vm v prev).1
        · exact ⟨rfl, rfl, rfl⟩
  · exact ⟨rfl, rfl, rfl⟩

theorem ints_forgetPrev_self (s : VgicState cpuNum intNum) (vm : VgicVm cpuNum intNum)
    (v : Fin cpuNum) (r : IntRef cpuNum intNum) (i : ℕ) :
    (s.forgetPrev vm v r i).ints r = s.ints r := by
  rcases ints_forgetPrev s vm v r i r with heq | ⟨hne, -⟩
  · exact heq
  · exact absurd rfl hne

theorem Inv.forgetPrev (h : s.Inv vm) (hfree : ∀ r', ¬ s.Holds v i r') :
    (s.forgetPrev vm v r i).Inv vm := by
  rw [VgicState.forgetPrev]
  split_ifs with hprev
  · cases hget : vgicGetInt (s.currLrs v i) v with
    | none => exact h
    | some prev =>
        dsimp only
        split_ifs with hthere
        · obtain ⟨howner, -, hlr⟩ := hthere
          have hnot : ¬ s.Held prev := by
            rintro ⟨w, j, hholds⟩
            obtain ⟨ho, -, hj⟩ := h.placed.recorded w j prev hholds
            obtain rfl : w = v := Option.some.inj (ho.symm.trans howner)
            obtain rfl : j = i := hj.symm.trans hlr
            exact hfree prev hholds
          have hset : (s.setInt prev { s.ints prev with inLr := false }).Inv vm :=
            h.setInt (fun _ => rfl) (fun hheld => absurd hheld hnot) (fun _ _ => rfl)
              fun _ => rfl
          exact hset.vgicYieldOwnership
        · exact h
  · exact h

theorem Inv.placeInt (h : s.Inv vm) (hat : r.At v) (howner : (s.ints r).owner = some v)
    (hr : r ∉ s.spilledNodes r.list) (hnot : ¬ s.Held r) : (s.placeInt vm v r i).Inv vm := by
  obtain ⟨hvid, heoi⟩ := VgicVm.vgicLr_eq vm r (s.ints r) (s.vgicGetState vm v r)
  rw [VgicState.placeInt]
  generalize vm.vgicLr r (s.ints r) (s.vgicGetState vm v r) = value at hvid heoi
  have hget := IntRef.vgicGetInt_id hat
  rw [← hvid] at hget heoi
  have hset : (s.setInt r { s.ints r with
      state := .inv, inLr := true, lr := i, sgiPend := value.2 }).Inv vm :=
    h.setInt (fun hin => absurd hin hr) (fun hheld => absurd hheld hnot) (fun _ _ => rfl)
      fun _ => rfl
  refine (hset.gichWriteLr ⟨r, hget⟩ heoi fun r' _ hget' => ?_).setCurrLrs _
  obtain rfl : r = r' := Option.some.inj (hget.symm.trans hget')
  rw [ints_setInt_self]
  exact ⟨howner, rfl, rfl⟩

theorem Inv.vgicWriteLr (h : s.Inv vm) (hat : r.At v) (howner : (s.ints r).owner = some v)
    (hr : r ∉ s.spilledNodes r.list) (hnot : ¬ s.Held r) (hfree : ∀ r', ¬ s.Holds v i r') :
    (s.vgicWriteLr vm v r i).Inv vm := by
  have hsame := samePlaces_forgetPrev s vm v r i
  refine (h.forgetPrev hfree).placeInt hat ?_ ?_ ?_
  · rwa [ints_forgetPrev_self]
  · rwa [hsame.spilledNodes_eq]
  · rwa [hsame.held_iff]

/-! ## Spilling -/

/-- The list registers that the loop of `vgic_add_lr` has chosen are not invalid. -/
structure ScanValid (lrs : ℕ → ListReg) (scan : VgicVm.Scan) : Prop where
  pend : ∀ i, scan.pendInd = some i → (lrs i).state ≠ .inv
  act : ∀ i, scan.actInd = some i → (lrs i).state ≠ .inv

theorem ScanValid.scanLr {lrs : ℕ → ListReg} {scan : VgicVm.Scan} (h : ScanValid lrs scan)
    (vm : VgicVm cpuNum intNum) (i : ℕ) : ScanValid lrs (vm.scanLr lrs scan i) := by
  have hchosen : ∀ j, some i = some j → (lrs i).state ≠ .inv → (lrs j).state ≠ .inv := by
    intro j heq hne
    rwa [← Option.some.inj heq]
  rw [VgicVm.scanLr]
  cases vm.version with
  | gicv3 => exact h
  | gicv2 =>
      dsimp only
      split_ifs with hact hprio hpend hprio
      · refine ⟨h.pend, fun j heq => hchosen j heq fun hinv => ?_⟩
        rw [hinv] at hact
        cases hact
      · exact h
      · refine ⟨fun j heq => hchosen j heq fun hinv => ?_, h.act⟩
        rw [hinv] at hpend
        cases hpend
      · exact ⟨h.pend, h.act⟩
      · exact h

theorem ScanValid.foldl {lrs : ℕ → ListReg} {scan : VgicVm.Scan} (h : ScanValid lrs scan)
    (vm : VgicVm cpuNum intNum) (is : List ℕ) :
    ScanValid lrs (is.foldl (vm.scanLr lrs) scan) := by
  induction is generalizing scan with
  | nil => exact h
  | cons i is ih => exact ih (h.scanLr vm i)

theorem state_of_spillInd {lrs : ℕ → ListReg} {interrupt : VgicInt cpuNum}
    (h : vm.spillInd r lrs interrupt = some i) : (lrs i).state ≠ .inv := by
  have hstart : ScanValid lrs
      { minPrioPend := interrupt.prio.toNat, minPrioAct := interrupt.prio.toNat
        minIdPend := r.id, minIdAct := r.id, pendFound := 0, pendInd := none, actInd := none } :=
    ⟨fun _ heq => (by cases heq), fun _ heq => by cases heq⟩
  have hvalid := hstart.foldl vm (List.range vm.numLrs)
  rw [VgicVm.spillInd] at h
  split_ifs at h
  · exact hvalid.pend i h
  · exact hvalid.act i h

/-- The interrupt in a list register is spilled, and one that is in no list register stays
where it is. -/
theorem Inv.vgicSpillLr (h : s.Inv vm) (hlr : (s.lrs v i).state ≠ .inv) :
    (s.vgicSpillLr vm v i).Inv vm ∧ (∀ r', ¬ (s.vgicSpillLr vm v i).Holds v i r') ∧
      ∀ r, ¬ s.Held r → r ∉ s.spilledNodes r.list →
        (s.vgicSpillLr vm v i).ints r = s.ints r ∧
          r ∉ (s.vgicSpillLr vm v i).spilledNodes r.list := by
  rw [VgicState.vgicSpillLr]
  cases hget : vgicGetInt (s.lrs v i).vid v with
  | none =>
      refine ⟨h, fun r' hholds => ?_, fun r _ hr => ⟨rfl, hr⟩⟩
      cases hget.symm.trans hholds.2
  | some spilled =>
      have hholds : s.Holds v i spilled := ⟨hlr, hget⟩
      obtain ⟨howner, -, -⟩ := h.placed.recorded v i spilled hholds
      have hnot : spilled ∉ s.spilledNodes spilled.list :=
        fun hmem => h.placed.apart hmem ⟨v, i, hholds⟩
      obtain ⟨hinv, hremoved⟩ := h.vgicRemoveLr (v := v) (r := spilled)
      rw [← hremoved.spilledNodes_eq] at hnot
      obtain ⟨hinv', hnodes⟩ := hinv.vgicAddSpilled hholds.at hnot (hremoved.inLr howner)
      obtain ⟨hsame, hints⟩ := vgicYieldOwnership_frame
        ((s.vgicRemoveLr vm v spilled).vgicAddSpilled v spilled) vm v spilled
      refine ⟨hinv'.vgicYieldOwnership, fun r' hholds' => ?_, fun r hr hmem => ?_⟩
      · have hthere : (s.vgicRemoveLr vm v spilled).Holds v i r' := hsame.holds_iff.mp hholds'
        obtain rfl := hholds.unique (hremoved.holds v i r' hthere)
        exact hinv.placed.not_held (hremoved.inLr howner) ⟨v, i, hthere⟩
      · have hne : r ≠ spilled := by
          rintro rfl
          exact hr ⟨v, i, hholds⟩
        refine ⟨(hints r hne).trans (hremoved.ints r hne), fun hin => ?_⟩
        rw [hsame.spilledNodes_eq] at hin
        rcases hnodes r.list r hin with heq | hin
        · exact hne heq
        · rw [hremoved.spilledNodes_eq] at hin
          exact hmem hin

/-- An interrupt that is in no spilled list is added to a list register or to its list. -/
theorem Inv.vgicAddLr (h : s.Inv vm) (hat : r.At v) (howner : (s.ints r).owner = some v)
    (hr : (s.ints r).enabled = true → (s.ints r).inLr = false → r ∉ s.spilledNodes r.list) :
    (s.vgicAddLr vm v r).Inv vm := by
  rw [VgicState.vgicAddLr]
  split_ifs with hskip
  · exact h
  rw [not_or, Bool.not_eq_false, Bool.not_eq_true] at hskip
  obtain ⟨henabled, hin⟩ := hskip
  have hr := hr henabled hin
  have hnot : ¬ s.Held r := h.placed.not_held hin
  cases hfirst : vm.firstLr (s.gichGetElrsr v) with
  | some i =>
      have hempty := VgicVm.of_firstLr hfirst
      rw [gichGetElrsr, ListReg.isEmpty, Bool.and_eq_true, beq_iff_eq] at hempty
      exact h.vgicWriteLr hat howner hr hnot fun r' hholds => hholds.1 hempty.1
  | none =>
      cases hspill : vm.spillInd r (s.lrs v) (s.ints r) with
      | none => exact (h.vgicAddSpilled hat hr hin).1
      | some i =>
          obtain ⟨hinv, hfree, hkept⟩ := h.vgicSpillLr (v := v) (state_of_spillInd hspill)
          obtain ⟨hints, hr'⟩ := hkept r hnot hr
          refine hinv.vgicWriteLr hat ?_ hr' (hinv.placed.not_held ?_) hfree
          · rwa [hints]
          · rwa [hints]

end VgicState

end BaoHypervisor
