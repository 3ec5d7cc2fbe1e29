import BaoHypervisor.Arch.Armv8.Vgic.Ops
import Mathlib.Data.Fintype.Sum
import Mathlib.Data.Fintype.BigOperators

/-!
# Where an interrupt is

An interrupt that is held by a list register knows it: it is `in_lr`, with the vCPU of the
list register as its owner and its index as `lr`. So no two list registers hold the same
interrupt. The spilled lists have no cycle and hold interrupts that no list register holds.
This is kept by whatever adds an interrupt that is in no spilled list.
-/

namespace BaoHypervisor

variable {cpuNum intNum : ℕ}

/-! ## Interrupts and their numbers -/

namespace IntRef

variable {r : IntRef cpuNum intNum} {v : Fin cpuNum}

def list : IntRef cpuNum intNum → SpilledList cpuNum
  | .priv v _ => .vcpu v
  | .spi _ => .vm

/-- The interrupt is one of the vCPU, or of all. -/
def At (v : Fin cpuNum) : IntRef cpuNum intNum → Prop
  | .priv w _ => w = v
  | .spi _ => True

theorem id_lt (hle : intNum ≤ 1024) : ∀ r : IntRef cpuNum intNum, r.id < 1024
  | .priv _ id => by rw [IntRef.id]; omega
  | .spi i => by rw [IntRef.id]; omega

theorem gicIsPriv_id : ∀ r : IntRef cpuNum intNum, gicIsPriv r.id = true ↔ r.list ≠ .vm
  | .priv v id => by simp [IntRef.id, IntRef.list, gicIsPriv]
  | .spi i => by simp [IntRef.id, IntRef.list, gicIsPriv]

theorem At.list (h : r.At v) :
    (if gicIsPriv r.id then .vcpu v else .vm : SpilledList cpuNum) = r.list := by
  cases r with
  | priv w id =>
      obtain rfl : w = v := h
      exact if_pos ((gicIsPriv_id _).mpr fun heq => by cases heq)
  | spi i => exact if_neg fun hpriv => (gicIsPriv_id _).mp hpriv rfl

theorem at_of_list (h : r.list = .vcpu v ∨ r.list = .vm) : r.At v := by
  cases r with
  | priv w id =>
      rcases h with h | h
      · exact SpilledList.vcpu.inj h
      · cases h
  | spi i => trivial

theorem vgicGetInt_id (h : r.At v) : vgicGetInt r.id v = some r := by
  cases r with
  | priv w id =>
      obtain rfl : w = v := h
      rw [IntRef.id, vgicGetInt, dif_pos id.isLt, dif_pos w.isLt]
  | spi i =>
      have hlt := i.isLt
      rw [IntRef.id, vgicGetInt, dif_neg (by omega), dif_pos (by omega)]
      simp

theorem vgicGetInt_zero (v : Fin cpuNum) :
    vgicGetInt 0 v = some (.priv v 0 : IntRef cpuNum intNum) :=
  vgicGetInt_id (r := .priv v 0) rfl

theorem of_vgicGetInt {id : ℕ} (h : vgicGetInt id v = some r) : r.At v ∧ r.id = id := by
  rw [vgicGetInt] at h
  split_ifs at h with hpriv hvcpu hlt
  · obtain rfl := Option.some.inj h
    exact ⟨rfl, rfl⟩
  · obtain rfl := Option.some.inj h
    refine ⟨trivial, ?_⟩
    rw [IntRef.id]
    exact Nat.sub_add_cancel (not_lt.mp hpriv)

/-- A list without a node twice is no longer than the walks through lists go. -/
theorem length_le_of_nodup {nodes : List (IntRef cpuNum intNum)} (h : nodes.Nodup) :
    nodes.length ≤ cpuNum * 32 + (intNum - 32) := by
  let place : IntRef cpuNum intNum → (Fin cpuNum × Fin 32) ⊕ Fin (intNum - 32)
    | .priv v id => .inl (v, id)
    | .spi i => .inr i
  have hinj : Function.Injective place := by
    rintro (⟨v, id⟩ | i) (⟨w, id'⟩ | j) heq
    · obtain ⟨rfl, rfl⟩ := Prod.mk.inj (Sum.inl.inj heq)
      rfl
    · cases heq
    · cases heq
    · obtain rfl := Sum.inr.inj heq
      rfl
  have hcard := (h.map hinj).length_le_card
  rwa [List.length_map, Fintype.card_sum, Fintype.card_prod, Fintype.card_fin, Fintype.card_fin,
    Fintype.card_fin] at hcard

end IntRef

namespace VgicState

/-! ## The invariant -/

/-- The list register holds the interrupt in a state that is not invalid. -/
def Holds (s : VgicState cpuNum intNum) (v : Fin cpuNum) (i : ℕ) (r : IntRef cpuNum intNum) :
    Prop :=
  (s.lrs v i).state ≠ .inv ∧ vgicGetInt (s.lrs v i).vid v = some r

def Held (s : VgicState cpuNum intNum) (r : IntRef cpuNum intNum) : Prop := ∃ v i, s.Holds v i r

/-- The spilled lists end, with no interrupt in them twice and none in a list that is not
its own. -/
structure Listed (s : VgicState cpuNum intNum) : Prop where
  spans : ∀ q, (s.spilled q).Spans s.link (s.spilledNodes q)
  nodup : ∀ q, (s.spilledNodes q).Nodup
  own : ∀ q, ∀ r ∈ s.spilledNodes q, r.list = q
  tail : ∀ q r, (s.spilled q).tail = some r → r.list = q

/-- An interrupt that is held knows where, and one in a spilled list that it is in no list
register. -/
structure Placed (s : VgicState cpuNum intNum) : Prop where
  recorded : ∀ v i r, s.Holds v i r →
    (s.ints r).owner = some v ∧ (s.ints r).inLr = true ∧ (s.ints r).lr = i
  waiting : ∀ q, ∀ r ∈ s.spilledNodes q, (s.ints r).inLr = false

/-- What is fixed of private interrupts, and of list registers: they name interrupts of their
vCPU, and on the GICv3 no private one that ends with a maintenance interrupt. -/
structure Fixed (s : VgicState cpuNum intNum) (vm : VgicVm cpuNum intNum) : Prop where
  owner : vm.version = .gicv2 → ∀ v id, (s.ints (.priv v id)).owner = some v
  phys : vm.version = .gicv3 → ∀ v id,
    (s.ints (.priv v id)).phys = BitVec.ofNat 64 (vm.physId v)
  vid : ∀ v i, ∃ r : IntRef cpuNum intNum, vgicGetInt (s.lrs v i).vid v = some r
  eoi : vm.version = .gicv3 → ∀ v i, (s.lrs v i).eoi = true →
    gicIsPriv (s.lrs v i).vid = false

/-- The invariant of the vGIC. -/
structure Inv (s : VgicState cpuNum intNum) (vm : VgicVm cpuNum intNum) : Prop where
  listed : s.Listed
  placed : s.Placed
  fixed : s.Fixed vm

variable {s : VgicState cpuNum intNum} {vm : VgicVm cpuNum intNum} {v : Fin cpuNum}
  {r r' : IntRef cpuNum intNum} {i : ℕ}

theorem Holds.at (h : s.Holds v i r) : r.At v := (IntRef.of_vgicGetInt h.2).1

theorem Holds.unique (h : s.Holds v i r) (h' : s.Holds v i r') : r = r' :=
  Option.some.inj (h.2.symm.trans h'.2)

theorem Placed.not_held (h : s.Placed) (hin : (s.ints r).inLr = false) : ¬ s.Held r := by
  rintro ⟨w, j, hholds⟩
  rw [(h.recorded w j r hholds).2.1] at hin
  cases hin

theorem Placed.apart (h : s.Placed) {q : SpilledList cpuNum} (hr : r ∈ s.spilledNodes q) :
    ¬ s.Held r :=
  h.not_held (h.waiting q r hr)

theorem Listed.not_mem (h : s.Listed) (hr : r ∉ s.spilledNodes r.list)
    (q : SpilledList cpuNum) : r ∉ s.spilledNodes q := by
  intro hmem
  obtain rfl := h.own q r hmem
  exact hr hmem

theorem spilledNodes_eq {q : SpilledList cpuNum} {nodes : List (IntRef cpuNum intNum)}
    (h : (s.spilled q).Spans s.link nodes) (hnodup : nodes.Nodup) : s.spilledNodes q = nodes :=
  NodeList.listForeach_of_spans h (IntRef.length_le_of_nodup hnodup)

theorem spilledNodes_congr {s' : VgicState cpuNum intNum} (hlink : s'.link = s.link)
    (hspilled : s'.spilled = s.spilled) : s'.spilledNodes = s.spilledNodes := by
  funext q
  rw [spilledNodes, spilledNodes, hlink, hspilled]
  rfl

/-- The list registers and the spilled lists are the same. -/
structure SamePlaces (s s' : VgicState cpuNum intNum) : Prop where
  lrs : s'.lrs = s.lrs
  link : s'.link = s.link
  spilled : s'.spilled = s.spilled

section SamePlaces

variable {s' : VgicState cpuNum intNum}

theorem SamePlaces.trans {s'' : VgicState cpuNum intNum} (h : SamePlaces s s')
    (h' : SamePlaces s' s'') : SamePlaces s s'' :=
  ⟨h'.lrs.trans h.lrs, h'.link.trans h.link, h'.spilled.trans h.spilled⟩

theorem SamePlaces.spilledNodes_eq (h : SamePlaces s s') : s'.spilledNodes = s.spilledNodes :=
  spilledNodes_congr h.link h.spilled

theorem SamePlaces.holds_iff (h : SamePlaces s s') : s'.Holds v i r ↔ s.Holds v i r := by
  rw [Holds, Holds, h.lrs]

theorem SamePlaces.held_iff (h : SamePlaces s s') : s'.Held r ↔ s.Held r :=
  exists₂_congr fun _ _ => h.holds_iff

end SamePlaces

/-! ## Changes of one interrupt -/

section SetInt

variable {interrupt : VgicInt cpuNum}

theorem ints_setInt_of_ne (h : r' ≠ r) : (s.setInt r interrupt).ints r' = s.ints r' :=
  Function.update_of_ne h _ _

@[simp] theorem ints_setInt_self : (s.setInt r interrupt).ints r = interrupt :=
  Function.update_self ..

theorem samePlaces_setInt (s : VgicState cpuNum intNum) (r : IntRef cpuNum intNum)
    (interrupt : VgicInt cpuNum) : SamePlaces s (s.setInt r interrupt) :=
  ⟨rfl, rfl, rfl⟩

/-- A change that keeps where the interrupt is, if it is held or spilled, and what is fixed of
it. -/
theorem Inv.setInt (h : s.Inv vm)
    (hin : r ∈ s.spilledNodes r.list → interrupt.inLr = false)
    (hheld : s.Held r → interrupt.owner = (s.ints r).owner ∧ interrupt.inLr = (s.ints r).inLr ∧
      interrupt.lr = (s.ints r).lr)
    (howner : vm.version = .gicv2 → gicIsPriv r.id = true →
      interrupt.owner = (s.ints r).owner)
    (hphys : gicIsPriv r.id = true → interrupt.phys = (s.ints r).phys) :
    (s.setInt r interrupt).Inv vm := by
  refine ⟨⟨h.listed.spans, h.listed.nodup, h.listed.own, h.listed.tail⟩,
    ⟨fun w j r' hholds => ?_, fun q r' hr' => ?_⟩, ⟨fun hversion w id => ?_,
    fun hversion w id => ?_, h.fixed.vid, h.fixed.eoi⟩⟩
  · have hrec := h.placed.recorded w j r' hholds
    by_cases heq : r' = r
    · subst heq
      obtain ⟨ho, hi, hlr⟩ := hheld ⟨w, j, hholds⟩
      rw [ints_setInt_self, ho, hi, hlr]
      exact hrec
    · rwa [ints_setInt_of_ne heq]
  · by_cases heq : r' = r
    · subst heq
      obtain rfl := h.listed.own q r' hr'
      rw [ints_setInt_self]
      exact hin hr'
    · rw [ints_setInt_of_ne heq]
      exact h.placed.waiting q r' hr'
  · have hfixed := h.fixed.owner hversion w id
    by_cases heq : .priv w id = r
    · subst heq
      rw [ints_setInt_self, howner hversion ((IntRef.gicIsPriv_id _).mpr fun hq => by cases hq)]
      exact hfixed
    · rwa [ints_setInt_of_ne heq]
  · have hfixed := h.fixed.phys hversion w id
    by_cases heq : .priv w id = r
    · subst heq
      rw [ints_setInt_self, hphys ((IntRef.gicIsPriv_id _).mpr fun hq => by cases hq)]
      exact hfixed
    · rwa [ints_setInt_of_ne heq]

end SetInt

theorem Fixed.owner_of_priv (h : s.Fixed vm) (hversion : vm.version = .gicv2) (hat : r.At v)
    (hpriv : gicIsPriv r.id = true) : (s.ints r).owner = some v := by
  cases r with
  | priv w id =>
      obtain rfl : w = v := hat
      exact h.owner hversion w id
  | spi i => exact absurd rfl ((IntRef.gicIsPriv_id _).mp hpriv)

/-! ## Ownership -/

/-- What a vCPU finds once it has got the ownership of an interrupt. -/
structure Owned (s s' : VgicState cpuNum intNum) (v : Fin cpuNum) (r : IntRef cpuNum intNum) :
    Prop where
  ownable : (s.ints r).owner = none ∨ (s.ints r).owner = some v
  ints : s'.ints r = { s.ints r with owner := some v }
  same : SamePlaces s s'

theorem Inv.vgicGetOwnership (h : s.Inv vm) (v : Fin cpuNum) (r : IntRef cpuNum intNum) :
    s.vgicGetOwnership v r = (false, s) ∨
      ∃ s', s.vgicGetOwnership v r = (true, s') ∧ s'.Inv vm ∧ Owned s s' v r := by
  rw [VgicState.vgicGetOwnership]
  cases howner : (s.ints r).owner with
  | none =>
      refine .inr ⟨_, rfl, ?_, .inl howner, ints_setInt_self, samePlaces_setInt ..⟩
      refine h.setInt (h.placed.waiting r.list r) (fun hheld => ?_) (fun hversion hpriv => ?_)
        fun _ => rfl
      · obtain ⟨w, j, hholds⟩ := hheld
        cases howner.symm.trans (h.placed.recorded w j r hholds).1
      · cases r with
        | priv w id => cases howner.symm.trans (h.fixed.owner hversion w id)
        | spi i => exact absurd rfl ((IntRef.gicIsPriv_id _).mp hpriv)
  | some w =>
      by_cases heq : w = v
      · subst heq
        refine .inr ⟨s, by simp, h, .inr howner, ?_, rfl, rfl, rfl⟩
        rw [← howner]
      · exact .inl (by simp [heq])

theorem vgicYieldOwnership_cases (s : VgicState cpuNum intNum) (vm : VgicVm cpuNum intNum)
    (v : Fin cpuNum) (r : IntRef cpuNum intNum) :
    s.vgicYieldOwnership vm v r = s ∨
      (s.vgicYieldOwnership vm v r = s.setInt r { s.ints r with owner := none } ∧
        (s.ints r).inLr = false ∧ ¬ (vm.version = .gicv2 ∧ gicIsPriv r.id = true)) := by
  rw [vgicYieldOwnership]
  dsimp only
  split_ifs with hkeep
  · exact .inl rfl
  · rw [not_or, not_or, not_or] at hkeep
    exact .inr ⟨rfl, Bool.eq_false_iff.mpr hkeep.2.2.1, hkeep.1⟩

theorem Inv.vgicYieldOwnership (h : s.Inv vm) : (s.vgicYieldOwnership vm v r).Inv vm := by
  rcases vgicYieldOwnership_cases s vm v r with heq | ⟨heq, hin, hnot⟩
  · rwa [heq]
  · rw [heq]
    exact h.setInt (fun _ => hin) (fun hheld => absurd hheld (h.placed.not_held hin))
      (fun hversion hpriv => absurd ⟨hversion, hpriv⟩ hnot) fun _ => rfl

theorem vgicYieldOwnership_frame (s : VgicState cpuNum intNum) (vm : VgicVm cpuNum intNum)
    (v : Fin cpuNum) (r : IntRef cpuNum intNum) :
    SamePlaces s (s.vgicYieldOwnership vm v r) ∧
      ∀ r', r' ≠ r → (s.vgicYieldOwnership vm v r).ints r' = s.ints r' := by
  rcases vgicYieldOwnership_cases s vm v r with heq | ⟨heq, -⟩
  · rw [heq]
    exact ⟨⟨rfl, rfl, rfl⟩, fun _ _ => rfl⟩
  · rw [heq]
    exact ⟨samePlaces_setInt .., fun _ hne => ints_setInt_of_ne hne⟩

/-! ## List registers -/

theorem lrs_gichWriteLr (s : VgicState cpuNum intNum) (v w : Fin cpuNum) (i j : ℕ)
    (lr : ListReg) :
    (s.gichWriteLr v i lr).lrs w j = if w = v ∧ j = i then lr else s.lrs w j := by
  rw [gichWriteLr]
  dsimp only
  by_cases hw : w = v
  · subst hw
    rw [Function.update_self]
    by_cases hj : j = i
    · subst hj
      rw [Function.update_self, if_pos ⟨rfl, rfl⟩]
    · rw [Function.update_of_ne hj, if_neg fun h => hj h.2]
  · rw [Function.update_of_ne hw, if_neg fun h => hw h.1]

theorem holds_clear_iff {w : Fin cpuNum} {j : ℕ} :
    (s.gichWriteLr v i .zero).Holds w j r ↔ ¬ (w = v ∧ j = i) ∧ s.Holds w j r := by
  rw [Holds, lrs_gichWriteLr]
  split_ifs with heq
  · exact iff_of_false (fun h => h.1 rfl) fun h => h.1 heq
  · exact ⟨fun h => ⟨heq, h⟩, And.right⟩

/-- A list register is written for an interrupt that knows it is there, if for any. -/
theorem Inv.gichWriteLr (h : s.Inv vm) {lr : ListReg}
    (hvid : ∃ r : IntRef cpuNum intNum, vgicGetInt lr.vid v = some r)
    (heoi : vm.version = .gicv3 → lr.eoi = true → gicIsPriv lr.vid = false)
    (hrec : ∀ r, lr.state ≠ .inv → vgicGetInt lr.vid v = some r →
      (s.ints r).owner = some v ∧ (s.ints r).inLr = true ∧ (s.ints r).lr = i) :
    (s.gichWriteLr v i lr).Inv vm := by
  refine ⟨⟨h.listed.spans, h.listed.nodup, h.listed.own, h.listed.tail⟩,
    ⟨fun w j r hholds => ?_, h.placed.waiting⟩, ⟨h.fixed.owner, h.fixed.phys, fun w j => ?_,
    fun hversion w j heoi' => ?_⟩⟩
  · rw [Holds, lrs_gichWriteLr] at hholds
    split_ifs at hholds with hhere
    · obtain ⟨rfl, rfl⟩ := hhere
      exact hrec r hholds.1 hholds.2
    · exact h.placed.recorded w j r hholds
  · rw [lrs_gichWriteLr]
    split_ifs with hhere
    · obtain ⟨rfl, -⟩ := hhere
      exact hvid
    · exact h.fixed.vid w j
  · rw [lrs_gichWriteLr] at heoi' ⊢
    split_ifs at heoi' ⊢
    · exact heoi hversion heoi'
    · exact h.fixed.eoi hversion w j heoi'

theorem Inv.clear (h : s.Inv vm) : (s.gichWriteLr v i .zero).Inv vm :=
  h.gichWriteLr ⟨.priv v 0, IntRef.vgicGetInt_zero v⟩ (fun _ heoi => by cases heoi)
    fun _ hne => absurd rfl hne

theorem gichGetLr_of_owner (howner : (s.ints r).owner = some v) (hin : (s.ints r).inLr = true) :
    s.gichGetLr vm v r =
      if (s.lrs v (s.ints r).lr).vid = r.id ∧ (s.lrs v (s.ints r).lr).state ≠ .inv then
        some (s.lrs v (s.ints r).lr)
      else none := by
  have hhere : ¬ ((s.ints r).inLr = false ∨
      (s.ints r).owner.map vm.physId ≠ some (vm.physId v)) := by
    rw [howner, hin]
    simp
  rw [gichGetLr]
  dsimp only
  rw [if_neg hhere]

theorem takenBack_eq (vm : VgicVm cpuNum intNum) (r : IntRef cpuNum intNum)
    (interrupt : VgicInt cpuNum) (lr : ListReg) :
    (takenBack vm r interrupt lr).owner = interrupt.owner ∧
      (takenBack vm r interrupt lr).inLr = false ∧
        (takenBack vm r interrupt lr).phys = interrupt.phys := by
  rw [takenBack]
  dsimp only
  split_ifs
  · exact ⟨rfl, rfl, rfl⟩
  · exact ⟨rfl, rfl, rfl⟩
  · exact ⟨rfl, rfl, rfl⟩
  · exact ⟨rfl, rfl, rfl⟩

/-- What `vgic_remove_lr` leaves. -/
structure Removed (s s' : VgicState cpuNum intNum) (v : Fin cpuNum) (r : IntRef cpuNum intNum) :
    Prop where
  link : s'.link = s.link
  spilled : s'.spilled = s.spilled
  ints : ∀ r', r' ≠ r → s'.ints r' = s.ints r'
  owner : (s'.ints r).owner = (s.ints r).owner
  holds : ∀ w j r', s'.Holds w j r' → s.Holds w j r'
  inLr : (s.ints r).owner = some v → (s'.ints r).inLr = false

theorem Removed.spilledNodes_eq {s' : VgicState cpuNum intNum} (h : Removed s s' v r) :
    s'.spilledNodes = s.spilledNodes :=
  spilledNodes_congr h.link h.spilled

theorem Inv.vgicRemoveLr (h : s.Inv vm) :
    (s.vgicRemoveLr vm v r).Inv vm ∧ Removed s (s.vgicRemoveLr vm v r) v r := by
  rw [VgicState.vgicRemoveLr]
  by_cases hskip : (s.ints r).owner ≠ some v ∨ (s.ints r).inLr = false
  · rw [if_pos hskip]
    refine ⟨h, rfl, rfl, fun _ _ => rfl, rfl, fun _ _ _ hholds => hholds, fun howner => ?_⟩
    exact hskip.resolve_left (not_not.mpr howner)
  · rw [if_neg hskip]
    rw [not_or, not_not, Bool.not_eq_false] at hskip
    obtain ⟨howner, hin⟩ := hskip
    -- The only list register that can hold the interrupt is the one it names.
    have hplace : ∀ w j, s.Holds w j r → w = v ∧ j = (s.ints r).lr := by
      intro w j hholds
      obtain ⟨ho, -, hlr⟩ := h.placed.recorded w j r hholds
      exact ⟨Option.some.inj (ho.symm.trans howner), hlr.symm⟩
    rw [gichGetLr_of_owner howner hin]
    split_ifs with hlr
    · obtain ⟨hbo, hbi, hbp⟩ := takenBack_eq vm r (s.ints r) (s.lrs v (s.ints r).lr)
      have hclear : (s.gichWriteLr v (s.ints r).lr .zero).Inv vm := h.clear
      refine ⟨hclear.setInt (fun _ => hbi) (fun hheld => ?_) (fun _ _ => hbo) fun _ => hbp,
        rfl, rfl, fun _ hne => ints_setInt_of_ne hne, ?_,
        fun w j r' hholds => (holds_clear_iff.mp hholds).2, fun _ => ?_⟩
      · obtain ⟨w, j, hholds⟩ := hheld
        obtain ⟨hne, hholds⟩ := holds_clear_iff.mp hholds
        exact absurd (hplace w j hholds) hne
      · rw [ints_setInt_self, hbo]
      · rw [ints_setInt_self, hbi]
    · have hnot : ¬ s.Held r := by
        rintro ⟨w, j, hholds⟩
        obtain ⟨rfl, rfl⟩ := hplace w j hholds
        exact hlr ⟨(IntRef.of_vgicGetInt hholds.2).2.symm, hholds.1⟩
      refine ⟨h.setInt (fun _ => rfl) (fun hheld => absurd hheld hnot)
        (fun _ _ => rfl) fun _ => rfl, rfl, rfl, fun _ hne => ints_setInt_of_ne hne, ?_,
        fun _ _ _ hholds => hholds, fun _ => ?_⟩
      · rw [ints_setInt_self]
      · rw [ints_setInt_self]

theorem Placed.vgicRemoveLr (h : s.Placed) {q : SpilledList cpuNum}
    (hr : r ∈ s.spilledNodes q) : s.vgicRemoveLr vm v r = s := by
  rw [VgicState.vgicRemoveLr]
  rw [if_pos (.inr (h.waiting q r hr))]

/-! ## Spilled lists -/

theorem mem_of_mem_update {f : SpilledList cpuNum → List (IntRef cpuNum intNum)}
    {q q' : SpilledList cpuNum} {nodes : List (IntRef cpuNum intNum)}
    (hr : r ∈ Function.update f q nodes q') : r ∈ nodes ∧ q' = q ∨ r ∈ f q' := by
  by_cases heq : q' = q
  · subst heq
    rw [Function.update_self] at hr
    exact .inl ⟨hr, rfl⟩
  · rw [Function.update_of_ne heq] at hr
    exact .inr hr

/-- One of the spilled lists changes. -/
theorem Listed.update {s' : VgicState cpuNum intNum} {q : SpilledList cpuNum}
    {nodes : List (IntRef cpuNum intNum)} (h : s.Listed)
    (hspans : (s'.spilled q).Spans s'.link nodes) (hnodup : nodes.Nodup)
    (hown : ∀ r ∈ nodes, r.list = q)
    (htail : ∀ r, (s'.spilled q).tail = some r → r.list = q)
    (hlink : ∀ r, r.list ≠ q → s'.link r = s.link r)
    (hspilled : ∀ q', q' ≠ q → s'.spilled q' = s.spilled q') :
    s'.Listed ∧ s'.spilledNodes = Function.update s.spilledNodes q nodes := by
  have hother : ∀ q', q' ≠ q → (s'.spilled q').Spans s'.link (s.spilledNodes q') := by
    intro q' heq
    rw [hspilled q' heq]
    refine (h.spans q').congr fun r hr => hlink r ?_
    rwa [h.own q' r hr]
  have hnodes : s'.spilledNodes = Function.update s.spilledNodes q nodes := by
    funext q'
    by_cases heq : q' = q
    · subst heq
      rw [Function.update_self]
      exact spilledNodes_eq hspans hnodup
    · rw [Function.update_of_ne heq]
      exact spilledNodes_eq (hother q' heq) (h.nodup q')
  refine ⟨⟨fun q' => ?_, fun q' => ?_, fun q' r hr => ?_, fun q' r hr => ?_⟩, hnodes⟩
  · rw [hnodes]
    by_cases heq : q' = q
    · subst heq
      rwa [Function.update_self]
    · rw [Function.update_of_ne heq]
      exact hother q' heq
  · rw [hnodes]
    by_cases heq : q' = q
    · subst heq
      rwa [Function.update_self]
    · rw [Function.update_of_ne heq]
      exact h.nodup q'
  · rw [hnodes] at hr
    rcases mem_of_mem_update hr with ⟨hin, rfl⟩ | hr
    · exact hown r hin
    · exact h.own q' r hr
  · by_cases heq : q' = q
    · subst heq
      exact htail r hr
    · rw [hspilled q' heq] at hr
      exact h.tail q' r hr

/-- The lists change and the interrupts that get into one are in no list register. -/
theorem Inv.of_listed {s' : VgicState cpuNum intNum} (h : s.Inv vm) (hlisted : s'.Listed)
    (hints : s'.ints = s.ints) (hlrs : s'.lrs = s.lrs)
    (hwait : ∀ q, ∀ r ∈ s'.spilledNodes q, (s.ints r).inLr = false) : s'.Inv vm := by
  refine ⟨hlisted, ⟨fun w j r hholds => ?_, fun q r hr => ?_⟩, ?_, ?_, ?_, ?_⟩
  · rw [Holds, hlrs] at hholds
    rw [hints]
    exact h.placed.recorded w j r hholds
  · rw [hints]
    exact hwait q r hr
  · rw [hints]
    exact h.fixed.owner
  · rw [hints]
    exact h.fixed.phys
  · rw [hlrs]
    exact h.fixed.vid
  · rw [hlrs]
    exact h.fixed.eoi

/-- An interrupt that is in no spilled list is added to its own, where it may be lost. -/
theorem Inv.vgicAddSpilled (h : s.Inv vm) (hat : r.At v) (hr : r ∉ s.spilledNodes r.list)
    (hin : (s.ints r).inLr = false) :
    (s.vgicAddSpilled v r).Inv vm ∧
      ∀ q, ∀ r' ∈ (s.vgicAddSpilled v r).spilledNodes q, r' = r ∨ r' ∈ s.spilledNodes q := by
  obtain ⟨nodes, hnodes, hspans⟩ := NodeList.spans_listPush (h.listed.spans r.list)
    (h.listed.nodup r.list) hr
  have hnodup : nodes.Nodup := by
    rcases hnodes with rfl | rfl
    · exact h.listed.nodup _
    · exact List.nodup_append_comm.mp (List.nodup_cons.mpr ⟨hr, h.listed.nodup _⟩)
  have hmem : ∀ r' ∈ nodes, r' = r ∨ r' ∈ s.spilledNodes r.list := by
    intro r' hr'
    rcases hnodes with rfl | rfl
    · exact .inr hr'
    · rcases List.mem_append.mp hr' with hr' | hr'
      · exact .inr hr'
      · exact .inl (List.mem_singleton.mp hr')
  rw [VgicState.vgicAddSpilled, hat.list]
  let s' : VgicState cpuNum intNum :=
    { s with
      link := (NodeList.listPush s.link (s.spilled r.list) r).1
      spilled := Function.update s.spilled r.list
        (NodeList.listPush s.link (s.spilled r.list) r).2 }
  have hself : s'.spilled r.list = (NodeList.listPush s.link (s.spilled r.list) r).2 :=
    Function.update_self ..
  obtain ⟨hlisted, hupdate⟩ : s'.Listed ∧
      s'.spilledNodes = Function.update s.spilledNodes r.list nodes := by
    refine h.listed.update (by rwa [hself]) hnodup (fun r' hr' => ?_) (fun r' htail => ?_)
      (fun r' hne => ?_) fun q' hne => Function.update_of_ne hne _ _
    · rcases hmem r' hr' with rfl | hr'
      · rfl
      · exact h.listed.own _ r' hr'
    · rw [hself, NodeList.tail_listPush] at htail
      rw [Option.some.inj htail]
    · refine NodeList.link_listPush_of_ne (fun heq => hne (by rw [heq])) fun tail htail heq => ?_
      exact hne (heq ▸ h.listed.tail _ tail htail)
  have hmem' : ∀ q, ∀ r' ∈ s'.spilledNodes q, r' = r ∨ r' ∈ s.spilledNodes q := by
    intro q r' hr'
    rw [hupdate] at hr'
    rcases mem_of_mem_update hr' with ⟨hin', rfl⟩ | hr'
    · exact hmem r' hin'
    · exact .inr hr'
  refine ⟨h.of_listed hlisted rfl rfl fun q r' hr' => ?_, hmem'⟩
  rcases hmem' q r' hr' with rfl | hr'
  · exact hin
  · exact h.placed.waiting q r' hr'

/-- An interrupt in a spilled list is taken out of it. -/
theorem Inv.removeSpilled (h : s.Inv vm) {q : SpilledList cpuNum} (hr : r ∈ s.spilledNodes q) :
    (s.removeSpilled r q).Inv vm ∧ r ∉ (s.removeSpilled r q).spilledNodes r.list := by
  obtain rfl := h.listed.own q r hr
  have hnodup := h.listed.nodup r.list
  obtain ⟨hspans, hlink, htail⟩ := NodeList.spans_listRm (h.listed.spans r.list) hnodup hr
    (IntRef.length_le_of_nodup hnodup)
  let s' : VgicState cpuNum intNum := s.removeSpilled r r.list
  have hself : s'.spilled r.list =
      (NodeList.listRm s.link (s.spilled r.list) r s.maxNodes).2 := Function.update_self ..
  obtain ⟨hlisted, hupdate⟩ : s'.Listed ∧
      s'.spilledNodes = Function.update s.spilledNodes r.list
        ((s.spilledNodes r.list).erase r) := by
    refine h.listed.update (by rwa [hself]) (hnodup.erase r) (fun r' hr' => ?_)
      (fun r' htail' => ?_) (fun r' hne => hlink r' fun hmem => ?_)
      fun q' hne => Function.update_of_ne hne _ _
    · exact h.listed.own _ r' (List.mem_of_mem_erase hr')
    · rw [hself] at htail'
      exact h.listed.tail _ r' (htail r' htail')
    · exact hne (h.listed.own _ r' hmem)
  refine ⟨h.of_listed hlisted rfl rfl fun q r' hr' => ?_, ?_⟩
  · rw [hupdate] at hr'
    rcases mem_of_mem_update hr' with ⟨hr', -⟩ | hr'
    · exact h.placed.waiting _ r' (List.mem_of_mem_erase hr')
    · exact h.placed.waiting q r' hr'
  · rw [hupdate, Function.update_self]
    exact hnodup.not_mem_erase

end VgicState

end BaoHypervisor
