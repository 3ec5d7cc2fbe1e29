import BaoHypervisor.Arch.Armv8.Vgic
import BaoHypervisor.Theory.BitField

/-!
# The words of list registers

A list register is a word of fields, whose places `gic.h` gives for each version of the GIC. The
word that `vgic_write_lr` puts together is read back as the value that the model keeps of a list
register, and the loop of `vgic_add_lr` over the words of the list registers is that of the model
over these values. A word of the GICv2 has 32 bits and is widened here, as it is by
`gich_read_lr`.
-/

namespace BaoHypervisor

open BitField

variable {cpuNum intNum : ℕ}

/-! ## Fields -/

namespace GicVersion

/-- `GICH_LR_VID_LEN`, where `GICH_LR_VID_OFF` is 0. -/
def lrVidLen : GicVersion → ℕ
  | gicv2 => 10
  | gicv3 => 32

/-- `GICH_LR_PID_OFF`, where `GICH_LR_PID_LEN` is 10. -/
def lrPidOff : GicVersion → ℕ
  | gicv2 => 10
  | gicv3 => 32

def lrPrioOff : GicVersion → ℕ
  | gicv2 => 23
  | gicv3 => 48

def lrPrioLen : GicVersion → ℕ
  | gicv2 => 5
  | gicv3 => 8

/-- `GICH_LR_STATE_OFF`, where `GICH_LR_STATE_LEN` is 2. -/
def lrStateOff : GicVersion → ℕ
  | gicv2 => 28
  | gicv3 => 62

/-- The place of `GICH_LR_HW_BIT`. -/
def lrHwOff : GicVersion → ℕ
  | gicv2 => 31
  | gicv3 => 61

/-- The place of `GICH_LR_EOI_BIT`. -/
def lrEoiOff : GicVersion → ℕ
  | gicv2 => 19
  | gicv3 => 41

variable (version : GicVersion)

def gichLrVid (word : BitVec 64) : BitVec 64 := extract word 0 version.lrVidLen

/-- The bits of `GICH_LR_STATE`. -/
def gichLrState (word : BitVec 64) : IntState :=
  { pend := word.getLsbD version.lrStateOff, act := word.getLsbD (version.lrStateOff + 1) }

def gichLrCpuid (word : BitVec 64) : BitVec 64 := extract word 10 3

/-- `lr_prio` of `vgic_add_lr`. -/
def lrPrio (word : BitVec 64) : BitVec 64 :=
  let prio := extract word version.lrPrioOff version.lrPrioLen
  match version with
  | gicv2 => prio <<< 3
  | gicv3 => prio

/-- What is read from a list register. The bits of an interrupt of the hardware that ask for a
maintenance interrupt and name a CPU are those of its physical number. -/
def readLr (word : BitVec 64) : ListReg :=
  let hw := word.getLsbD version.lrHwOff
  { vid := (version.gichLrVid word).toNat
    prio := (version.lrPrio word).setWidth 8
    state := version.gichLrState word
    hw := hw
    eoi := !hw && word.getLsbD version.lrEoiOff
    cpuid := if version = gicv2 ∧ hw = false then (gichLrCpuid word).toNat else 0 }

def stateWord (state : IntState) : BitVec 64 :=
  place ((BitVec.ofBool state.act ++ BitVec.ofBool state.pend).setWidth 64) version.lrStateOff 2

def bitWord (off : ℕ) : BitVec 64 := place 1#64 off 1

/-- A priority in its field, and the group of the interrupt. -/
def prioWord (prio : BitVec 8) : BitVec 64 :=
  match version with
  | gicv2 => place (prio.setWidth 64 >>> 3) 23 5
  | gicv3 => place (prio.setWidth 64) 48 8 ||| bitWord 60

end GicVersion

namespace VgicVm

variable (vm : VgicVm cpuNum intNum) (r : IntRef cpuNum intNum)

/-- The `vid` and the `prio` of the word that `vgic_write_lr` puts together. -/
def vgicLrStart (interrupt : VgicInt cpuNum) : BitVec 64 :=
  place (BitVec.ofNat 64 r.id) 0 vm.version.lrVidLen ||| vm.version.prioWord interrupt.prio

/-- The word that `vgic_write_lr` puts together, and the `sgi.pend` that it leaves. -/
def vgicLrWord (interrupt : VgicInt cpuNum) (state : IntState) : BitVec 64 × BitVec 8 :=
  let version := vm.version
  let lr := vm.vgicLrStart r interrupt
  if vgicIntIsHw r interrupt then
    (lr ||| GicVersion.bitWord version.lrHwOff |||
      place (BitVec.ofNat 64 r.id) version.lrPidOff 10 |||
        version.stateWord (if state = .pendAct then .active else state), interrupt.sgiPend)
  else if version = .gicv2 ∧ gicIsSgi r.id then
    let (lr, sgiPend) :=
      if state.act then
        (lr ||| place (interrupt.sgiAct.setWidth 64) 10 3 ||| version.stateWord .active,
          interrupt.sgiPend)
      else
        match highestSet interrupt.sgiPend.getLsbD 8 with
        | some i =>
            (lr ||| place (BitVec.ofNat 64 i) 10 3 ||| version.stateWord .pending,
              interrupt.sgiPend &&& ~~~ (1#8 <<< i))
        | none => (lr, interrupt.sgiPend)
    (if sgiPend = 0#8 then lr else lr ||| GicVersion.bitWord version.lrEoiOff, sgiPend)
  else
    ((if gicIsPriv r.id then lr else lr ||| GicVersion.bitWord version.lrEoiOff) |||
      version.stateWord state, interrupt.sgiPend)

/-- A round of the loop of `vgic_add_lr` over words, where `lr_state` is an `unsigned`. -/
def scanWord (words : ℕ → BitVec 64) (scan : Scan) (i : ℕ) : Scan :=
  let lr := words i
  let lrId := (vm.version.gichLrVid lr).toNat
  let lrPrio := (vm.version.lrPrio lr).toNat
  let lrState : BitVec 32 := (lr &&& vm.version.stateWord .pendAct).setWidth 32
  if lrState.setWidth 64 &&& vm.version.stateWord .active ≠ 0#64 then
    if scan.minPrioAct < lrPrio ∨ lrPrio = scan.minPrioAct ∧ scan.minIdAct < lrId then
      { scan with minIdAct := lrId, minPrioAct := lrPrio, actInd := some i }
    else scan
  else if lrState.setWidth 64 &&& vm.version.stateWord .pending ≠ 0#64 then
    let scan := { scan with pendFound := scan.pendFound + 1 }
    if scan.minPrioPend < lrPrio ∨ lrPrio = scan.minPrioPend ∧ scan.minIdPend < lrId then
      { scan with minIdPend := lrId, minPrioPend := lrPrio, pendInd := some i }
    else scan
  else scan

end VgicVm

/-! ## Reading a word that was put together -/

namespace GicVersion

variable (version : GicVersion)

theorem getLsbD_bitWord (off i : ℕ) (hoff : off < 64) :
    (bitWord off).getLsbD i = decide (i = off) := by
  rw [bitWord, getLsbD_place, BitVec.getLsbD_one]
  by_cases heq : i = off
  · subst heq
    simp [hoff]
  · rw [decide_eq_false heq, decide_eq_false (by omega), Bool.false_and]

theorem getLsbD_stateWord (state : IntState) (i : ℕ) :
    (version.stateWord state).getLsbD i =
      (decide (i = version.lrStateOff) && state.pend ||
        decide (i = version.lrStateOff + 1) && state.act) := by
  have hoff : version.lrStateOff + 1 < 64 := by
    cases version with
    | gicv2 => decide
    | gicv3 => decide
  rw [stateWord, getLsbD_place]
  generalize version.lrStateOff = off at hoff
  by_cases hpend : i = off
  · subst hpend
    have hin : i ≤ i ∧ i < i + 2 ∧ i < 64 := by omega
    rw [decide_eq_true hin, Nat.sub_self]
    cases state.pend <;> cases state.act <;> simp
  · by_cases hact : i = off + 1
    · subst hact
      have hin : off ≤ off + 1 ∧ off + 1 < off + 2 ∧ off + 1 < 64 := by omega
      rw [decide_eq_true hin, Nat.add_sub_cancel_left]
      cases state.pend <;> cases state.act <;> simp
    · rw [decide_eq_false hpend, decide_eq_false hact, decide_eq_false (by omega)]
      rfl

theorem stateWord_inv : version.stateWord .inv = 0#64 := place_zero

theorem prio_gicv2 (prio : BitVec 8) :
    (extract (prio.setWidth 64 >>> 3) 0 5 <<< 3).setWidth 8 = (prio >>> 3) <<< 3 := by
  refine BitVec.eq_of_getLsbD_eq fun i hi => ?_
  rw [BitVec.getLsbD_setWidth, BitVec.getLsbD_shiftLeft, BitVec.getLsbD_shiftLeft,
    getLsbD_extract, BitVec.getLsbD_ushiftRight, BitVec.getLsbD_ushiftRight,
    BitVec.getLsbD_setWidth]
  have hlow : i - 3 < 5 := by omega
  have hwide : 3 + (0 + (i - 3)) < 64 ∧ i < 64 := by omega
  rw [decide_eq_true hlow, decide_eq_true hwide.1, decide_eq_true hwide.2, decide_eq_true hi,
    Nat.zero_add]
  simp

theorem prio_gicv3 (prio : BitVec 8) : (extract (prio.setWidth 64) 0 8).setWidth 8 = prio := by
  refine BitVec.eq_of_getLsbD_eq fun i hi => ?_
  rw [BitVec.getLsbD_setWidth, getLsbD_extract, BitVec.getLsbD_setWidth, Nat.zero_add,
    decide_eq_true hi, decide_eq_true (hi.trans (by decide : 8 < 64))]
  simp

theorem extract_prioWord (prio : BitVec 8) :
    extract (version.prioWord prio) 0 version.lrVidLen = 0#64 ∧
      extract (version.prioWord prio) 10 3 = 0#64 ∧
        (version.lrPrio (version.prioWord prio)).setWidth 8 =
          match version with
          | gicv2 => (prio >>> 3) <<< 3
          | gicv3 => prio := by
  cases version with
  | gicv2 =>
      refine ⟨extract_place_of_disjoint (.inl (by decide)),
        extract_place_of_disjoint (.inl (by decide)), ?_⟩
      change (extract (place _ 23 5) 23 5 <<< 3).setWidth 8 = _
      rw [extract_place_self (by decide), prio_gicv2]
  | gicv3 =>
      have hfields : ∀ off len, off + len ≤ 48 →
          extract (place (prio.setWidth 64) 48 8 ||| bitWord 60) off len = 0#64 := by
        intro off len hlen
        rw [extract_or, bitWord, extract_place_of_disjoint (.inl hlen),
          extract_place_of_disjoint (.inl (by omega)), BitVec.or_zero]
      refine ⟨hfields 0 32 (by decide), hfields 10 3 (by decide), ?_⟩
      change (extract (place _ 48 8 ||| bitWord 60) 48 8).setWidth 8 = _
      rw [extract_or, bitWord, extract_place_self (by decide),
        extract_place_of_disjoint (.inl (by decide)), BitVec.or_zero, prio_gicv3]

theorem getLsbD_prioWord (prio : BitVec 8) {i : ℕ} (hi : i = version.lrStateOff ∨
    i = version.lrStateOff + 1 ∨ i = version.lrHwOff ∨ i = version.lrEoiOff) :
    (version.prioWord prio).getLsbD i = false ∧ version.lrVidLen ≤ i := by
  cases version with
  | gicv2 =>
      simp only [lrStateOff, lrHwOff, lrEoiOff, lrVidLen] at hi ⊢
      refine ⟨?_, by omega⟩
      rw [prioWord, getLsbD_place, decide_eq_false (by omega), Bool.false_and]
  | gicv3 =>
      simp only [lrStateOff, lrHwOff, lrEoiOff, lrVidLen] at hi ⊢
      refine ⟨?_, by omega⟩
      rw [prioWord, BitVec.getLsbD_or, getLsbD_place, getLsbD_bitWord _ _ (by decide),
        decide_eq_false (by omega), decide_eq_false (by omega), Bool.false_and, Bool.false_or]

end GicVersion

namespace VgicVm

variable (vm : VgicVm cpuNum intNum) (r : IntRef cpuNum intNum) (interrupt : VgicInt cpuNum)
  {rest : BitVec 64}

theorem gichLrVid_start_or (hrest : extract rest 0 vm.version.lrVidLen = 0#64) :
    (vm.version.gichLrVid (vm.vgicLrStart r interrupt ||| rest)).toNat =
      r.id % vm.version.vids := by
  have hlen : vm.version.lrVidLen ≤ 64 ∧ vm.version.vids = 2 ^ vm.version.lrVidLen := by
    cases vm.version <;> decide
  rw [GicVersion.gichLrVid, vgicLrStart, extract_or, extract_or, hrest, BitVec.or_zero,
    (vm.version.extract_prioWord _).1, BitVec.or_zero, extract_place_self (by omega),
    toNat_extract _ _ hlen.1, BitVec.toNat_ofNat, pow_zero, Nat.div_one,
    Nat.mod_mod_of_dvd _ (Nat.pow_dvd_pow 2 hlen.1), hlen.2]

theorem lrPrio_start_or (hrest : extract rest vm.version.lrPrioOff vm.version.lrPrioLen = 0#64) :
    (vm.version.lrPrio (vm.vgicLrStart r interrupt ||| rest)).setWidth 8 =
      match vm.version with
      | .gicv2 => (interrupt.prio >>> 3) <<< 3
      | .gicv3 => interrupt.prio := by
  have hword : extract (vm.vgicLrStart r interrupt ||| rest) vm.version.lrPrioOff
        vm.version.lrPrioLen =
      extract (vm.version.prioWord interrupt.prio) vm.version.lrPrioOff
        vm.version.lrPrioLen := by
    rw [vgicLrStart, extract_or, extract_or, hrest, BitVec.or_zero, extract_place_of_disjoint,
      BitVec.zero_or]
    cases vm.version <;> decide
  rw [← (vm.version.extract_prioWord _).2.2]
  unfold GicVersion.lrPrio
  rw [hword]

theorem getLsbD_start_or {i : ℕ} (hi : i = vm.version.lrStateOff ∨
    i = vm.version.lrStateOff + 1 ∨ i = vm.version.lrHwOff ∨ i = vm.version.lrEoiOff) :
    (vm.vgicLrStart r interrupt ||| rest).getLsbD i = rest.getLsbD i := by
  obtain ⟨hprio, hvid⟩ := vm.version.getLsbD_prioWord interrupt.prio hi
  rw [BitVec.getLsbD_or, vgicLrStart, BitVec.getLsbD_or, getLsbD_place, hprio,
    decide_eq_false (by omega), Bool.false_and, Bool.false_or, Bool.false_or]

theorem gichLrCpuid_start_or (hversion : vm.version = .gicv2) :
    GicVersion.gichLrCpuid (vm.vgicLrStart r interrupt ||| rest) =
      GicVersion.gichLrCpuid rest := by
  rw [GicVersion.gichLrCpuid, vgicLrStart, extract_or, extract_or,
    extract_place_of_disjoint (.inr (by rw [hversion]; decide)),
    (vm.version.extract_prioWord _).2.1, BitVec.zero_or, BitVec.zero_or, GicVersion.gichLrCpuid]

/-- The number and the priority are those of the interrupt, and the other fields those of the
rest of the word. -/
theorem readLr_start_or (hvid : extract rest 0 vm.version.lrVidLen = 0#64)
    (hprio : extract rest vm.version.lrPrioOff vm.version.lrPrioLen = 0#64) :
    vm.version.readLr (vm.vgicLrStart r interrupt ||| rest) =
      { vm.version.readLr rest with
        vid := r.id % vm.version.vids
        prio :=
          match vm.version with
          | .gicv2 => (interrupt.prio >>> 3) <<< 3
          | .gicv3 => interrupt.prio } := by
  have hcpuid : (if vm.version = .gicv2 ∧ rest.getLsbD vm.version.lrHwOff = false then
        (GicVersion.gichLrCpuid (vm.vgicLrStart r interrupt ||| rest)).toNat else 0) =
      if vm.version = .gicv2 ∧ rest.getLsbD vm.version.lrHwOff = false then
        (GicVersion.gichLrCpuid rest).toNat else 0 := by
    split_ifs with h
    · rw [gichLrCpuid_start_or vm r interrupt h.1]
    · rfl
  rw [GicVersion.readLr, GicVersion.readLr, GicVersion.gichLrState, GicVersion.gichLrState,
    gichLrVid_start_or vm r interrupt hvid, lrPrio_start_or vm r interrupt hprio,
    getLsbD_start_or vm r interrupt (.inl rfl), getLsbD_start_or vm r interrupt (.inr (.inl rfl)),
    getLsbD_start_or vm r interrupt (.inr (.inr (.inl rfl))),
    getLsbD_start_or vm r interrupt (.inr (.inr (.inr rfl)))]
  dsimp only
  rw [hcpuid]

end VgicVm

namespace GicVersion

/-- A word without a number and a priority. The CPU has a field of its own on the GICv2 only. -/
def restWord (version : GicVersion) (hw eoi : Bool) (pid cpuid : BitVec 64) (state : IntState) :
    BitVec 64 :=
  (if hw then bitWord version.lrHwOff ||| place pid version.lrPidOff 10 else 0#64) |||
    ((if version = gicv2 then place cpuid 10 3 else 0#64) |||
      ((if eoi then bitWord version.lrEoiOff else 0#64) ||| version.stateWord state))

section RestWord

variable (version : GicVersion) (hw eoi : Bool) (pid cpuid : BitVec 64) (state : IntState)

/-- The field is none of those of the word. -/
theorem extract_restWord (off len : ℕ) (hhw : off + len ≤ version.lrHwOff)
    (hpid : off + len ≤ version.lrPidOff ∨ version.lrPidOff + 10 ≤ off)
    (hcpuid : version = gicv2 → off + len ≤ 10 ∨ 13 ≤ off)
    (heoi : off + len ≤ version.lrEoiOff ∨ version.lrEoiOff + 1 ≤ off)
    (hstate : off + len ≤ version.lrStateOff) :
    extract (version.restWord hw eoi pid cpuid state) off len = 0#64 := by
  have hite : ∀ {p : Prop} [Decidable p] {x : BitVec 64},
      (p → extract x off len = 0#64) → extract (if p then x else 0#64) off len = 0#64 := by
    intro p _ x hx
    split_ifs with hp
    · exact hx hp
    · exact extract_zero
  have hhw' : extract (if hw = true then bitWord version.lrHwOff ||| place pid version.lrPidOff 10
      else 0#64) off len = 0#64 := hite fun _ => by
    rw [extract_or, bitWord, extract_place_of_disjoint (.inl hhw), extract_place_of_disjoint hpid]
    rfl
  have hcpuid' : extract (if version = gicv2 then place cpuid 10 3 else 0#64) off len = 0#64 :=
    hite fun h => extract_place_of_disjoint (hcpuid h)
  have heoi' : extract (if eoi = true then bitWord version.lrEoiOff else 0#64) off len = 0#64 :=
    hite fun _ => extract_place_of_disjoint heoi
  rw [restWord, extract_or, extract_or, extract_or, hhw', hcpuid', heoi', stateWord,
    extract_place_of_disjoint (.inl hstate)]
  rfl

theorem getLsbD_restWord (i : ℕ) :
    (version.restWord hw eoi pid cpuid state).getLsbD i =
      (hw && (decide (i = version.lrHwOff) || (place pid version.lrPidOff 10).getLsbD i) ||
        (decide (version = gicv2) && (place cpuid 10 3).getLsbD i ||
          (eoi && decide (i = version.lrEoiOff) ||
            (decide (i = version.lrStateOff) && state.pend ||
              decide (i = version.lrStateOff + 1) && state.act)))) := by
  have hoff : version.lrHwOff < 64 ∧ version.lrEoiOff < 64 := by cases version <;> decide
  rw [restWord, BitVec.getLsbD_or, BitVec.getLsbD_or, BitVec.getLsbD_or, getLsbD_stateWord]
  cases hw <;> cases eoi <;> cases version <;>
    simp [getLsbD_bitWord _ _ hoff.1, getLsbD_bitWord _ _ hoff.2, BitVec.getLsbD_or]

theorem readLr_restWord (hhw : hw = true → eoi = false ∧ cpuid = 0#64) :
    { version.readLr (version.restWord hw eoi pid cpuid state) with vid := 0, prio := 0#8 } =
      { ListReg.zero with
        state := state
        hw := hw
        eoi := eoi
        cpuid := if version = gicv2 then cpuid.toNat % 8 else 0 } := by
  have hbits : (version.restWord hw eoi pid cpuid state).getLsbD version.lrStateOff = state.pend ∧
      (version.restWord hw eoi pid cpuid state).getLsbD (version.lrStateOff + 1) = state.act ∧
      (version.restWord hw eoi pid cpuid state).getLsbD version.lrHwOff = hw ∧
      (hw = false →
        (version.restWord hw eoi pid cpuid state).getLsbD version.lrEoiOff = eoi) := by
    rw [getLsbD_restWord, getLsbD_restWord, getLsbD_restWord, getLsbD_restWord]
    cases version <;>
      simp +contextual [getLsbD_place, lrStateOff, lrHwOff, lrEoiOff, lrPidOff,
        -BitVec.getLsbD_eq_getElem]
  have hcpuid : version = gicv2 → hw = false →
      gichLrCpuid (version.restWord hw eoi pid cpuid state) = extract cpuid 0 3 := by
    rintro rfl rfl
    have heoi : extract (if eoi = true then bitWord gicv2.lrEoiOff else 0#64) 10 3 = 0#64 := by
      split_ifs
      · exact extract_place_of_disjoint (.inl (by decide))
      · exact extract_zero
    rw [gichLrCpuid, restWord, if_neg Bool.false_ne_true, if_pos rfl, BitVec.zero_or, extract_or,
      extract_or, extract_place_self (by decide), heoi, stateWord,
      extract_place_of_disjoint (.inl (by decide)), BitVec.or_zero, BitVec.or_zero]
  obtain ⟨hpend, hact, hhw', heoi⟩ := hbits
  rw [readLr, gichLrState, hpend, hact, hhw']
  cases hw with
  | true =>
      obtain ⟨rfl, rfl⟩ := hhw rfl
      rw [if_neg fun h => by cases h.2]
      cases version <;> rfl
  | false =>
      rw [heoi rfl]
      cases version with
      | gicv2 =>
          rw [if_pos ⟨rfl, rfl⟩, if_pos rfl, hcpuid rfl rfl, toNat_extract _ _ (by decide),
            pow_zero, Nat.div_one]
          rfl
      | gicv3 => rfl

end RestWord

end GicVersion

namespace VgicVm

variable (vm : VgicVm cpuNum intNum) (r : IntRef cpuNum intNum)

/-- The value of a word that is put together of all its fields. -/
theorem readLr_word (interrupt : VgicInt cpuNum) {word : BitVec 64} (hw eoi : Bool)
    (pid cpuid : BitVec 64) (state : IntState)
    (hword : word = vm.vgicLrStart r interrupt ||| vm.version.restWord hw eoi pid cpuid state)
    (hhw : hw = true → eoi = false ∧ cpuid = 0#64) :
    vm.version.readLr word =
      { vid := r.id % vm.version.vids
        prio :=
          match vm.version with
          | .gicv2 => (interrupt.prio >>> 3) <<< 3
          | .gicv3 => interrupt.prio
        state := state
        hw := hw
        eoi := eoi
        cpuid := if vm.version = .gicv2 then cpuid.toNat % 8 else 0 } := by
  have hvid := vm.version.extract_restWord hw eoi pid cpuid state 0 vm.version.lrVidLen
    (by cases vm.version <;> decide) (by cases vm.version <;> decide)
    (by cases vm.version <;> decide) (by cases vm.version <;> decide)
    (by cases vm.version <;> decide)
  have hprio := vm.version.extract_restWord hw eoi pid cpuid state vm.version.lrPrioOff
    vm.version.lrPrioLen (by cases vm.version <;> decide) (by cases vm.version <;> decide)
    (by cases vm.version <;> decide) (by cases vm.version <;> decide)
    (by cases vm.version <;> decide)
  have hrest := vm.version.readLr_restWord hw eoi pid cpuid state hhw
  rw [hword, readLr_start_or vm r interrupt hvid hprio]
  generalize vm.version.readLr (vm.version.restWord hw eoi pid cpuid state) = lr at hrest
  injection hrest with _ _ hstate hhw' heoi hcpuid
  dsimp only
  rw [hstate, hhw', heoi, hcpuid]

/-- The word of an SGI of the GICv2. -/
theorem readLr_sgiWord (interrupt : VgicInt cpuNum) (hversion : vm.version = .gicv2)
    {word : BitVec 64} (cpuid : BitVec 64) (state : IntState)
    (hword : word = vm.vgicLrStart r interrupt ||| place cpuid 10 3 |||
      vm.version.stateWord state) (sgiPend : BitVec 8) :
    vm.version.readLr
        (if sgiPend = 0#8 then word else word ||| GicVersion.bitWord vm.version.lrEoiOff) =
      { vid := r.id % vm.version.vids
        prio :=
          match vm.version with
          | .gicv2 => (interrupt.prio >>> 3) <<< 3
          | .gicv3 => interrupt.prio
        state := state
        hw := false
        eoi := sgiPend != 0#8
        cpuid := cpuid.toNat % 8 } := by
  rw [vm.readLr_word r interrupt false (sgiPend != 0#8) 0#64 cpuid state ?_
    fun h => (by cases h), if_pos hversion]
  rw [hword, GicVersion.restWord, if_neg Bool.false_ne_true, if_pos hversion, BitVec.zero_or]
  by_cases hpend : sgiPend = 0#8
  · simp [hpend, BitVec.or_assoc]
  · rw [if_neg hpend, if_pos (bne_iff_ne.mpr hpend), BitVec.or_assoc, BitVec.or_assoc,
      BitVec.or_comm (vm.version.stateWord state)]

/-- The word that `vgic_write_lr` puts together is read as the value of the model. -/
theorem readLr_vgicLrWord (interrupt : VgicInt cpuNum) (state : IntState) :
    vm.version.readLr (vm.vgicLrWord r interrupt state).1 = (vm.vgicLr r interrupt state).1 ∧
      (vm.vgicLrWord r interrupt state).2 = (vm.vgicLr r interrupt state).2 := by
  have hzero : (if vm.version = .gicv2 then (0#64).toNat % 8 else 0) = 0 := by split_ifs <;> rfl
  rw [vgicLrWord, vgicLr]
  by_cases hhw : vgicIntIsHw r interrupt = true
  · rw [if_pos hhw, if_pos hhw]
    refine ⟨?_, rfl⟩
    rw [vm.readLr_word r interrupt true false (BitVec.ofNat 64 r.id) 0#64
      (if state = .pendAct then .active else state) ?_ fun _ => ⟨rfl, rfl⟩, hzero]
    · rfl
    · simp [GicVersion.restWord, place_zero, BitVec.or_assoc]
  · rw [if_neg hhw, if_neg hhw]
    by_cases hsgi : vm.version = .gicv2 ∧ gicIsSgi r.id = true
    · rw [if_pos hsgi, if_pos hsgi]
      by_cases hact : state.act = true
      · rw [if_pos hact, if_pos hact]
        refine ⟨?_, rfl⟩
        dsimp only
        rw [vm.readLr_sgiWord r interrupt hsgi.1 (interrupt.sgiAct.setWidth 64) .active rfl,
          BitVec.toNat_setWidth,
          Nat.mod_eq_of_lt (interrupt.sgiAct.isLt.trans (by decide : 2 ^ 8 < 2 ^ 64))]
        rfl
      · rw [if_neg hact, if_neg hact]
        cases hhigh : highestSet interrupt.sgiPend.getLsbD 8 with
        | none =>
            refine ⟨?_, rfl⟩
            dsimp only
            rw [vm.readLr_sgiWord r interrupt hsgi.1 0#64 .inv]
            · rfl
            · rw [place_zero, vm.version.stateWord_inv, BitVec.or_zero, BitVec.or_zero]
        | some i =>
            have hi : i < 8 :=
              List.mem_range.mp (List.mem_reverse.mp (List.mem_of_find?_eq_some hhigh))
            refine ⟨?_, rfl⟩
            dsimp only
            rw [vm.readLr_sgiWord r interrupt hsgi.1 (BitVec.ofNat 64 i) .pending rfl,
              BitVec.toNat_ofNat, Nat.mod_eq_of_lt (hi.trans (by decide : 8 < 2 ^ 64)),
              Nat.mod_eq_of_lt hi]
            rfl
    · rw [if_neg hsgi, if_neg hsgi]
      refine ⟨?_, rfl⟩
      rw [vm.readLr_word r interrupt false (!gicIsPriv r.id) 0#64 0#64 state ?_
        fun h => (by cases h), hzero]
      · rfl
      · cases gicIsPriv r.id <;>
          simp [GicVersion.restWord, place_zero, BitVec.or_assoc]

/-! ## The loop over words -/

theorem and_bitWord_ne_zero {x : BitVec 64} {off : ℕ} (hoff : off < 64) :
    x &&& GicVersion.bitWord off ≠ 0#64 ↔ x.getLsbD off = true := by
  constructor
  · intro hne
    by_contra hbit
    refine hne (BitVec.eq_of_getLsbD_eq fun i _ => ?_)
    rw [BitVec.getLsbD_and, GicVersion.getLsbD_bitWord _ _ hoff, BitVec.getLsbD_zero]
    by_cases hi : i = off
    · rw [hi, Bool.eq_false_iff.mpr hbit, Bool.false_and]
    · rw [decide_eq_false hi, Bool.and_false]
  · intro hbit heq
    have hzero : (x &&& GicVersion.bitWord off).getLsbD off = (0#64).getLsbD off := by rw [heq]
    rw [BitVec.getLsbD_and, GicVersion.getLsbD_bitWord _ _ hoff, hbit, BitVec.getLsbD_zero,
      decide_eq_true rfl] at hzero
    cases hzero

theorem getLsbD_lrState (version : GicVersion) (lr : BitVec 64) {i : ℕ}
    (hi : i = version.lrStateOff ∨ i = version.lrStateOff + 1) :
    (((lr &&& version.stateWord .pendAct).setWidth 32).setWidth 64).getLsbD i =
      (decide (version = .gicv2) && lr.getLsbD i) := by
  rw [BitVec.getLsbD_setWidth, BitVec.getLsbD_setWidth, BitVec.getLsbD_and,
    GicVersion.getLsbD_stateWord]
  cases version with
  | gicv2 =>
      rcases hi with rfl | rfl
      · simp [GicVersion.lrStateOff, IntState.pendAct, -BitVec.getLsbD_eq_getElem]
      · simp [GicVersion.lrStateOff, IntState.pendAct, -BitVec.getLsbD_eq_getElem]
  | gicv3 =>
      rcases hi with rfl | rfl
      · simp [GicVersion.lrStateOff]
      · simp [GicVersion.lrStateOff]

theorem stateWord_active (version : GicVersion) :
    version.stateWord .active = GicVersion.bitWord (version.lrStateOff + 1) ∧
      version.stateWord .pending = GicVersion.bitWord version.lrStateOff := by
  cases version with
  | gicv2 => exact ⟨by decide, by decide⟩
  | gicv3 => exact ⟨by decide, by decide⟩

theorem lrPrio_lt (version : GicVersion) (word : BitVec 64) :
    (version.lrPrio word).toNat < 2 ^ 8 := by
  unfold GicVersion.lrPrio
  cases version with
  | gicv2 =>
      have hlt : (extract word 23 5).toNat < 2 ^ 5 := by
        rw [toNat_extract _ _ (by decide)]
        exact Nat.mod_lt _ (by decide)
      change (extract word 23 5 <<< 3).toNat < 2 ^ 8
      rw [BitVec.toNat_shiftLeft, Nat.shiftLeft_eq]
      omega
  | gicv3 =>
      change (extract word 48 8).toNat < 2 ^ 8
      rw [toNat_extract _ _ (by decide)]
      exact Nat.mod_lt _ (by decide)

/-- The rounds of the loop over words are those over the values that are read from them. -/
theorem scanWord_eq {words : ℕ → BitVec 64} {lrs : ℕ → ListReg}
    (h : ∀ i, vm.version.readLr (words i) = lrs i) : vm.scanWord words = vm.scanLr lrs := by
  funext scan i
  obtain ⟨hactive, hpending⟩ := stateWord_active vm.version
  have hoff : vm.version.lrStateOff + 1 < 64 := by cases vm.version <;> decide
  have hprio : (vm.version.lrPrio (words i)).toNat =
      ((vm.version.lrPrio (words i)).setWidth 8).toNat := by
    rw [BitVec.toNat_setWidth, Nat.mod_eq_of_lt (lrPrio_lt ..)]
  rw [scanWord, scanLr, ← h i, hactive, hpending]
  dsimp only
  simp only [and_bitWord_ne_zero hoff, and_bitWord_ne_zero (Nat.lt_of_succ_lt hoff),
    getLsbD_lrState vm.version _ (.inl rfl), getLsbD_lrState vm.version _ (.inr rfl)]
  rw [hprio, GicVersion.readLr, GicVersion.gichLrState]
  cases hversion : vm.version with
  | gicv2 => simp
  | gicv3 => simp [IntState.inv]

end VgicVm

end BaoHypervisor
