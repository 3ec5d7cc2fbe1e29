import BaoHypervisor.Arch.Armv8.Smmu
import Mathlib.Data.Fintype.Card
import Mathlib.Data.Finset.Card
import Mathlib.Data.Fin.Basic

/-!
# Stream match entries

What the registers hold after they are written, and what `smmu_compatible_sme_exists` says
of the entries: which of them it gives up since the request contains them, and which one
contains the request.
-/

namespace BaoHypervisor

open Bitmap

/-! ## Registers -/

theorem getLsbD_smrValue (mask id : BitVec 32) {i : ℕ} (hi : i < 32) :
    (smrValue mask id).getLsbD i =
      (decide (16 ≤ i) && mask.getLsbD (i - 16) || (id.getLsbD i && decide (i < 15)) ||
        decide (i = 31)) := by
  have hmsk : ∀ i < 32, smmuIdMsk.getLsbD i = decide (i < 15) := by decide
  have hvalid : ∀ i < 32, (0x80000000#32).getLsbD i = decide (i = 31) := by decide
  rw [smrValue, BitVec.getLsbD_or, BitVec.getLsbD_or, BitVec.getLsbD_and, hmsk i hi, hvalid i hi,
    BitVec.getLsbD_shiftLeft, decide_eq_true hi, Bool.true_and, ← decide_not]
  congr 3
  exact decide_eq_decide.mpr (by omega)

theorem extract_smrValue (mask id : BitVec 32) :
    (smrValue mask id).extractLsb' 0 15 = id.setWidth 15 ∧
      (smrValue mask id).extractLsb' 16 15 = mask.setWidth 15 ∧
        (smrValue mask id).getLsbD 31 = true := by
  refine ⟨?_, ?_, ?_⟩
  · apply BitVec.eq_of_getLsbD_eq
    intro i hi
    have hnot : ¬ 16 ≤ i := by omega
    have hne : i ≠ 31 := by omega
    rw [BitVec.getLsbD_extractLsb', Nat.zero_add, getLsbD_smrValue mask id (by omega),
      BitVec.getLsbD_setWidth]
    simp [hi, hnot, hne]
  · apply BitVec.eq_of_getLsbD_eq
    intro i hi
    have hle : 16 ≤ 16 + i := by omega
    have hnot : ¬ 16 + i < 15 := by omega
    have hne : 16 + i ≠ 31 := by omega
    rw [BitVec.getLsbD_extractLsb', getLsbD_smrValue mask id (by omega), BitVec.getLsbD_setWidth]
    simp [hi, hnot, hne]
  · rw [getLsbD_smrValue mask id (by decide)]
    simp

theorem s2crCbndx_s2crValue (s2cr : BitVec 32) {ctx : ℕ} (hctx : ctx < 128) :
    s2crCbndx (s2crValue s2cr ctx) = ctx := by
  have hlow : (s2crValue s2cr ctx).extractLsb' 0 8 = BitVec.ofNat 8 ctx := by
    apply BitVec.eq_of_getLsbD_eq
    intro i hi
    have himpl : ∀ i < 8, (0xc0000000#32).getLsbD i = false := by decide
    have hmsk : ∀ i < 8, (0xff#32).getLsbD i = true := by decide
    rw [BitVec.getLsbD_extractLsb', Nat.zero_add, s2crValue, BitVec.getLsbD_or,
      BitVec.getLsbD_and, BitVec.getLsbD_and, himpl i hi, hmsk i hi, BitVec.getLsbD_ofNat,
      BitVec.getLsbD_ofNat, decide_eq_true hi, decide_eq_true (by omega : i < 32)]
    simp
  rw [s2crCbndx, hlow, BitVec.toNat_ofNat]
  exact Nat.mod_eq_of_lt (by omega)

section Words

variable {ι : Type*} {platform : SmmuPlatform ι} {call : AddCall ι} {smr : BitVec 32}

theorem getLsbD_prepId (call : AddCall ι) {i : ℕ} (hi : i < 32) :
    call.prepId.getLsbD i = (call.id.getLsbD i && decide (i < 15)) := by
  have hmsk : ∀ i < 32, smmuIdMsk.getLsbD i = decide (i < 15) := by decide
  rw [AddCall.prepId, BitVec.getLsbD_and, hmsk i hi]

/-- `diff_id` is 0 when the request meets the entry. -/
theorem diffId_iff :
    (smmuSmrId smr ^^^ call.prepId) &&& ~~~ (call.prepMask platform ||| smmuSmrMask smr) = 0#32 ↔
      (⟨smr.extractLsb' 0 15, smr.extractLsb' 16 15⟩ : Masked 15).Meets
        (call.request platform) := by
  rw [Masked.meets_iff_forall, Masked.eq_zero_iff]
  constructor
  · intro h i hi hentry hrequest
    have hbit := h i (by omega)
    simp only [AddCall.request, BitVec.getLsbD_setWidth, hi, decide_true, Bool.true_and] at hrequest
    simp only [BitVec.getLsbD_and, BitVec.getLsbD_xor, BitVec.getLsbD_not, BitVec.getLsbD_or,
      smmuSmrId, smmuSmrMask, BitVec.getLsbD_setWidth, hrequest, hentry,
      decide_eq_true (by omega : i < 32), Bool.true_and, Bool.and_false, Bool.or_self,
      Bool.not_false, Bool.and_true] at hbit
    simpa [AddCall.request, hi] using hbit
  · intro h i hi
    rw [BitVec.getLsbD_and, BitVec.getLsbD_xor, BitVec.getLsbD_not, BitVec.getLsbD_or,
      getLsbD_prepId call hi, smmuSmrId, smmuSmrMask, BitVec.getLsbD_setWidth,
      BitVec.getLsbD_setWidth, decide_eq_true hi]
    by_cases hlow : i < 15
    · have hbit := h i hlow
      simp only [AddCall.request, BitVec.getLsbD_setWidth, hlow, decide_true, Bool.true_and,
        getLsbD_prepId call hi, Bool.and_true] at hbit
      revert hbit
      generalize (smr.extractLsb' 16 15).getLsbD i = entryMask
      generalize (call.prepMask platform).getLsbD i = requestMask
      generalize (smr.extractLsb' 0 15).getLsbD i = entryId
      cases entryMask <;> cases requestMask <;> simp [hlow]
    · have hid : (smr.extractLsb' 0 15).getLsbD i = false := BitVec.getLsbD_of_ge _ _ (by omega)
      simp [hid, hlow]

theorem mask_of_and_eq_left
    (h : call.prepMask platform &&& smmuSmrMask smr = smmuSmrMask smr) :
    (call.request platform).mask &&& smr.extractLsb' 16 15 = smr.extractLsb' 16 15 := by
  apply BitVec.eq_of_getLsbD_eq
  intro i hi
  have hbit := congrArg (fun x => x.getLsbD i) h
  simpa [AddCall.request, smmuSmrMask, hi, (by omega : i < 32)] using hbit

theorem mask_of_and_eq_right
    (h : call.prepMask platform &&& smmuSmrMask smr = call.prepMask platform) :
    smr.extractLsb' 16 15 &&& (call.request platform).mask = (call.request platform).mask := by
  apply BitVec.eq_of_getLsbD_eq
  intro i hi
  have hbit := congrArg (fun x => x.getLsbD i) h
  rw [BitVec.and_comm]
  simpa [AddCall.request, smmuSmrMask, hi, (by omega : i < 32)] using hbit

end Words

namespace SmmuState

variable {ι : Type*} {cpuNum : ℕ} {platform : SmmuPlatform ι}
  {s : SmmuState ι cpuNum} {call : AddCall ι} {ctx sme : ℕ}

theorem contains_of_lt (hmeets : (s.entry sme).Meets (call.request platform))
    (hmask : call.prepMask platform &&& smmuSmrMask (s.smr sme) = call.prepMask platform ∨
      call.prepMask platform &&& smmuSmrMask (s.smr sme) = smmuSmrMask (s.smr sme))
    (hlt : smmuSmrMask (s.smr sme) < call.prepMask platform) {stream : BitVec 15}
    (hstream : (s.entry sme).Matches stream) : (call.request platform).Matches stream := by
  have hright : call.prepMask platform &&& smmuSmrMask (s.smr sme) =
      smmuSmrMask (s.smr sme) := by
    refine hmask.resolve_left fun hleft => ?_
    have hle := Nat.and_le_right (n := (call.prepMask platform).toNat)
      (m := (smmuSmrMask (s.smr sme)).toNat)
    rw [← BitVec.toNat_and, hleft] at hle
    exact absurd hlt (not_lt_of_ge hle)
  exact hmeets.symm.matches_of_mask (mask_of_and_eq_left hright) hstream

theorem contained_of_not_lt (hmeets : (s.entry sme).Meets (call.request platform))
    (hmask : call.prepMask platform &&& smmuSmrMask (s.smr sme) = call.prepMask platform ∨
      call.prepMask platform &&& smmuSmrMask (s.smr sme) = smmuSmrMask (s.smr sme))
    (hlt : ¬ smmuSmrMask (s.smr sme) < call.prepMask platform) {stream : BitVec 15}
    (hstream : (call.request platform).Matches stream) : (s.entry sme).Matches stream := by
  have hleft : call.prepMask platform &&& smmuSmrMask (s.smr sme) = call.prepMask platform := by
    refine hmask.elim id fun hright => ?_
    have hle := Nat.and_le_left (n := (call.prepMask platform).toNat)
      (m := (smmuSmrMask (s.smr sme)).toNat)
    rw [← BitVec.toNat_and, hright] at hle
    have heq : smmuSmrMask (s.smr sme) = call.prepMask platform :=
      BitVec.eq_of_toNat_eq (le_antisymm hle (not_lt.mp hlt))
    rw [heq, BitVec.and_self]
  exact hmeets.matches_of_mask (mask_of_and_eq_right hleft) hstream

/-- What the loop of `smmu_compatible_sme_exists` leaves of the entries that it looks at: those
that it clears lie within the request, and the others that are left are apart from it, but for
one that has the request. -/
structure Checked (platform : SmmuPlatform ι) (s : SmmuState ι cpuNum) (call : AddCall ι)
    (ctx first last : ℕ) (bitmap : Bitmap) (included : Bool) (bitmap' : Bitmap) : Prop where
  mono : ∀ i, bitmapGet bitmap' i = true → bitmapGet bitmap i = true
  cleared : ∀ i, bitmapGet bitmap i = true → bitmapGet bitmap' i = false → first ≤ i ∧
    i < last ∧ (s.entry i).Meets (call.request platform) ∧
    (∀ stream, (s.entry i).Matches stream → (call.request platform).Matches stream) ∧
    ctx = s2crCbndx (s.s2cr i)
  apart : included = false → ∀ i, first ≤ i → i < last → bitmapGet bitmap' i = true →
    ¬ (s.entry i).Meets (call.request platform)
  found : included = true → ∃ i < last, bitmapGet bitmap' i = true ∧
    (s.entry i).Meets (call.request platform) ∧
    (∀ stream, (call.request platform).Matches stream → (s.entry i).Matches stream) ∧
    ctx = s2crCbndx (s.s2cr i)

/-- An entry that is not in use, or that does not meet the request, is passed. -/
theorem Checked.skip {first last : ℕ} {bitmap bitmap' : Bitmap} {included : Bool}
    (h : Checked platform s call ctx (first + 1) last bitmap included bitmap')
    (hfirst : bitmapGet bitmap first = true → ¬ (s.entry first).Meets (call.request platform)) :
    Checked platform s call ctx first last bitmap included bitmap' where
  mono := h.mono
  cleared i hi hi' :=
    have hcleared := h.cleared i hi hi'
    ⟨by omega, hcleared.2⟩
  apart hincluded i hle hlt hi := by
    rcases eq_or_lt_of_le hle with rfl | hgt
    · exact hfirst (h.mono _ hi)
    · exact h.apart hincluded i hgt hlt hi
  found := h.found

/-- An entry that the request contains is cleared. -/
theorem Checked.clear {first last : ℕ} {bitmap bitmap' : Bitmap} {included : Bool}
    (h : Checked platform s call ctx (first + 1) last (bitmapClear bitmap first) included bitmap')
    (hlt : first < last) (hmeets : (s.entry first).Meets (call.request platform))
    (hcontains : ∀ stream, (s.entry first).Matches stream →
      (call.request platform).Matches stream) (hctx : ctx = s2crCbndx (s.s2cr first)) :
    Checked platform s call ctx first last bitmap included bitmap' where
  mono i hi := by
    have hold := h.mono i hi
    rw [bitmapGet_bitmapClear, Bool.and_eq_true] at hold
    exact hold.1
  cleared i hi hi' := by
    by_cases hif : i = first
    · subst hif
      exact ⟨le_rfl, hlt, hmeets, hcontains, hctx⟩
    · have hcleared := h.cleared i (by simp [bitmapGet_bitmapClear, hi, hif]) hi'
      exact ⟨by omega, hcleared.2⟩
  apart hincluded i hle hlt hi := by
    rcases eq_or_lt_of_le hle with rfl | hgt
    · have hold := h.mono _ hi
      simp [bitmapGet_bitmapClear] at hold
    · exact h.apart hincluded i hgt hlt hi
  found := h.found

theorem checked_of_compatibleLoop {left first : ℕ} {bitmap bitmap' : Bitmap} {included : Bool}
    (h : s.compatibleLoop (call.prepMask platform) call.prepId ctx call.group left first bitmap =
      some (included, bitmap')) :
    Checked platform s call ctx first (first + left) bitmap included bitmap' := by
  induction left generalizing first bitmap with
  | zero =>
      rw [compatibleLoop] at h
      cases h
      exact ⟨fun _ hi => hi, fun i hi hi' => absurd (hi.symm.trans hi') (by decide),
        fun _ i hle hlt => by omega, fun hfalse => nomatch hfalse⟩
  | succ left ih =>
      have hlast : first + (left + 1) = first + 1 + left := by omega
      rw [compatibleLoop] at h
      dsimp only at h
      split_ifs at h with hbit hdiff hmerge hlt
      · rw [hlast]
        exact (ih h).skip fun hset => absurd (hset.symm.trans hbit) (by decide)
      · -- The request contains the entry.
        rw [hlast]
        have hmeets := diffId_iff.mp hdiff
        exact (ih h).clear (by omega) hmeets
          (fun _ hstream => contains_of_lt hmeets hmerge.2.1 hlt hstream) hmerge.2.2
      · -- The entry contains the request.
        cases h
        have hmeets := diffId_iff.mp hdiff
        refine ⟨fun _ hi => hi, fun i hi hi' => absurd (hi.symm.trans hi') (by decide),
          fun hfalse => (nomatch hfalse),
          fun _ => ⟨first, by omega, eq_true_of_ne_false hbit, hmeets,
          fun _ hstream => contained_of_not_lt hmeets hmerge.2.1 hlt hstream, hmerge.2.2⟩⟩
      · rw [hlast]
        exact (ih h).skip fun _ hmeets => hdiff (diffId_iff.mpr hmeets)

end SmmuState

end BaoHypervisor
