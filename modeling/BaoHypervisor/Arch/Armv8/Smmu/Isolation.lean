import BaoHypervisor.Arch.Armv8.Smmu.Entries

/-!
# Isolation of streams

An entry is settled when no CPU is about to write it. The settled entries and the requests on
their way into one are apart, and every stream that a granted request covers is in a settled
entry, or in a request that has superseded the one it was in. A superseded entry stays valid
until it is written again: the free entries that are valid come before all that were never
used, so each call that has superseded an entry overwrites one.
-/

namespace BaoHypervisor

open Bitmap

/-- A request that has been checked, with the number of entries that it superseded, the entry
that was allocated for it, and whether this is written. -/
structure Entering (ι : Type*) where
  call : AddCall ι
  cleared : ℕ
  sme : Option ℕ
  written : Bool

/-- The request that a CPU is about to put into an entry. -/
def AddStage.entering {ι : Type*} : AddStage ι → Option (Entering ι)
  | .allocSme call _ cleared => some ⟨call, cleared, none, false⟩
  | .writeSme call _ cleared sme => some ⟨call, cleared, some sme, false⟩
  | .writeS2c call _ cleared sme => some ⟨call, cleared, some sme, true⟩
  | .idle | .allocCtxbnk _ | .writeCtxbnk _ _ | .compatible _ _ => none

namespace SmmuState

variable {ι : Type*} {cpuNum : ℕ}

section Defs

variable (platform : SmmuPlatform ι) (s : SmmuState ι cpuNum)

/-- The entry is in use, and no CPU is about to write it. -/
def Settled (i : ℕ) : Prop :=
  i < platform.smeNum ∧ bitmapGet s.smeBitmap i = true ∧
    ∀ c e, (s.stage c).entering = some e → e.sme ≠ some i

def stale : Finset ℕ :=
  (Finset.range platform.smeNum).filter fun i =>
    bitmapGet s.smeBitmap i = false ∧ (s.smr i).getLsbD 31 = true

def superseding : Finset (Fin cpuNum) :=
  Finset.univ.filter fun c =>
    (s.stage c).entering.any fun e => e.sme.isNone && e.cleared != 0

/-- The stream is in an entry of the VM, or is about to be again. -/
def Covered (vm : ι) (stream : BitVec 15) : Prop :=
  (∃ i, s.Settled platform i ∧ (s.entry i).Matches stream ∧
      s.bank (s2crCbndx (s.s2cr i)) = some vm) ∨
    ∃ c e, (s.stage c).entering = some e ∧ e.cleared ≠ 0 ∧ e.call.vm = vm ∧
      (e.call.request platform).Matches stream

/-- The entries before `k` are in use or valid, and those from there on were never used. -/
def UsedUpTo (k : ℕ) : Prop :=
  ∀ i < platform.smeNum,
    (i < k → bitmapGet s.smeBitmap i = true ∨ s.Valid i) ∧
      (k ≤ i → bitmapGet s.smeBitmap i = false ∧ ¬ s.Valid i)

/-- What holds of the entries between the critical sections. -/
structure EntryInv : Prop where
  held : ∀ c e i, (s.stage c).entering = some e → e.sme = some i →
    i < platform.smeNum ∧ bitmapGet s.smeBitmap i = true
  heldOnce : ∀ c d e f i, (s.stage c).entering = some e → (s.stage d).entering = some f →
    e.sme = some i → f.sme = some i → c = d
  written : ∀ c e i, (s.stage c).entering = some e → e.sme = some i → e.written = true →
    s.Valid i ∧ s.entry i = e.call.request platform
  valid : ∀ i, s.Settled platform i → s.Valid i
  apart : ∀ i j, s.Settled platform i → s.Settled platform j →
    (s.entry i).Meets (s.entry j) → i = j
  apartEntering : ∀ c e i, (s.stage c).entering = some e → s.Settled platform i →
    ¬ (s.entry i).Meets (e.call.request platform)
  enteringApart : ∀ c d e f, (s.stage c).entering = some e → (s.stage d).entering = some f →
    (e.call.request platform).Meets (f.call.request platform) → c = d
  low : ∃ k, s.UsedUpTo platform k
  stale_le : (s.stale platform).card ≤ s.superseding.card
  covered : ∀ call ∈ s.granted, ∀ stream, (call.request platform).Matches stream →
    s.Covered platform call.vm stream

end Defs

variable {platform : SmmuPlatform ι} {s s' : SmmuState ι cpuNum} {c d : Fin cpuNum}
  {call : AddCall ι} {ctx cleared i j : ℕ} {e : Entering ι} {stage : AddStage ι}

theorem entering_cases (hstage : s'.stage = Function.update s.stage c stage)
    (h : (s'.stage d).entering = some e) :
    d = c ∧ stage.entering = some e ∨ d ≠ c ∧ (s.stage d).entering = some e := by
  rw [hstage] at h
  by_cases hd : d = c
  · subst hd
    rw [Function.update_self] at h
    exact .inl ⟨rfl, h⟩
  · rw [Function.update_of_ne hd] at h
    exact .inr ⟨hd, h⟩

theorem entering_self (hstage : s'.stage = Function.update s.stage c stage) :
    (s'.stage c).entering = stage.entering := by
  rw [hstage, Function.update_self]

theorem entering_of_ne (hstage : s'.stage = Function.update s.stage c stage) (hd : d ≠ c) :
    (s'.stage d).entering = (s.stage d).entering := by
  rw [hstage, Function.update_of_ne hd]

theorem mem_superseding :
    c ∈ s.superseding ↔ ∃ e, (s.stage c).entering = some e ∧ e.sme = none ∧ e.cleared ≠ 0 := by
  rw [superseding, Finset.mem_filter]
  cases (s.stage c).entering with
  | none => simp
  | some e => simp

theorem superseding_subset (hstage : s'.stage = Function.update s.stage c stage)
    (hc : c ∉ s.superseding) : s.superseding ⊆ s'.superseding := by
  intro d hd
  have hdc : d ≠ c := fun heq => hc (heq ▸ hd)
  rw [mem_superseding] at hd ⊢
  rwa [entering_of_ne hstage hdc]

theorem notMem_superseding (he : (s.stage c).entering = some e)
    (hnot : e.sme ≠ none ∨ e.cleared = 0) : c ∉ s.superseding := by
  rw [mem_superseding]
  rintro ⟨f, hf, hsme, hcleared⟩
  rw [he] at hf
  cases hf
  exact hnot.elim (· hsme) hcleared

theorem mem_stale :
    i ∈ s.stale platform ↔
      i < platform.smeNum ∧ bitmapGet s.smeBitmap i = false ∧ s.Valid i := by
  rw [stale, Finset.mem_filter, Finset.mem_range, Valid]

theorem entry_congr (hsmr : s'.smr = s.smr) (i : ℕ) : s'.entry i = s.entry i := by
  rw [entry, entry, hsmr]

theorem valid_congr (hsmr : s'.smr = s.smr) (i : ℕ) : s'.Valid i ↔ s.Valid i := by
  rw [Valid, Valid, hsmr]

/-- Nothing about the entries has changed. -/
theorem EntryInv.congr (h : s.EntryInv platform) (hsmr : s'.smr = s.smr) (hs2cr : s'.s2cr = s.s2cr)
    (hbits : ∀ i, bitmapGet s'.smeBitmap i = bitmapGet s.smeBitmap i)
    (hentering : ∀ c, (s'.stage c).entering = (s.stage c).entering)
    (hbank : ∀ ctx vm, s.bank ctx = some vm → s'.bank ctx = some vm)
    (hgranted : ∀ call ∈ s'.granted, call ∈ s.granted ∨
      ∀ stream, (call.request platform).Matches stream → s.Covered platform call.vm stream) :
    s'.EntryInv platform := by
  have hsettled : ∀ i, s'.Settled platform i ↔ s.Settled platform i := by
    intro i
    simp only [Settled, hbits, hentering]
  have hentry := entry_congr hsmr
  have hvalid := valid_congr hsmr
  have hcovered : ∀ vm stream, s.Covered platform vm stream → s'.Covered platform vm stream := by
    rintro vm stream (⟨i, hi, hmatches, hvm⟩ | ⟨c, e, he, hcovers⟩)
    · refine .inl ⟨i, (hsettled i).mpr hi, by rwa [hentry], ?_⟩
      rw [hs2cr]
      exact hbank _ _ hvm
    · exact .inr ⟨c, e, by rwa [hentering], hcovers⟩
  refine ⟨?_, ?_, ?_, ?_, ?_, ?_, ?_, ?_, ?_, ?_⟩
  · simpa only [hbits, hentering] using h.held
  · simpa only [hentering] using h.heldOnce
  · simpa only [hentering, hentry, hvalid] using h.written
  · simpa only [hsettled, hvalid] using h.valid
  · simpa only [hsettled, hentry] using h.apart
  · simpa only [hsettled, hentry, hentering] using h.apartEntering
  · simpa only [hentering] using h.enteringApart
  · simpa only [UsedUpTo, hbits, hvalid] using h.low
  · have hstale : s'.stale platform = s.stale platform := by
      simp only [stale, hbits, hsmr]
    have hsuperseding : s'.superseding = s.superseding := by
      simp only [superseding, hentering]
    rw [hstale, hsuperseding]
    exact h.stale_le
  · intro call hcall stream hstream
    rcases hgranted call hcall with hold | hnew
    · exact hcovered _ _ (h.covered call hold stream hstream)
    · exact hcovered _ _ (hnew stream hstream)

theorem clearedNum_ne_zero {bitmap : Bitmap} (hi : i < platform.smeNum)
    (hset : bitmapGet s.smeBitmap i = true) (hclear : bitmapGet bitmap i = false) :
    s.clearedNum platform bitmap ≠ 0 := by
  rw [clearedNum, Ne, List.countP_eq_zero]
  intro hnone
  have hnot := hnone i (List.mem_range.mpr hi)
  rw [hset, hclear] at hnot
  exact hnot rfl

/-- A CPU goes to a stage, and the registers and the grants are as before. -/
structure Moved (s s' : SmmuState ι cpuNum) (c : Fin cpuNum) (stage : AddStage ι) : Prop where
  stage : s'.stage = Function.update s.stage c stage
  smr : s'.smr = s.smr
  s2cr : s'.s2cr = s.s2cr
  bank : s'.bank = s.bank
  granted : s'.granted = s.granted

theorem Moved.entry (h : Moved s s' c stage) (i : ℕ) : s'.entry i = s.entry i :=
  entry_congr h.smr i

theorem Moved.valid_iff (h : Moved s s' c stage) (i : ℕ) : s'.Valid i ↔ s.Valid i :=
  valid_congr h.smr i

/-! ## A request is checked -/

section Enter

variable (hnone : (s.stage c).entering = none)
  (hmoved : Moved s s' c (.allocSme call ctx cleared))
  (hchecked : Checked platform s call ctx 0 platform.smeNum s.smeBitmap false s'.smeBitmap)

include hnone in
theorem ne_of_entering (he : (s.stage d).entering = some e) : d ≠ c := by
  rintro rfl
  rw [hnone] at he
  cases he

include hnone hmoved hchecked in
theorem settled_enter_iff :
    s'.Settled platform i ↔ s.Settled platform i ∧ bitmapGet s'.smeBitmap i = true := by
  constructor
  · rintro ⟨hlt, hi, hfree⟩
    refine ⟨⟨hlt, hchecked.mono i hi, fun d e he => ?_⟩, hi⟩
    exact hfree d e (by rwa [entering_of_ne hmoved.stage (ne_of_entering hnone he)])
  · rintro ⟨⟨hlt, -, hfree⟩, hi⟩
    refine ⟨hlt, hi, fun d e he => ?_⟩
    rcases entering_cases hmoved.stage he with ⟨rfl, heq⟩ | ⟨hd, he⟩
    · cases heq
      exact fun heq => nomatch heq
    · exact hfree d e he

include hmoved hchecked in
/-- An entry that is superseded stays valid. -/
theorem UsedUpTo.enter {k : ℕ} (hk : s.UsedUpTo platform k)
    (hvalid : ∀ i, bitmapGet s.smeBitmap i = true → bitmapGet s'.smeBitmap i = false → s.Valid i) :
    s'.UsedUpTo platform k := by
  refine fun i hi => ⟨fun hlt => ?_, fun hle => ?_⟩
  · rw [hmoved.valid_iff]
    rcases (hk i hi).1 hlt with hset | hused
    · cases hset' : bitmapGet s'.smeBitmap i with
      | true => exact .inl rfl
      | false => exact .inr (hvalid i hset hset')
    · exact .inr hused
  · rw [hmoved.valid_iff]
    refine ⟨?_, ((hk i hi).2 hle).2⟩
    by_contra hset
    rw [Bool.not_eq_false] at hset
    exact absurd (hchecked.mono i hset) (by rw [((hk i hi).2 hle).1]; decide)

include hnone hmoved in
theorem superseding_enter : c ∉ s.superseding ∧ s.superseding ⊆ s'.superseding := by
  have hc : c ∉ s.superseding := by
    rw [mem_superseding, hnone]
    rintro ⟨e, he, -⟩
    cases he
  exact ⟨hc, superseding_subset hmoved.stage hc⟩

include hmoved hchecked in
theorem stale_enter (hj : j < platform.smeNum) (hset : bitmapGet s.smeBitmap j = true)
    (hclear : bitmapGet s'.smeBitmap j = false)
    (hone : ∀ i j, i < platform.smeNum → j < platform.smeNum → bitmapGet s.smeBitmap i = true →
      bitmapGet s.smeBitmap j = true → (s.entry i).Meets (call.request platform) →
      (s.entry j).Meets (call.request platform) → i = j) :
    s'.stale platform ⊆ insert j (s.stale platform) := by
  have hmeets := (hchecked.cleared j hset hclear).2.2.1
  intro i hi
  rw [mem_stale, hmoved.valid_iff] at hi
  rw [Finset.mem_insert, mem_stale]
  obtain ⟨hlt, hi', hvalid⟩ := hi
  cases hseti : bitmapGet s.smeBitmap i with
  | false => exact .inr ⟨hlt, rfl, hvalid⟩
  | true => exact .inl (hone i j hlt hj hseti hset (hchecked.cleared i hseti hi').2.2.1 hmeets)

include hnone hmoved hchecked in
/-- If an entry has become stale, this CPU is to overwrite one. -/
theorem card_stale_enter (hle : (s.stale platform).card ≤ s.superseding.card)
    (hcleared : ∀ i < platform.smeNum, bitmapGet s.smeBitmap i = true →
      bitmapGet s'.smeBitmap i = false → cleared ≠ 0)
    (hone : ∀ i j, i < platform.smeNum → j < platform.smeNum → bitmapGet s.smeBitmap i = true →
      bitmapGet s.smeBitmap j = true → (s.entry i).Meets (call.request platform) →
      (s.entry j).Meets (call.request platform) → i = j) :
    (s'.stale platform).card ≤ s'.superseding.card := by
  obtain ⟨hc, hothers⟩ := superseding_enter hnone hmoved
  by_cases hany : ∃ j, bitmapGet s.smeBitmap j = true ∧ bitmapGet s'.smeBitmap j = false
  · obtain ⟨j, hj, hj'⟩ := hany
    have hjlt := (hchecked.cleared j hj hj').2.1
    have hsup : insert c s.superseding ⊆ s'.superseding := by
      refine Finset.insert_subset ?_ hothers
      rw [mem_superseding, entering_self hmoved.stage]
      exact ⟨_, rfl, rfl, hcleared j hjlt hj hj'⟩
    have hstale := Finset.card_le_card (stale_enter hmoved hchecked hjlt hj hj' hone)
    have hsuper := Finset.card_le_card hsup
    have hins := Finset.card_insert_le j (s.stale platform)
    rw [Finset.card_insert_of_notMem hc] at hsuper
    omega
  · have hstale : s'.stale platform ⊆ s.stale platform := by
      intro i hi
      rw [mem_stale, hmoved.valid_iff] at hi
      rw [mem_stale]
      refine ⟨hi.1, ?_, hi.2.2⟩
      by_contra hset
      rw [Bool.not_eq_false] at hset
      exact hany ⟨i, hset, hi.2.1⟩
    exact (Finset.card_le_card hstale).trans (hle.trans (Finset.card_le_card hothers))

include hnone hmoved hchecked in
/-- A stream of an entry that is superseded is covered by the request. -/
theorem Covered.enter {vm : ι} {stream : BitVec 15} (h : s.Covered platform vm stream)
    (hcleared : ∀ i < platform.smeNum, bitmapGet s.smeBitmap i = true →
      bitmapGet s'.smeBitmap i = false → cleared ≠ 0)
    (hbank : s.bank ctx = some call.vm) : s'.Covered platform vm stream := by
  rcases h with ⟨i, hi, hmatches, hvm⟩ | ⟨d, e, he, hcovers⟩
  · cases hset : bitmapGet s'.smeBitmap i with
    | true =>
        refine .inl ⟨i, (settled_enter_iff hnone hmoved hchecked).mpr ⟨hi, hset⟩,
          by rwa [hmoved.entry], ?_⟩
        rwa [hmoved.s2cr, hmoved.bank]
    | false =>
        obtain ⟨-, -, -, hcontains, hctx⟩ := hchecked.cleared i hi.2.1 hset
        refine .inr ⟨c, _, entering_self hmoved.stage, hcleared i hi.1 hi.2.1 hset, ?_,
          hcontains stream hmatches⟩
        rw [← hctx, hbank] at hvm
        exact Option.some.inj hvm
  · exact .inr ⟨d, e, by rwa [entering_of_ne hmoved.stage (ne_of_entering hnone he)], hcovers⟩

end Enter

/-- A request is checked that no entry has. -/
theorem EntryInv.enter (h : s.EntryInv platform) (hnone : (s.stage c).entering = none)
    (hmoved : Moved s s' c (.allocSme call ctx cleared))
    (hcleared : ∀ i < platform.smeNum, bitmapGet s.smeBitmap i = true →
      bitmapGet s'.smeBitmap i = false → cleared ≠ 0)
    (hchecked : Checked platform s call ctx 0 platform.smeNum s.smeBitmap false s'.smeBitmap)
    (hothers : ∀ d e, (s.stage d).entering = some e →
      ¬ (e.call.request platform).Meets (call.request platform))
    (hheld : ∀ d e i, (s.stage d).entering = some e → e.sme = some i →
      ¬ (s.entry i).Meets (call.request platform))
    (hone : ∀ i j, i < platform.smeNum → j < platform.smeNum → bitmapGet s.smeBitmap i = true →
      bitmapGet s.smeBitmap j = true → (s.entry i).Meets (call.request platform) →
      (s.entry j).Meets (call.request platform) → i = j)
    (hbank : s.bank ctx = some call.vm) : s'.EntryInv platform := by
  have hkeep : ∀ d e i, (s.stage d).entering = some e → e.sme = some i →
      bitmapGet s'.smeBitmap i = true := by
    intro d e i he hi
    by_contra hclear
    rw [Bool.not_eq_true] at hclear
    exact hheld d e i he hi (hchecked.cleared i (h.held d e i he hi).2 hclear).2.2.1
  have hvalid : ∀ i, bitmapGet s.smeBitmap i = true → bitmapGet s'.smeBitmap i = false →
      s.Valid i := by
    intro i hi hi'
    obtain ⟨-, hlt, hmeets, -⟩ := hchecked.cleared i hi hi'
    exact h.valid i ⟨hlt, hi, fun d e he hsme => hheld d e i he hsme hmeets⟩
  have hsettled : ∀ i, s'.Settled platform i → s.Settled platform i := fun i hi =>
    ((settled_enter_iff hnone hmoved hchecked).mp hi).1
  refine ⟨fun d e i he hi => ?_, fun d f e e' i he he' hi hi' => ?_, fun d e i he hi hw => ?_,
    fun i hi => ?_, fun i j hi hj => ?_, fun d e i he hi => ?_, fun d f e e' he he' hmeets => ?_,
    h.low.imp fun k hk => hk.enter hmoved hchecked hvalid,
    card_stale_enter hnone hmoved hchecked h.stale_le hcleared hone, fun g hg stream hstream => ?_⟩
  · rcases entering_cases hmoved.stage he with ⟨rfl, heq⟩ | ⟨hd, he⟩
    · cases heq
      cases hi
    · exact ⟨(h.held d e i he hi).1, hkeep d e i he hi⟩
  · rcases entering_cases hmoved.stage he with ⟨rfl, heq⟩ | ⟨hd, he⟩
    · cases heq
      cases hi
    · rcases entering_cases hmoved.stage he' with ⟨rfl, heq⟩ | ⟨hf, he'⟩
      · cases heq
        cases hi'
      · exact h.heldOnce d f e e' i he he' hi hi'
  · rcases entering_cases hmoved.stage he with ⟨rfl, heq⟩ | ⟨hd, he⟩
    · cases heq
      cases hi
    · rw [hmoved.valid_iff, hmoved.entry]
      exact h.written d e i he hi hw
  · rw [hmoved.valid_iff]
    exact h.valid i (hsettled i hi)
  · rw [hmoved.entry, hmoved.entry]
    exact h.apart i j (hsettled i hi) (hsettled j hj)
  · rw [hmoved.entry]
    rcases entering_cases hmoved.stage he with ⟨rfl, heq⟩ | ⟨hd, he⟩
    · cases heq
      exact hchecked.apart rfl i (Nat.zero_le i) hi.1 hi.2.1
    · exact h.apartEntering d e i he (hsettled i hi)
  · rcases entering_cases hmoved.stage he with ⟨rfl, heq⟩ | ⟨hd, he⟩
    · rcases entering_cases hmoved.stage he' with ⟨rfl, heq'⟩ | ⟨hf, he'⟩
      · rfl
      · cases heq
        exact absurd hmeets.symm (hothers f e' he')
    · rcases entering_cases hmoved.stage he' with ⟨rfl, heq'⟩ | ⟨hf, he'⟩
      · cases heq'
        exact absurd hmeets (hothers d e he)
      · exact h.enteringApart d f e e' he he' hmeets
  · rw [hmoved.granted] at hg
    exact (h.covered g hg stream hstream).enter hnone hmoved hchecked hcleared hbank

/-! ## An entry is allocated -/

section Allocate

variable (hstage : s.stage c = .allocSme call ctx cleared)
  (hmoved : Moved s s' c (.writeSme call ctx cleared i))
  (hbits : s'.smeBitmap = bitmapSet s.smeBitmap i)
  (hfree : bitmapGet s.smeBitmap i = false)

include hstage in
theorem entering_allocSme : (s.stage c).entering = some ⟨call, cleared, none, false⟩ := by
  rw [hstage]
  rfl

include hbits in
theorem bitmapGet_allocate (j : ℕ) :
    bitmapGet s'.smeBitmap j = (bitmapGet s.smeBitmap j || decide (j = i)) := by
  rw [hbits, bitmapGet_bitmapSet]

include hstage hmoved in
theorem entering_allocate (he : (s'.stage d).entering = some e) :
    ∃ f, (s.stage d).entering = some f ∧ f.call = e.call ∧ f.cleared = e.cleared ∧
      (e.sme = f.sme ∧ e.written = f.written ∨ d = c ∧ e.sme = some i ∧ e.written = false) := by
  rcases entering_cases hmoved.stage he with ⟨rfl, heq⟩ | ⟨hd, he⟩
  · cases heq
    exact ⟨_, entering_allocSme hstage, rfl, rfl, .inr ⟨rfl, rfl, rfl⟩⟩
  · exact ⟨e, he, rfl, rfl, .inl ⟨rfl, rfl⟩⟩

include hstage hmoved hbits hfree in
theorem settled_allocate_iff (j : ℕ) : s'.Settled platform j ↔ s.Settled platform j := by
  constructor
  · rintro ⟨hj, hset, hnone⟩
    have hji : j ≠ i := fun heq => hnone c _ (entering_self hmoved.stage) (heq ▸ rfl)
    rw [bitmapGet_allocate hbits, decide_eq_false hji, Bool.or_false] at hset
    refine ⟨hj, hset, fun d e he => ?_⟩
    by_cases hd : d = c
    · subst hd
      rw [entering_allocSme hstage] at he
      cases he
      exact fun heq => nomatch heq
    · exact hnone d e (by rwa [entering_of_ne hmoved.stage hd])
  · rintro ⟨hj, hset, hnone⟩
    refine ⟨hj, by rw [bitmapGet_allocate hbits, hset, Bool.true_or], fun d e he heq => ?_⟩
    obtain ⟨f, hf, -, -, ⟨hsme, -⟩ | ⟨-, hsme, -⟩⟩ := entering_allocate hstage hmoved he
    · exact hnone d f hf (hsme ▸ heq)
    · obtain rfl : i = j := Option.some.inj (hsme.symm.trans heq)
      rw [hfree] at hset
      cases hset

include hmoved hbits in
theorem UsedUpTo.allocate {k : ℕ} (hk : s.UsedUpTo platform k)
    (hfirst : ∀ j < i, bitmapGet s.smeBitmap j = true) :
    s'.UsedUpTo platform (max k (i + 1)) := by
  refine fun j hj => ⟨fun hlt => ?_, fun hle => ?_⟩
  · rw [hmoved.valid_iff, bitmapGet_allocate hbits]
    by_cases hjk : j < k
    · refine ((hk j hj).1 hjk).imp_left fun hset => ?_
      rw [hset, Bool.true_or]
    · refine .inl ?_
      by_cases hji : j = i
      · rw [decide_eq_true hji, Bool.or_true]
      · rw [hfirst j (by omega), Bool.true_or]
  · have hji : j ≠ i := by omega
    rw [hmoved.valid_iff, bitmapGet_allocate hbits, decide_eq_false hji, Bool.or_false]
    exact (hk j hj).2 (by omega)

include hmoved hbits in
theorem stale_allocate : s'.stale platform ⊆ (s.stale platform).erase i := by
  intro j hj
  rw [mem_stale, hmoved.valid_iff, bitmapGet_allocate hbits, Bool.or_eq_false_iff,
    decide_eq_false_iff_not] at hj
  exact Finset.mem_erase.mpr ⟨hj.2.1.2, mem_stale.mpr ⟨hj.1, hj.2.1.1, hj.2.2⟩⟩

include hmoved hbits hfree in
/-- The entry that is allocated is stale, if any is. -/
theorem card_stale_allocate {k : ℕ} (hk : s.UsedUpTo platform k)
    (hle : (s.stale platform).card ≤ s.superseding.card) (hlt : i < platform.smeNum)
    (hfirst : ∀ j < i, bitmapGet s.smeBitmap j = true) :
    (s'.stale platform).card ≤ s'.superseding.card := by
  have hstale : s'.stale platform ⊆ (s.stale platform).erase i := stale_allocate hmoved hbits
  by_cases hi : i ∈ s.stale platform
  · have hsup : s.superseding.erase c ⊆ s'.superseding := by
      intro d hd
      rw [Finset.mem_erase, mem_superseding] at hd
      rw [mem_superseding, entering_of_ne hmoved.stage hd.1]
      exact hd.2
    have herase := Finset.card_erase_of_mem hi
    have hpred := Finset.pred_card_le_card_erase (s := s.superseding) (a := c)
    have hcard := Finset.card_le_card hstale
    have hcard' := Finset.card_le_card hsup
    omega
  · -- The first free entry was never used, and no entry is stale.
    have hki : k ≤ i := by
      by_contra hlow
      rcases (hk i hlt).1 (by omega) with hset | hvalid
      · rw [hfree] at hset
        cases hset
      · exact hi (mem_stale.mpr ⟨hlt, hfree, hvalid⟩)
    have hempty : s'.stale platform = ∅ := by
      rw [Finset.eq_empty_iff_forall_notMem]
      intro j hj
      have hj := Finset.mem_of_mem_erase (hstale hj)
      rw [mem_stale] at hj
      have hjk : j < k := by
        by_contra hge
        exact ((hk j hj.1).2 (by omega)).2 hj.2.2
      have hset := hfirst j (by omega)
      rw [hj.2.1] at hset
      cases hset
    rw [hempty]
    exact Nat.zero_le _

include hstage hmoved hbits hfree in
theorem Covered.allocate {vm : ι} {stream : BitVec 15} (h : s.Covered platform vm stream) :
    s'.Covered platform vm stream := by
  rcases h with ⟨j, hj, hmatches, hvm⟩ | ⟨d, e, he, hcovers⟩
  · refine .inl ⟨j, (settled_allocate_iff hstage hmoved hbits hfree j).mpr hj,
      by rwa [hmoved.entry], ?_⟩
    rwa [hmoved.s2cr, hmoved.bank]
  · by_cases hd : d = c
    · subst hd
      rw [entering_allocSme hstage] at he
      cases he
      exact .inr ⟨d, _, entering_self hmoved.stage, hcovers⟩
    · exact .inr ⟨d, e, by rwa [entering_of_ne hmoved.stage hd], hcovers⟩

end Allocate

/-- The first free entry is allocated. It is a stale one, if there is any. -/
theorem EntryInv.allocate (h : s.EntryInv platform)
    (hstage : s.stage c = .allocSme call ctx cleared)
    (hmoved : Moved s s' c (.writeSme call ctx cleared i))
    (hbits : s'.smeBitmap = bitmapSet s.smeBitmap i)
    (hfind : bitmapFindNth s.smeBitmap platform.smeNum 1 0 false = some i) :
    s'.EntryInv platform := by
  obtain ⟨-, hlt, hfree, hnofree⟩ := bitmapFindNth_one_eq_some hfind
  have hfirst : ∀ j < i, bitmapGet s.smeBitmap j = true := fun j hj =>
    eq_true_of_ne_false (hnofree j (Nat.zero_le j) hj)
  have hnot : ∀ d e, (s.stage d).entering = some e → e.sme ≠ some i := by
    intro d e he hi
    exact absurd (h.held d e i he hi).2 (by rw [hfree]; decide)
  have hsettled := @settled_allocate_iff _ _ platform _ _ _ _ _ _ _ hstage hmoved hbits hfree
  obtain ⟨k, hk⟩ := h.low
  refine ⟨fun d e j he hj => ?_, fun d f e e' j he he' hj hj' => ?_, fun d e j he hj hw => ?_,
    fun j hj => ?_, fun j l hj hl => ?_, fun d e j he hj => ?_, fun d f e e' he he' hmeets => ?_,
    ⟨_, hk.allocate hmoved hbits hfirst⟩,
    card_stale_allocate hmoved hbits hfree hk h.stale_le hlt hfirst, fun g hg stream hstream => ?_⟩
  · obtain ⟨f, hf, -, -, ⟨hsme, -⟩ | ⟨-, hsme, -⟩⟩ := entering_allocate hstage hmoved he
    · have hheld := h.held d f j hf (hsme ▸ hj)
      exact ⟨hheld.1, by rw [bitmapGet_allocate hbits, hheld.2, Bool.true_or]⟩
    · obtain rfl : i = j := Option.some.inj (hsme.symm.trans hj)
      exact ⟨hlt, by rw [bitmapGet_allocate hbits, decide_eq_true rfl, Bool.or_true]⟩
  · obtain ⟨g, hg, -, -, ⟨hsme, -⟩ | ⟨rfl, hsme, -⟩⟩ := entering_allocate hstage hmoved he
    · obtain ⟨g', hg', -, -, ⟨hsme', -⟩ | ⟨rfl, hsme', -⟩⟩ := entering_allocate hstage hmoved he'
      · exact h.heldOnce d f g g' j hg hg' (hsme ▸ hj) (hsme' ▸ hj')
      · obtain rfl : i = j := Option.some.inj (hsme'.symm.trans hj')
        exact absurd (hsme ▸ hj) (hnot d g hg)
    · obtain ⟨g', hg', -, -, ⟨hsme', -⟩ | ⟨rfl, -⟩⟩ := entering_allocate hstage hmoved he'
      · obtain rfl : i = j := Option.some.inj (hsme.symm.trans hj)
        exact absurd (hsme' ▸ hj') (hnot f g' hg')
      · rfl
  · obtain ⟨f, hf, hfcall, -, ⟨hsme, hwritten⟩ | ⟨-, -, hwritten⟩⟩ :=
      entering_allocate hstage hmoved he
    · rw [hmoved.valid_iff, hmoved.entry, ← hfcall]
      exact h.written d f j hf (hsme ▸ hj) (hwritten ▸ hw)
    · rw [hwritten] at hw
      cases hw
  · rw [hmoved.valid_iff]
    exact h.valid j ((hsettled j).mp hj)
  · rw [hmoved.entry, hmoved.entry]
    exact h.apart j l ((hsettled j).mp hj) ((hsettled l).mp hl)
  · obtain ⟨f, hf, hfcall, -⟩ := entering_allocate hstage hmoved he
    rw [hmoved.entry, ← hfcall]
    exact h.apartEntering d f j hf ((hsettled j).mp hj)
  · obtain ⟨g, hg, hgcall, -⟩ := entering_allocate hstage hmoved he
    obtain ⟨g', hg', hgcall', -⟩ := entering_allocate hstage hmoved he'
    rw [← hgcall, ← hgcall'] at hmeets
    exact h.enteringApart d f g g' hg hg' hmeets
  · rw [hmoved.granted] at hg
    exact (h.covered g hg stream hstream).allocate hstage hmoved hbits hfree

/-- Without a free entry a call that has superseded none ends. -/
theorem EntryInv.giveUp (h : s.EntryInv platform) (hstage : s.stage c = .allocSme call ctx 0)
    (hmoved : Moved s s' c .idle) (hbits : s'.smeBitmap = s.smeBitmap) :
    s'.EntryInv platform := by
  have hbefore : (s.stage c).entering = some ⟨call, 0, none, false⟩ := by
    rw [hstage]
    rfl
  have hcall : ∀ d e, (s'.stage d).entering = some e → (s.stage d).entering = some e := by
    intro d e he
    rcases entering_cases hmoved.stage he with ⟨-, heq⟩ | ⟨-, he⟩
    · cases heq
    · exact he
  have hsettled : ∀ j, s'.Settled platform j ↔ s.Settled platform j := by
    intro j
    rw [Settled, Settled, hbits]
    refine and_congr_right fun _ => and_congr_right fun _ => ⟨fun hnone d e he => ?_,
      fun hnone d e he => hnone d e (hcall d e he)⟩
    by_cases hd : d = c
    · subst hd
      rw [hbefore] at he
      cases he
      exact fun heq => nomatch heq
    · exact hnone d e (by rwa [entering_of_ne hmoved.stage hd])
  refine ⟨fun d e j he hj => ?_, fun d f e e' j he he' => ?_, fun d e j he hj hw => ?_,
    fun j hj => ?_, fun j l hj hl => ?_, fun d e j he hj => ?_, fun d f e e' he he' => ?_, ?_, ?_,
    fun g hg stream hstream => ?_⟩
  · rw [hbits]
    exact h.held d e j (hcall d e he) hj
  · exact h.heldOnce d f e e' j (hcall d e he) (hcall f e' he')
  · rw [hmoved.valid_iff, hmoved.entry]
    exact h.written d e j (hcall d e he) hj hw
  · rw [hmoved.valid_iff]
    exact h.valid j ((hsettled j).mp hj)
  · rw [hmoved.entry, hmoved.entry]
    exact h.apart j l ((hsettled j).mp hj) ((hsettled l).mp hl)
  · rw [hmoved.entry]
    exact h.apartEntering d e j (hcall d e he) ((hsettled j).mp hj)
  · exact h.enteringApart d f e e' (hcall d e he) (hcall f e' he')
  · obtain ⟨k, hk⟩ := h.low
    refine ⟨k, fun j hj => ?_⟩
    rw [hbits, hmoved.valid_iff]
    exact hk j hj
  · have hstale : s'.stale platform = s.stale platform := by
      ext j
      rw [mem_stale, mem_stale, hbits, hmoved.valid_iff]
    rw [hstale]
    exact h.stale_le.trans (Finset.card_le_card
      (superseding_subset hmoved.stage (notMem_superseding hbefore (.inr rfl))))
  · rw [hmoved.granted] at hg
    rcases h.covered g hg stream hstream with ⟨j, hj, hmatches, hvm⟩ | ⟨d, e, he, hne, hcovers⟩
    · refine .inl ⟨j, (hsettled j).mpr hj, by rwa [hmoved.entry], ?_⟩
      rwa [hmoved.s2cr, hmoved.bank]
    · have hdc : d ≠ c := by
        rintro rfl
        rw [hbefore] at he
        cases he
        exact hne rfl
      exact .inr ⟨d, e, by rwa [entering_of_ne hmoved.stage hdc], hne, hcovers⟩

/-! ## The allocated entry is written -/

section Write

variable (hstage : s.stage c = .writeSme call ctx cleared i)
  (hstage' : s'.stage = Function.update s.stage c (.writeS2c call ctx cleared i))
  (hsmr : s'.smr = Function.update s.smr i (smrValue (call.prepMask platform) call.prepId))
  (hbits : s'.smeBitmap = s.smeBitmap)

include hstage in
theorem entering_writeSme : (s.stage c).entering = some ⟨call, cleared, some i, false⟩ := by
  rw [hstage]
  rfl

include hsmr in
theorem entry_write_self : s'.Valid i ∧ s'.entry i = call.request platform := by
  obtain ⟨hid, hmask, hvalid⟩ := extract_smrValue (call.prepMask platform) call.prepId
  rw [Valid, entry, hsmr, Function.update_self, hid, hmask]
  exact ⟨hvalid, rfl⟩

include hsmr in
theorem valid_write_iff (hj : j ≠ i) : s'.Valid j ↔ s.Valid j := by
  rw [Valid, Valid, hsmr, Function.update_of_ne hj]

include hsmr in
theorem entry_write_of_ne (hj : j ≠ i) : s'.entry j = s.entry j := by
  rw [entry, entry, hsmr, Function.update_of_ne hj]

include hstage hstage' in
theorem entering_write (he : (s'.stage d).entering = some e) :
    ∃ f, (s.stage d).entering = some f ∧ f.call = e.call ∧ f.cleared = e.cleared ∧
      f.sme = e.sme := by
  rcases entering_cases hstage' he with ⟨rfl, heq⟩ | ⟨-, he⟩
  · cases heq
    exact ⟨_, entering_writeSme hstage, rfl, rfl, rfl⟩
  · exact ⟨e, he, rfl, rfl, rfl⟩

include hstage hstage' in
theorem exists_entering_write (he : (s.stage d).entering = some e) :
    ∃ f, (s'.stage d).entering = some f ∧ f.call = e.call ∧ f.cleared = e.cleared ∧
      f.sme = e.sme := by
  by_cases hd : d = c
  · subst hd
    rw [entering_writeSme hstage] at he
    cases he
    exact ⟨_, entering_self hstage', rfl, rfl, rfl⟩
  · exact ⟨e, by rwa [entering_of_ne hstage' hd], rfl, rfl, rfl⟩

include hstage hstage' hbits in
theorem settled_write_iff (j : ℕ) : s'.Settled platform j ↔ s.Settled platform j := by
  rw [Settled, Settled, hbits]
  refine and_congr_right fun _ => and_congr_right fun _ => ⟨fun hnone d e he => ?_,
    fun hnone d e he => ?_⟩
  · obtain ⟨f, hf, -, -, hsme⟩ := exists_entering_write hstage hstage' he
    exact hsme ▸ hnone d f hf
  · obtain ⟨f, hf, -, -, hsme⟩ := entering_write hstage hstage' he
    exact hsme ▸ hnone d f hf

theorem Settled.ne (h : s.Settled platform j) (he : (s.stage c).entering = some e)
    (hsme : e.sme = some i) : j ≠ i := by
  rintro rfl
  exact h.2.2 c e he hsme

include hsmr hbits in
theorem UsedUpTo.write {k : ℕ} (hk : s.UsedUpTo platform k)
    (hset : bitmapGet s.smeBitmap i = true) : s'.UsedUpTo platform k := by
  intro j hj
  rw [hbits]
  by_cases hji : j = i
  · subst hji
    refine ⟨fun _ => .inl hset, fun hle => ?_⟩
    rw [((hk j hj).2 hle).1] at hset
    cases hset
  · rw [valid_write_iff hsmr hji]
    exact hk j hj

include hsmr hbits in
theorem stale_write (hset : bitmapGet s.smeBitmap i = true) :
    s'.stale platform ⊆ s.stale platform := by
  intro j hj
  rw [mem_stale, hbits] at hj
  have hji : j ≠ i := by
    rintro rfl
    rw [hset] at hj
    cases hj.2.1
  rw [valid_write_iff hsmr hji] at hj
  exact mem_stale.mpr hj

include hstage hstage' hsmr hbits in
theorem Covered.write {vm : ι} {stream : BitVec 15} (h : s.Covered platform vm stream)
    (hs2cr : s'.s2cr = s.s2cr) (hbank : s'.bank = s.bank) : s'.Covered platform vm stream := by
  rcases h with ⟨j, hj, hmatches, hvm⟩ | ⟨d, e, he, hne, hvm, hcovers⟩
  · have hji := hj.ne (entering_writeSme hstage) rfl
    refine .inl ⟨j, (settled_write_iff hstage hstage' hbits j).mpr hj,
      by rwa [entry_write_of_ne hsmr hji], ?_⟩
    rwa [hs2cr, hbank]
  · obtain ⟨f, hf, hfcall, hfcleared, -⟩ := exists_entering_write hstage hstage' he
    refine .inr ⟨d, f, hf, ?_, ?_, ?_⟩
    · rwa [hfcleared]
    · rwa [hfcall]
    · rwa [hfcall]

end Write

/-- The allocated entry gets the request. -/
theorem EntryInv.write (h : s.EntryInv platform)
    (hstage : s.stage c = .writeSme call ctx cleared i)
    (hstage' : s'.stage = Function.update s.stage c (.writeS2c call ctx cleared i))
    (hsmr : s'.smr = Function.update s.smr i (smrValue (call.prepMask platform) call.prepId))
    (hs2cr : s'.s2cr = s.s2cr) (hbank : s'.bank = s.bank) (hgranted : s'.granted = s.granted)
    (hbits : s'.smeBitmap = s.smeBitmap) : s'.EntryInv platform := by
  have hbefore := entering_writeSme hstage
  obtain ⟨-, hset⟩ := h.held c _ i hbefore rfl
  have hsettled := @settled_write_iff _ _ platform _ _ _ _ _ _ _ hstage hstage' hbits
  obtain ⟨k, hk⟩ := h.low
  refine ⟨fun d e j he hj => ?_, fun d f e e' j he he' hj hj' => ?_, fun d e j he hj hw => ?_,
    fun j hj => ?_, fun j l hj hl => ?_, fun d e j he hj => ?_, fun d f e e' he he' hmeets => ?_,
    ⟨k, hk.write hsmr hbits hset⟩, ?_, fun g hg stream hstream => ?_⟩
  · obtain ⟨f, hf, -, -, hsme⟩ := entering_write hstage hstage' he
    rw [hbits]
    exact h.held d f j hf (hsme.trans hj)
  · obtain ⟨g, hg, -, -, hsme⟩ := entering_write hstage hstage' he
    obtain ⟨g', hg', -, -, hsme'⟩ := entering_write hstage hstage' he'
    exact h.heldOnce d f g g' j hg hg' (hsme.trans hj) (hsme'.trans hj')
  · rcases entering_cases hstage' he with ⟨rfl, heq⟩ | ⟨hd, he⟩
    · cases heq
      cases hj
      exact entry_write_self hsmr
    · have hji : j ≠ i := by
        rintro rfl
        exact hd (h.heldOnce d c e _ j he hbefore hj rfl)
      rw [valid_write_iff hsmr hji, entry_write_of_ne hsmr hji]
      exact h.written d e j he hj hw
  · have hj := (hsettled j).mp hj
    rw [valid_write_iff hsmr (hj.ne hbefore rfl)]
    exact h.valid j hj
  · have hj := (hsettled j).mp hj
    have hl := (hsettled l).mp hl
    rw [entry_write_of_ne hsmr (hj.ne hbefore rfl), entry_write_of_ne hsmr (hl.ne hbefore rfl)]
    exact h.apart j l hj hl
  · obtain ⟨f, hf, hfcall, -⟩ := entering_write hstage hstage' he
    have hj := (hsettled j).mp hj
    rw [entry_write_of_ne hsmr (hj.ne hbefore rfl), ← hfcall]
    exact h.apartEntering d f j hf hj
  · obtain ⟨g, hg, hgcall, -⟩ := entering_write hstage hstage' he
    obtain ⟨g', hg', hgcall', -⟩ := entering_write hstage hstage' he'
    rw [← hgcall, ← hgcall'] at hmeets
    exact h.enteringApart d f g g' hg hg' hmeets
  · have hsup := superseding_subset hstage' (notMem_superseding hbefore (.inl nofun))
    exact (Finset.card_le_card (stale_write hsmr hbits hset)).trans
      (h.stale_le.trans (Finset.card_le_card hsup))
  · rw [hgranted] at hg
    exact (h.covered g hg stream hstream).write hstage hstage' hsmr hbits hs2cr hbank

/-! ## The entry is bound -/

section Bind

variable (hstage : s.stage c = .writeS2c call ctx cleared i)
  (hstage' : s'.stage = Function.update s.stage c .idle) (hsmr : s'.smr = s.smr)
  (hbits : s'.smeBitmap = s.smeBitmap)

include hstage in
theorem entering_writeS2c : (s.stage c).entering = some ⟨call, cleared, some i, true⟩ := by
  rw [hstage]
  rfl

include hstage' in
theorem entering_bind (he : (s'.stage d).entering = some e) :
    d ≠ c ∧ (s.stage d).entering = some e := by
  rcases entering_cases hstage' he with ⟨-, heq⟩ | hother
  · cases heq
  · exact hother

include hstage hstage' hbits in
/-- The entry that is bound is settled from now on. -/
theorem settled_bind_iff (h : s.EntryInv platform) (j : ℕ) :
    s'.Settled platform j ↔ j = i ∨ s.Settled platform j := by
  have hbefore := entering_writeS2c hstage
  constructor
  · rintro ⟨hj, hset, hnone⟩
    by_cases hji : j = i
    · exact .inl hji
    · refine .inr ⟨hj, hbits ▸ hset, fun d e he hsme => ?_⟩
      by_cases hd : d = c
      · subst hd
        rw [hbefore] at he
        cases he
        exact hji (Option.some.inj hsme).symm
      · exact hnone d e (by rwa [entering_of_ne hstage' hd]) hsme
  · rintro (rfl | ⟨hj, hset, hnone⟩)
    · obtain ⟨hlt, hset⟩ := h.held c _ j hbefore rfl
      refine ⟨hlt, hbits ▸ hset, fun d e he hsme => ?_⟩
      obtain ⟨hd, he⟩ := entering_bind hstage' he
      exact hd (h.heldOnce d c e _ j he hbefore hsme rfl)
    · exact ⟨hj, hbits ▸ hset, fun d e he => hnone d e (entering_bind hstage' he).2⟩

include hsmr hbits in
theorem stale_bind : s'.stale platform = s.stale platform := by
  ext j
  rw [mem_stale, mem_stale, hbits, valid_congr hsmr]

include hstage hstage' hsmr hbits in
theorem covered_bind (h : s.EntryInv platform) (hctx : s2crCbndx (s'.s2cr i) = ctx)
    (hbank : s'.bank = s.bank) (hvm : s.bank ctx = some call.vm) {stream : BitVec 15}
    (hstream : (call.request platform).Matches stream) : s'.Covered platform call.vm stream := by
  obtain ⟨-, hrequest⟩ := h.written c _ i (entering_writeS2c hstage) rfl rfl
  refine .inl ⟨i, (settled_bind_iff hstage hstage' hbits h i).mpr (.inl rfl),
    by rwa [entry_congr hsmr, hrequest], ?_⟩
  rw [hctx, hbank, hvm]

include hstage hstage' hsmr hbits in
theorem Covered.bind {vm : ι} {stream : BitVec 15} (hcov : s.Covered platform vm stream)
    (h : s.EntryInv platform) (hs2cr : ∀ j, j ≠ i → s'.s2cr j = s.s2cr j)
    (hctx : s2crCbndx (s'.s2cr i) = ctx) (hbank : s'.bank = s.bank)
    (hvm : s.bank ctx = some call.vm) : s'.Covered platform vm stream := by
  have hbefore := entering_writeS2c hstage
  rcases hcov with ⟨j, hj, hmatches, hbound⟩ | ⟨d, e, he, hcleared, hevm, hcovers⟩
  · refine .inl ⟨j, (settled_bind_iff hstage hstage' hbits h j).mpr (.inr hj),
      by rwa [entry_congr hsmr], ?_⟩
    rwa [hs2cr j (hj.ne hbefore rfl), hbank]
  · by_cases hd : d = c
    · subst hd
      rw [hbefore] at he
      cases he
      rw [← hevm]
      exact covered_bind hstage hstage' hsmr hbits h hctx hbank hvm hcovers
    · exact .inr ⟨d, e, by rwa [entering_of_ne hstage' hd], hcleared, hevm, hcovers⟩

end Bind

/-- The entry is bound to the context bank of the VM, and the call is granted. -/
theorem EntryInv.bind (h : s.EntryInv platform)
    (hstage : s.stage c = .writeS2c call ctx cleared i)
    (hstage' : s'.stage = Function.update s.stage c .idle) (hsmr : s'.smr = s.smr)
    (hs2cr : ∀ j, j ≠ i → s'.s2cr j = s.s2cr j) (hctx : s2crCbndx (s'.s2cr i) = ctx)
    (hbank : s'.bank = s.bank) (hvm : s.bank ctx = some call.vm)
    (hgranted : s'.granted = s.granted ++ [call]) (hbits : s'.smeBitmap = s.smeBitmap) :
    s'.EntryInv platform := by
  have hbefore := entering_writeS2c hstage
  obtain ⟨hvalid, hrequest⟩ := h.written c _ i hbefore rfl rfl
  have hsettled := settled_bind_iff hstage hstage' hbits h
  refine ⟨fun d e j he hj => ?_, fun d f e e' j he he' => ?_, fun d e j he hj hw => ?_,
    fun j hj => ?_, fun j l hj hl hmeets => ?_, fun d e j he hj => ?_, fun d f e e' he he' => ?_,
    ?_, ?_, fun g hg stream hstream => ?_⟩
  · rw [hbits]
    exact h.held d e j (entering_bind hstage' he).2 hj
  · exact h.heldOnce d f e e' j (entering_bind hstage' he).2 (entering_bind hstage' he').2
  · rw [valid_congr hsmr, entry_congr hsmr]
    exact h.written d e j (entering_bind hstage' he).2 hj hw
  · rw [valid_congr hsmr]
    rcases (hsettled j).mp hj with rfl | hj
    · exact hvalid
    · exact h.valid j hj
  · rw [entry_congr hsmr, entry_congr hsmr] at hmeets
    rcases (hsettled j).mp hj with rfl | hj
    · rcases (hsettled l).mp hl with rfl | hl
      · rfl
      · rw [hrequest] at hmeets
        exact absurd hmeets.symm (h.apartEntering c _ l hbefore hl)
    · rcases (hsettled l).mp hl with rfl | hl
      · rw [hrequest] at hmeets
        exact absurd hmeets (h.apartEntering c _ j hbefore hj)
      · exact h.apart j l hj hl hmeets
  · rw [entry_congr hsmr]
    obtain ⟨hd, he⟩ := entering_bind hstage' he
    rcases (hsettled j).mp hj with rfl | hj
    · rw [hrequest]
      exact fun hmeets => hd (h.enteringApart c d _ e hbefore he hmeets).symm
    · exact h.apartEntering d e j he hj
  · exact h.enteringApart d f e e' (entering_bind hstage' he).2 (entering_bind hstage' he').2
  · obtain ⟨k, hk⟩ := h.low
    refine ⟨k, fun j hj => ?_⟩
    rw [hbits, valid_congr hsmr]
    exact hk j hj
  · rw [stale_bind hsmr hbits]
    exact h.stale_le.trans (Finset.card_le_card
      (superseding_subset hstage' (notMem_superseding hbefore (.inl nofun))))
  · rw [hgranted, List.mem_append, List.mem_singleton] at hg
    rcases hg with hg | rfl
    · exact (h.covered g hg stream hstream).bind hstage hstage' hsmr hbits h hs2cr hctx hbank hvm
    · exact covered_bind hstage hstage' hsmr hbits h hctx hbank hvm hstream

end SmmuState

end BaoHypervisor
