import BaoHypervisor.Arch.Armv8.Smmu.Isolation

/-!
# Runs of the SMMU driver

Several CPUs add devices and groups for their VMs, and their critical sections interleave in
any order. When every request is checked as `Orderly` says and no `ERROR` is raised, the
streams are isolated once all calls have returned.
-/

namespace BaoHypervisor

open Bitmap

/-- The call and the context bank that it has found for its VM. -/
def AddStage.context {ι : Type*} : AddStage ι → Option (AddCall ι × ℕ)
  | .compatible call ctx | .allocSme call ctx _ | .writeSme call ctx _ _
  | .writeS2c call ctx _ _ => some (call, ctx)
  | .idle | .allocCtxbnk _ | .writeCtxbnk _ _ => none

namespace SmmuState

variable {ι : Type*} {cpuNum : ℕ}

/-- What holds of the context banks: those that are written belong to one VM, and a bank that
has just been allocated is not written yet. -/
structure ContextInv (platform : SmmuPlatform ι) (s : SmmuState ι cpuNum) : Prop where
  allocated : ∀ ctx vm, s.bank ctx = some vm →
    ctx < platform.ctxNum ∧ bitmapGet s.ctxbankBitmap ctx = true
  ids : ∀ vm ctx, s.ctxId vm = some ctx → s.bank ctx = some vm
  bound : ∀ c call ctx, (s.stage c).context = some (call, ctx) → s.bank ctx = some call.vm
  fresh : ∀ c call ctx, s.stage c = .writeCtxbnk call ctx →
    s.bank ctx = none ∧ ctx < platform.ctxNum ∧ bitmapGet s.ctxbankBitmap ctx = true
  freshOnce : ∀ c d call call' ctx, s.stage c = .writeCtxbnk call ctx →
    s.stage d = .writeCtxbnk call' ctx → c = d

variable {platform : SmmuPlatform ι} {s s' : SmmuState ι cpuNum} {c d : Fin cpuNum}
  {call : AddCall ι} {ctx : ℕ} {stage : AddStage ι}

theorem stage_cases (hstage : s'.stage = Function.update s.stage c stage) (d : Fin cpuNum) :
    d = c ∧ s'.stage d = stage ∨ d ≠ c ∧ s'.stage d = s.stage d := by
  rw [hstage]
  by_cases hd : d = c
  · subst hd
    exact .inl ⟨rfl, Function.update_self d _ _⟩
  · exact .inr ⟨hd, Function.update_of_ne hd _ _⟩

/-- A CPU goes to a stage with a context bank of its VM, or without one. -/
theorem ContextInv.setStage (h : s.ContextInv platform)
    (hstage : s'.stage = Function.update s.stage c stage) (hbank : s'.bank = s.bank)
    (hids : s'.ctxId = s.ctxId) (hbits : s'.ctxbankBitmap = s.ctxbankBitmap)
    (hbound : ∀ call ctx, stage.context = some (call, ctx) → s.bank ctx = some call.vm)
    (hnot : ∀ call ctx, stage ≠ .writeCtxbnk call ctx) : s'.ContextInv platform := by
  have hfresh : ∀ d call ctx, s'.stage d = .writeCtxbnk call ctx →
      s.stage d = .writeCtxbnk call ctx := by
    intro d call ctx hd
    rcases stage_cases hstage d with ⟨-, heq⟩ | ⟨-, heq⟩
    · exact absurd (heq.symm.trans hd) (hnot call ctx)
    · exact heq.symm.trans hd
  refine ⟨fun ctx vm hvm => ?_, fun vm ctx hctx => ?_, fun d call ctx hd => ?_,
    fun d call ctx hd => ?_, fun d f call call' ctx hd hf => ?_⟩
  · rw [hbank] at hvm
    rw [hbits]
    exact h.allocated ctx vm hvm
  · rw [hids] at hctx
    rw [hbank]
    exact h.ids vm ctx hctx
  · rw [hbank]
    rcases stage_cases hstage d with ⟨-, heq⟩ | ⟨-, heq⟩
    · exact hbound call ctx (heq ▸ hd)
    · exact h.bound d call ctx (heq ▸ hd)
  · rw [hbank, hbits]
    exact h.fresh d call ctx (hfresh d call ctx hd)
  · exact h.freshOnce d f call call' ctx (hfresh d call ctx hd) (hfresh f call' ctx hf)

/-- A context bank is allocated. -/
theorem ContextInv.allocCtxbnk (h : s.ContextInv platform)
    (hfind : bitmapFindNth s.ctxbankBitmap platform.ctxNum 1 0 false = some ctx)
    (hstage : s'.stage = Function.update s.stage c (.writeCtxbnk call ctx))
    (hbank : s'.bank = s.bank) (hids : s'.ctxId = s.ctxId)
    (hbits : s'.ctxbankBitmap = bitmapSet s.ctxbankBitmap ctx) : s'.ContextInv platform := by
  obtain ⟨-, hlt, hfree, -⟩ := bitmapFindNth_one_eq_some hfind
  have hget : ∀ j, bitmapGet s'.ctxbankBitmap j =
      (bitmapGet s.ctxbankBitmap j || decide (j = ctx)) := fun j => by
    rw [hbits, bitmapGet_bitmapSet]
  have hnone : s.bank ctx = none := by
    cases hvm : s.bank ctx with
    | none => rfl
    | some vm =>
        have hset := (h.allocated ctx vm hvm).2
        rw [hfree] at hset
        cases hset
  have hold : ∀ d call', s.stage d ≠ .writeCtxbnk call' ctx := by
    intro d call' hd
    have hset := (h.fresh d call' ctx hd).2.2
    rw [hfree] at hset
    cases hset
  refine ⟨fun ctx' vm hvm => ?_, fun vm ctx' hctx => ?_, fun d call' ctx' hd => ?_,
    fun d call' ctx' hd => ?_, fun d f call' call'' ctx' hd hf => ?_⟩
  · rw [hbank] at hvm
    obtain ⟨hctx', hset⟩ := h.allocated ctx' vm hvm
    exact ⟨hctx', by rw [hget, hset, Bool.true_or]⟩
  · rw [hids] at hctx
    rw [hbank]
    exact h.ids vm ctx' hctx
  · rw [hbank]
    rcases stage_cases hstage d with ⟨-, heq⟩ | ⟨-, heq⟩
    · rw [heq] at hd
      cases hd
    · exact h.bound d call' ctx' (heq ▸ hd)
  · rw [hbank, hget]
    rcases stage_cases hstage d with ⟨-, heq⟩ | ⟨-, heq⟩
    · cases heq.symm.trans hd
      exact ⟨hnone, hlt, by rw [decide_eq_true rfl, Bool.or_true]⟩
    · obtain ⟨hbank', hlt', hset⟩ := h.fresh d call' ctx' (heq ▸ hd)
      exact ⟨hbank', hlt', by rw [hset, Bool.true_or]⟩
  · rcases stage_cases hstage d with ⟨rfl, heq⟩ | ⟨-, heq⟩
    · rcases stage_cases hstage f with ⟨rfl, -⟩ | ⟨-, heq'⟩
      · rfl
      · cases heq.symm.trans hd
        exact absurd (heq'.symm.trans hf) (hold f call'')
    · rcases stage_cases hstage f with ⟨rfl, heq'⟩ | ⟨-, heq'⟩
      · cases heq'.symm.trans hf
        exact absurd (heq.symm.trans hd) (hold d call')
      · exact h.freshOnce d f call' call'' ctx' (heq.symm.trans hd) (heq'.symm.trans hf)

/-- What holds between the critical sections of runs without an `ERROR`. -/
structure Inv (platform : SmmuPlatform ι) (s : SmmuState ι cpuNum) : Prop where
  entries : s.EntryInv platform
  contexts : s.ContextInv platform

theorem pending_of_entering {stage : AddStage ι} {e : Entering ι} (h : stage.entering = some e) :
    stage.pending = some e.call ∧ stage.held = e.sme := by
  cases stage <;> cases h <;> exact ⟨rfl, rfl⟩

theorem entering_update (hnone : (s.stage c).entering = none) (hnone' : stage.entering = none)
    (d : Fin cpuNum) : (Function.update s.stage c stage d).entering = (s.stage d).entering := by
  by_cases hd : d = c
  · subst hd
    rw [Function.update_self, hnone, hnone']
  · rw [Function.update_of_ne hd]

/-- A call starts. -/
theorem Inv.add (h : s.Inv platform) (c : Fin cpuNum) (call : AddCall ι) :
    (s.add c call).Inv platform := by
  rw [SmmuState.add]
  split
  · rename_i ctx hidle hctx
    have hnone : (s.stage c).entering = none := by rw [hidle]; rfl
    refine ⟨h.entries.congr rfl rfl (fun _ => rfl) (entering_update hnone rfl)
      (fun _ _ hvm => hvm) fun _ hg => .inl hg,
      h.contexts.setStage rfl rfl rfl rfl ?_ fun _ _ heq => nomatch heq⟩
    rintro call' ctx' hcontext
    cases hcontext
    exact h.contexts.ids call.vm ctx hctx
  · rename_i hidle hctx
    have hnone : (s.stage c).entering = none := by rw [hidle]; rfl
    exact ⟨h.entries.congr rfl rfl (fun _ => rfl) (entering_update hnone rfl)
      (fun _ _ hvm => hvm) fun _ hg => .inl hg, h.contexts.setStage rfl rfl rfl rfl
        (fun _ _ heq => nomatch heq) fun _ _ heq => nomatch heq⟩
  · exact h

theorem inv_start (platform : SmmuPlatform ι) (s2cr : ℕ → BitVec 32) :
    (start s2cr : SmmuState ι cpuNum).Inv platform := by
  have hclear : ∀ i, bitmapGet (fun _ => 0#32) i = false := by
    intro i
    rw [bitmapGet_eq_getLsbD, BitVec.getLsbD_zero]
  have hsettled : ∀ i, ¬ (start s2cr : SmmuState ι cpuNum).Settled platform i := by
    rintro i ⟨-, hset, -⟩
    exact absurd (hset.symm.trans (hclear i)) (by decide)
  refine ⟨⟨fun _ _ _ he => (nomatch he), fun _ _ _ _ _ he => (nomatch he),
    fun _ _ _ he => (nomatch he), fun i hi => absurd hi (hsettled i),
    fun i _ hi => absurd hi (hsettled i), fun _ _ _ he => (nomatch he),
    fun _ _ _ _ he => (nomatch he), ⟨0, fun i _ => ⟨fun hlt => absurd hlt (Nat.not_lt_zero i),
    fun _ => ⟨hclear i, ?_⟩⟩⟩, ?_, fun _ hg => (nomatch hg)⟩,
    ⟨fun _ _ hvm => (nomatch hvm), fun _ _ hctx => (nomatch hctx),
    fun _ _ _ hcontext => (nomatch hcontext), fun _ _ _ hstage => (nomatch hstage),
    fun _ _ _ _ _ hstage => (nomatch hstage)⟩⟩
  · rw [Valid, start]
    simp
  · have hempty : (start s2cr : SmmuState ι cpuNum).stale platform = ∅ := by
      rw [Finset.eq_empty_iff_forall_notMem]
      intro i hi
      rw [mem_stale, Valid, start] at hi
      simp at hi
    rw [hempty]
    exact Nat.zero_le _

/-- Without calls on their way, every entry that is valid is settled. -/
theorem Inv.isolated (h : s.Inv platform) (hquiet : s.Quiet) : s.Isolated platform := by
  have hnone : ∀ c, (s.stage c).entering = none := fun c => by rw [hquiet c]; rfl
  have hsettled : ∀ i, i < platform.smeNum → s.Valid i → s.Settled platform i := by
    intro i hlt hvalid
    refine ⟨hlt, ?_, fun c e he => ?_⟩
    · by_contra hclear
      rw [Bool.not_eq_true] at hclear
      have hpos := Finset.card_pos.mpr ⟨i, mem_stale.mpr ⟨hlt, hclear, hvalid⟩⟩
      have hzero : s.superseding = ∅ := by
        rw [Finset.eq_empty_iff_forall_notMem]
        intro c hc
        rw [mem_superseding, hnone c] at hc
        obtain ⟨e, he, -⟩ := hc
        cases he
      have hle := h.entries.stale_le
      rw [hzero, Finset.card_empty] at hle
      omega
    · rw [hnone c] at he
      cases he
  have hunique : ∀ stream i j, s.Matches platform i stream → s.Matches platform j stream →
      i = j := by
    rintro stream i j ⟨hi, hvi, hmi⟩ ⟨hj, hvj, hmj⟩
    exact h.entries.apart i j (hsettled i hi hvi) (hsettled j hj hvj) (hmi.meets hmj)
  have hcovered : ∀ call ∈ s.granted, ∀ stream, (call.request platform).Matches stream →
      ∃ sme, s.Matches platform sme stream ∧ s.bank (s2crCbndx (s.s2cr sme)) = some call.vm := by
    intro call hcall stream hstream
    rcases h.entries.covered call hcall stream hstream with ⟨i, hi, hmatches, hvm⟩ | ⟨c, e, he, -⟩
    · exact ⟨i, ⟨hi.1, h.entries.valid i hi, hmatches⟩, hvm⟩
    · rw [hnone c] at he
      cases he
  refine ⟨hunique, fun call hcall stream hstream => ?_,
    fun call hcall stream sme hstream hmatches => ?_⟩
  · obtain ⟨sme, hmatches, -⟩ := hcovered call hcall stream hstream
    exact ⟨sme, hmatches⟩
  · obtain ⟨sme', hmatches', hvm⟩ := hcovered call hcall stream hstream
    rwa [hunique stream sme sme' hmatches hmatches']

variable [DecidableEq ι]

/-- The allocated bank is written for the VM. -/
theorem ContextInv.writeCtxbnk (h : s.ContextInv platform)
    (hbefore : s.stage c = .writeCtxbnk call ctx)
    (hstage : s'.stage = Function.update s.stage c (.compatible call ctx))
    (hbank : s'.bank = Function.update s.bank ctx (some call.vm))
    (hids : s'.ctxId = Function.update s.ctxId call.vm (some ctx))
    (hbits : s'.ctxbankBitmap = s.ctxbankBitmap) :
    s'.ContextInv platform ∧ ∀ ctx' vm, s.bank ctx' = some vm → s'.bank ctx' = some vm := by
  obtain ⟨hnone, hlt, hset⟩ := h.fresh c call ctx hbefore
  have hself : s'.bank ctx = some call.vm := by rw [hbank, Function.update_self]
  have hkeep : ∀ ctx' vm, s.bank ctx' = some vm → s'.bank ctx' = some vm := by
    intro ctx' vm hvm
    have hne : ctx' ≠ ctx := by
      rintro rfl
      rw [hnone] at hvm
      cases hvm
    rwa [hbank, Function.update_of_ne hne]
  have hold : ∀ d call' ctx', s'.stage d = .writeCtxbnk call' ctx' →
      d ≠ c ∧ s.stage d = .writeCtxbnk call' ctx' := by
    intro d call' ctx' hd
    rcases stage_cases hstage d with ⟨-, heq⟩ | ⟨hne, heq⟩
    · rw [heq] at hd
      cases hd
    · exact ⟨hne, heq.symm.trans hd⟩
  refine ⟨⟨fun ctx' vm hvm => ?_, fun vm ctx' hctx => ?_, fun d call' ctx' hd => ?_,
    fun d call' ctx' hd => ?_, fun d f call' call'' ctx' hd hf => ?_⟩, hkeep⟩
  · rw [hbits]
    by_cases hne : ctx' = ctx
    · subst hne
      exact ⟨hlt, hset⟩
    · rw [hbank, Function.update_of_ne hne] at hvm
      exact h.allocated ctx' vm hvm
  · by_cases hvm : vm = call.vm
    · subst hvm
      rw [hids, Function.update_self] at hctx
      cases hctx
      exact hself
    · rw [hids, Function.update_of_ne hvm] at hctx
      exact hkeep ctx' vm (h.ids vm ctx' hctx)
  · rcases stage_cases hstage d with ⟨-, heq⟩ | ⟨-, heq⟩
    · rw [heq] at hd
      cases hd
      exact hself
    · exact hkeep ctx' call'.vm (h.bound d call' ctx' (heq ▸ hd))
  · obtain ⟨hd, hd'⟩ := hold d call' ctx' hd
    obtain ⟨hnone', hlt', hset'⟩ := h.fresh d call' ctx' hd'
    have hne : ctx' ≠ ctx := by
      rintro rfl
      exact hd (h.freshOnce d c call' call ctx' hd' hbefore)
    rw [hbank, Function.update_of_ne hne, hbits]
    exact ⟨hnone', hlt', hset'⟩
  · exact h.freshOnce d f call' call'' ctx' (hold d call' ctx' hd).2 (hold f call'' ctx' hf).2

/-- A request is checked. -/
theorem Inv.compatible (h : s.Inv platform) (hstage : s.stage c = .compatible call ctx)
    (horderly : s.Orderly platform (.advance c))
    (herror : (s.advance platform c).error = false) : (s.advance platform c).Inv platform := by
  rw [Orderly, hstage, OrderlyStage] at horderly
  obtain ⟨hpending, hheld, hone⟩ := horderly
  have hnone : (s.stage c).entering = none := by rw [hstage]; rfl
  have hbank : s.bank ctx = some call.vm := h.contexts.bound c call ctx (by rw [hstage]; rfl)
  rw [advance, hstage] at herror ⊢
  dsimp only at herror ⊢
  cases hresult : s.smmuCompatibleSmeExists platform (call.prepMask platform) call.prepId ctx
      call.group with
  | none =>
      rw [hresult] at herror
      cases herror
  | some result =>
      obtain ⟨included, bitmap⟩ := result
      have hchecked := checked_of_compatibleLoop hresult
      rw [Nat.zero_add] at hchecked
      cases included with
      | true =>
          -- The entry that has the request is the only one that meets it.
          obtain ⟨i, hlt, hset, hmeets, hcontained, hctx⟩ := hchecked.found rfl
          have hset' := hchecked.mono i hset
          have hbits : ∀ j, bitmapGet bitmap j = bitmapGet s.smeBitmap j := by
            intro j
            rw [Bool.eq_iff_iff]
            refine ⟨hchecked.mono j, fun hj => ?_⟩
            by_contra hclear
            rw [Bool.not_eq_true] at hclear
            obtain ⟨-, hjlt, hjmeets, -⟩ := hchecked.cleared j hj hclear
            have hji := hone j hjlt i hlt ⟨hj, hset', hjmeets, hmeets⟩
            rw [hji, hset] at hclear
            cases hclear
          have hsettled : s.Settled platform i := by
            refine ⟨hlt, hset', fun d e he hsme => ?_⟩
            exact hheld d i ((pending_of_entering he).2.trans hsme) hmeets
          refine ⟨h.entries.congr rfl rfl hbits (entering_update hnone rfl) (fun _ _ hvm => hvm)
            fun g hg => ?_, h.contexts.setStage rfl rfl rfl rfl (fun _ _ heq => nomatch heq)
            fun _ _ heq => nomatch heq⟩
          rcases List.mem_append.mp hg with hg | hg
          · exact .inl hg
          · cases List.mem_singleton.mp hg
            refine .inr fun stream hstream => .inl ⟨i, hsettled, hcontained stream hstream, ?_⟩
            rw [← hctx, hbank]
      | false =>
          refine ⟨h.entries.enter hnone ⟨rfl, rfl, rfl, rfl, rfl⟩
            (fun i hlt hset hclear => clearedNum_ne_zero hlt hset hclear) hchecked
            (fun d e he => hpending d e.call (pending_of_entering he).1)
            (fun d e i he hsme => hheld d i ((pending_of_entering he).2.trans hsme))
            (fun i j hi hj hset hset' hmeets hmeets' =>
              hone i hi j hj ⟨hset, hset', hmeets, hmeets'⟩)
            hbank,
            h.contexts.setStage rfl rfl rfl rfl ?_ fun _ _ heq => nomatch heq⟩
          rintro call' ctx' hcontext
          cases hcontext
          exact hbank

/-- A CPU goes through its next critical section. -/
theorem Inv.advance (h : s.Inv platform) (c : Fin cpuNum)
    (horderly : s.Orderly platform (.advance c))
    (herror : (s.advance platform c).error = false) : (s.advance platform c).Inv platform := by
  cases hstage : s.stage c with
  | idle =>
      rw [SmmuState.advance, hstage]
      exact h
  | allocCtxbnk call =>
      have hnone : (s.stage c).entering = none := by rw [hstage]; rfl
      rw [SmmuState.advance, hstage]
      dsimp only
      split
      · rename_i ctx hfind
        exact ⟨h.entries.congr rfl rfl (fun _ => rfl) (entering_update hnone rfl)
          (fun _ _ hvm => hvm) fun _ hg => .inl hg, h.contexts.allocCtxbnk hfind rfl rfl rfl rfl⟩
      · exact ⟨h.entries.congr rfl rfl (fun _ => rfl) (entering_update hnone rfl)
          (fun _ _ hvm => hvm) fun _ hg => .inl hg, h.contexts.setStage rfl rfl rfl rfl
            (fun _ _ heq => nomatch heq) fun _ _ heq => nomatch heq⟩
  | writeCtxbnk call ctx =>
      have hset := (h.contexts.fresh c call ctx hstage).2.2
      rw [SmmuState.advance, hstage]
      dsimp only
      rw [if_neg (by rw [hset]; decide)]
      let s' : SmmuState ι cpuNum := { s.setStage c (.compatible call ctx) with
        bank := Function.update s.bank ctx (some call.vm)
        ctxId := Function.update s.ctxId call.vm (some ctx) }
      have hstage' : s'.stage = Function.update s.stage c (.compatible call ctx) := rfl
      obtain ⟨hcontexts, hkeep⟩ := h.contexts.writeCtxbnk hstage hstage' rfl rfl rfl
      have hnone : (s.stage c).entering = none := by rw [hstage]; rfl
      exact ⟨h.entries.congr rfl rfl (fun _ => rfl) (entering_update hnone rfl) hkeep
        fun _ hg => .inl hg, hcontexts⟩
  | compatible call ctx => exact h.compatible hstage horderly herror
  | allocSme call ctx cleared =>
      have hbank : s.bank ctx = some call.vm := h.contexts.bound c call ctx (by rw [hstage]; rfl)
      rw [Orderly, hstage, OrderlyStage] at horderly
      rw [SmmuState.advance, hstage]
      dsimp only
      split
      · rename_i sme hfind
        refine ⟨h.entries.allocate hstage ⟨rfl, rfl, rfl, rfl, rfl⟩ rfl hfind,
          h.contexts.setStage rfl rfl rfl rfl ?_ fun _ _ heq => nomatch heq⟩
        rintro call' ctx' hcontext
        cases hcontext
        exact hbank
      · rename_i hfind
        obtain rfl : cleared = 0 := by
          by_contra hne
          exact horderly hne hfind
        exact ⟨h.entries.giveUp hstage ⟨rfl, rfl, rfl, rfl, rfl⟩ rfl,
          h.contexts.setStage rfl rfl rfl rfl (fun _ _ heq => nomatch heq)
            fun _ _ heq => nomatch heq⟩
  | writeSme call ctx cleared sme =>
      have hbank : s.bank ctx = some call.vm := h.contexts.bound c call ctx (by rw [hstage]; rfl)
      have hset := (h.entries.held c _ sme (by rw [hstage]; rfl) rfl).2
      rw [SmmuState.advance, hstage]
      dsimp only
      rw [if_neg (by rw [hset]; decide)]
      refine ⟨h.entries.write hstage rfl rfl rfl rfl rfl rfl,
        h.contexts.setStage rfl rfl rfl rfl ?_ fun _ _ heq => nomatch heq⟩
      rintro call' ctx' hcontext
      cases hcontext
      exact hbank
  | writeS2c call ctx cleared sme =>
      have hbank : s.bank ctx = some call.vm := h.contexts.bound c call ctx (by rw [hstage]; rfl)
      have hset := (h.entries.held c _ sme (by rw [hstage]; rfl) rfl).2
      obtain ⟨hctx, hset'⟩ := h.contexts.allocated ctx call.vm hbank
      rw [SmmuState.advance, hstage]
      dsimp only
      rw [if_neg (by rw [hset, hset']; decide)]
      have hlt : ctx < 128 := hctx.trans_le platform.ctxNum_le
      have hcbndx : s2crCbndx (Function.update s.s2cr sme (s2crValue (s.s2cr sme) ctx) sme) =
          ctx := by
        rw [Function.update_self, s2crCbndx_s2crValue _ hlt]
      exact ⟨h.entries.bind hstage rfl rfl (fun j hj => Function.update_of_ne hj _ _) hcbndx rfl
        hbank rfl rfl, h.contexts.setStage rfl rfl rfl rfl (fun _ _ heq => nomatch heq)
          fun _ _ heq => nomatch heq⟩

/-- A step keeps the invariant unless it raises an `ERROR`, after which nothing happens. -/
theorem Inv.step (h : s.error = false → s.Inv platform) {act : SmmuAct ι cpuNum}
    (horderly : s.Orderly platform act) (herror : (s.step platform act).error = false) :
    (s.step platform act).Inv platform := by
  cases hs : s.error with
  | true =>
      have hsame : s.step platform act = s := by
        cases act <;> rw [SmmuState.step, if_pos hs]
      rw [hsame, hs] at herror
      cases herror
  | false =>
      have hnot : ¬ s.error = true := by rw [hs]; decide
      cases act with
      | add c call =>
          rw [SmmuState.step, if_neg hnot]
          exact (h hs).add c call
      | advance c =>
          rw [SmmuState.step, if_neg hnot] at herror ⊢
          exact (h hs).advance c horderly herror

/-- In a run whose requests are checked as `Orderly` says, without an `ERROR`, the streams are
isolated once all calls have returned. -/
theorem isolated_of_orderly (platform : SmmuPlatform ι) (s2cr : ℕ → BitVec 32)
    (acts : List (SmmuAct ι cpuNum))
    (horderly : Run.Along (step platform) (Orderly platform) (start s2cr) acts)
    (herror : (Run.exec (step platform) (start s2cr) acts).error = false)
    (hquiet : (Run.exec (step platform) (start s2cr) acts).Quiet) :
    (Run.exec (step platform) (start s2cr) acts).Isolated platform := by
  have hinv : (Run.exec (step platform) (start s2cr) acts).error = false →
      (Run.exec (step platform) (start s2cr) acts).Inv platform :=
    horderly.exec_invariant (I := fun s => s.error = false → s.Inv platform)
      (fun _ => inv_start platform s2cr) fun s act hs hact herr => Inv.step hs hact herr
  exact (hinv herror).isolated hquiet

section Runs

instance (s : SmmuState ι cpuNum) : DecidablePred (s.OrderlyStage platform)
  | .compatible call _ => inferInstanceAs (Decidable
      ((∀ d, ∀ other ∈ (s.stage d).pending,
          ¬ (other.request platform).Meets (call.request platform)) ∧
        (∀ d, ∀ sme ∈ (s.stage d).held, ¬ (s.entry sme).Meets (call.request platform)) ∧
        ∀ i < platform.smeNum, ∀ j < platform.smeNum, bitmapGet s.smeBitmap i = true ∧
          bitmapGet s.smeBitmap j = true ∧ (s.entry i).Meets (call.request platform) ∧
          (s.entry j).Meets (call.request platform) → i = j))
  | .allocSme _ _ cleared => inferInstanceAs (Decidable
      (cleared ≠ 0 → bitmapFindNth s.smeBitmap platform.smeNum 1 0 false ≠ none))
  | .idle | .allocCtxbnk _ | .writeCtxbnk _ _ | .writeSme _ _ _ _ | .writeS2c _ _ _ _ =>
      isTrue trivial

instance (s : SmmuState ι cpuNum) : DecidablePred (s.Orderly platform)
  | .add _ _ => isTrue trivial
  | .advance c => inferInstanceAs (Decidable (s.OrderlyStage platform (s.stage c)))

instance (s : SmmuState ι cpuNum) : Decidable s.Quiet :=
  inferInstanceAs (Decidable (∀ c, s.stage c = .idle))

instance (s : SmmuState ι cpuNum) (sme : ℕ) : Decidable (s.Valid sme) :=
  inferInstanceAs (Decidable (_ = _))

/-- An SMMU with four stream match registers and two context banks, for two VMs. -/
def smallSmmu : SmmuPlatform (Fin 2) where
  smeNum := 4
  ctxNum := 2
  globalMask _ := 0#32
  smeNum_le := by decide
  ctxNum_le := by decide

def firstAdd (c : Fin cpuNum) (call : AddCall (Fin 2)) : List (SmmuAct (Fin 2) cpuNum) :=
  .add c call :: List.replicate 6 (.advance c)

def laterAdd (c : Fin cpuNum) (call : AddCall (Fin 2)) : List (SmmuAct (Fin 2) cpuNum) :=
  .add c call :: List.replicate 4 (.advance c)

/-- Two VMs add a group each, and one of them adds a group that has its first. -/
theorem isolated_groups :
    (Run.exec (step smallSmmu) (start fun _ => 0#32 : SmmuState (Fin 2) 2)
      (firstAdd 0 ⟨0, 1#32, 0#32⟩ ++ firstAdd 1 ⟨1, 1#32, 8#32⟩ ++
        laterAdd 0 ⟨0, 3#32, 0#32⟩)).Isolated smallSmmu :=
  isolated_of_orderly smallSmmu _ _ (by decide +kernel) (by decide +kernel) (by decide +kernel)

def groupsRun (c : Fin 1) (vm : Fin 2) : List (SmmuAct (Fin 2) 1) :=
  firstAdd c ⟨vm, 1#32, 0#32⟩ ++ laterAdd c ⟨vm, 1#32, 2#32⟩ ++ laterAdd c ⟨vm, 3#32, 0#32⟩

/-- The entry of the second group is still valid, so two registers match its streams. -/
theorem not_isolated_groupsRun :
    (Run.exec (step smallSmmu) (start fun _ => 0#32) (groupsRun 0 0)).error = false ∧
      (Run.exec (step smallSmmu) (start fun _ => 0#32) (groupsRun 0 0)).Quiet ∧
      ¬ (Run.exec (step smallSmmu) (start fun _ => 0#32) (groupsRun 0 0)).Isolated smallSmmu := by
  refine ⟨by decide +kernel, by decide +kernel, fun h => ?_⟩
  have hunique := h.unique 2#15 0 1 ⟨by decide, by decide +kernel, by decide +kernel⟩
    ⟨by decide, by decide +kernel, by decide +kernel⟩
  cases hunique

end Runs

end SmmuState

end BaoHypervisor
