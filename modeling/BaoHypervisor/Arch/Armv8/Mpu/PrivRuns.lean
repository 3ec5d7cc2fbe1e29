import BaoHypervisor.Arch.Armv8.Mpu.PrivView

/-!
# Runs of calls on the MPU of Armv8-R and what they have mapped

After `mpu_init` the hypervisor has the entries that the MPU started with, and the guest has
nothing. A history is what each privilege has mapped by the calls that have returned since then
(`MpuHistory`). In a run of calls that fit the entries the MPU shows each privilege its history.
-/

namespace BaoHypervisor

namespace Armv8Mpu

variable {n : ℕ} {m : Armv8Mpu n} {priv : Priv} {mpr : MpRegion} {fuel : ℕ}

theorem mpuUnmap_cases (h : m.Sound) (hmpr : mpr.WellFormed) (hlimit : mpr.limit < 2 ^ 64)
    (hfits : m.UnmapFits priv mpr) (hfuel : n < fuel) :
    ∃ ok m', m.mpuUnmap fuel priv mpr = some (ok, m') ∧ m'.Sound ∧
      ∀ p, m'.covered p = m.covered p \ {a | mpr.Covers a ∧ p.Same priv} := by
  refine MpuUnmap.loop_spec (s := .start m mpr) h hmpr hlimit hfits ?_ ?_
  · have hle := Set.ncard_le_ncard (Set.inter_subset_right (s := m.covered priv))
      (finite_covers mpr)
    rwa [ncard_covers] at hle
  · refine Nat.lt_of_le_of_lt ?_ hfuel
    exact (Finset.card_le_univ _).trans_eq (Fintype.card_fin n)

/-- The entries that are enabled when the hypervisor starts: regions of granules that have no
address in common, and that the guest does not have. -/
structure Boots (m : Armv8Mpu n) : Prop where
  apart : ∀ i j, i ≠ j → m.entryValid i = true → m.entryValid j = true →
    (m.entryGetRegion i).Apart (m.entryGetRegion j)
  wellFormed : ∀ i, m.entryValid i = true → (m.entryGetRegion i).WellFormed
  limit_lt : ∀ i, m.entryValid i = true → (m.entryGetRegion i).limit < 2 ^ 64
  el1 : ∀ i, m.entryValid i = true → ¬ (m.entryGetRegion i).memFlags.El1

theorem foldl_initEntry_regs (m : Armv8Mpu n) (entries : List (Fin n)) :
    (entries.foldl initEntry m).prbar = m.prbar ∧ (entries.foldl initEntry m).prlar = m.prlar := by
  induction entries generalizing m with
  | nil => exact ⟨rfl, rfl⟩
  | cons k entries ih =>
      have hregs : (m.initEntry k).prbar = m.prbar ∧ (m.initEntry k).prlar = m.prlar := by
        rw [initEntry]
        split <;> exact ⟨rfl, rfl⟩
      rw [List.foldl_cons, (ih (m.initEntry k)).1, (ih (m.initEntry k)).2]
      exact hregs

/-- The permissions of an entry that `mpu_init` takes over. -/
theorem foldl_initEntry_perms {entries : List (Fin n)} {i : Fin n} (hi : m.entryValid i = true)
    (h : i ∈ entries ∨ m.perms i = ⟨permRwx, permNone⟩) :
    (entries.foldl initEntry m).perms i = ⟨permRwx, permNone⟩ := by
  induction entries generalizing m with
  | nil => exact h.resolve_left List.not_mem_nil
  | cons k entries ih =>
      have hvalid : ∀ j, (m.initEntry k).entryValid j = m.entryValid j := by
        intro j
        rw [initEntry]
        split <;> rfl
      rw [List.foldl_cons]
      refine ih ((hvalid i).trans hi) ?_
      by_cases hk : i = k
      · subst hk
        right
        rw [initEntry, if_pos hi]
        exact Function.update_self ..
      · refine h.imp (fun hmem => (List.mem_cons.mp hmem).resolve_left hk) fun hperms => ?_
        rw [initEntry]
        split
        · exact (Function.update_of_ne hk _ _).trans hperms
        · exact hperms

theorem table_mpuInit (m : Armv8Mpu n) (i : Fin n) :
    m.mpuInit.table i =
      if m.entryValid i then some (m.entryGetRegion i, ⟨permRwx, permNone⟩) else none := by
  obtain ⟨hprbar, hprlar⟩ := foldl_initEntry_regs
    { m with bitmap := fun _ => false, order := [] } (List.finRange n)
  have hvalid : m.mpuInit.entryValid i = m.entryValid i :=
    entryValid_congr (congrFun hprlar i)
  have hregion : m.mpuInit.entryGetRegion i = m.entryGetRegion i := by
    rw [entryGetRegion, entryGetRegion, mpuInit, hprbar, hprlar]
  rw [table, hvalid, hregion]
  split
  · rename_i hi
    have hperms := foldl_initEntry_perms
      (m := { m with bitmap := fun _ => false, order := [] }) hi (.inl (List.mem_finRange i))
    rw [mpuInit, hperms]
  · rfl

theorem table_mpuInit_eq_some_iff {i : Fin n} {b : MpRegion × MpuPerms} :
    m.mpuInit.table i = some b ↔
      m.entryValid i = true ∧ b = (m.entryGetRegion i, ⟨permRwx, permNone⟩) := by
  rw [table_mpuInit]
  by_cases hi : m.entryValid i = true
  · rw [if_pos hi, Option.some.injEq, and_iff_right hi, eq_comm]
  · rw [if_neg hi]
    exact iff_of_false (fun h => by cases h) fun h => hi h.1

theorem sound_mpuInit (h : m.Boots) : m.mpuInit.Sound where
  tracks := tracks_mpuInit m
  separate := by
    intro i j b c hij hb hc
    obtain ⟨hi, rfl⟩ := table_mpuInit_eq_some_iff.mp hb
    obtain ⟨hj, rfl⟩ := table_mpuInit_eq_some_iff.mp hc
    have hapart := h.apart i j hij hi hj
    rw [Set.disjoint_left]
    intro a ha ha'
    simp only [extent, Set.mem_ofPred_eq, MpRegion.Covers, MpRegion.Apart] at ha ha' hapart
    omega
  block := by
    intro i b hb
    obtain ⟨hi, rfl⟩ := table_mpuInit_eq_some_iff.mp hb
    refine ⟨h.wellFormed i hi, h.limit_lt i hi, iff_of_false (h.el1 i hi) fun hne => hne rfl⟩

/-- What each privilege has after `mpu_init`: the hypervisor has the entries, the guest nothing. -/
def bootMapped (m : Armv8Mpu n) (p : Priv) : Set ℕ :=
  {a | p.Same .hyp ∧ ∃ i, m.entryValid i = true ∧ (m.entryGetRegion i).Covers a}

theorem covered_mpuInit (m : Armv8Mpu n) (p : Priv) : m.mpuInit.covered p = m.bootMapped p := by
  have hhas : (MpuPerms.mk permRwx permNone).Has p ↔ p.Same .hyp := by
    cases p <;> decide
  ext a
  constructor
  · rintro ⟨i, b, hb, hp, ha⟩
    obtain ⟨hi, rfl⟩ := table_mpuInit_eq_some_iff.mp hb
    exact ⟨hhas.mp hp, i, hi, ha⟩
  · rintro ⟨hp, i, hi, ha⟩
    exact ⟨i, _, table_mpuInit_eq_some_iff.mpr ⟨hi, rfl⟩, hhas.mpr hp, ha⟩

end Armv8Mpu

open Armv8Mpu

inductive MpuOp
  | map
  | unmap
deriving DecidableEq, Repr

/-- A call of `mpu_map` or of `mpu_unmap`. -/
structure MpuCall where
  op : MpuOp
  priv : Priv
  mpr : MpRegion

namespace MpuCall

variable {n : ℕ} (c : MpuCall)

def Regular : Prop := c.mpr.WellFormed ∧ c.mpr.limit < 2 ^ 64

/-- The call, where none is a CPU that does not return from it. -/
def exec (fuel : ℕ) (m : Armv8Mpu n) : Option (Bool × Armv8Mpu n) :=
  match c.op with
  | .map => m.mpuMap fuel c.priv c.mpr
  | .unmap => m.mpuUnmap fuel c.priv c.mpr

/-- What a privilege has mapped after a call that has returned so. -/
def after (returned : Bool) (mapped : Priv → Set ℕ) (p : Priv) : Set ℕ :=
  match c.op, returned with
  | .map, true => mapped p ∪ {a | c.mpr.Covers a ∧ p.Same c.priv}
  | .map, false => mapped p
  | .unmap, _ => mapped p \ {a | c.mpr.Covers a ∧ p.Same c.priv}

def Fits (m : Armv8Mpu n) : Prop :=
  match c.op with
  | .map => m.MapFits c.priv c.mpr
  | .unmap => m.UnmapFits c.priv c.mpr

instance (m : Armv8Mpu n) : Decidable (c.Fits m) :=
  match c with
  | ⟨.map, priv, mpr⟩ => inferInstanceAs (Decidable (m.MapFits priv mpr))
  | ⟨.unmap, priv, mpr⟩ => inferInstanceAs (Decidable (m.UnmapFits priv mpr))

instance : Decidable c.Regular := inferInstanceAs (Decidable (_ ∧ _))

end MpuCall

/-- The MPU of a CPU, unless an `ERROR` has stopped it, and what each privilege has mapped by the
calls so far. -/
structure MpuHistory (n : ℕ) where
  mpu : Option (Armv8Mpu n)
  mapped : Priv → Set ℕ

namespace MpuHistory

variable {n : ℕ} (fuel : ℕ) (s : MpuHistory n) (c : MpuCall)

def step : MpuHistory n :=
  match s.mpu with
  | none => s
  | some m =>
      match c.exec fuel m with
      | none => { s with mpu := none }
      | some (returned, m') => ⟨some m', c.after returned s.mapped⟩

/-- The history that starts with `mpu_init`. -/
def start (m : Armv8Mpu n) : MpuHistory n := ⟨some m.mpuInit, m.bootMapped⟩

/-- The enabled entries have no address in common, they let each privilege have what it has mapped,
and they are open to the guest if it has permissions for them. -/
structure Shows (m : Armv8Mpu n) (mapped : Priv → Set ℕ) : Prop where
  apart : ∀ i j, i ≠ j → m.entryValid i = true → m.entryValid j = true →
    (m.entryGetRegion i).Apart (m.entryGetRegion j)
  covered : ∀ p a, (∃ i, m.entryValid i = true ∧ m.entryHasPriv i p = true ∧
    (m.entryGetRegion i).Covers a) ↔ a ∈ mapped p
  el1 : ∀ i, m.entryValid i = true →
    ((m.entryGetRegion i).memFlags.El1 ↔ (m.perms i).el1 ≠ permNone)

/-- A call from the state returns unless there is no entry left for its region, a call of `mpu_map`
that returns false leaves all enabled entries with their permissions as they were, and afterwards
the MPU shows each privilege what it has mapped. -/
structure Right (s : MpuHistory n) (c : MpuCall) : Prop where
  returns : ∀ m, s.mpu = some m → c.exec fuel m = none → c.op = .map ∧ m.freeEntries = 0
  failed : ∀ m m', s.mpu = some m → c.op = .map → c.exec fuel m = some (false, m') →
    m'.table = m.table
  shows : ∀ m, (s.step fuel c).mpu = some m → Shows m (s.step fuel c).mapped

def Inv (s : MpuHistory n) : Prop := ∀ m, s.mpu = some m → m.Sound ∧ ∀ p, m.covered p = s.mapped p

variable {fuel s c}

theorem shows_of_sound {m : Armv8Mpu n} {mapped : Priv → Set ℕ} (h : m.Sound)
    (hcovered : ∀ p, m.covered p = mapped p) : Shows m mapped where
  apart i j hij hi hj := by
    have hok := (h.block i _ (table_of_valid hi)).wellFormed
    have hok' := (h.block j _ (table_of_valid hj)).wellFormed
    rw [MpRegion.apart_iff hok hok']
    rintro a ⟨ha, ha'⟩
    exact Set.disjoint_left.mp (h.separate i j _ _ hij (table_of_valid hi) (table_of_valid hj))
      ha ha'
  covered p a := by
    rw [← hcovered p]
    constructor
    · rintro ⟨i, hi, hhas, ha⟩
      exact ⟨i, _, table_of_valid hi, has_iff.mp hhas, ha⟩
    · rintro ⟨i, b, hb, hhas, ha⟩
      obtain ⟨hi, rfl⟩ := table_eq_some_iff.mp hb
      exact ⟨i, hi, has_iff.mpr hhas, ha⟩
  el1 i hi := (h.block i _ (table_of_valid hi)).el1

/-- What a call that fits the entries does, whether it maps or unmaps. -/
theorem exec_cases {m : Armv8Mpu n} (h : m.Sound) (hfuel : n + 2 ≤ fuel) (hregular : c.Regular)
    (hfits : c.Fits m) :
    (∃ returned m', c.exec fuel m = some (returned, m') ∧ m'.Sound ∧
        m'.covered = c.after returned m.covered ∧
          (c.op = .map → returned = false → m'.table = m.table)) ∨
      c.exec fuel m = none ∧ c.op = .map ∧ m.freeEntries = 0 := by
  obtain ⟨op, priv, mpr⟩ := c
  obtain ⟨hmpr, hlimit⟩ := hregular
  cases op with
  | map =>
      rcases mpuMap_cases h hmpr hlimit hfits (Nat.le_of_add_left_le hfuel) with
        ⟨m', hm', hsound, hcovered⟩ | ⟨m', hm', hsound, htable⟩ | ⟨hnone, hfree⟩
      · exact .inl ⟨true, m', hm', hsound, funext hcovered, fun _ hfalse => by cases hfalse⟩
      · refine .inl ⟨false, m', hm', hsound, funext fun p => ?_, fun _ _ => htable⟩
        rw [covered, htable]
        rfl
      · exact .inr ⟨hnone, rfl, hfree⟩
  | unmap =>
      obtain ⟨returned, m', hm', hsound, hcovered⟩ := mpuUnmap_cases h hmpr hlimit hfits
        (Nat.lt_of_succ_le (Nat.le_of_succ_le hfuel))
      refine .inl ⟨returned, m', hm', hsound, funext fun p => ?_, fun hop => by cases hop⟩
      rw [hcovered p]
      rfl

theorem step_of_none (h : s.mpu = none) : s.step fuel c = s := by
  rw [step, h]

theorem inv_step (hinv : s.Inv) (hfuel : n + 2 ≤ fuel) (hregular : c.Regular)
    (hfits : ∀ m ∈ s.mpu, c.Fits m) : (s.step fuel c).Inv ∧ Right fuel s c := by
  cases hmpu : s.mpu with
  | none =>
      have hnone : ∀ {P : Armv8Mpu n → Prop} m, s.mpu = some m → P m := by
        intro P m hm
        rw [hmpu] at hm
        cases hm
      refine ⟨?_, hnone, fun m m' hm => ?_, ?_⟩
      · rw [step_of_none hmpu]
        exact hnone
      · rw [hmpu] at hm
        cases hm
      · rw [step_of_none hmpu]
        exact hnone
  | some m =>
      obtain ⟨hsound, hcovered⟩ := hinv m hmpu
      have hmapped : s.mapped = m.covered := funext fun p => (hcovered p).symm
      rcases exec_cases hsound hfuel hregular (hfits m hmpu) with
        ⟨returned, m', hexec, hsound', hcovered', htable⟩ | ⟨hexec, hop, hfree⟩
      · have hstep : s.step fuel c = ⟨some m', c.after returned s.mapped⟩ := by
          rw [step, hmpu]
          dsimp only
          rw [hexec]
        have hafter : ∀ p, m'.covered p = c.after returned s.mapped p := by
          rw [hmapped, hcovered']
          exact fun _ => rfl
        refine ⟨?_, fun m₁ hm₁ hnone => ?_, fun m₁ m₂ hm₁ hop hfalse => ?_, ?_⟩
        · rw [hstep]
          rintro m₁ hm₁
          cases hm₁
          exact ⟨hsound', hafter⟩
        · rw [hmpu] at hm₁
          cases hm₁
          rw [hexec] at hnone
          cases hnone
        · rw [hmpu] at hm₁
          cases hm₁
          rw [hexec] at hfalse
          cases hfalse
          exact htable hop rfl
        · rw [hstep]
          rintro m₁ hm₁
          cases hm₁
          exact shows_of_sound hsound' hafter
      · have hstep : s.step fuel c = { s with mpu := none } := by
          rw [step, hmpu]
          dsimp only
          rw [hexec]
        refine ⟨?_, fun m₁ hm₁ _ => ?_, fun m₁ m₂ hm₁ _ hfalse => ?_, ?_⟩
        · rw [hstep]
          rintro m₁ hm₁
          cases hm₁
        · rw [hmpu] at hm₁
          cases hm₁
          exact ⟨hop, hfree⟩
        · rw [hmpu] at hm₁
          cases hm₁
          rw [hexec] at hfalse
          cases hfalse
        · rw [hstep]
          rintro m₁ hm₁
          cases hm₁

/-- In a run of calls after `mpu_init` that fit the entries, each call does right by the history:
the entries are disjoint and show each privilege what it has mapped, after every call. -/
theorem along_right {m : Armv8Mpu n} (hboots : m.Boots) (hfuel : n + 2 ≤ fuel)
    {calls : List MpuCall} (hregular : ∀ c ∈ calls, c.Regular)
    (hfits : Run.Along (step fuel) (fun s c => ∀ m ∈ s.mpu, c.Fits m) (start m) calls) :
    Shows m.mpuInit m.bootMapped ∧ Run.Along (step fuel) (Right fuel) (start m) calls := by
  have hsound := sound_mpuInit hboots
  have hinv : (start m).Inv := by
    rintro m' hm'
    cases hm'
    exact ⟨hsound, covered_mpuInit m⟩
  refine ⟨shows_of_sound hsound (covered_mpuInit m), ?_⟩
  have hall : Run.Along (step fuel) (fun _ c => c.Regular) (start m) calls :=
    Run.along_of_forall (fun c hc _ => hregular c hc) _
  exact (hall.and hfits).imp_of_invariant hinv fun s c hs hc => inv_step hs hfuel hc.1 hc.2

/-- The hypervisor maps two pages of a device beside its image, the guest maps the first one, and
the hypervisor gives both up. -/
def shareDevice : List MpuCall :=
  [⟨.map, .hyp, ⟨0x20000000#64, 0x2000#64, ⟨0x32#16, 0x5#16⟩, .hypGlobal⟩⟩,
    ⟨.map, .vm, MemState.guestDevice 0x20000000#64⟩,
    ⟨.unmap, .hyp, ⟨0x20000000#64, 0x2000#64, ⟨0x32#16, 0x5#16⟩, .hypGlobal⟩⟩]

theorem boots_hypImageMpu : MemState.hypImageMpu.Boots where
  apart := by decide +kernel
  wellFormed := by decide +kernel
  limit_lt := by decide +kernel
  el1 := by decide +kernel

theorem along_right_shareDevice :
    Shows MemState.hypImageMpu.mpuInit MemState.hypImageMpu.bootMapped ∧
      Run.Along (step 6) (Right 6) (start MemState.hypImageMpu) shareDevice :=
  along_right boots_hypImageMpu (by decide) (by decide +kernel) (by decide +kernel)

end MpuHistory

end BaoHypervisor
