import Mathlib.Data.Set.Disjoint
import Mathlib.Data.Set.Lattice
import Mathlib.Order.CompletePartialOrder
import Mathlib.Tactic.Tauto

/-!
# Tables of blocks

A table has a block at some of its indices, and a block takes up points. Where no two blocks have a
point in common, what the blocks with a property take up follows the writes of the table: a write
takes away the points of the old block and adds those of the new one (`cover_update_some`). A block
can be cut into pieces (`Separate.cut`), grow by points that no block has (`Separate.grow`) or
absorb another one (`Separate.absorb`).
-/

namespace Blocks

variable {ι β α : Type*} (extent : β → Set α)

/-- The points of the blocks that have the property. -/
def cover (t : ι → Option β) (q : β → Prop) : Set α :=
  {a | ∃ i b, t i = some b ∧ q b ∧ a ∈ extent b}

def occupied (t : ι → Option β) : Set α := cover extent t fun _ => True

/-- The points of a block, or none. -/
def points (o : Option β) : Set α := o.elim ∅ extent

def Separate (t : ι → Option β) : Prop :=
  ∀ i j b c, i ≠ j → t i = some b → t j = some c → Disjoint (extent b) (extent c)

variable {extent} {t : ι → Option β} {q : β → Prop} {i j : ι} {b c d e : β} {a : α} {s : Set α}

theorem mem_cover : a ∈ cover extent t q ↔ ∃ i b, t i = some b ∧ q b ∧ a ∈ extent b := Iff.rfl

theorem mem_occupied : a ∈ occupied extent t ↔ ∃ i b, t i = some b ∧ a ∈ extent b := by
  simp [occupied, cover]

theorem mem_points {o : Option β} : a ∈ points extent o ↔ ∃ b, o = some b ∧ a ∈ extent b := by
  cases o <;> simp [points]

theorem extent_subset_cover (hi : t i = some b) (hq : q b) : extent b ⊆ cover extent t q :=
  fun _ ha => ⟨i, b, hi, hq, ha⟩

theorem Separate.mem_cover_iff (h : Separate extent t) (hi : t i = some b) (ha : a ∈ extent b) :
    a ∈ cover extent t q ↔ q b := by
  constructor
  · rintro ⟨j, c, hj, hqc, hac⟩
    by_cases hij : j = i
    · rw [hij, hi] at hj
      cases hj
      exact hqc
    · exact absurd ha (Set.disjoint_left.mp (h j i c b hij hj hi) hac)
  · exact fun hq => ⟨i, b, hi, hq, ha⟩

/-- Where the pieces at the other indices have the properties that the block had, only the piece
at its own index can be new to one. -/
theorem Separate.cover_pieces (h : Separate extent t) (hi : t i = some b)
    (hb : extent b = extent d ∪ (extent c ∪ extent e)) (hqc : q b → q c) (hqd : q d ↔ q b)
    (hqe : q e ↔ q b) :
    cover extent t q \ extent b ∪ {a | a ∈ extent c ∧ q c} ∪ {a | a ∈ extent d ∧ q d} ∪
      {a | a ∈ extent e ∧ q e} = cover extent t q ∪ {a | a ∈ extent c ∧ q c} := by
  ext a
  simp only [Set.mem_union, Set.mem_sdiff, Set.mem_ofPred_eq, hqd, hqe]
  by_cases hab : a ∈ extent b
  · rw [h.mem_cover_iff hi hab]
    rw [hb] at hab
    rcases hab with ha | ha | ha <;> tauto
  · have hpieces : a ∉ extent c ∧ a ∉ extent d ∧ a ∉ extent e := by
      rw [hb] at hab
      exact ⟨fun ha => hab (.inr (.inl ha)), fun ha => hab (.inl ha),
        fun ha => hab (.inr (.inr ha))⟩
    simp [hab, hpieces]

section Update

variable [DecidableEq ι]

theorem cover_update_some (h : Separate extent t) (i : ι) (b : β) (q : β → Prop) :
    cover extent (Function.update t i (some b)) q =
      cover extent t q \ points extent (t i) ∪ {a | a ∈ extent b ∧ q b} := by
  ext a
  simp only [Set.mem_union, Set.mem_sdiff, mem_cover, mem_points, Set.mem_ofPred_eq]
  constructor
  · rintro ⟨j, c, hj, hq, ha⟩
    by_cases hji : j = i
    · rw [hji, Function.update_self] at hj
      cases hj
      exact .inr ⟨ha, hq⟩
    · rw [Function.update_of_ne hji] at hj
      refine .inl ⟨⟨j, c, hj, hq, ha⟩, ?_⟩
      rintro ⟨d, hi, had⟩
      exact Set.disjoint_left.mp (h j i c d hji hj hi) ha had
  · rintro (⟨⟨j, c, hj, hq, ha⟩, hnot⟩ | ⟨ha, hq⟩)
    · have hji : j ≠ i := fun heq => hnot ⟨c, heq ▸ hj, ha⟩
      exact ⟨j, c, by rw [Function.update_of_ne hji, hj], hq, ha⟩
    · exact ⟨i, b, Function.update_self .., hq, ha⟩

theorem cover_update_none (h : Separate extent t) (i : ι) (q : β → Prop) :
    cover extent (Function.update t i none) q = cover extent t q \ points extent (t i) := by
  ext a
  simp only [Set.mem_sdiff, mem_cover, mem_points]
  constructor
  · rintro ⟨j, c, hj, hq, ha⟩
    have hji : j ≠ i := by
      rintro rfl
      rw [Function.update_self] at hj
      cases hj
    rw [Function.update_of_ne hji] at hj
    refine ⟨⟨j, c, hj, hq, ha⟩, ?_⟩
    rintro ⟨d, hi, had⟩
    exact Set.disjoint_left.mp (h j i c d hji hj hi) ha had
  · rintro ⟨⟨j, c, hj, hq, ha⟩, hnot⟩
    have hji : j ≠ i := fun heq => hnot ⟨c, heq ▸ hj, ha⟩
    exact ⟨j, c, by rw [Function.update_of_ne hji, hj], hq, ha⟩

theorem Separate.update_none (h : Separate extent t) (i : ι) :
    Separate extent (Function.update t i none) := by
  intro j k c d hjk hj hk
  have hne : ∀ {j c}, Function.update t i none j = some c → j ≠ i := by
    rintro j c hj rfl
    rw [Function.update_self] at hj
    cases hj
  have hji := hne hj
  have hki := hne hk
  rw [Function.update_of_ne hji] at hj
  rw [Function.update_of_ne hki] at hk
  exact h j k c d hjk hj hk

/-- A block can be written where the points that it takes up are those of the old one or of none. -/
theorem Separate.update_some (h : Separate extent t)
    (hb : Disjoint (extent b) (occupied extent t \ points extent (t i))) :
    Separate extent (Function.update t i (some b)) := by
  have hnew : ∀ j c, j ≠ i → t j = some c → Disjoint (extent b) (extent c) := by
    intro j c hji hj
    have hsub : extent c ⊆ occupied extent t \ points extent (t i) := by
      intro a ha
      refine ⟨mem_occupied.mpr ⟨j, c, hj, ha⟩, fun hmem => ?_⟩
      obtain ⟨d, hi, had⟩ := mem_points.mp hmem
      exact Set.disjoint_left.mp (h j i c d hji hj hi) ha had
    exact hb.mono_right hsub
  intro j k c d hjk hj hk
  by_cases hji : j = i
  · subst hji
    rw [Function.update_self] at hj
    rw [Function.update_of_ne hjk.symm] at hk
    cases hj
    exact hnew k d hjk.symm hk
  rw [Function.update_of_ne hji] at hj
  by_cases hki : k = i
  · subst hki
    rw [Function.update_self] at hk
    cases hk
    exact (hnew j c hjk hj).symm
  · rw [Function.update_of_ne hki] at hk
    exact h j k c d hjk hj hk

/-- A block grows by points that no block has. -/
theorem Separate.grow (h : Separate extent t) (hs : Disjoint s (occupied extent t))
    (hb : extent b = points extent (t i) ∪ s) :
    Separate extent (Function.update t i (some b)) ∧
      ∀ q : β → Prop, (∀ c, t i = some c → (q c ↔ q b)) →
        cover extent (Function.update t i (some b)) q =
          cover extent t q ∪ {a | a ∈ s ∧ q b} := by
  constructor
  · refine h.update_some ?_
    rw [hb, Set.disjoint_union_left]
    exact ⟨Set.disjoint_sdiff_right, hs.mono_right Set.sdiff_subset⟩
  · intro q hq
    rw [cover_update_some h, hb]
    ext a
    simp only [Set.mem_union, Set.mem_sdiff, Set.mem_ofPred_eq]
    have hpoints : a ∈ points extent (t i) → (a ∈ cover extent t q ↔ q b) := by
      intro ha
      obtain ⟨c, hc, hac⟩ := mem_points.mp ha
      rw [← hq c hc, h.mem_cover_iff hc hac]
    tauto

/-- A block grows by points that no block has and by those of another block, which is gone then. -/
theorem Separate.absorb (h : Separate extent t) (hs : Disjoint s (occupied extent t))
    (hij : i ≠ j) (hi : t i = some b) (hj : t j = some c)
    (hd : extent d = extent b ∪ (s ∪ extent c)) :
    Separate extent (Function.update (Function.update t j none) i (some d)) ∧
      ∀ q : β → Prop, (q b ↔ q d) → (q c ↔ q d) →
        cover extent (Function.update (Function.update t j none) i (some d)) q =
          cover extent t q ∪ {a | a ∈ s ∧ q d} := by
  have hi' : Function.update t j none i = some b := by rw [Function.update_of_ne hij, hi]
  have hoccupied := cover_update_none h j fun _ => True
  have hs' : Disjoint (s ∪ extent c) (occupied extent (Function.update t j none)) := by
    rw [occupied, hoccupied, hj, Set.disjoint_union_left]
    exact ⟨hs.mono_right Set.sdiff_subset, Set.disjoint_sdiff_right⟩
  have hgrow := (h.update_none j).grow (i := i) (b := d) hs'
    (by rw [hi', hd]; rfl)
  refine ⟨hgrow.1, fun q hqb hqc => ?_⟩
  rw [hgrow.2 q fun e he => by rw [hi'] at he; cases he; exact hqb, cover_update_none h, hj]
  ext a
  simp only [Set.mem_union, Set.mem_sdiff, Set.mem_ofPred_eq, points, Option.elim_some]
  have hcover : a ∈ extent c → (a ∈ cover extent t q ↔ q d) := by
    intro hac
    rw [← hqc, h.mem_cover_iff hj hac]
  tauto

/-- A block that is written at an index, unless there is no index for it. -/
def put (t : ι → Option β) (o : Option ι) (b : β) : ι → Option β :=
  o.elim t fun i => Function.update t i (some b)

theorem put_of_ne {o : Option ι} (hj : o ≠ some j) : put t o b j = t j := by
  cases o with
  | none => rfl
  | some i => exact Function.update_of_ne (fun heq => hj (congrArg some heq.symm)) _ _

/-- Points that no block has get a block of their own. -/
theorem Separate.put {o : Option ι} (h : Separate extent t) (ho : ∀ i, o = some i → t i = none)
    (hnone : o = none → extent b = ∅) (hb : Disjoint (extent b) (occupied extent t)) :
    Separate extent (put t o b) ∧
      ∀ q : β → Prop, cover extent (put t o b) q =
        cover extent t q ∪ {a | a ∈ extent b ∧ q b} := by
  cases o with
  | none =>
      refine ⟨h, fun q => ?_⟩
      rw [Blocks.put, hnone rfl]
      simp
  | some i =>
      have hi := ho i rfl
      have hgrow := h.grow (i := i) hb (by rw [hi, points, Option.elim_none, Set.empty_union])
      refine ⟨hgrow.1, fun q => hgrow.2 q fun c hc => ?_⟩
      rw [hi] at hc
      cases hc

/-- A block at an index and two more, each of them where there is an index for it. -/
def cut (t : ι → Option β) (i : ι) (c : β) (low : Option ι) (d : β) (high : Option ι) (e : β) :
    ι → Option β :=
  put (put (Function.update t i (some c)) low d) high e

section Cut

variable {low high : Option ι}

theorem Separate.cut (h : Separate extent t) (hi : t i = some b)
    (hlow : ∀ j, low = some j → t j = none) (hhigh : ∀ j, high = some j → t j = none)
    (hne : ∀ j, low = some j → high ≠ some j) (hd : low = none → extent d = ∅)
    (he : high = none → extent e = ∅) (hb : extent b = extent d ∪ (extent c ∪ extent e))
    (hdc : Disjoint (extent d) (extent c)) (hde : Disjoint (extent d) (extent e))
    (hce : Disjoint (extent c) (extent e)) :
    Separate extent (Blocks.cut t i c low d high e) ∧
      ∀ q : β → Prop, cover extent (Blocks.cut t i c low d high e) q =
        cover extent t q \ extent b ∪ {a | a ∈ extent c ∧ q c} ∪ {a | a ∈ extent d ∧ q d} ∪
          {a | a ∈ extent e ∧ q e} := by
  have hcb : extent c ⊆ extent b := hb ▸ fun a ha => .inr (.inl ha)
  have hdb : extent d ⊆ extent b := hb ▸ fun a ha => .inl ha
  have heb : extent e ⊆ extent b := hb ▸ fun a ha => .inr (.inr ha)
  have hnotin : ∀ {s : Set α}, s ⊆ extent b → Disjoint s (occupied extent t \ extent b) :=
    fun hs => Set.disjoint_sdiff_right.mono_left hs
  have hfree : ∀ j, t j = none → Function.update t i (some c) j = none := by
    intro j hj
    have hji : j ≠ i := by
      rintro rfl
      rw [hj] at hi
      cases hi
    rw [Function.update_of_ne hji, hj]
  have hmid : Separate extent (Function.update t i (some c)) := by
    refine h.update_some ?_
    rw [hi]
    exact hnotin hcb
  have hcover := cover_update_some h i c
  rw [hi] at hcover
  have hputd := hmid.put (fun j hj => hfree j (hlow j hj)) hd (by
    rw [occupied, hcover, Set.disjoint_union_right]
    exact ⟨hnotin hdb, hdc.mono_right fun a ha => ha.1⟩)
  have hhigh' : ∀ j, high = some j →
      Blocks.put (Function.update t i (some c)) low d j = none := by
    intro j hj
    rw [put_of_ne fun hl => hne j hl hj]
    exact hfree j (hhigh j hj)
  have hpute := hputd.1.put hhigh' he (by
    rw [occupied, hputd.2, hcover, Set.disjoint_union_right, Set.disjoint_union_right]
    exact ⟨⟨hnotin heb, hce.symm.mono_right fun a ha => ha.1⟩,
      hde.symm.mono_right fun a ha => ha.1⟩)
  refine ⟨hpute.1, fun q => ?_⟩
  rw [Blocks.cut, hpute.2 q, hputd.2 q, hcover q]
  rfl

end Cut

end Update

end Blocks
