import BaoHypervisor.Lib.Bitmap
import Mathlib.Data.Nat.Count

/-!
# What the searches of a bitmap find

The functions of `Bitmap` are read here through the sequence of bits
`bitmapGet map`. Counting is exact up to the number of bits asked for
(`le_bitmapCountConsecutive_iff`), and `bitmapFindConsec` answers the first
start of a run in its window (`bitmapFindConsec_eq_some_iff`). Neither stops at
`size` once a run has begun: the run it finds may stick out of the window.
-/

namespace BaoHypervisor

namespace Bitmap

open BitRun

/-! ## Counting -/

section Count

variable {map : Bitmap} {set : Bool} {start n : ℕ}

theorem bitmapGet_add {k : ℕ} (hk : start % granuleLen + k < granuleLen) :
    bitmapGet map (start + k) =
      (map (start / granuleLen)).getLsbD (start % granuleLen + k) := by
  unfold granuleLen at hk
  have hdiv : (start + k) / granuleLen = start / granuleLen := by
    unfold granuleLen; omega
  have hmod : (start + k) % granuleLen = start % granuleLen + k := by
    unfold granuleLen; omega
  rw [bitmapGet_eq_getLsbD, hdiv, hmod]

theorem isRun_of_fillWord {k : ℕ}
    (hword : map (start / granuleLen) ^^^ fillWord set = 0#32)
    (hk : start % granuleLen + k ≤ granuleLen) :
    IsRun (bitmapGet map) set start k := by
  intro j hj
  have hlt : start % granuleLen + j < granuleLen := by omega
  rw [bitmapGet_add hlt, BitVec.xor_eq_zero_iff.mp hword, getLsbD_fillWord hlt]

/-- What both counting loops keep: the bits passed so far form a run. -/
structure Counted (map : Bitmap) (set : Bool) (start pos count : ℕ) : Prop where
  pos_eq : pos = start + count
  run : IsRun (bitmapGet map) set start count

theorem Counted.extend {pos count k : ℕ} (h : Counted map set start pos count)
    (hrun : IsRun (bitmapGet map) set pos k) :
    Counted map set start (pos + k) (count + k) where
  pos_eq := by rw [h.pos_eq, add_assoc]
  run := by
    intro j hj
    by_cases hlt : j < count
    · exact h.run j hlt
    · have hbit := hrun (j - count) (by omega)
      have hidx : pos + (j - count) = start + j := by rw [h.pos_eq]; omega
      rwa [hidx] at hbit

/-- The word loop only ever starts a round on a word boundary. -/
def WordReady (map : Bitmap) (set : Bool) (n pos count : ℕ) : Prop :=
  pos % granuleLen = 0 ∨ n ≤ count ∨
    map (pos / granuleLen) ^^^ fillWord set ≠ 0#32

theorem countWords_counted (fuel : ℕ) {pos count : ℕ}
    (h : Counted map set start pos count) (hready : WordReady map set n pos count) :
    Counted map set start (countWords map (fillWord set) n fuel pos count).1
      (countWords map (fillWord set) n fuel pos count).2 := by
  induction fuel generalizing pos count with
  | zero => exact h
  | succ fuel ih =>
      rw [countWords]
      by_cases hstep : map (pos / granuleLen) ^^^ fillWord set = 0#32 ∧ count < n
      · rw [if_pos hstep]
        have hpos : pos % granuleLen = 0 := by
          rcases hready with hpos | hn | hne
          · exact hpos
          · exact absurd hstep.2 (Nat.not_lt.mpr hn)
          · exact absurd hstep.1 hne
        have hrun := isRun_of_fillWord (k := granuleLen) hstep.1 (by omega)
        refine ih (h.extend hrun) (Or.inl ?_)
        rw [Nat.add_mod_right, hpos]
      · rw [if_neg hstep]
        exact h

/-- The bit loop ends with the whole run, or with `n` bits of it. -/
theorem countBits_spec (fuel : ℕ) {pos count : ℕ}
    (h : Counted map set start pos count) (hfuel : n ≤ count + fuel) :
    IsRun (bitmapGet map) set start (countBits map set n fuel pos count) ∧
      (countBits map set n fuel pos count < n →
        bitmapGet map (start + countBits map set n fuel pos count) ≠ set) := by
  induction fuel generalizing pos count with
  | zero =>
      rw [countBits]
      exact ⟨h.run, fun hlt => absurd hlt (by omega)⟩
  | succ fuel ih =>
      rw [countBits]
      by_cases hstep : bitmapGet map pos = set ∧ count < n
      · rw [if_pos hstep]
        have hone : IsRun (bitmapGet map) set pos 1 := by
          intro j hj
          obtain rfl : j = 0 := by omega
          exact hstep.1
        exact ih (h.extend hone) (by omega)
      · rw [if_neg hstep]
        refine ⟨h.run, fun hlt hset => hstep ⟨?_, hlt⟩⟩
        rw [h.pos_eq]
        exact hset

/-- The masked comparison keeps the bits of the mask that differ from `set`. -/
theorem getLsbD_firstWord (map : Bitmap) (set : Bool) {len : ℕ} (hpos : 0 < len)
    (hlen : start % granuleLen + len ≤ granuleLen) (i : ℕ) :
    ((map (start / granuleLen) ^^^
        firstMask set (granuleMask (start % granuleLen) len)) &&&
        granuleMask (start % granuleLen) len).getLsbD i =
      ((map (start / granuleLen)).getLsbD i != set &&
        decide (start % granuleLen ≤ i ∧ i < start % granuleLen + len)) := by
  rw [BitVec.getLsbD_and, BitVec.getLsbD_xor, getLsbD_granuleMask hpos hlen]
  by_cases hin : start % granuleLen ≤ i ∧ i < start % granuleLen + len
  · rw [decide_eq_true hin, Bool.and_true, Bool.and_true]
    have hi : i < 32 := by unfold granuleLen at *; omega
    cases set with
    | true =>
        rw [firstMask, if_pos rfl, getLsbD_granuleMask hpos hlen,
          decide_eq_true hin]
    | false =>
        rw [firstMask, if_neg (by decide), BitVec.getLsbD_not,
          getLsbD_granuleMask hpos hlen, decide_eq_true hin, decide_eq_true hi]
        simp
  · rw [decide_eq_false hin, Bool.and_false, Bool.and_false]

/-- The masked comparison of the first word succeeds exactly on a run. -/
theorem firstWord_iff {len : ℕ} (hpos : 0 < len)
    (hlen : start % granuleLen + len ≤ granuleLen) :
    (map (start / granuleLen) ^^^
        firstMask set (granuleMask (start % granuleLen) len)) &&&
        granuleMask (start % granuleLen) len = 0#32 ↔
      IsRun (bitmapGet map) set start len := by
  constructor
  · intro h j hj
    have hlt : start % granuleLen + j < granuleLen := by omega
    have hbit := getLsbD_firstWord map set hpos hlen (start % granuleLen + j)
    rw [h, BitVec.getLsbD_zero, decide_eq_true (by omega), Bool.and_true] at hbit
    rw [bitmapGet_add hlt]
    exact (bne_eq_false_iff_eq.mp hbit.symm)
  · intro h
    apply BitVec.eq_of_getLsbD_eq
    intro i hi
    rw [getLsbD_firstWord map set hpos hlen, BitVec.getLsbD_zero]
    by_cases hin : start % granuleLen ≤ i ∧ i < start % granuleLen + len
    · have hbit := h (i - start % granuleLen) (by omega)
      rw [bitmapGet_add (by omega), Nat.add_sub_cancel' hin.1] at hbit
      rw [hbit, bne_self_eq_false, Bool.false_and]
    · rw [decide_eq_false hin, Bool.and_false]

end Count

/-- The position and the count after the first word of `bitmap_count_consecutive`. -/
def countFirst (map : Bitmap) (start n : ℕ) : ℕ × ℕ :=
  let len := min (granuleLen - start % granuleLen) n
  let initMask := granuleMask (start % granuleLen) len
  if (map (start / granuleLen) ^^^ firstMask (bitmapGet map start) initMask) &&& initMask = 0#32
  then (start + len, len) else (start, 0)

def countStop (map : Bitmap) (start n : ℕ) : ℕ × ℕ :=
  countWords map (fillWord (bitmapGet map start)) n n
    (countFirst map start n).1 (countFirst map start n).2

theorem bitmapCountConsecutive_eq (map : Bitmap) (size start : ℕ) {n : ℕ} (hn : ¬ n ≤ 1) :
    bitmapCountConsecutive map size start n = countBits map (bitmapGet map start) n n
      (countStop map start n).1 (countStop map start n).2 :=
  if_neg hn

/-- The first word counts all of its bits that are asked for, or none. -/
theorem countFirst_spec (map : Bitmap) (start : ℕ) {n : ℕ} (hn : 0 < n) :
    Counted map (bitmapGet map start) start
        (countFirst map start n).1 (countFirst map start n).2 ∧
      WordReady map (bitmapGet map start) n
        (countFirst map start n).1 (countFirst map start n).2 := by
  have hmod : start % granuleLen < granuleLen := Nat.mod_lt _ (by decide)
  unfold countFirst
  dsimp only
  generalize hlen : min (granuleLen - start % granuleLen) n = len
  have hpos : 0 < len := by omega
  have hfit : start % granuleLen + len ≤ granuleLen := by omega
  by_cases hfirst : (map (start / granuleLen) ^^^
      firstMask (bitmapGet map start) (granuleMask (start % granuleLen) len)) &&&
      granuleMask (start % granuleLen) len = 0#32
  · rw [if_pos hfirst]
    refine ⟨⟨rfl, (firstWord_iff hpos hfit).mp hfirst⟩, ?_⟩
    by_cases hshort : n ≤ len
    · exact Or.inr (Or.inl hshort)
    · refine Or.inl ?_
      show (start + len) % granuleLen = 0
      unfold granuleLen at *
      omega
  · rw [if_neg hfirst]
    refine ⟨⟨rfl, isRun_zero _ _ _⟩, Or.inr (Or.inr fun hfull => hfirst ?_)⟩
    exact (firstWord_iff hpos hfit).mpr (isRun_of_fillWord hfull hfit)

theorem countStop_counted (map : Bitmap) (start : ℕ) {n : ℕ} (hn : 0 < n) :
    Counted map (bitmapGet map start) start (countStop map start n).1 (countStop map start n).2 :=
  countWords_counted n (countFirst_spec map start hn).1 (countFirst_spec map start hn).2

theorem bitmapCountConsecutive_spec (map : Bitmap) (size start n : ℕ) :
    IsRun (bitmapGet map) (bitmapGet map start) start
        (bitmapCountConsecutive map size start n) ∧
      (bitmapCountConsecutive map size start n < n →
        bitmapGet map (start + bitmapCountConsecutive map size start n) ≠
          bitmapGet map start) := by
  by_cases hn : n ≤ 1
  · have hcount : bitmapCountConsecutive map size start n = n := if_pos hn
    rw [hcount]
    refine ⟨fun j hj => ?_, fun h => absurd h (lt_irrefl n)⟩
    obtain rfl : j = 0 := by omega
    rfl
  · rw [bitmapCountConsecutive_eq map size start hn]
    exact countBits_spec n (countStop_counted map start (by omega)) (by omega)

/-- The count is exact as far as it is asked to go: it reaches `k ≤ n` exactly
when the `k` bits from `start` on are equal. -/
theorem le_bitmapCountConsecutive_iff {map : Bitmap} {size start n k : ℕ}
    (hk : k ≤ n) :
    k ≤ bitmapCountConsecutive map size start n ↔
      IsRun (bitmapGet map) (bitmapGet map start) start k := by
  obtain ⟨hrun, hstop⟩ := bitmapCountConsecutive_spec map size start n
  constructor
  · exact fun hle => hrun.mono hle
  · intro h
    by_contra hlt
    rw [Nat.not_le] at hlt
    exact hstop (by omega) (h _ hlt)

/-- Up to the number of bits asked for, the count is the length of the maximal run. -/
theorem min_bitmapCountConsecutive (map : Bitmap) (size start n : ℕ) :
    ((min (bitmapCountConsecutive map size start n) n : ℕ) : ℕ∞) =
      min (runLength (bitmapGet map) start) n := by
  apply le_antisymm
  · refine le_min ?_ (Nat.cast_le.mpr (min_le_right _ _))
    rw [le_runLength_iff]
    exact (le_bitmapCountConsecutive_iff (min_le_right _ _)).mp (min_le_left _ _)
  · obtain ⟨k, hk⟩ := ENat.ne_top_iff_exists.mp
      (ne_top_of_le_ne_top (ENat.natCast_ne_top n)
        (min_le_right (runLength (bitmapGet map) start) n))
    rw [← hk, Nat.cast_le]
    have hn : k ≤ n := Nat.cast_le.mp (hk.trans_le (min_le_right _ _))
    refine le_min ?_ hn
    rw [le_bitmapCountConsecutive_iff hn, ← le_runLength_iff]
    exact hk.trans_le (min_le_left _ _)

/-! ## Searching -/

section Search

variable {map : Bitmap} {size start n : ℕ} {set : Bool}

theorem bitmapFindNthLoop_first (map : Bitmap) (set : Bool) (left i : ℕ) :
    match bitmapFindNthLoop map 1 set left i 0 with
    | some b => i ≤ b ∧ b < i + left ∧ bitmapGet map b = set ∧
        ∀ p, i ≤ p → p < b → bitmapGet map p ≠ set
    | none => ∀ p, i ≤ p → p < i + left → bitmapGet map p ≠ set := by
  induction left generalizing i with
  | zero => exact fun p h1 h2 => absurd h1 (by omega)
  | succ left ih =>
      rw [bitmapFindNthLoop]
      by_cases hbit : bitmapGet map i = set
      · rw [if_pos hbit, if_pos rfl]
        exact ⟨le_rfl, by omega, hbit, fun p h1 h2 => absurd h1 (by omega)⟩
      · rw [if_neg hbit]
        have hnext := ih (i + 1)
        have hskip : ∀ p, i ≤ p → p < i + 1 → bitmapGet map p ≠ set := by
          intro p h1 h2
          obtain rfl : p = i := by omega
          exact hbit
        cases hfound : bitmapFindNthLoop map 1 set left (i + 1) 0 with
        | none =>
            rw [hfound] at hnext
            intro p h1 h2
            by_cases hp : p < i + 1
            · exact hskip p h1 hp
            · exact hnext p (by omega) (by omega)
        | some b =>
            rw [hfound] at hnext
            obtain ⟨hle, hlt, hb, hfirst⟩ := hnext
            refine ⟨by omega, by omega, hb, fun p h1 h2 => ?_⟩
            by_cases hp : p < i + 1
            · exact hskip p h1 hp
            · exact hfirst p (by omega) h2

theorem bitmapFindNth_one (map : Bitmap) (size start : ℕ) (set : Bool) :
    bitmapFindNth map size 1 start set =
      bitmapFindNthLoop map 1 set (size - start) start 0 := by
  by_cases hsize : size = 0
  · subst hsize
    rw [bitmapFindNth, if_pos (Or.inl rfl), Nat.zero_sub, bitmapFindNthLoop]
  · rw [bitmapFindNth, if_neg (by omega)]

theorem bitmapFindNth_one_eq_some {b : ℕ}
    (h : bitmapFindNth map size 1 start set = some b) :
    start ≤ b ∧ b < size ∧ bitmapGet map b = set ∧
      ∀ p, start ≤ p → p < b → bitmapGet map p ≠ set := by
  have hloop := bitmapFindNthLoop_first map set (size - start) start
  rw [← bitmapFindNth_one, h] at hloop
  obtain ⟨hle, hlt, hb, hfirst⟩ := hloop
  exact ⟨hle, by omega, hb, hfirst⟩

theorem bitmapFindNth_one_eq_none
    (h : bitmapFindNth map size 1 start set = none) :
    ∀ p, start ≤ p → p < size → bitmapGet map p ≠ set := by
  have hloop := bitmapFindNthLoop_first map set (size - start) start
  rw [← bitmapFindNth_one, h] at hloop
  exact fun p h1 h2 => hloop p h1 (by omega)

/-- The scan finds the bit of the value that has the right number of them before it. -/
theorem bitmapFindNthLoop_eq_some_iff {nth left i count b : ℕ} (hcount : count < nth) :
    bitmapFindNthLoop map nth set left i count = some b ↔
      i ≤ b ∧ b < i + left ∧ bitmapGet map b = set ∧
        count + Nat.count (bitmapGet map · = set) b + 1 =
          nth + Nat.count (bitmapGet map · = set) i := by
  induction left generalizing i count with
  | zero =>
      rw [bitmapFindNthLoop]
      refine iff_of_false (by simp) ?_
      rintro ⟨hle, hlt, -⟩
      omega
  | succ left ih =>
      have hsucc := Nat.count_succ (bitmapGet map · = set) i
      rw [bitmapFindNthLoop]
      by_cases hbit : bitmapGet map i = set
      · rw [if_pos hbit] at hsucc ⊢
        by_cases hlast : count + 1 = nth
        · rw [if_pos hlast]
          constructor
          · rintro ⟨rfl⟩
            exact ⟨le_rfl, by omega, hbit, by omega⟩
          · rintro ⟨hle, -, -, heq⟩
            by_contra hne
            have hlt : i + 1 ≤ b := by
              rcases Nat.lt_or_eq_of_le hle with hlt | rfl
              · exact hlt
              · exact absurd rfl hne
            have hmono := Nat.count_monotone (bitmapGet map · = set) hlt
            omega
        · rw [if_neg hlast, ih (by omega), hsucc]
          constructor
          · rintro ⟨hle, hlt, hb, heq⟩
            exact ⟨by omega, by omega, hb, by omega⟩
          · rintro ⟨hle, hlt, hb, heq⟩
            have hne : b ≠ i := fun hbi => by
              rw [hbi] at heq
              omega
            exact ⟨by omega, by omega, hb, by omega⟩
      · rw [if_neg hbit] at hsucc ⊢
        rw [ih hcount, hsucc]
        constructor
        · rintro ⟨hle, hlt, hb, heq⟩
          exact ⟨by omega, by omega, hb, by omega⟩
        · rintro ⟨hle, hlt, hb, heq⟩
          have hne : b ≠ i := fun hbi => hbit (hbi ▸ hb)
          exact ⟨by omega, by omega, hb, by omega⟩

theorem bitmapFindNth_eq_some_iff {nth b : ℕ} (hnth : 0 < nth) :
    bitmapFindNth map size nth 0 set = some b ↔
      b < size ∧ bitmapGet map b = set ∧ Nat.count (bitmapGet map · = set) b + 1 = nth := by
  rw [bitmapFindNth]
  by_cases hsize : size = 0
  · rw [if_pos (.inl hsize)]
    refine iff_of_false (by simp) ?_
    rintro ⟨hlt, -⟩
    omega
  · rw [if_neg (by omega), bitmapFindNthLoop_eq_some_iff hnth, Nat.count_zero]
    constructor
    · rintro ⟨-, hlt, hb, heq⟩
      exact ⟨by omega, hb, by omega⟩
    · rintro ⟨hlt, hb, heq⟩
      exact ⟨Nat.zero_le b, by omega, hb, by omega⟩

theorem bitmapCount_eq_count (map : Bitmap) (n : ℕ) (set : Bool) :
    bitmapCount map 0 n set = Nat.count (bitmapGet map · = set) n := by
  rw [bitmapCount, Nat.sub_zero, ← List.range_eq_range', Nat.count]

/-- No run of `n` bits starts in the window `[c, i)`. -/
def NoRunBetween (map : Bitmap) (set : Bool) (n c i : ℕ) : Prop :=
  ∀ p, c ≤ p → p < i → ¬ IsRun (bitmapGet map) set p n

theorem noRunBetween_short {i k : ℕ} (hk : k < n)
    (hstop : bitmapGet map (i + k) ≠ set) :
    NoRunBetween map set n i (i + k) := by
  intro p h1 h2 hrun
  exact hstop (hrun.apply (by omega) (by omega))

theorem noRunBetween_skip {i k : ℕ} (hn : 0 < n)
    (hrun : IsRun (bitmapGet map) (!set) i k) :
    NoRunBetween map set n i (i + k) := by
  intro p h1 h2 hset
  have hp := hrun.apply h1 h2
  have hp' := hset.apply (le_refl p) (by omega)
  rw [hp'] at hp
  cases set <;> simp at hp

theorem NoRunBetween.trans {c i k : ℕ} (h : NoRunBetween map set n c i)
    (h' : NoRunBetween map set n i k) : NoRunBetween map set n c k := by
  intro p h1 h2
  by_cases hp : p < i
  · exact h p h1 hp
  · exact h' p (by omega) h2

/-- The search loop stops at the first start of a run at or after the bit it is
called on, or beyond the window. -/
theorem bitmapFindConsecLoop_spec (fuel : ℕ) {i : ℕ} (hn : 0 < n)
    (hsize : size ≤ sizeMax)
    (hbit : i < size → bitmapGet map i = set) (hfuel : size ≤ i + fuel) :
    i ≤ bitmapFindConsecLoop map size n fuel i ∧
      NoRunBetween map set n i (min size (bitmapFindConsecLoop map size n fuel i)) ∧
      (bitmapFindConsecLoop map size n fuel i < size →
        IsRun (bitmapGet map) set (bitmapFindConsecLoop map size n fuel i) n) := by
  induction fuel generalizing i with
  | zero =>
      rw [bitmapFindConsecLoop]
      exact ⟨le_rfl, fun p h1 h2 => absurd h1 (by omega), fun h => absurd h (by omega)⟩
  | succ fuel ih =>
      rw [bitmapFindConsecLoop]
      by_cases hi : i < size
      swap
      · rw [if_neg hi]
        exact ⟨le_rfl, fun p h1 h2 => absurd h1 (by omega), fun h => absurd h hi⟩
      rw [if_pos hi]
      have hset := hbit hi
      obtain ⟨hrun, hstop⟩ := bitmapCountConsecutive_spec map size i n
      rw [hset] at hrun hstop
      dsimp only
      generalize hcount : bitmapCountConsecutive map size i n = count at hrun hstop ⊢
      by_cases hshort : count < n
      swap
      · rw [if_neg hshort]
        exact ⟨le_rfl, fun p h1 h2 => absurd h1 (by omega),
          fun _ => hrun.mono (Nat.not_lt.mp hshort)⟩
      rw [if_pos hshort]
      have hpos : 0 < count := by
        by_contra hzero
        obtain rfl : count = 0 := by omega
        exact hstop hshort hset
      -- the bits after the short run hold the other value; skip them
      have hflip : bitmapGet map (i + count) = !set := by
        have hne := hstop hshort
        cases set <;> simpa using hne
      obtain ⟨hrun', hstop'⟩ :=
        bitmapCountConsecutive_spec map size (i + count) sizeMax
      rw [hflip] at hrun' hstop'
      generalize bitmapCountConsecutive map size (i + count) sizeMax = skip
        at hrun' hstop' ⊢
      have hno : NoRunBetween map set n i (i + count + skip) :=
        (noRunBetween_short hshort (hstop hshort)).trans
          (noRunBetween_skip (by omega) hrun')
      have hnext : i + count + skip < size →
          bitmapGet map (i + count + skip) = set := by
        intro hlt
        have hne := hstop' (by omega)
        cases set <;> simpa using hne
      obtain ⟨hle, hnone, hfound⟩ := ih hnext (by omega)
      refine ⟨by omega, ?_, hfound⟩
      intro p h1 h2
      by_cases hp : p < i + count + skip
      · exact hno p h1 hp
      · exact hnone p (by omega) h2

/-- `bitmap_find_consec` answers the first start of a run of `n` bits in the
window `[start, size)`, wherever that run ends. -/
theorem bitmapFindConsec_eq_some_iff (hn : 0 < n) (hsize : size ≤ sizeMax) {b : ℕ} :
    bitmapFindConsec map size start n set = some b ↔
      FirstRun (bitmapGet map) set size n start b := by
  rw [bitmapFindConsec]
  cases hfind : bitmapFindNth map size 1 start set with
  | none =>
      constructor
      · intro h
        cases h
      · intro h
        have hbit := h.run.apply (le_refl b) (by omega)
        exact absurd hbit (bitmapFindNth_one_eq_none hfind b h.start_le h.lt_size)
  | some i =>
      obtain ⟨hle, hlt, hbit, hskip⟩ := bitmapFindNth_one_eq_some hfind
      obtain ⟨hge, hnone, hrun⟩ :=
        bitmapFindConsecLoop_spec size hn hsize (fun _ => hbit) (by omega)
      dsimp only
      generalize bitmapFindConsecLoop map size n size i = e at hge hnone hrun ⊢
      have hbefore : NoRunBetween map set n start i := fun p h1 h2 h =>
        hskip p h1 h2 (h.apply (le_refl p) (by omega))
      have hno := hbefore.trans hnone
      by_cases hsz : size ≤ e
      · rw [if_pos hsz, Nat.min_eq_left hsz] at *
        constructor
        · intro h
          cases h
        · intro h
          exact absurd h.run (hno b h.start_le h.lt_size)
      · rw [if_neg hsz]
        have hfirst : FirstRun (bitmapGet map) set size n start e :=
          { start_le := le_trans hle hge
            lt_size := Nat.not_le.mp hsz
            run := hrun (Nat.not_le.mp hsz)
            first := fun p h1 h2 => hno p h1 (by omega) }
        constructor
        · intro h
          cases h
          exact hfirst
        · intro h
          rw [h.unique hfirst]

theorem bitmapFindConsec_eq_none_iff (hn : 0 < n) (hsize : size ≤ sizeMax) :
    bitmapFindConsec map size start n set = none ↔
      NoRunBetween map set n start size := by
  constructor
  · intro h p h1 h2 hrun
    obtain ⟨b, -, hfirst⟩ := exists_firstRun h1 h2 hrun
    rw [(bitmapFindConsec_eq_some_iff hn hsize).mpr hfirst] at h
    cases h
  · intro h
    cases hfind : bitmapFindConsec map size start n set with
    | none => rfl
    | some b =>
        have hfirst := (bitmapFindConsec_eq_some_iff hn hsize).mp hfind
        exact absurd hfirst.run (h b hfirst.start_le hfirst.lt_size)

end Search

/-! ## Marking -/

/-- The number of bits `bitmap_set_consecutive` sets: `n`, except that a call
with `n = 0` sets the rest of the word it starts in. -/
def consecSpan (start n : ℕ) : ℕ :=
  if n = 0 then granuleLen - start % granuleLen else n

theorem consecSpan_of_pos (start : ℕ) {n : ℕ} (hn : 0 < n) :
    consecSpan start n = n := if_neg (by omega)

theorem bitmapGet_or_update {map : Bitmap} {pos : ℕ} {g : Granule} {len j : ℕ}
    (hg : ∀ i < granuleLen, g.getLsbD i =
      decide (pos % granuleLen ≤ i ∧ i < pos % granuleLen + len))
    (hlen : pos % granuleLen + len ≤ granuleLen) :
    bitmapGet (Function.update map (pos / granuleLen)
        (map (pos / granuleLen) ||| g)) j =
      (bitmapGet map j || decide (pos ≤ j ∧ j < pos + len)) := by
  have hmod : j % granuleLen < granuleLen := Nat.mod_lt _ (by decide)
  rw [bitmapGet_update]
  unfold granuleLen at *
  by_cases h : j / 32 = pos / 32
  · rw [if_pos h, BitVec.getLsbD_or, hg _ hmod, bitmapGet_eq_getLsbD]
    unfold granuleLen
    rw [h]
    congr 1
    exact decide_eq_decide.mpr (by omega)
  · rw [if_neg h]
    have hout : ¬ (pos ≤ j ∧ j < pos + len) := by omega
    rw [decide_eq_false hout, Bool.or_false]

/-- What the word loop of `bitmap_set_consecutive` leaves behind: the bits up to
the position `r.2.1` are set, and fewer than a word remains. -/
structure WordsDone (map : Bitmap) (pos count : ℕ) (r : Bitmap × ℕ × ℕ) : Prop where
  sum : r.2.1 + r.2.2 = pos + count
  aligned : r.2.1 % granuleLen = 0 ∨ r.2.2 = 0
  short : r.2.2 < granuleLen
  le : pos ≤ r.2.1
  get : ∀ j, bitmapGet r.1 j = (bitmapGet map j || decide (pos ≤ j ∧ j < r.2.1))

theorem wordsDone_self {map : Bitmap} {pos count : ℕ}
    (hpos : pos % granuleLen = 0 ∨ count = 0) (hcount : count < granuleLen) :
    WordsDone map pos count (map, pos, count) where
  sum := rfl
  aligned := hpos
  short := hcount
  le := le_rfl
  get := by
    intro j
    have hout : ¬ (pos ≤ j ∧ j < pos) := by omega
    rw [decide_eq_false hout, Bool.or_false]

theorem setWords_done (fuel : ℕ) :
    ∀ (map : Bitmap) (pos count : ℕ), pos % granuleLen = 0 ∨ count = 0 →
      count ≤ fuel → WordsDone map pos count (setWords fuel map pos count) := by
  induction fuel with
  | zero =>
      intro map pos count hpos hfuel
      exact wordsDone_self hpos (by unfold granuleLen; omega)
  | succ fuel ih =>
      intro map pos count hpos hfuel
      rw [setWords]
      by_cases hstep : granuleLen ≤ count
      swap
      · rw [if_neg hstep]
        exact wordsDone_self hpos (Nat.not_le.mp hstep)
      rw [if_pos hstep]
      have hal : pos % granuleLen = 0 := by unfold granuleLen at *; omega
      have hones : ∀ i < granuleLen, (BitVec.allOnes 32).getLsbD i =
          decide (pos % granuleLen ≤ i ∧ i < pos % granuleLen + granuleLen) := by
        intro i hi
        rw [BitVec.getLsbD_allOnes, hal]
        exact decide_eq_decide.mpr (by unfold granuleLen at *; omega)
      have hdone := ih
        (Function.update map (pos / granuleLen)
          (map (pos / granuleLen) ||| BitVec.allOnes 32))
        (pos + granuleLen) (count - granuleLen)
        (Or.inl (by rw [Nat.add_mod_right, hal])) (by unfold granuleLen at *; omega)
      have hsum := hdone.sum
      have hle := hdone.le
      refine ⟨by omega, hdone.aligned, hdone.short, by omega, fun j => ?_⟩
      rw [hdone.get, bitmapGet_or_update hones (by rw [hal, Nat.zero_add]),
        Bool.or_assoc, ← Bool.decide_or]
      congr 1
      exact decide_eq_decide.mpr (by omega)

/-- `bitmap_set_consecutive` sets the bits `[start, start + n)` and no other. -/
theorem bitmapGet_bitmapSetConsecutive (map : Bitmap) (start n j : ℕ) :
    bitmapGet (bitmapSetConsecutive map start n) j =
      (bitmapGet map j ||
        decide (start ≤ j ∧ j < start + consecSpan start n)) := by
  have hmod : start % granuleLen < granuleLen := Nat.mod_lt _ (by decide)
  -- the bits the first word contributes
  have hfirst : ∀ i < granuleLen,
      (granuleMask (start % granuleLen)
        (min (granuleLen - start % granuleLen) n)).getLsbD i =
      decide (start % granuleLen ≤ i ∧ i < start % granuleLen +
        min (granuleLen - start % granuleLen) (consecSpan start n)) := by
    intro i hi
    by_cases hn : n = 0
    · rw [hn, Nat.min_zero, getLsbD_granuleMask_len_zero hi, consecSpan, if_pos rfl]
      exact decide_eq_decide.mpr (by omega)
    · rw [consecSpan_of_pos start (by omega), getLsbD_granuleMask (by omega) (by omega)]
  unfold bitmapSetConsecutive
  dsimp only
  generalize hlen : min (granuleLen - start % granuleLen) n = len at hfirst ⊢
  have hdone := setWords_done n
    (Function.update map (start / granuleLen)
      (map (start / granuleLen) ||| granuleMask (start % granuleLen) len))
    (start + len) (n - len) (by unfold granuleLen at *; omega) (by omega)
  generalize setWords n _ (start + len) (n - len) = r at hdone ⊢
  have hsum := hdone.sum
  have hle := hdone.le
  have hspan : consecSpan start n = n ∨ n = 0 ∧ len = 0 ∧
      consecSpan start n = granuleLen - start % granuleLen := by
    unfold consecSpan
    split_ifs <;> omega
  by_cases hleft : 0 < r.2.2
  · rw [if_pos hleft]
    have hal : r.2.1 % granuleLen = 0 := by
      rcases hdone.aligned with h | h
      · exact h
      · omega
    have hlast : ∀ i < granuleLen, (granuleMask 0 r.2.2).getLsbD i =
        decide (r.2.1 % granuleLen ≤ i ∧ i < r.2.1 % granuleLen + r.2.2) := by
      intro i _
      rw [hal, getLsbD_granuleMask hleft (by have := hdone.short; omega)]
    rw [bitmapGet_or_update hlast (by rw [hal]; have := hdone.short; omega),
      hdone.get, bitmapGet_or_update hfirst (by omega), Bool.or_assoc, Bool.or_assoc,
      ← Bool.decide_or, ← Bool.decide_or]
    congr 1
    exact decide_eq_decide.mpr (by omega)
  · rw [if_neg hleft, hdone.get, bitmapGet_or_update hfirst (by omega), Bool.or_assoc,
      ← Bool.decide_or]
    congr 1
    exact decide_eq_decide.mpr (by omega)

end Bitmap

end BaoHypervisor
