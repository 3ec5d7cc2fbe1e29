import BaoHypervisor.Lib.BitmapRun

/-!
# The words a search reads

The search of `Bitmap` again, on a map of which only the first `words` words may be read. The
source reads a word before it looks at its counters, so the checked functions ask for the word
first in each round. A read beyond the last word answers `none`; there is no other way to get it:
the loops are given as many rounds as the counters let through.
-/

namespace BaoHypervisor

namespace Bitmap

open BitRun

/-- `BITMAP_SIZE`: the number of words that hold the bits. -/
def bitmapSize (size : ℕ) : ℕ :=
  size / granuleLen + if size % granuleLen = 0 then 0 else 1

def wordWithin (map : Bitmap) (words w : ℕ) : Option Granule :=
  if w < words then some (map w) else none

def bitmapGetWithin (map : Bitmap) (words bit : ℕ) : Option Bool :=
  (wordWithin map words (bit / granuleLen)).map fun w =>
    (w &&& (1#32 <<< (bit % granuleLen))) != 0#32

def findNthLoopWithin (map : Bitmap) (words nth : ℕ) (set : Bool) :
    ℕ → ℕ → ℕ → Option (Option ℕ)
  | 0, _, _ => some none
  | left + 1, i, count => do
      let bit ← bitmapGetWithin map words i
      if bit = set then
        if count + 1 = nth then some (some i)
        else findNthLoopWithin map words nth set left (i + 1) (count + 1)
      else findNthLoopWithin map words nth set left (i + 1) count

def bitmapFindNthWithin (map : Bitmap) (words size nth start : ℕ) (set : Bool) :
    Option (Option ℕ) :=
  if size = 0 ∨ nth = 0 then some none
  else findNthLoopWithin map words nth set (size - start) start 0

def countWordsWithin (map : Bitmap) (words : ℕ) (mask : Granule) (n : ℕ) :
    ℕ → ℕ → ℕ → Option (ℕ × ℕ)
  | 0, pos, count => do
      let _ ← wordWithin map words (pos / granuleLen)
      some (pos, count)
  | fuel + 1, pos, count => do
      let word ← wordWithin map words (pos / granuleLen)
      if word ^^^ mask = 0#32 ∧ count < n then
        countWordsWithin map words mask n fuel (pos + granuleLen) (count + granuleLen)
      else some (pos, count)

def countBitsWithin (map : Bitmap) (words : ℕ) (set : Bool) (n : ℕ) :
    ℕ → ℕ → ℕ → Option ℕ
  | 0, pos, count => do
      let _ ← bitmapGetWithin map words pos
      some count
  | fuel + 1, pos, count => do
      let bit ← bitmapGetWithin map words pos
      if bit = set ∧ count < n then
        countBitsWithin map words set n fuel (pos + 1) (count + 1)
      else some count

def bitmapCountConsecutiveWithin (map : Bitmap) (words start n : ℕ) : Option ℕ := do
  let startOffset := start % granuleLen
  let firstWordBits := min (granuleLen - startOffset) n
  let set ← bitmapGetWithin map words start
  let initMask := granuleMask startOffset firstWordBits
  if n ≤ 1 then some n
  else
    let word ← wordWithin map words (start / granuleLen)
    let first :=
      if (word ^^^ firstMask set initMask) &&& initMask = 0#32 then
        (start + firstWordBits, firstWordBits)
      else (start, 0)
    let stop ← countWordsWithin map words (fillWord set) n n first.1 first.2
    countBitsWithin map words set n n stop.1 stop.2

def findConsecLoopWithin (map : Bitmap) (words size n : ℕ) : ℕ → ℕ → Option ℕ
  | 0, i => some i
  | fuel + 1, i =>
      if i < size then do
        let count ← bitmapCountConsecutiveWithin map words i n
        if count < n then
          let skip ← bitmapCountConsecutiveWithin map words (i + count) sizeMax
          findConsecLoopWithin map words size n fuel (i + count + skip)
        else some i
      else some i

def bitmapFindConsecWithin (map : Bitmap) (words size start n : ℕ) (set : Bool) :
    Option (Option ℕ) := do
  match ← bitmapFindNthWithin map words size 1 start set with
  | none => some none
  | some i =>
      let i ← findConsecLoopWithin map words size n size i
      if size ≤ i then some none else some (some i)

/-! ## The checked functions against the unchecked ones -/

section Agree

variable {map : Bitmap} {words w bit n : ℕ} {set : Bool}

theorem wordWithin_of_lt (h : w < words) : wordWithin map words w = some (map w) := if_pos h

theorem wordWithin_of_le (h : words ≤ w) : wordWithin map words w = none :=
  if_neg (Nat.not_lt.mpr h)

theorem bitmapGetWithin_of_lt (h : bit / granuleLen < words) :
    bitmapGetWithin map words bit = some (bitmapGet map bit) := by
  rw [bitmapGetWithin, wordWithin_of_lt h, Option.map_some, bitmapGet]

theorem bitmapGetWithin_of_le (h : words ≤ bit / granuleLen) :
    bitmapGetWithin map words bit = none := by
  rw [bitmapGetWithin, wordWithin_of_le h, Option.map_none]

theorem findNthLoopWithin_eq {nth : ℕ} (left : ℕ) {i count : ℕ}
    (h : i + left ≤ granuleLen * words) :
    findNthLoopWithin map words nth set left i count =
      some (bitmapFindNthLoop map nth set left i count) := by
  induction left generalizing i count with
  | zero => rfl
  | succ left ih =>
      rw [findNthLoopWithin, bitmapFindNthLoop,
        bitmapGetWithin_of_lt (Nat.div_lt_of_lt_mul (by omega)), Option.bind_eq_bind,
        Option.bind_some, ih (by omega), ih (by omega)]
      split_ifs <;> rfl

theorem le_countWords (map : Bitmap) (mask : Granule) (n fuel pos count : ℕ) :
    pos ≤ (countWords map mask n fuel pos count).1 := by
  induction fuel generalizing pos count with
  | zero => exact le_rfl
  | succ fuel ih =>
      rw [countWords]
      split_ifs with hstep
      · exact le_trans (Nat.le_add_right _ _) (ih _ _)
      · exact le_rfl

theorem le_countBits (map : Bitmap) (set : Bool) (n fuel pos count : ℕ) :
    count ≤ countBits map set n fuel pos count := by
  induction fuel generalizing pos count with
  | zero => exact le_rfl
  | succ fuel ih =>
      rw [countBits]
      split_ifs with hstep
      · exact le_trans (Nat.le_succ _) (ih _ _)
      · exact le_rfl

/-- The word loop reads up to the word at which it stops. -/
theorem countWordsWithin_eq {mask : Granule} (fuel pos count : ℕ) :
    countWordsWithin map words mask n fuel pos count =
      if (countWords map mask n fuel pos count).1 / granuleLen < words
      then some (countWords map mask n fuel pos count) else none := by
  induction fuel generalizing pos count with
  | zero =>
      rw [countWordsWithin, countWords, wordWithin]
      split_ifs <;> rfl
  | succ fuel ih =>
      have hmono := Nat.div_le_div_right (c := granuleLen) (le_countWords map mask n
        (fuel + 1) pos count)
      by_cases hpos : pos / granuleLen < words
      · rw [countWordsWithin, wordWithin_of_lt hpos, Option.bind_eq_bind, Option.bind_some, ih,
          countWords]
        by_cases hstep : map (pos / granuleLen) ^^^ mask = 0#32 ∧ count < n
        · rw [if_pos hstep, if_pos hstep]
        · rw [if_neg hstep, if_neg hstep, if_pos hpos]
      · rw [countWordsWithin, wordWithin_of_le (Nat.not_lt.mp hpos), if_neg (by omega)]
        rfl

/-- The bit loop reads up to the bit at which it stops. -/
theorem countBitsWithin_eq {start : ℕ} (fuel : ℕ) {pos count : ℕ} (hpos : pos = start + count) :
    countBitsWithin map words set n fuel pos count =
      if (start + countBits map set n fuel pos count) / granuleLen < words
      then some (countBits map set n fuel pos count) else none := by
  induction fuel generalizing pos count with
  | zero =>
      rw [countBitsWithin, countBits, ← hpos, bitmapGetWithin, wordWithin]
      split_ifs <;> rfl
  | succ fuel ih =>
      have hmono := Nat.div_le_div_right (c := granuleLen) (Nat.add_le_add_left
        (le_countBits map set n (fuel + 1) pos count) start)
      by_cases hin : pos / granuleLen < words
      · rw [countBitsWithin, bitmapGetWithin_of_lt hin, Option.bind_eq_bind, Option.bind_some,
          ih (by omega), countBits]
        by_cases hstep : bitmapGet map pos = set ∧ count < n
        · rw [if_pos hstep, if_pos hstep]
        · rw [if_neg hstep, if_neg hstep, if_pos (by rwa [← hpos])]
      · rw [countBitsWithin, bitmapGetWithin_of_le (Nat.not_lt.mp hin),
          if_neg (by rw [hpos] at hin; omega)]
        rfl

/-- A count of two or more reads up to the bit after what it counts. -/
theorem bitmapCountConsecutiveWithin_eq {start : ℕ} (size : ℕ) (hn : ¬ n ≤ 1)
    (hstart : start / granuleLen < words) :
    bitmapCountConsecutiveWithin map words start n =
      if (start + bitmapCountConsecutive map size start n) / granuleLen < words
      then some (bitmapCountConsecutive map size start n) else none := by
  have hpos := (countStop_counted map start (n := n) (by omega)).pos_eq
  have hmono : (countStop map start n).1 / granuleLen ≤
      (start + bitmapCountConsecutive map size start n) / granuleLen := by
    rw [hpos, bitmapCountConsecutive_eq map size start hn]
    exact Nat.div_le_div_right (Nat.add_le_add_left (le_countBits _ _ _ _ _ _) _)
  have heq : bitmapCountConsecutiveWithin map words start n =
      (countWordsWithin map words (fillWord (bitmapGet map start)) n n
        (countFirst map start n).1 (countFirst map start n).2).bind fun stop =>
          countBitsWithin map words (bitmapGet map start) n n stop.1 stop.2 := by
    rw [bitmapCountConsecutiveWithin, bitmapGetWithin_of_lt hstart, wordWithin_of_lt hstart]
    exact if_neg hn
  have hstop : countWordsWithin map words (fillWord (bitmapGet map start)) n n
      (countFirst map start n).1 (countFirst map start n).2 =
        if (countStop map start n).1 / granuleLen < words
        then some (countStop map start n) else none := countWordsWithin_eq _ _ _
  rw [heq, hstop]
  by_cases hin : (countStop map start n).1 / granuleLen < words
  · rw [if_pos hin, Option.bind_some, countBitsWithin_eq n hpos,
      ← bitmapCountConsecutive_eq map size start hn]
  · rw [if_neg hin, if_neg (by omega)]
    rfl

end Agree

/-! ## How far a count goes -/

section Reach

variable {map : Bitmap} {set : Bool} {words start n : ℕ}

/-- A run that is counted `n` bits far stays inside the `bits` bits of the map: one bit is
counted, or the run ends inside, or the last word is not reached, or the count begins in the last
word and leaves a bit of it. -/
def CountStays (f : ℕ → Bool) (bits n i : ℕ) : Prop :=
  n ≤ 1 ∨ (∃ q, i ≤ q ∧ q < bits ∧ f q ≠ f i) ∨ i + n + granuleLen ≤ bits ∨
    (bits ≤ i + granuleLen ∧ i + n < bits)

theorem countWords_lt {mask : Granule} (fuel : ℕ) {pos count : ℕ} (h : count < n + granuleLen) :
    (countWords map mask n fuel pos count).2 < n + granuleLen := by
  induction fuel generalizing pos count with
  | zero => exact h
  | succ fuel ih =>
      rw [countWords]
      split_ifs with hstep
      · exact ih (Nat.add_lt_add_right hstep.2 _)
      · exact h

theorem countWords_of_le {mask : Granule} (fuel : ℕ) {pos count : ℕ} (h : n ≤ count) :
    countWords map mask n fuel pos count = (pos, count) := by
  cases fuel with
  | zero => rfl
  | succ fuel =>
      rw [countWords, if_neg]
      rintro ⟨-, hlt⟩
      omega

theorem countBits_le (fuel : ℕ) {pos count : ℕ} :
    countBits map set n fuel pos count ≤ max n count := by
  induction fuel generalizing pos count with
  | zero => exact le_max_right _ _
  | succ fuel ih =>
      rw [countBits]
      split_ifs with hstep
      · exact le_trans ih (max_le (le_max_left _ _) (le_trans hstep.2 (le_max_left _ _)))
      · exact le_max_right _ _

theorem countWords_stop {mask : Granule} (fuel : ℕ) {pos count : ℕ} (hfuel : n ≤ count + fuel) :
    n ≤ (countWords map mask n fuel pos count).2 ∨
      map ((countWords map mask n fuel pos count).1 / granuleLen) ^^^ mask ≠ 0#32 := by
  induction fuel generalizing pos count with
  | zero => exact .inl hfuel
  | succ fuel ih =>
      rw [countWords]
      by_cases hstep : map (pos / granuleLen) ^^^ mask = 0#32 ∧ count < n
      · rw [if_pos hstep]
        exact ih (by unfold granuleLen; omega)
      · rw [if_neg hstep]
        by_cases hword : map (pos / granuleLen) ^^^ mask = 0#32
        · exact .inl (Nat.not_lt.mp fun hlt => hstep ⟨hword, hlt⟩)
        · exact .inr hword

theorem countWords_aligned {mask : Granule} (fuel : ℕ) {pos count : ℕ}
    (hpos : pos % granuleLen = 0) :
    (countWords map mask n fuel pos count).1 % granuleLen = 0 := by
  induction fuel generalizing pos count with
  | zero => exact hpos
  | succ fuel ih =>
      rw [countWords]
      split_ifs with hstep
      · exact ih (by rw [Nat.add_mod_right, hpos])
      · exact hpos

theorem countFirst_le (map : Bitmap) (start n : ℕ) :
    (countFirst map start n).2 ≤ min (granuleLen - start % granuleLen) n := by
  unfold countFirst
  dsimp only
  split_ifs
  · exact le_rfl
  · exact Nat.zero_le _

theorem bitmapCountConsecutive_lt (map : Bitmap) (size start n : ℕ) :
    bitmapCountConsecutive map size start n < n + granuleLen := by
  by_cases hn : n ≤ 1
  · have hcount : bitmapCountConsecutive map size start n = n := if_pos hn
    rw [hcount]
    exact Nat.lt_add_of_pos_right (by decide)
  · have hfirst := countFirst_le map start n
    have hstop : (countStop map start n).2 < n + granuleLen :=
      countWords_lt n (by unfold granuleLen at *; omega)
    have hbits : countBits map (bitmapGet map start) n n (countStop map start n).1
        (countStop map start n).2 ≤ max n (countStop map start n).2 := countBits_le n
    rw [← bitmapCountConsecutive_eq map size start hn] at hbits
    unfold granuleLen at *
    omega

theorem xor_fillWord_of_isRun {pos : ℕ} (hpos : pos % granuleLen = 0)
    (hrun : IsRun (bitmapGet map) set pos granuleLen) :
    map (pos / granuleLen) ^^^ fillWord set = 0#32 := by
  rw [BitVec.xor_eq_zero_iff]
  apply BitVec.eq_of_getLsbD_eq
  intro i hi
  have hbit := hrun i hi
  rw [bitmapGet_add (by rw [hpos, Nat.zero_add]; exact hi), hpos, Nat.zero_add] at hbit
  rw [hbit, getLsbD_fillWord hi]

theorem countFirst_of_isRun (hn : 0 < n)
    (hrun : IsRun (bitmapGet map) (bitmapGet map start) start
      (min (granuleLen - start % granuleLen) n)) :
    countFirst map start n = (start + min (granuleLen - start % granuleLen) n,
      min (granuleLen - start % granuleLen) n) := by
  have hmod : start % granuleLen < granuleLen := Nat.mod_lt _ (by decide)
  unfold countFirst
  dsimp only
  exact if_pos ((firstWord_iff (by omega) (by omega)).mpr hrun)

theorem bitmapCountConsecutive_le (size : ℕ) (hn : ¬ n ≤ 1)
    (hword : start % granuleLen + n ≤ granuleLen)
    (hrun : IsRun (bitmapGet map) (bitmapGet map start) start n) :
    bitmapCountConsecutive map size start n ≤ n := by
  have hlen : min (granuleLen - start % granuleLen) n = n := by omega
  have hrun' : IsRun (bitmapGet map) (bitmapGet map start) start
      (min (granuleLen - start % granuleLen) n) := by rwa [hlen]
  have hfirst := countFirst_of_isRun (by omega) hrun'
  rw [bitmapCountConsecutive_eq map size start hn, countStop, hfirst, hlen,
    countWords_of_le n le_rfl]
  exact le_trans (countBits_le n) (max_le le_rfl le_rfl)

/-- A run that goes on to the end of the map is counted into the last word only if it is counted
beyond it. -/
theorem countStays_of_isRun {size : ℕ} (hn : ¬ n ≤ 1)
    (hrun : IsRun (bitmapGet map) (bitmapGet map start) start (granuleLen * words - start))
    (hlt : start + bitmapCountConsecutive map size start n < granuleLen * words) :
    start + n + granuleLen ≤ granuleLen * words ∨
      (granuleLen * words ≤ start + granuleLen ∧ start + n < granuleLen * words) := by
  have hcount : n ≤ bitmapCountConsecutive map size start n := by
    by_contra hshort
    exact (bitmapCountConsecutive_spec map size start n).2 (Nat.not_le.mp hshort)
      (hrun _ (by omega))
  by_cases hlast : granuleLen * words ≤ start + granuleLen
  · exact .inr ⟨hlast, by omega⟩
  refine .inl ?_
  by_cases hword : start % granuleLen + n ≤ granuleLen
  · unfold granuleLen at *
    omega
  -- the word loop begins on a boundary, and stops before the end of the map
  have hlen : min (granuleLen - start % granuleLen) n = granuleLen - start % granuleLen := by
    omega
  have hrun' : IsRun (bitmapGet map) (bitmapGet map start) start
      (min (granuleLen - start % granuleLen) n) := hrun.mono (by unfold granuleLen at *; omega)
  have hfirst := countFirst_of_isRun (by omega) hrun'
  have hpos := (countStop_counted map start (n := n) (by omega)).pos_eq
  have halign : (countStop map start n).1 % granuleLen = 0 := by
    refine countWords_aligned n ?_
    rw [hfirst, hlen]
    unfold granuleLen at *
    omega
  have hle : (countStop map start n).2 ≤ bitmapCountConsecutive map size start n := by
    rw [bitmapCountConsecutive_eq map size start hn]
    exact le_countBits _ _ _ _ _ _
  have hfull : IsRun (bitmapGet map) (bitmapGet map start) (countStop map start n).1
      granuleLen := fun j hj =>
    hrun.apply (by omega) (by unfold granuleLen at *; omega)
  have hdone : n ≤ (countStop map start n).2 :=
    (countWords_stop n (Nat.le_add_left _ _)).resolve_right
      (not_not.mpr (xor_fillWord_of_isRun halign hfull))
  unfold granuleLen at *
  omega

theorem countStays_iff (map : Bitmap) (size : ℕ) (hn : ¬ n ≤ 1)
    (hstart : start < granuleLen * words) :
    start + bitmapCountConsecutive map size start n < granuleLen * words ↔
      CountStays (bitmapGet map) (granuleLen * words) n start := by
  have hspec := bitmapCountConsecutive_spec map size start n
  by_cases hends : ∃ q, start ≤ q ∧ q < granuleLen * words ∧
      bitmapGet map q ≠ bitmapGet map start
  · refine iff_of_true ?_ (.inr (.inl hends))
    obtain ⟨q, hle, hlt, hne⟩ := hends
    by_contra hover
    exact hne (hspec.1.apply hle (by omega))
  have hrun : IsRun (bitmapGet map) (bitmapGet map start) start (granuleLen * words - start) := by
    intro j hj
    by_contra hne
    exact hends ⟨start + j, by omega, by omega, hne⟩
  constructor
  · exact fun hlt => .inr (.inr (countStays_of_isRun hn hrun hlt))
  · rintro (hone | hex | hle | ⟨hlast, hlt⟩)
    · exact absurd hone hn
    · exact absurd hex hends
    · have hbound := bitmapCountConsecutive_lt map size start n
      omega
    · have hbound := bitmapCountConsecutive_le size hn (by unfold granuleLen at *; omega)
        (hrun.mono (by omega : n ≤ granuleLen * words - start))
      omega

/-- The checked count answers exactly if the run stays inside the map. -/
theorem bitmapCountConsecutiveWithin_cases (map : Bitmap) (size n : ℕ)
    (hstart : start < granuleLen * words) :
    CountStays (bitmapGet map) (granuleLen * words) n start ∧
        bitmapCountConsecutiveWithin map words start n =
          some (bitmapCountConsecutive map size start n) ∨
      ¬ CountStays (bitmapGet map) (granuleLen * words) n start ∧
        bitmapCountConsecutiveWithin map words start n = none := by
  have hword : start / granuleLen < words := Nat.div_lt_of_lt_mul hstart
  by_cases hn : n ≤ 1
  · refine .inl ⟨.inl hn, ?_⟩
    rw [bitmapCountConsecutiveWithin, bitmapGetWithin_of_lt hword, bitmapCountConsecutive,
      if_pos hn]
    exact if_pos hn
  · rw [bitmapCountConsecutiveWithin_eq size hn hword, ← countStays_iff map size hn hstart,
      Nat.mul_comm, ← Nat.div_lt_iff_lt_mul (by decide)]
    by_cases hin : (start + bitmapCountConsecutive map size start n) / granuleLen < words
    · exact .inl ⟨hin, if_pos hin⟩
    · exact .inr ⟨hin, if_neg hin⟩

end Reach

/-! ## Searching -/

section Search

variable {map : Bitmap} {words size start n : ℕ} {set : Bool}

/-- The search from `c` on stays inside the `bits` bits of the map: the first run it is after is
counted inside, or there is none and it comes to a halt at the start of a run between `size` and
the end of the map. -/
def SearchStays (map : Bitmap) (set : Bool) (size bits n c : ℕ) : Prop :=
  (∃ p, FirstRun (bitmapGet map) set size n c p ∧ CountStays (bitmapGet map) bits n p) ∨
    (NoRunBetween map set n c size ∧
      ∃ q, size ≤ q ∧ q < bits ∧ bitmapGet map q = set ∧ bitmapGet map (q - 1) ≠ set)

/-- A window that begins with positions at which no run starts can be cut. -/
theorem searchStays_congr {bits c i : ℕ} (hle : c ≤ i) (hno : NoRunBetween map set n c i) :
    SearchStays map set size bits n c ↔ SearchStays map set size bits n i := by
  refine or_congr (exists_congr fun p => and_congr_left fun _ => ?_) (and_congr_left fun _ => ?_)
  · constructor
    · intro h
      refine ⟨?_, h.lt_size, h.run, fun p' h1 h2 => h.first p' (le_trans hle h1) h2⟩
      by_contra hlt
      exact hno p h.start_le (Nat.not_le.mp hlt) h.run
    · intro h
      refine ⟨le_trans hle h.start_le, h.lt_size, h.run, fun p' h1 h2 => ?_⟩
      by_cases hp : p' < i
      · exact hno p' h1 hp
      · exact h.first p' (Nat.not_lt.mp hp) h2
  · constructor
    · exact fun h p h1 h2 => h p (le_trans hle h1) h2
    · exact fun h => hno.trans h

theorem ne_of_eq_not {f : ℕ → Bool} {q : ℕ} (h : f q = !set) : f q ≠ set := by
  rw [h]
  cases set <;> decide

/-- A count that leaves the map leaves it in a run that neither is long enough nor comes to a
halt. -/
theorem not_searchStays_of_not_countStays (hle : size ≤ granuleLen * words)
    (hstart : start < size) (hset : bitmapGet map start = set)
    (hout : ¬ CountStays (bitmapGet map) (granuleLen * words) n start) :
    ¬ SearchStays map set size (granuleLen * words) n start := by
  unfold CountStays at hout
  push Not at hout
  obtain ⟨hone, hrun, hlong, hlast⟩ := hout
  rintro (⟨p, hfirst, hstays⟩ | ⟨-, q, hsize, hlt, -, hne⟩)
  · have hge := hfirst.start_le
    have hp := hfirst.lt_size
    rcases Nat.eq_or_lt_of_le hge with rfl | hgt
    · rcases hstays with h | ⟨q, h1, h2, h3⟩ | h | ⟨h1, h2⟩
      · omega
      · exact h3 (hrun q h1 h2)
      · omega
      · have := hlast h1
        omega
    · refine hfirst.first start le_rfl hgt fun j hj => ?_
      have hin : start + j < granuleLen * words := by
        rcases hstays with h | ⟨q, h1, h2, h3⟩ | h | ⟨h1, h2⟩
        · omega
        · exact absurd ((hrun q (by omega) h2).trans (hrun p hge (by omega)).symm) h3
        · omega
        · omega
      rw [hrun _ (by omega) hin, hset]
  · exact hne ((hrun (q - 1) (by omega) (by omega)).trans hset)

theorem not_searchStays_of_gap {bits k : ℕ} (hle : size ≤ bits) (hstart : start < size)
    (hk : k < n) (hrun : IsRun (bitmapGet map) set start k)
    (hgap : ∀ q, start + k ≤ q → q < bits → bitmapGet map q = !set) (hin : start + k < bits) :
    ¬ SearchStays map set size bits n start := by
  rintro (⟨p, hfirst, -⟩ | ⟨-, q, hsize, hlt, hset, hne⟩)
  · have hge := hfirst.start_le
    have hp := hfirst.lt_size
    have hn : 0 < n := Nat.lt_of_le_of_lt (Nat.zero_le k) hk
    by_cases hpk : p < start + k
    · exact ne_of_eq_not (hgap (start + k) le_rfl hin) (hfirst.run.apply hpk.le (by omega))
    · exact ne_of_eq_not (hgap p (by omega) (by omega))
        (hfirst.run.apply le_rfl (by omega))
  · by_cases hq : q < start + k
    · exact hne (hrun.apply (by omega) (by omega))
    · exact ne_of_eq_not (hgap q (by omega) hlt) hset

/-- The loop of the search reads only the map exactly if the search stays inside it. -/
theorem isSome_findConsecLoopWithin_iff (hn : 0 < n) (hle : size ≤ granuleLen * words)
    (hmax : granuleLen * words ≤ sizeMax + 1) (fuel : ℕ) {i : ℕ} (hfuel : size ≤ i + fuel)
    (hbit : i < size → bitmapGet map i = set) :
    (findConsecLoopWithin map words size n fuel i).isSome ↔
      size ≤ i ∨ SearchStays map set size (granuleLen * words) n i := by
  induction fuel generalizing i with
  | zero => exact iff_of_true rfl (.inl hfuel)
  | succ fuel ih =>
      rw [findConsecLoopWithin]
      by_cases hi : i < size
      swap
      · rw [if_neg hi]
        exact iff_of_true rfl (.inl (Nat.not_lt.mp hi))
      rw [if_pos hi, or_iff_right (Nat.not_le.mpr hi)]
      have hset := hbit hi
      obtain ⟨hrun, hstop⟩ := bitmapCountConsecutive_spec map size i n
      rw [hset] at hrun hstop
      rcases bitmapCountConsecutiveWithin_cases map size n
        (Nat.lt_of_lt_of_le hi hle) with ⟨hstays, hcount⟩ | ⟨hout, hcount⟩
      swap
      · rw [hcount]
        exact iff_of_false (by simp)
          (not_searchStays_of_not_countStays hle hi hset hout)
      rw [hcount, Option.bind_eq_bind, Option.bind_some]
      generalize hlen : bitmapCountConsecutive map size i n = count at hrun hstop ⊢
      by_cases hshort : count < n
      swap
      · rw [if_neg hshort]
        refine iff_of_true rfl (.inl ⟨i, ⟨le_rfl, hi, hrun.mono (Nat.not_lt.mp hshort), ?_⟩,
          hstays⟩)
        exact fun p h1 h2 => absurd h1 (by omega)
      rw [if_pos hshort]
      have hne := hstop hshort
      have hpos : 0 < count := by
        by_contra hzero
        obtain rfl : count = 0 := by omega
        exact hne hset
      have hin : i + count < granuleLen * words := by
        have hiff := countStays_iff map size (n := n) (by omega) (Nat.lt_of_lt_of_le hi hle)
        rw [hlen] at hiff
        exact hiff.mpr hstays
      have hflip : bitmapGet map (i + count) = !set := by
        cases set <;> simpa using hne
      obtain ⟨hrun', hstop'⟩ := bitmapCountConsecutive_spec map size (i + count) sizeMax
      rw [hflip] at hrun' hstop'
      rw [bitmapCountConsecutiveWithin_eq size (by decide) (Nat.div_lt_of_lt_mul hin)]
      generalize bitmapCountConsecutive map size (i + count) sizeMax = skip at hrun' hstop' ⊢
      by_cases hskip : i + count + skip < granuleLen * words
      swap
      · have hread : ¬ (i + count + skip) / granuleLen < words := by
          rwa [Nat.div_lt_iff_lt_mul (by decide), Nat.mul_comm]
        rw [if_neg hread]
        refine iff_of_false (by simp) (not_searchStays_of_gap hle hi hshort hrun ?_ hin)
        exact fun q h1 h2 => hrun'.apply h1 (by omega)
      rw [if_pos (Nat.div_lt_of_lt_mul hskip), Option.bind_some]
      have hhalt : bitmapGet map (i + count + skip) = set := by
        have hdiff := hstop' (by omega)
        cases set <;> simpa using hdiff
      have hskips : 0 < skip := by
        by_contra hzero
        obtain rfl : skip = 0 := by omega
        exact hne hhalt
      have hno : NoRunBetween map set n i (i + count + skip) :=
        (noRunBetween_short hshort hne).trans (noRunBetween_skip hn hrun')
      rw [ih (by omega) fun _ => hhalt, searchStays_congr (by omega) hno]
      refine or_iff_right_of_imp fun hsize => (searchStays_congr (by omega) hno).mp (.inr ⟨?_, ?_⟩)
      · exact fun p h1 h2 => hno p h1 (by omega)
      · exact ⟨i + count + skip, hsize, hskip, hhalt,
          ne_of_eq_not (hrun'.apply (by omega) (by omega))⟩

theorem le_bitmapSize (size : ℕ) : size ≤ granuleLen * bitmapSize size := by
  unfold bitmapSize granuleLen
  split_ifs <;> omega

theorem bitmapSize_le (hmax : size ≤ sizeMax) :
    granuleLen * bitmapSize size ≤ sizeMax + 1 := by
  unfold bitmapSize granuleLen sizeMax at *
  split_ifs <;> omega

/-- `bitmap_find_consec` ends and reads no word behind the map exactly if there is no bit of the
value in the window or the search stays inside the map. -/
theorem isSome_bitmapFindConsecWithin_iff (hstart : start < size) (hn : 0 < n)
    (hmax : size ≤ sizeMax) :
    (bitmapFindConsecWithin map (bitmapSize size) size start n set).isSome ↔
      (∀ p, start ≤ p → p < size → bitmapGet map p ≠ set) ∨
        SearchStays map set size (granuleLen * bitmapSize size) n start := by
  have hle := le_bitmapSize size
  have hnth : bitmapFindNthWithin map (bitmapSize size) size 1 start set =
      some (bitmapFindNth map size 1 start set) := by
    rw [bitmapFindNthWithin, if_neg (by omega), findNthLoopWithin_eq _ (by omega),
      bitmapFindNth_one]
  rw [bitmapFindConsecWithin, hnth, Option.bind_eq_bind, Option.bind_some]
  cases hfind : bitmapFindNth map size 1 start set with
  | none => exact iff_of_true rfl (.inl (bitmapFindNth_one_eq_none hfind))
  | some i =>
      obtain ⟨hge, hlt, hbit, hskip⟩ := bitmapFindNth_one_eq_some hfind
      have hno : NoRunBetween map set n start i := fun p h1 h2 h =>
        hskip p h1 h2 (h.apply le_rfl (by omega))
      have hloop := isSome_findConsecLoopWithin_iff hn hle (bitmapSize_le hmax) size
        (by omega) fun _ => hbit
      rw [or_iff_right (Nat.not_le.mpr hlt), ← searchStays_congr hge hno] at hloop
      rw [or_iff_right fun h => h i hge hlt hbit, ← hloop]
      dsimp only
      cases findConsecLoopWithin map (bitmapSize size) size n size i with
      | none => exact iff_of_false (by simp) (by simp)
      | some j =>
          rw [Option.bind_eq_bind, Option.bind_some]
          refine iff_of_true ?_ rfl
          split_ifs <;> rfl

/-- Free pages at the end of a word: the count goes on to the word behind the map. -/
theorem not_isSome_bitmapFindConsecWithin_clear :
    ¬ (bitmapFindConsecWithin (fun _ => 0#32) (bitmapSize 32) 32 0 32 false).isSome := by
  decide

theorem isSome_bitmapFindConsecWithin_iff_clear :
    (bitmapFindConsecWithin (fun _ => 0#32) (bitmapSize 32) 32 0 32 false).isSome ↔
      (∀ p, 0 ≤ p → p < 32 → bitmapGet (fun _ => 0#32) p ≠ false) ∨
        SearchStays (fun _ => 0#32) false 32 (granuleLen * bitmapSize 32) 32 0 :=
  isSome_bitmapFindConsecWithin_iff (by decide) (by decide) (by decide)

/-! ## What a checked search answers -/

theorem eq_of_bitmapCountConsecutiveWithin (size : ℕ) {count : ℕ}
    (h : bitmapCountConsecutiveWithin map words start n = some count) :
    count = bitmapCountConsecutive map size start n := by
  by_cases hin : start / granuleLen < words
  · have hstart : start < granuleLen * words := by
      rwa [Nat.div_lt_iff_lt_mul (by decide), Nat.mul_comm] at hin
    rcases bitmapCountConsecutiveWithin_cases map size n hstart with
      ⟨-, heq⟩ | ⟨-, heq⟩
    · exact Option.some.inj (h.symm.trans heq)
    · cases h.symm.trans heq
  · rw [bitmapCountConsecutiveWithin, bitmapGetWithin_of_le (Nat.not_lt.mp hin)] at h
    cases h

theorem eq_of_findConsecLoopWithin (fuel : ℕ) {i j : ℕ}
    (h : findConsecLoopWithin map words size n fuel i = some j) :
    j = bitmapFindConsecLoop map size n fuel i := by
  induction fuel generalizing i with
  | zero => exact (Option.some.inj h).symm
  | succ fuel ih =>
      rw [findConsecLoopWithin] at h
      rw [bitmapFindConsecLoop]
      by_cases hi : i < size
      swap
      · rw [if_neg hi] at h ⊢
        exact (Option.some.inj h).symm
      rw [if_pos hi] at h ⊢
      obtain ⟨count, hcount, h⟩ := Option.bind_eq_some_iff.mp h
      rw [← eq_of_bitmapCountConsecutiveWithin size hcount]
      dsimp only
      by_cases hshort : count < n
      · rw [if_pos hshort] at h ⊢
        obtain ⟨skip, hskip, h⟩ := Option.bind_eq_some_iff.mp h
        rw [← eq_of_bitmapCountConsecutiveWithin size hskip]
        exact ih h
      · rw [if_neg hshort] at h ⊢
        exact (Option.some.inj h).symm

/-- A search that stays inside the map answers what the search of the source does, whatever
follows the map. -/
theorem eq_bitmapFindConsec_of_within {r : Option ℕ} (hwords : size ≤ granuleLen * words)
    (h : bitmapFindConsecWithin map words size start n set = some r) :
    r = bitmapFindConsec map size start n set := by
  have hnth : bitmapFindNthWithin map words size 1 start set =
      some (bitmapFindNth map size 1 start set) := by
    by_cases hsize : size = 0
    · rw [bitmapFindNthWithin, bitmapFindNth, if_pos (.inl hsize), if_pos (.inl hsize)]
    · by_cases hstart : start ≤ size
      · rw [bitmapFindNthWithin, if_neg (by omega), findNthLoopWithin_eq _ (by omega),
          bitmapFindNth_one]
      · rw [bitmapFindNthWithin, if_neg (by omega), bitmapFindNth_one,
          Nat.sub_eq_zero_of_le (Nat.le_of_not_le hstart)]
        rfl
  rw [bitmapFindConsecWithin, hnth, Option.bind_eq_bind, Option.bind_some] at h
  rw [bitmapFindConsec]
  cases hfind : bitmapFindNth map size 1 start set with
  | none =>
      rw [hfind] at h
      exact (Option.some.inj h).symm
  | some i =>
      rw [hfind] at h
      obtain ⟨j, hj, h⟩ := Option.bind_eq_some_iff.mp h
      dsimp only
      rw [← eq_of_findConsecLoopWithin size hj]
      split_ifs at h ⊢ <;> exact (Option.some.inj h).symm

end Search

end Bitmap

end BaoHypervisor
