import BaoHypervisor.Theory.BitRun
import Mathlib.Logic.Function.Basic

/-!
# Bitmaps

The bitmaps of `lib/bitmap.c` and `lib/inc/bitmap.h`. A bitmap is the memory
that starts at its base pointer, read in words of `BITMAP_GRANULE_LEN` bits; it
carries no length, so a function that is not told one reads on past the last
word that belongs to the map. Indices and counters are natural numbers: none of
them gets near `2 ^ 64` before the walk leaves the memory of the machine.

The functions answer `none` where the source returns `-1`.
-/

namespace BaoHypervisor

/-- A word of a bitmap, `bitmap_granule_t`. -/
abbrev Granule := BitVec 32

/-- The memory a bitmap pointer points to, one word per index. -/
abbrev Bitmap := ℕ → Granule

namespace Bitmap

abbrev granuleLen : ℕ := 32

/-- The largest `size_t`, which is what the source writes as `-1`. -/
abbrev sizeMax : ℕ := 2 ^ 64 - 1

/-- `BITMAP_GRANULE_MASK`. The inner shift amount `len - 1` reaches the shifter
as its low five bits, so a mask of length zero comes out as all ones. -/
def granuleMask (off len : ℕ) : Granule :=
  (((1#32 <<< ((len + 31) % granuleLen)) <<< 1) - 1#32) <<< off

theorem getLsbD_granuleMask_zero :
    ∀ (len : Fin 33) (j : Fin 32), len ≠ 0 →
      (granuleMask 0 len).getLsbD j = decide (j.val < len.val) := by
  decide

/-- A mask of positive length covers the bits `[off, off + len)` of the word. -/
theorem getLsbD_granuleMask {off len j : ℕ} (hpos : 0 < len)
    (hlen : off + len ≤ granuleLen) :
    (granuleMask off len).getLsbD j = decide (off ≤ j ∧ j < off + len) := by
  unfold granuleLen at hlen
  have hshift : granuleMask off len = granuleMask 0 len <<< off := by
    simp [granuleMask]
  rw [hshift, BitVec.getLsbD_shiftLeft]
  by_cases hj : off ≤ j ∧ j < 32
  · have hmask := getLsbD_granuleMask_zero ⟨len, by omega⟩ ⟨j - off, by omega⟩
      (by simp [Fin.ext_iff]; omega)
    simp only at hmask
    rw [hmask]
    simp only [hj.2, decide_true, Bool.true_and, Nat.not_lt.mpr hj.1,
      decide_false, Bool.not_false]
    exact decide_eq_decide.mpr (by omega)
  · have hout : ¬ (off ≤ j ∧ j < off + len) := by omega
    rw [decide_eq_false hout]
    by_cases hlt : j < 32
    · have hoff : j < off := by omega
      simp [hoff]
    · simp [hlt]

theorem getLsbD_granuleMask_len_zero {off j : ℕ} (hj : j < granuleLen) :
    (granuleMask off 0).getLsbD j = decide (off ≤ j) := by
  have hones : granuleMask off 0 = BitVec.allOnes 32 <<< off := by
    simp only [granuleMask]
    congr 1
  rw [hones, BitVec.getLsbD_shiftLeft, BitVec.getLsbD_allOnes]
  unfold granuleLen at hj
  by_cases hoff : off ≤ j
  · simp [hj, hoff, Nat.not_lt.mpr hoff]
    omega
  · simp [hj, hoff, Nat.lt_of_not_le hoff]

def bitmapSet (map : Bitmap) (bit : ℕ) : Bitmap :=
  Function.update map (bit / granuleLen)
    (map (bit / granuleLen) ||| (1#32 <<< (bit % granuleLen)))

def bitmapClear (map : Bitmap) (bit : ℕ) : Bitmap :=
  Function.update map (bit / granuleLen)
    (map (bit / granuleLen) &&& ~~~(1#32 <<< (bit % granuleLen)))

def bitmapGet (map : Bitmap) (bit : ℕ) : Bool :=
  (map (bit / granuleLen) &&& (1#32 <<< (bit % granuleLen))) != 0#32

theorem bitmapGet_eq_getLsbD (map : Bitmap) (bit : ℕ) :
    bitmapGet map bit = (map (bit / granuleLen)).getLsbD (bit % granuleLen) := by
  have hlt : bit % granuleLen < 32 := Nat.mod_lt _ (by decide)
  rw [bitmapGet, ← BitVec.twoPow_eq, BitVec.and_twoPow]
  cases h : (map (bit / granuleLen)).getLsbD (bit % granuleLen) with
  | false => simp
  | true =>
      have hne : BitVec.twoPow 32 (bit % granuleLen) ≠ 0#32 := by
        intro h0
        have hbit := congrArg (fun w => w.getLsbD (bit % granuleLen)) h0
        simp [hlt] at hbit
      simpa using hne

theorem bitmapGet_congr {map map' : Bitmap} {bit : ℕ}
    (h : map (bit / granuleLen) = map' (bit / granuleLen)) :
    bitmapGet map bit = bitmapGet map' bit := by
  rw [bitmapGet, bitmapGet, h]

theorem bitmapGet_update (map : Bitmap) (w : ℕ) (g : Granule) (bit : ℕ) :
    bitmapGet (Function.update map w g) bit =
      if bit / granuleLen = w then g.getLsbD (bit % granuleLen)
      else bitmapGet map bit := by
  by_cases h : bit / granuleLen = w
  · rw [if_pos h, bitmapGet_eq_getLsbD, h, Function.update_self]
  · rw [if_neg h]
    exact bitmapGet_congr (Function.update_of_ne h g map)

theorem forall_word_eq_iff {map map' : Bitmap} {n : ℕ} :
    (∀ w < n, map w = map' w) ↔
      ∀ bit < n * granuleLen, bitmapGet map bit = bitmapGet map' bit := by
  constructor
  · intro h bit hbit
    rw [bitmapGet_eq_getLsbD, bitmapGet_eq_getLsbD,
      h _ (Nat.div_lt_of_lt_mul (Nat.mul_comm _ _ ▸ hbit))]
  · intro h w hw
    refine BitVec.eq_of_getLsbD_eq fun i hi => ?_
    have hbit := h (w * granuleLen + i) (by unfold granuleLen; omega)
    have hdiv : (w * granuleLen + i) / granuleLen = w := by unfold granuleLen; omega
    have hmod : (w * granuleLen + i) % granuleLen = i := by unfold granuleLen; omega
    rwa [bitmapGet_eq_getLsbD, bitmapGet_eq_getLsbD, hdiv, hmod] at hbit

theorem bitmapGet_bitmapSet (map : Bitmap) (bit j : ℕ) :
    bitmapGet (bitmapSet map bit) j = (bitmapGet map j || decide (j = bit)) := by
  rw [bitmapSet, bitmapGet_update, ← BitVec.twoPow_eq]
  split_ifs with h
  · rw [BitVec.getLsbD_or, BitVec.getLsbD_twoPow, bitmapGet_eq_getLsbD, h]
    congr 1
    have hlt : bit % granuleLen < 32 := Nat.mod_lt _ (by decide)
    rw [decide_eq_true hlt, Bool.true_and]
    exact decide_eq_decide.mpr (by unfold granuleLen at *; omega)
  · have hne : j ≠ bit := fun hj => h (by rw [hj])
    simp [hne]

theorem bitmapGet_bitmapClear (map : Bitmap) (bit j : ℕ) :
    bitmapGet (bitmapClear map bit) j = (bitmapGet map j && !decide (j = bit)) := by
  rw [bitmapClear, bitmapGet_update, ← BitVec.twoPow_eq]
  have hlt : j % granuleLen < 32 := Nat.mod_lt _ (by decide)
  split_ifs with h
  · rw [BitVec.getLsbD_and, BitVec.getLsbD_not, BitVec.getLsbD_twoPow,
      bitmapGet_eq_getLsbD, h, decide_eq_true hlt, Bool.true_and]
    congr 2
    have hlt' : bit % granuleLen < 32 := Nat.mod_lt _ (by decide)
    rw [decide_eq_true hlt', Bool.true_and]
    exact decide_eq_decide.mpr (by unfold granuleLen at *; omega)
  · have hne : j ≠ bit := fun hj => h (by rw [hj])
    simp [hne]

theorem bitmapClear_eq_self_iff {map : Bitmap} {bit : ℕ} :
    bitmapClear map bit = map ↔ bitmapGet map bit = false := by
  constructor
  · intro h
    have hget := bitmapGet_bitmapClear map bit bit
    rwa [h, decide_eq_true rfl, Bool.not_true, Bool.and_false] at hget
  · intro h
    rw [bitmapGet_eq_getLsbD] at h
    rw [bitmapClear, Function.update_eq_self_iff, ← BitVec.twoPow_eq]
    refine BitVec.eq_of_getLsbD_eq fun i hi => ?_
    rw [BitVec.getLsbD_and, BitVec.getLsbD_not, BitVec.getLsbD_twoPow, decide_eq_true hi,
      Bool.true_and]
    by_cases hbit : bit % granuleLen = i
    · rw [← hbit, h, Bool.false_and]
    · rw [decide_eq_false hbit, Bool.and_false, Bool.not_false, Bool.and_true]

def bitmapClearConsecutive (map : Bitmap) (start : ℕ) : ℕ → Bitmap
  | 0 => map
  | n + 1 => bitmapClear (bitmapClearConsecutive map start n) (start + n)

theorem bitmapGet_bitmapClearConsecutive (map : Bitmap) (start n j : ℕ) :
    bitmapGet (bitmapClearConsecutive map start n) j =
      (bitmapGet map j && !decide (start ≤ j ∧ j < start + n)) := by
  induction n with
  | zero =>
      have hnot : decide (start ≤ j ∧ j < start + 0) = false :=
        decide_eq_false (by omega)
      rw [hnot, bitmapClearConsecutive, Bool.not_false, Bool.and_true]
  | succ n ih =>
      rw [bitmapClearConsecutive, bitmapGet_bitmapClear, ih, Bool.and_assoc,
        ← Bool.not_or, ← Bool.decide_or]
      congr 2
      exact decide_eq_decide.mpr (by omega)

/-- `bitmap_count`: the bits from `start` to `n` that have the value. -/
def bitmapCount (map : Bitmap) (start n : ℕ) (set : Bool) : ℕ :=
  (List.range' start (n - start)).countP fun i => bitmapGet map i = set

/-- The scan of `bitmap_find_nth`: `left` bits remain, `i` is the next one and
`count` of the bits passed so far had the wanted value. -/
def bitmapFindNthLoop (map : Bitmap) (nth : ℕ) (set : Bool) :
    ℕ → ℕ → ℕ → Option ℕ
  | 0, _, _ => none
  | left + 1, i, count =>
      if bitmapGet map i = set then
        if count + 1 = nth then some i
        else bitmapFindNthLoop map nth set left (i + 1) (count + 1)
      else bitmapFindNthLoop map nth set left (i + 1) count

def bitmapFindNth (map : Bitmap) (size nth start : ℕ) (set : Bool) : Option ℕ :=
  if size = 0 ∨ nth = 0 then none
  else bitmapFindNthLoop map nth set (size - start) start 0

/-- The word all of whose bits are `set`, the `mask` of the second loop of
`bitmap_count_consecutive`. -/
def fillWord (set : Bool) : Granule :=
  if set then BitVec.allOnes 32 else 0#32

theorem getLsbD_fillWord {set : Bool} {i : ℕ} (hi : i < granuleLen) :
    (fillWord set).getLsbD i = set := by
  cases set with
  | false => simp [fillWord]
  | true => rw [fillWord, if_pos rfl, BitVec.getLsbD_allOnes, decide_eq_true hi]

/-- What the first word of `bitmap_count_consecutive` is compared with. -/
def firstMask (set : Bool) (initMask : Granule) : Granule :=
  if set then initMask else ~~~initMask

/-- The second loop of `bitmap_count_consecutive`, over whole words: from
`(pos, count)` to the values it leaves in `pos` and `count`. -/
def countWords (map : Bitmap) (mask : Granule) (n : ℕ) :
    ℕ → ℕ → ℕ → ℕ × ℕ
  | 0, pos, count => (pos, count)
  | fuel + 1, pos, count =>
      if map (pos / granuleLen) ^^^ mask = 0#32 ∧ count < n then
        countWords map mask n fuel (pos + granuleLen) (count + granuleLen)
      else (pos, count)

/-- The last loop of `bitmap_count_consecutive`, bit by bit. -/
def countBits (map : Bitmap) (set : Bool) (n : ℕ) : ℕ → ℕ → ℕ → ℕ
  | 0, _, count => count
  | fuel + 1, pos, count =>
      if bitmapGet map pos = set ∧ count < n then
        countBits map set n fuel (pos + 1) (count + 1)
      else count

/-- The argument `size` of the source is never read; it is kept for the shape
of the calls. Both loops raise `count` in every round that `count < n` lets
through, so `n` rounds are enough. -/
def bitmapCountConsecutive (map : Bitmap) (_size start n : ℕ) : ℕ :=
  let startOffset := start % granuleLen
  let firstWordBits := min (granuleLen - startOffset) n
  let set := bitmapGet map start
  let initMask := granuleMask startOffset firstWordBits
  if n ≤ 1 then n
  else
    let first :=
      if (map (start / granuleLen) ^^^ firstMask set initMask) &&& initMask = 0#32 then
        (start + firstWordBits, firstWordBits)
      else (start, 0)
    let words := countWords map (fillWord set) n n first.1 first.2
    countBits map set n n words.1 words.2

/-- The loop of `bitmap_find_consec` on a position `i` that holds a clear bit
(or a set one, after what is looked for). Every round moves `i` forward. -/
def bitmapFindConsecLoop (map : Bitmap) (size n : ℕ) : ℕ → ℕ → ℕ
  | 0, i => i
  | fuel + 1, i =>
      if i < size then
        let count := bitmapCountConsecutive map size i n
        if count < n then
          let i := i + count
          bitmapFindConsecLoop map size n fuel
            (i + bitmapCountConsecutive map size i sizeMax)
        else i
      else i

def bitmapFindConsec (map : Bitmap) (size start n : ℕ) (set : Bool) : Option ℕ :=
  match bitmapFindNth map size 1 start set with
  | none => none
  | some i =>
      let i := bitmapFindConsecLoop map size n size i
      if size ≤ i then none else some i

/-- The loop of `bitmap_set_consecutive` over whole words: the map, the
position and the number of bits still to set when it ends. -/
def setWords : ℕ → Bitmap → ℕ → ℕ → Bitmap × ℕ × ℕ
  | 0, map, pos, count => (map, pos, count)
  | fuel + 1, map, pos, count =>
      if granuleLen ≤ count then
        setWords fuel
          (Function.update map (pos / granuleLen)
            (map (pos / granuleLen) ||| BitVec.allOnes 32))
          (pos + granuleLen) (count - granuleLen)
      else (map, pos, count)

def bitmapSetConsecutive (map : Bitmap) (start n : ℕ) : Bitmap :=
  let startOffset := start % granuleLen
  let firstWordBits := min (granuleLen - startOffset) n
  let map := Function.update map (start / granuleLen)
    (map (start / granuleLen) ||| granuleMask startOffset firstWordBits)
  let words := setWords n map (start + firstWordBits) (n - firstWordBits)
  if 0 < words.2.2 then
    Function.update words.1 (words.2.1 / granuleLen)
      (words.1 (words.2.1 / granuleLen) ||| granuleMask 0 words.2.2)
  else words.1

end Bitmap

end BaoHypervisor
