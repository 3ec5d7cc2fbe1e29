import BaoHypervisor.Theory.Decimal
import Mathlib.Data.BitVec
import Mathlib.Tactic.Ring

/-!
# Formatted printing

`vsprintk` of `lib/printk.c`. A string is the list of its characters without the NUL, and the
buffer is the list of what has been written. An argument is a register or a string; one that is
not there or not of the kind asked for, and a format that ends in the middle of a conversion,
answer `none`.

A decimal number is printed by subtracting falling powers of ten from `10 ^ 9` on. A number of more
than ten digits leaves more than 9 for the first of them, which no character stands for.
-/

namespace BaoHypervisor

namespace Printk

open Decimal

abbrev CChar := BitVec 8

def chr (c : Char) : CChar := BitVec.ofNat 8 c.toNat

inductive VaArg
  | word (w : BitVec 64)
  | str (s : List CChar)

abbrev printTextLen : ℕ := 0x100

/-- `va_arg` of an unsigned type. -/
def vaUnsigned (isLong : Bool) (w : BitVec 64) : BitVec 64 :=
  if isLong then w else (w.setWidth 32).setWidth 64

/-- `va_arg` of a signed type. -/
def vaSigned (isLong : Bool) (w : BitVec 64) : BitVec 64 :=
  if isLong then w else (w.setWidth 32).signExtend 64

def digitChar (digit : ℕ) : CChar := BitVec.ofNat 8 (digit + 0x30)

/-! ## Numbers -/

/-- The digits of a hexadecimal number from the digit `i` on. -/
def hexLoop (zeroPadding : Bool) (number : BitVec 64) (length : ℕ) :
    ℕ → ℕ → Bool → List CChar
  | 0, _, _ => []
  | left + 1, i, keepZeros =>
      let byte := (number >>> (length * 4 - (i + 1) * 4)).setWidth 8 &&& 0xF#8
      let keepZeros := keepZeros || byte ≠ 0#8 || i = length - 1
      (if keepZeros || zeroPadding then
        [if byte ≤ 9#8 then byte + 0x30#8 else byte + (0x61#8 - 0xa#8)]
      else []) ++ hexLoop zeroPadding number length left (i + 1) keepZeros

def hexText (zeroPadding isLong : Bool) (w : BitVec 64) : List CChar :=
  let length := if isLong then 16 else 8
  hexLoop zeroPadding (vaUnsigned isLong w) length length 0 false

/-- The loop that divides by subtracting: what is left of the number, and the quotient. -/
def subtractLoop (divisor : ℕ) : ℕ → ℕ → ℕ → ℕ × ℕ
  | 0, number, quotient => (number, quotient)
  | fuel + 1, number, quotient =>
      if divisor ≤ number then subtractLoop divisor fuel (number - divisor) (quotient + 1)
      else (number, quotient)

def newDivVal : ℕ → ℕ → ℕ
  | 0, value => value
  | j + 1, value => newDivVal j (value * 10)

/-- `max_num_zeros`: the digits in front of the last one. -/
abbrev maxNumZeros : ℕ := 9

/-- The digits in front of the last one from the digit `i` on, and what is left of the number. -/
def digitLoop (zeroPadding : Bool) : ℕ → ℕ → ℕ → ℕ → Bool → List CChar × ℕ
  | 0, _, number, _, _ => ([], number)
  | left + 1, i, number, divisor, keepZeros =>
      let r := subtractLoop divisor number number 0
      let keepZeros := keepZeros || r.2 ≠ 0
      let rest := digitLoop zeroPadding left (i + 1) r.1 (newDivVal (maxNumZeros - 1 - i) 1)
        keepZeros
      ((if keepZeros || zeroPadding then [digitChar r.2] else []) ++ rest.1, rest.2)

def digitText (zeroPadding : Bool) (number : BitVec 64) : List CChar :=
  let r := digitLoop zeroPadding maxNumZeros 0 number.toNat 1000000000 false
  r.1 ++ [digitChar r.2]

def decimalText (isUnsigned zeroPadding isLong : Bool) (w : BitVec 64) : List CChar :=
  if isUnsigned then digitText zeroPadding (vaUnsigned isLong w)
  else
    let numberSigned := vaSigned isLong w
    if numberSigned.toInt < 0 then chr '-' :: digitText zeroPadding (-numberSigned)
    else digitText zeroPadding numberSigned

/-! ## Formats -/

/-- What a conversion writes, the arguments behind its own, and the length counted so far. -/
def convert (ch : CChar) (zeroPadding isLong : Bool) (len : ℕ) (args : List VaArg) :
    Option (List CChar × List VaArg × ℕ) :=
  if ch = chr 'x' then
    match args with
    | .word w :: args => some (hexText zeroPadding isLong w, args, len)
    | _ => none
  else if ch = chr 'u' ∨ ch = chr 'i' ∨ ch = chr 'd' then
    match args with
    | .word w :: args => some (decimalText (ch = chr 'u') zeroPadding isLong w, args, len)
    | _ => none
  else if ch = chr 's' then
    match args with
    | .str s :: args =>
        let copied := s.take (printTextLen - len)
        some (copied, args, len + copied.length)
    | _ => none
  else if ch = chr 'c' then
    match args with
    | .word w :: args => some ([w.setWidth 8], args, len)
    | _ => none
  else if ch = chr '%' then some ([chr '%'], args, len)
  else if ch = chr '\t' then some ([chr '%', chr '\t'], args, len)
  else if ch = chr '\n' then some ([chr '%', chr '\r', chr '\n'], args, len)
  else some ([], args, len)

def lineEnd (ch : CChar) : List CChar :=
  if ch = chr '\n' then [chr '\r', chr '\n'] else if ch = chr '\t' then [chr '\t'] else []

def takeFlag (flag : CChar) : List CChar → Bool × List CChar
  | [] => (false, [])
  | ch :: fmt => if ch = flag then (true, fmt) else (false, ch :: fmt)

theorem length_takeFlag_le (flag : CChar) (fmt : List CChar) :
    (takeFlag flag fmt).2.length ≤ fmt.length := by
  cases fmt with
  | nil => exact le_rfl
  | cons ch fmt =>
      rw [takeFlag]
      split_ifs
      · exact Nat.le_succ _
      · exact le_rfl

/-- The rest of the loop of `vsprintk` over the format. -/
def vsprintkLoop : List CChar → List VaArg → ℕ → Option (List CChar)
  | [], _, _ => some []
  | ch :: fmt, args, len =>
      if ch ≠ chr '%' ∧ ch ≠ chr '\n' ∧ ch ≠ chr '\t' then
        (vsprintkLoop fmt args len).map (ch :: ·)
      else if ch = chr '%' then
        let zero := takeFlag (chr '0') fmt
        let long := takeFlag (chr 'l') zero.2
        match _hconv : long.2 with
        | [] => none
        | conv :: rest =>
            (convert conv zero.1 long.1 len args).bind fun r =>
              (vsprintkLoop rest r.2.1 r.2.2).map ((r.1 ++ lineEnd conv) ++ ·)
      else (vsprintkLoop fmt args len).map (lineEnd ch ++ ·)
termination_by fmt => fmt.length
decreasing_by
  · exact Nat.lt_succ_self _
  · have hzero := length_takeFlag_le (chr '0') fmt
    have hlong := length_takeFlag_le (chr 'l') (takeFlag (chr '0') fmt).2
    simp only [long, zero] at _hconv
    rw [_hconv, List.length_cons] at hlong
    exact Nat.lt_succ_of_le (by omega)
  · exact Nat.lt_succ_self _

/-- The text in the buffer and the number returned: `fmt` is at its end by then. -/
def vsprintk (fmt : List CChar) (args : List VaArg) : Option (List CChar × ℕ) :=
  (vsprintkLoop fmt args (min fmt.length printTextLen)).map fun str => (str, 0)

/-! ## Decimal conversions -/

inductive DecimalConv
  | lu
  | ld
  | u
  | d
deriving DecidableEq, Repr

namespace DecimalConv

def format : DecimalConv → List CChar
  | lu => [chr '%', chr 'l', chr 'u']
  | ld => [chr '%', chr 'l', chr 'd']
  | u => [chr '%', chr 'u']
  | d => [chr '%', chr 'd']

/-- The value of an argument that is passed in the register. -/
def value (w : BitVec 64) : DecimalConv → ℤ
  | lu => w.toNat
  | ld => w.toInt
  | u => (w.setWidth 32).toNat
  | d => (w.setWidth 32).toInt

def text (w : BitVec 64) : DecimalConv → List CChar
  | lu => decimalText true false true w
  | ld => decimalText false false true w
  | u => decimalText true false false w
  | d => decimalText false false false w

end DecimalConv

def Numeral (cs : List CChar) (n : ℕ) : Prop :=
  ∃ ds, cs = ds.map digitChar ∧ Canonical ds n

inductive Reads : List CChar → ℤ → Prop
  | nonneg {cs : List CChar} {n : ℕ} (h : Numeral cs n) : Reads cs n
  | neg {cs : List CChar} {n : ℕ} (h : Numeral cs n) : Reads (chr '-' :: cs) (-n)

/-- The conversion of an argument writes the text wherever it stands in a format. -/
def Emits (fmt : List CChar) (arg : VaArg) (out : List CChar) : Prop :=
  ∀ rest args len, vsprintkLoop (fmt ++ rest) (arg :: args) len =
    (vsprintkLoop rest args len).map (out ++ ·)

theorem subtractLoop_eq {divisor : ℕ} (hpos : 0 < divisor) {fuel number : ℕ}
    (hfuel : number ≤ fuel) (quotient : ℕ) :
    subtractLoop divisor fuel number quotient =
      (number % divisor, quotient + number / divisor) := by
  induction fuel generalizing number quotient with
  | zero =>
      obtain rfl : number = 0 := Nat.le_zero.mp hfuel
      rw [subtractLoop, Nat.zero_mod, Nat.zero_div, Nat.add_zero]
  | succ fuel ih =>
      rw [subtractLoop]
      by_cases hle : divisor ≤ number
      · rw [if_pos hle, ih (by omega), Nat.mod_eq_sub_mod hle, Nat.div_eq_sub_div hpos hle,
          Nat.add_assoc, Nat.add_comm 1]
      · rw [if_neg hle, Nat.mod_eq_of_lt (Nat.not_le.mp hle),
          Nat.div_eq_of_lt (Nat.not_le.mp hle), Nat.add_zero]

theorem newDivVal_eq (j value : ℕ) : newDivVal j value = value * 10 ^ j := by
  induction j generalizing value with
  | zero => rw [newDivVal, pow_zero, Nat.mul_one]
  | succ j ih => rw [newDivVal, ih, pow_succ]; ring

/-- The rounds that are left divide by the powers of ten that are left. -/
theorem digitLoop_eq (zeroPadding : Bool) {left : ℕ} (hleft : left ≤ maxNumZeros) (number : ℕ)
    (keepZeros : Bool) :
    (digitLoop zeroPadding left (maxNumZeros - left) number (10 ^ left) keepZeros).1 ++
        [digitChar (digitLoop zeroPadding left (maxNumZeros - left) number (10 ^ left)
          keepZeros).2] =
      (digitsFrom left number (keepZeros || zeroPadding)).map digitChar := by
  induction left generalizing number keepZeros with
  | zero => rfl
  | succ left ih =>
      have hdivisor : newDivVal (maxNumZeros - 1 - (maxNumZeros - (left + 1))) 1 = 10 ^ left := by
        rw [newDivVal_eq, Nat.one_mul]
        congr 1
        omega
      have hnext : maxNumZeros - (left + 1) + 1 = maxNumZeros - left := by omega
      rw [digitLoop, subtractLoop_eq (Nat.pow_pos (by decide)) le_rfl, Nat.zero_add, hdivisor,
        hnext, digitsFrom, List.map_append, List.append_assoc]
      dsimp only
      rw [ih (by omega), Bool.or_right_comm]
      congr 1
      split_ifs <;> rfl

theorem digitText_eq (zeroPadding : Bool) (number : BitVec 64) :
    digitText zeroPadding number =
      (digitsFrom maxNumZeros number.toNat zeroPadding).map digitChar :=
  digitLoop_eq zeroPadding le_rfl number.toNat false

theorem numeral_digitText {number : BitVec 64} (h : number.toNat < 10 ^ 10) :
    Numeral (digitText false number) number.toNat :=
  ⟨_, digitText_eq false number, canonical_digitsFrom h⟩

theorem Numeral.lt {cs : List CChar} {n : ℕ} (h : Numeral cs n) : n < 10 ^ cs.length := by
  obtain ⟨ds, rfl, hds⟩ := h
  rw [List.length_map]
  exact hds.lt

theorem length_digitText_le (number : BitVec 64) : (digitText false number).length ≤ 10 := by
  rw [digitText_eq, List.length_map]
  exact length_digitsFrom_le _ _ _

theorem not_numeral_minus (cs : List CChar) (n : ℕ) : ¬ Numeral (chr '-' :: cs) n := by
  rintro ⟨ds, hcs, hds⟩
  cases ds with
  | nil => cases hcs
  | cons d ds =>
      have hd := hds.digit d List.mem_cons_self
      have hchar : ∀ d < 10, chr '-' ≠ digitChar d := by decide
      exact hchar d hd (List.cons.inj hcs).1

theorem Reads.natAbs_lt {cs : List CChar} {v : ℤ} (h : Reads cs v) :
    v.natAbs < 10 ^ cs.length := by
  cases h with
  | nonneg h => exact h.lt
  | neg h =>
      rw [Int.natAbs_neg, Int.natAbs_natCast, List.length_cons]
      exact h.lt.trans (Nat.pow_lt_pow_right (by decide) (Nat.lt_succ_self _))

theorem Reads.natAbs_lt_of_minus {cs : List CChar} {v : ℤ} (h : Reads (chr '-' :: cs) v) :
    v.natAbs < 10 ^ cs.length := by
  cases h with
  | nonneg h => exact absurd h (not_numeral_minus cs _)
  | neg h =>
      rw [Int.natAbs_neg, Int.natAbs_natCast]
      exact h.lt

theorem toNat_of_toInt_nonneg {s : BitVec 64} (h : ¬ s.toInt < 0) :
    s.toNat = s.toInt.natAbs := by
  rw [BitVec.toInt_eq_toNat_cond] at h ⊢
  have hlt := s.isLt
  split_ifs at h ⊢ <;> omega

theorem toNat_neg_of_toInt_neg {s : BitVec 64} (h : s.toInt < 0) :
    (-s).toNat = s.toInt.natAbs := by
  rw [BitVec.toNat_neg]
  rw [BitVec.toInt_eq_toNat_cond] at h ⊢
  have hlt := s.isLt
  split_ifs at h ⊢ <;> omega

theorem toInt_vaSigned (isLong : Bool) (w : BitVec 64) :
    (vaSigned isLong w).toInt = if isLong then w.toInt else (w.setWidth 32).toInt := by
  cases isLong with
  | true => rfl
  | false => exact BitVec.toInt_signExtend_of_le (by decide)

theorem toNat_vaUnsigned (isLong : Bool) (w : BitVec 64) :
    (vaUnsigned isLong w).toNat = if isLong then w.toNat else (w.setWidth 32).toNat := by
  cases isLong with
  | true => rfl
  | false => exact BitVec.toNat_setWidth_of_le (show 32 ≤ 64 by decide)

/-- What a signed conversion prints is a number of its magnitude, behind a sign if it is
negative. -/
theorem decimalText_signed (isLong : Bool) (w : BitVec 64) :
    ∃ number : BitVec 64, number.toNat = (vaSigned isLong w).toInt.natAbs ∧
      (0 ≤ (vaSigned isLong w).toInt ∧ decimalText false false isLong w = digitText false number ∨
        (vaSigned isLong w).toInt < 0 ∧
          decimalText false false isLong w = chr '-' :: digitText false number) := by
  have htext : decimalText false false isLong w =
      if (vaSigned isLong w).toInt < 0 then chr '-' :: digitText false (-vaSigned isLong w)
      else digitText false (vaSigned isLong w) := rfl
  by_cases hneg : (vaSigned isLong w).toInt < 0
  · rw [if_pos hneg] at htext
    exact ⟨_, toNat_neg_of_toInt_neg hneg, .inr ⟨hneg, htext⟩⟩
  · rw [if_neg hneg] at htext
    exact ⟨_, toNat_of_toInt_nonneg hneg, .inl ⟨Int.not_lt.mp hneg, htext⟩⟩

theorem text_cases (conv : DecimalConv) (w : BitVec 64) :
    ∃ number : BitVec 64, number.toNat = (conv.value w).natAbs ∧
      (0 ≤ conv.value w ∧ conv.text w = digitText false number ∨
        conv.value w < 0 ∧ conv.text w = chr '-' :: digitText false number) := by
  have hlong := decimalText_signed true w
  have hint := decimalText_signed false w
  rw [toInt_vaSigned] at hlong hint
  cases conv with
  | lu => exact ⟨_, toNat_vaUnsigned true w, .inl ⟨Int.natCast_nonneg _, rfl⟩⟩
  | ld => exact hlong
  | u => exact ⟨_, toNat_vaUnsigned false w, .inl ⟨Int.natCast_nonneg _, rfl⟩⟩
  | d => exact hint

/-- The text reads back as the value exactly if that has ten digits at most. -/
theorem reads_text_iff (conv : DecimalConv) (w : BitVec 64) :
    Reads (conv.text w) (conv.value w) ↔ (conv.value w).natAbs < 10 ^ 10 := by
  obtain ⟨number, hnumber, ⟨hsign, htext⟩ | ⟨hsign, htext⟩⟩ := text_cases conv w
  · rw [htext]
    constructor
    · exact fun h => h.natAbs_lt.trans_le
        (Nat.pow_le_pow_right (by decide) (length_digitText_le number))
    · intro hlt
      rw [← hnumber] at hlt
      have hreads := Reads.nonneg (numeral_digitText hlt)
      rwa [hnumber, Int.natAbs_of_nonneg hsign] at hreads
  · rw [htext]
    constructor
    · exact fun h => h.natAbs_lt_of_minus.trans_le
        (Nat.pow_le_pow_right (by decide) (length_digitText_le number))
    · intro hlt
      rw [← hnumber] at hlt
      have hreads := Reads.neg (numeral_digitText hlt)
      rwa [hnumber, Int.ofNat_natAbs_of_nonpos hsign.le, Int.neg_neg] at hreads

example : DecimalConv.ld.text (-1020#64) = [chr '-', chr '1', chr '0', chr '2', chr '0'] := by
  decide

theorem takeFlag_cons_self (flag : CChar) (fmt : List CChar) :
    takeFlag flag (flag :: fmt) = (true, fmt) := if_pos rfl

theorem takeFlag_cons_of_ne {flag ch : CChar} (h : ch ≠ flag) (fmt : List CChar) :
    takeFlag flag (ch :: fmt) = (false, ch :: fmt) := if_neg h

theorem vsprintkLoop_percent {fmt rest : List CChar} {ch : CChar}
    (h : (takeFlag (chr 'l') (takeFlag (chr '0') fmt).2).2 = ch :: rest) (args : List VaArg)
    (len : ℕ) :
    vsprintkLoop (chr '%' :: fmt) args len =
      (convert ch (takeFlag (chr '0') fmt).1 (takeFlag (chr 'l') (takeFlag (chr '0') fmt).2).1
        len args).bind fun r =>
          (vsprintkLoop rest r.2.1 r.2.2).map ((r.1 ++ lineEnd ch) ++ ·) := by
  rw [vsprintkLoop, if_neg fun hplain => hplain.1 rfl, if_pos rfl]
  dsimp only
  split
  · next hnil => cases h.symm.trans hnil
  · next hcons =>
      cases h.symm.trans hcons
      rfl

/-- A conversion without the flag for zeros. -/
theorem emits_of_convert {arg : VaArg} {out : List CChar} (ch : CChar) (isLong : Bool)
    (hzero : ch ≠ chr '0') (hlong : ch ≠ chr 'l') (hend : lineEnd ch = [])
    (hconv : ∀ len args, convert ch false isLong len (arg :: args) = some (out, args, len)) :
    Emits (chr '%' :: (if isLong then [chr 'l', ch] else [ch])) arg out := by
  intro rest args len
  cases isLong with
  | false =>
      have htake : ∀ flag, ch ≠ flag → takeFlag flag (ch :: rest) = (false, ch :: rest) :=
        fun flag h => takeFlag_cons_of_ne h rest
      have hflags : (takeFlag (chr 'l') (takeFlag (chr '0') (ch :: rest)).2).2 = ch :: rest := by
        rw [htake _ hzero, htake _ hlong]
      rw [if_neg Bool.false_ne_true, List.cons_append, List.singleton_append,
        vsprintkLoop_percent hflags, htake _ hzero, htake _ hlong, hconv, Option.bind_some, hend,
        List.append_nil]
  | true =>
      have htake : takeFlag (chr '0') (chr 'l' :: ch :: rest) = (false, chr 'l' :: ch :: rest) :=
        takeFlag_cons_of_ne (by decide) _
      have hflags : (takeFlag (chr 'l')
          (takeFlag (chr '0') (chr 'l' :: ch :: rest)).2).2 = ch :: rest := by
        rw [htake, takeFlag_cons_self]
      rw [if_pos rfl, List.cons_append, List.cons_append, List.singleton_append,
        vsprintkLoop_percent hflags, htake, takeFlag_cons_self, hconv, Option.bind_some, hend,
        List.append_nil]

theorem emits_format (conv : DecimalConv) (w : BitVec 64) :
    Emits conv.format (.word w) (conv.text w) := by
  cases conv with
  | lu => exact emits_of_convert (chr 'u') true (by decide) (by decide) (by decide) fun _ _ => rfl
  | ld => exact emits_of_convert (chr 'd') true (by decide) (by decide) (by decide) fun _ _ => rfl
  | u => exact emits_of_convert (chr 'u') false (by decide) (by decide) (by decide) fun _ _ => rfl
  | d => exact emits_of_convert (chr 'd') false (by decide) (by decide) (by decide) fun _ _ => rfl

theorem vsprintk_format (conv : DecimalConv) (w : BitVec 64) :
    vsprintk conv.format [.word w] = some (conv.text w, 0) := by
  have hemits := emits_format conv w [] [] (min conv.format.length printTextLen)
  rw [List.append_nil, vsprintkLoop, Option.map_some, List.append_nil] at hemits
  rw [vsprintk, hemits, Option.map_some]

theorem Emits.unique {fmt : List CChar} {arg : VaArg} {out out' : List CChar}
    (h : Emits fmt arg out) (h' : Emits fmt arg out') : out = out' := by
  have heq := (h [] [] 0).symm.trans (h' [] [] 0)
  rw [vsprintkLoop, Option.map_some, Option.map_some, List.append_nil, List.append_nil] at heq
  exact Option.some.inj heq

/-- What `vsprintk` writes for a decimal conversion reads back as the argument exactly if that has
ten digits at most. -/
theorem emits_reads_iff (conv : DecimalConv) (w : BitVec 64) :
    (∃ out, Emits conv.format (.word w) out ∧ Reads out (conv.value w)) ↔
      (conv.value w).natAbs < 10 ^ 10 := by
  rw [← reads_text_iff]
  constructor
  · rintro ⟨out, hemits, hreads⟩
    rwa [hemits.unique (emits_format conv w)] at hreads
  · exact fun h => ⟨_, emits_format conv w, h⟩

/-- An argument of 32 bits always does. -/
theorem natAbs_value_lt (w : BitVec 64) :
    (DecimalConv.u.value w).natAbs < 10 ^ 10 ∧ (DecimalConv.d.value w).natAbs < 10 ^ 10 := by
  have hlt := (w.setWidth 32).isLt
  have hint := BitVec.toInt_eq_toNat_cond (w.setWidth 32)
  constructor
  · rw [DecimalConv.value, Int.natAbs_natCast]
    omega
  · rw [DecimalConv.value]
    split_ifs at hint <;> omega

/-- Ten thousand million is printed as a colon and nine zeros. -/
theorem not_emits_reads_tenDigits :
    Emits DecimalConv.lu.format (.word 10000000000#64) (chr ':' :: List.replicate 9 (chr '0')) ∧
      ¬ ∃ out, Emits DecimalConv.lu.format (.word 10000000000#64) out ∧
        Reads out (DecimalConv.lu.value 10000000000#64) := by
  have htext : DecimalConv.lu.text 10000000000#64 = chr ':' :: List.replicate 9 (chr '0') := by
    have heq := digitText_eq false (vaUnsigned true 10000000000#64)
    exact heq.trans (by decide)
  have hemits := emits_format .lu 10000000000#64
  refine ⟨htext ▸ hemits, ?_⟩
  rintro ⟨out, hout, hreads⟩
  rw [hout.unique hemits, reads_text_iff] at hreads
  exact absurd hreads (by decide)

end Printk

end BaoHypervisor
