import BaoHypervisor.Lib.String
import BaoHypervisor.Lib.Util

/-!
# Copying memory word by word

`memcpy` of `lib/string.c` on machine words, with its pointers and its index as the source moves
them. Of the memory only some bytes can be accessed; a load or a store of any other byte answers
`none`, and so does a loop that is given too few rounds. `Lib.String` has the same function on the
locations of the bytes. Both are in effect `Copy.copyTo`.
-/

namespace BaoHypervisor

abbrev ByteMem := Addr → Option (BitVec 8)

namespace ByteMem

def loadBytes (m : ByteMem) : ℕ → Addr → Option (List (BitVec 8))
  | 0, _ => some []
  | n + 1, a => do
      let b ← m a
      let bs ← loadBytes m n (a + 1#64)
      some (b :: bs)

def storeBytes : List (BitVec 8) → Addr → ByteMem → Option ByteMem
  | [], _, m => some m
  | b :: bs, a, m =>
      if (m a).isSome then storeBytes bs (a + 1#64) (Function.update m a (some b)) else none

def copyAccess (n : ℕ) (dst src : Addr) (m : ByteMem) : Option ByteMem := do
  let bs ← loadBytes m n src
  storeBytes bs dst m

/-- The loop over words: the index and the pointers it stops with, and the memory. -/
def wordLoop (count : SizeT) :
    ℕ → SizeT → Addr → Addr → ByteMem → Option (SizeT × Addr × Addr × ByteMem)
  | 0, _, _, _, _ => none
  | fuel + 1, i, dst, src, m =>
      if i < count then
        if count - 1#64 < i + 7#64 then some (i, dst, src, m)
        else do
          let m ← copyAccess 8 dst src m
          wordLoop count fuel (i + 8#64) (dst + 8#64) (src + 8#64) m
      else some (i, dst, src, m)

def tailLoop (count : SizeT) : ℕ → SizeT → Addr → Addr → ByteMem → Option ByteMem
  | 0, _, _, _, _ => none
  | fuel + 1, i, dst, src, m =>
      if i < count then do
        let m ← copyAccess 1 dst src m
        tailLoop count fuel (i + 1#64) (dst + 1#64) (src + 1#64) m
      else some m

def indexLoop (count : SizeT) (dst src : Addr) : ℕ → SizeT → ByteMem → Option ByteMem
  | 0, _, _ => none
  | fuel + 1, i, m =>
      if i < count then do
        let m ← copyAccess 1 (dst + i) (src + i) m
        indexLoop count dst src fuel (i + 1#64) m
      else some m

/-- `memcpy`: the pointer it returns and the memory. -/
def memcpy (dst src : Addr) (count : SizeT) (m : ByteMem) : Option (Addr × ByteMem) :=
  let fuel := count.toNat + 1
  if src &&& 7#64 = 0#64 ∧ dst &&& 7#64 = 0#64 then do
    let r ← wordLoop count fuel 0#64 dst src m
    if r.1 ≤ count - 1#64 then
      (tailLoop count fuel r.1 r.2.1 r.2.2.1 r.2.2.2).map fun m => (dst, m)
    else some (dst, r.2.2.2)
  else (indexLoop count dst src fuel 0#64 m).map fun m => (dst, m)

def at_ (a : Addr) (k : ℕ) : Addr := a + BitVec.ofNat 64 k

/-- Two ranges that do not overlap, all of whose bytes can be accessed. -/
structure Copyable (dst src : Addr) (count : ℕ) (m : ByteMem) : Prop where
  apart : ∀ j < count, ∀ k < count, at_ src j ≠ at_ dst k
  load : ∀ k < count, (m (at_ src k)).isSome
  store : ∀ k < count, (m (at_ dst k)).isSome

/-- The memory after the first bytes have been copied one by one. -/
def copied (dst src : Addr) (n : ℕ) (m : ByteMem) : ByteMem :=
  Copy.copyTo (at_ dst) (at_ src) n m

section

variable {dst src : Addr} {count n k : ℕ} {m : ByteMem}

theorem at_add (a : Addr) (k n : ℕ) : at_ a k + BitVec.ofNat 64 n = at_ a (k + n) := by
  rw [at_, at_, BitVec.add_assoc, ← BitVec.ofNat_add]

theorem at_zero (a : Addr) : at_ a 0 = a := BitVec.add_zero a

theorem copied_zero (dst src : Addr) (m : ByteMem) : copied dst src 0 m = m := rfl

theorem copied_succ (dst src : Addr) (n : ℕ) (m : ByteMem) :
    copied dst src (n + 1) m =
      Function.update (copied dst src n m) (at_ dst n) (copied dst src n m (at_ src n)) := rfl

theorem Copyable.copied_src (h : Copyable dst src count m) (hn : n ≤ count) (hk : k < count) :
    copied dst src n m (at_ src k) = m (at_ src k) :=
  Copy.copyTo_of_ne m fun j hj => h.apart k hk j (Nat.lt_of_lt_of_le hj hn)

theorem Copyable.copied_isSome (h : Copyable dst src count m) (hn : n ≤ count) {a : Addr}
    (ha : (m a).isSome) : (copied dst src n m a).isSome := by
  induction n with
  | zero => exact ha
  | succ n ih =>
      rw [copied_succ, Function.update_apply]
      split_ifs
      · rw [h.copied_src (Nat.le_of_succ_le hn) hn]
        exact h.load n hn
      · exact ih (Nat.le_of_succ_le hn)

/-- The bytes of a load, taken before its store, are those that are copied one by one. -/
theorem Copyable.storeBytes (h : Copyable dst src count m) {i : ℕ} (hle : i + k + n ≤ count) :
    ∃ bs, loadBytes (copied dst src i m) n (at_ src (i + k)) = some bs ∧
      ByteMem.storeBytes bs (at_ dst (i + k)) (copied dst src (i + k) m) =
        some (copied dst src (i + k + n) m) := by
  induction n generalizing k with
  | zero => exact ⟨[], rfl, rfl⟩
  | succ n ih =>
      obtain ⟨b, hb⟩ := Option.isSome_iff_exists.mp (h.load (i + k) (by omega))
      obtain ⟨bs, hload, hstore⟩ := ih (k := k + 1) (by omega)
      have hread : copied dst src i m (at_ src (i + k)) = some b := by
        rw [h.copied_src (by omega) (by omega), hb]
      have hcell : copied dst src (i + k) m (at_ src (i + k)) = some b := by
        rw [h.copied_src (by omega) (by omega), hb]
      have hnext : Function.update (copied dst src (i + k) m) (at_ dst (i + k)) (some b) =
          copied dst src (i + k + 1) m := by
        rw [← hcell, copied_succ]
      refine ⟨b :: bs, ?_, ?_⟩
      · rw [loadBytes, hread, at_add src (i + k) 1, Nat.add_assoc, hload]
        rfl
      · rw [ByteMem.storeBytes, if_pos (h.copied_isSome (by omega) (h.store _ (by omega))), hnext,
          at_add dst (i + k) 1, Nat.add_assoc i k 1, hstore]
        congr 2
        omega

theorem Copyable.copyAccess (h : Copyable dst src count m) {i : ℕ} (hle : i + n ≤ count) :
    ByteMem.copyAccess n (at_ dst i) (at_ src i) (copied dst src i m) =
      some (copied dst src (i + n) m) := by
  obtain ⟨bs, hload, hstore⟩ := h.storeBytes (k := 0) hle
  rw [Nat.add_zero] at hload hstore
  rw [ByteMem.copyAccess, hload]
  exact hstore

end

section Loops

variable {dst src : Addr} {count : SizeT} {m : ByteMem}

theorem ofNat_lt_iff (count : SizeT) {i : ℕ} (hi : i < 2 ^ 64) :
    BitVec.ofNat 64 i < count ↔ i < count.toNat := by
  rw [BitVec.lt_def, BitVec.toNat_ofNat, Nat.mod_eq_of_lt hi]

theorem byteLoop_eq {f : ℕ → ℕ → Option ByteMem}
    (hcopy : ∀ fuel i, i < count.toNat → f (fuel + 1) i = f fuel (i + 1))
    (hstop : ∀ fuel, f (fuel + 1) count.toNat = some (copied dst src count.toNat m)) (fuel : ℕ)
    {i : ℕ} (hi : i ≤ count.toNat) (hfuel : count.toNat < i + fuel) :
    f fuel i = some (copied dst src count.toNat m) := by
  induction fuel generalizing i with
  | zero => omega
  | succ fuel ih =>
      by_cases hlt : i < count.toNat
      · rw [hcopy fuel i hlt]
        exact ih hlt (by omega)
      · rw [Nat.le_antisymm hi (Nat.not_lt.mp hlt)]
        exact hstop fuel

theorem tailLoop_eq (h : Copyable dst src count.toNat m) (fuel : ℕ) {i : ℕ}
    (hi : i ≤ count.toNat) (hfuel : count.toNat < i + fuel) :
    tailLoop count fuel (BitVec.ofNat 64 i) (at_ dst i) (at_ src i) (copied dst src i m) =
      some (copied dst src count.toNat m) := by
  refine byteLoop_eq (f := fun fuel i => tailLoop count fuel (BitVec.ofNat 64 i) (at_ dst i)
    (at_ src i) (copied dst src i m)) (fun fuel i hlt => ?_) (fun fuel => ?_) fuel hi hfuel
  · rw [tailLoop, if_pos ((ofNat_lt_iff count (hlt.trans count.isLt)).mpr hlt),
      h.copyAccess (n := 1) hlt, at_add, at_add, ← BitVec.ofNat_add]
    rfl
  · rw [tailLoop, if_neg fun hw => lt_irrefl _ ((ofNat_lt_iff count count.isLt).mp hw)]

theorem indexLoop_eq (h : Copyable dst src count.toNat m) (fuel : ℕ) {i : ℕ}
    (hi : i ≤ count.toNat) (hfuel : count.toNat < i + fuel) :
    indexLoop count dst src fuel (BitVec.ofNat 64 i) (copied dst src i m) =
      some (copied dst src count.toNat m) := by
  refine byteLoop_eq (f := fun fuel i => indexLoop count dst src fuel (BitVec.ofNat 64 i)
    (copied dst src i m)) (fun fuel i hlt => ?_) (fun fuel => ?_) fuel hi hfuel
  · have hcopy := h.copyAccess (n := 1) (i := i) hlt
    rw [at_, at_] at hcopy
    rw [indexLoop, if_pos ((ofNat_lt_iff count (hlt.trans count.isLt)).mpr hlt), hcopy,
      ← BitVec.ofNat_add]
    rfl
  · rw [indexLoop, if_neg fun hw => lt_irrefl _ ((ofNat_lt_iff count count.isLt).mp hw)]

theorem last_lt_iff {i : ℕ} (hlt : i < count.toNat) (hi : i % 8 = 0) :
    count - 1#64 < BitVec.ofNat 64 i + 7#64 ↔ count.toNat < i + 8 := by
  have hcount := count.isLt
  have hlast : (count - 1#64).toNat = count.toNat - 1 :=
    BitVec.toNat_sub_of_le (by rw [BitVec.le_def]; show 1 ≤ count.toNat; omega)
  have hend : (BitVec.ofNat 64 i + 7#64).toNat = i + 7 := by
    rw [← BitVec.ofNat_add, BitVec.toNat_ofNat, Nat.mod_eq_of_lt (by omega)]
  rw [BitVec.lt_def, hlast, hend]
  omega

/-- The word loop stops with less than a word left. -/
theorem wordLoop_eq (h : Copyable dst src count.toNat m) (fuel : ℕ) {i : ℕ} (hi : i % 8 = 0)
    (hle : i ≤ count.toNat) (hfuel : count.toNat < i + fuel) :
    ∃ stop ≤ count.toNat, i ≤ stop ∧
      wordLoop count fuel (BitVec.ofNat 64 i) (at_ dst i) (at_ src i) (copied dst src i m) =
        some (BitVec.ofNat 64 stop, at_ dst stop, at_ src stop, copied dst src stop m) := by
  induction fuel generalizing i with
  | zero => omega
  | succ fuel ih =>
      have hiff := ofNat_lt_iff count (hle.trans_lt count.isLt)
      rw [wordLoop]
      by_cases hlt : i < count.toNat
      swap
      · rw [if_neg fun hw => hlt (hiff.mp hw)]
        exact ⟨i, hle, le_rfl, rfl⟩
      rw [if_pos (hiff.mpr hlt)]
      have hlast := last_lt_iff hlt hi
      by_cases hend : count.toNat < i + 8
      · rw [if_pos (hlast.mpr hend)]
        exact ⟨i, hle, le_rfl, rfl⟩
      · obtain ⟨stop, hstop, hge, heq⟩ := ih (i := i + 8) (by omega) (by omega) (by omega)
        rw [if_neg fun hw => hend (hlast.mp hw), h.copyAccess (n := 8) (by omega), at_add, at_add,
          ← BitVec.ofNat_add]
        exact ⟨stop, hstop, by omega, heq⟩

theorem eq_count_of_not_le {stop : ℕ} (hstop : stop ≤ count.toNat)
    (h : ¬ BitVec.ofNat 64 stop ≤ count - 1#64) : stop = count.toNat := by
  have hcount := count.isLt
  rw [BitVec.le_def, BitVec.toNat_ofNat, Nat.mod_eq_of_lt (by omega)] at h
  by_cases hzero : count.toNat = 0
  · omega
  · have hlast : (count - 1#64).toNat = count.toNat - 1 :=
      BitVec.toNat_sub_of_le (by rw [BitVec.le_def]; show 1 ≤ count.toNat; omega)
    omega

theorem memcpy_eq_copied (h : Copyable dst src count.toNat m) :
    memcpy dst src count m = some (dst, copied dst src count.toNat m) := by
  rw [memcpy]
  split_ifs with haligned
  · obtain ⟨stop, hstop, -, hwords⟩ := wordLoop_eq h (count.toNat + 1) (Nat.zero_mod 8)
      (Nat.zero_le _) (by omega)
    rw [copied_zero, at_zero, at_zero] at hwords
    rw [hwords, Option.bind_eq_bind, Option.bind_some]
    dsimp only
    by_cases hleft : BitVec.ofNat 64 stop ≤ count - 1#64
    · rw [if_pos hleft, tailLoop_eq h _ hstop (by omega), Option.map_some]
    · rw [if_neg hleft, eq_count_of_not_le hstop hleft]
  · have hbytes := indexLoop_eq h (count.toNat + 1) (Nat.zero_le _) (by omega)
    rw [copied_zero] at hbytes
    rw [hbytes, Option.map_some]

/-- The function on locations does the same. -/
theorem memcpy_eq_locations (h : Copyable dst src count.toNat m)
    (hwords : WordsApart (at_ dst) (at_ src)) (aligned : Bool) :
    memcpy dst src count m =
      some (dst, BaoHypervisor.memcpy (at_ dst) (at_ src) aligned count.toNat m) := by
  rw [memcpy_eq_copied h, memcpy_eq_copyTo hwords, copied]

theorem at_injOn {j k : ℕ} (hj : j < 2 ^ 64) (hk : k < 2 ^ 64) (h : at_ dst j = at_ dst k) :
    j = k := by
  have hoff := congrArg BitVec.toNat (add_left_cancel h)
  rwa [BitVec.toNat_ofNat, BitVec.toNat_ofNat, Nat.mod_eq_of_lt hj, Nat.mod_eq_of_lt hk] at hoff

/-- Between ranges that do not overlap, `memcpy` returns and leaves what copying one byte after the
other leaves: the source bytes in the destination and every other byte as it was. Only the bytes of
the two ranges need to be there. -/
theorem memcpy_copies (h : Copyable dst src count.toNat m) :
    ∃ m', memcpy dst src count m = some (dst, m') ∧ m' = copied dst src count.toNat m ∧
      (∀ k < count.toNat, m' (at_ dst k) = m (at_ src k)) ∧
      ∀ a, (∀ k < count.toNat, a ≠ at_ dst k) → m' a = m a := by
  have hcount := count.isLt
  refine ⟨_, memcpy_eq_copied h, rfl, fun k hk => ?_, fun a ha => Copy.copyTo_of_ne m ha⟩
  rw [copied, Copy.copyTo_apply, Copy.source_of_disjoint _ h.apart hk]
  exact fun i hi j hj heq => at_injOn (by omega) (by omega) heq

/-- Eleven bytes, a word and three more, with nothing around them. -/
theorem memcpy_copies_eleven :
    let m : ByteMem := fun a =>
      if a - 0x1000#64 < 11#64 ∨ a - 0x2000#64 < 11#64 then some (a.setWidth 8) else none
    ∃ m', memcpy 0x1000#64 0x2000#64 11#64 m = some (0x1000#64, m') ∧
      m' = copied 0x1000#64 0x2000#64 (11#64 : SizeT).toNat m ∧
      (∀ k < (11#64 : SizeT).toNat, m' (at_ 0x1000#64 k) = m (at_ 0x2000#64 k)) ∧
      ∀ a, (∀ k < (11#64 : SizeT).toNat, a ≠ at_ 0x1000#64 k) → m' a = m a :=
  memcpy_copies { apart := by decide, load := by decide, store := by decide }

end Loops

end ByteMem

end BaoHypervisor
