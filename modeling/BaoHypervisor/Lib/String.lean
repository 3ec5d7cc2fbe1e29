import BaoHypervisor.Theory.Copy

/-!
# Copying memory

`memcpy` of `lib/string.c`. Its two pointers are given by the locations of the
bytes behind them, so that they may lie in an address space of their own. When
both pointers are aligned to words it copies words and then the bytes left over,
and otherwise it copies bytes. A word is loaded as a whole before it is stored.
-/

namespace BaoHypervisor

abbrev wordSize : ℕ := 8

section Memcpy

variable {α β : Type*} [DecidableEq α] (dst src : ℕ → α)

/-- The word at offset `i` is loaded and stored. -/
def copyWord (i : ℕ) (m : α → β) : α → β :=
  (List.range wordSize).foldl
    (fun stored j => Function.update stored (dst (i + j)) (m (src (i + j)))) m

/-- The loop over words from offset `i`: where it stops, and the memory then. -/
def copyWords (count : ℕ) : ℕ → ℕ → (α → β) → ℕ × (α → β)
  | 0, i, m => (i, m)
  | fuel + 1, i, m =>
      if i < count then
        if count - 1 < i + (wordSize - 1) then (i, m)
        else copyWords count fuel (i + wordSize) (copyWord dst src i m)
      else (i, m)

/-- The loop over the `n` bytes from offset `i`. -/
def copyBytes : ℕ → ℕ → (α → β) → α → β
  | 0, _, m => m
  | n + 1, i, m => copyBytes n (i + 1) (Function.update m (dst i) (m (src i)))

def memcpy (aligned : Bool) (count : ℕ) (m : α → β) : α → β :=
  if aligned then
    let words := copyWords dst src count count 0 m
    if words.1 ≤ count - 1 then copyBytes dst src (count - words.1) words.1 words.2
    else words.2
  else copyBytes dst src count 0 m

/-- No word is loaded from bytes that its own store has just written at another
offset of the word. -/
def WordsApart : Prop :=
  ∀ i j k, i % wordSize = 0 → j < wordSize → k < j → src (i + j) ≠ dst (i + k)

variable {dst src}

theorem copyBytes_copyTo (n i : ℕ) (m : α → β) :
    copyBytes dst src n i (Copy.copyTo dst src i m) = Copy.copyTo dst src (i + n) m := by
  induction n generalizing i with
  | zero => rfl
  | succ n ih =>
      have hstep : Function.update (Copy.copyTo dst src i m) (dst i)
          (Copy.copyTo dst src i m (src i)) = Copy.copyTo dst src (i + 1) m := rfl
      rw [copyBytes, hstep, ih, Nat.add_right_comm, Nat.add_assoc]

/-- A word is copied as its bytes are. -/
theorem copyWord_copyTo (h : WordsApart dst src) {i : ℕ} (hi : i % wordSize = 0) (m : α → β) :
    copyWord dst src i (Copy.copyTo dst src i m) = Copy.copyTo dst src (i + wordSize) m := by
  have hpart : ∀ n ≤ wordSize, (List.range n).foldl
      (fun stored j =>
        Function.update stored (dst (i + j)) (Copy.copyTo dst src i m (src (i + j))))
      (Copy.copyTo dst src i m) = Copy.copyTo dst src (i + n) m := by
    intro n
    induction n with
    | zero => exact fun _ => rfl
    | succ n ih =>
        intro hn
        have hload : ∀ k ≤ n, Copy.copyTo dst src (i + k) m (src (i + n)) =
            Copy.copyTo dst src i m (src (i + n)) := by
          intro k
          induction k with
          | zero => exact fun _ => rfl
          | succ k ihk =>
              intro hk
              rw [← Nat.add_assoc, Copy.copyTo, Function.update_of_ne (h i n k hi hn hk)]
              exact ihk (by omega)
        rw [List.range_succ, List.foldl_append, ih (by omega), List.foldl_cons, List.foldl_nil,
          ← hload n (Nat.le_refl n)]
        rfl
  exact hpart wordSize (Nat.le_refl _)

theorem copyWords_copyTo (h : WordsApart dst src) (count fuel : ℕ) {i : ℕ}
    (hi : i % wordSize = 0) (hle : i ≤ count) (m : α → β) :
    ∃ stop ≤ count, copyWords dst src count fuel i (Copy.copyTo dst src i m) =
      (stop, Copy.copyTo dst src stop m) := by
  induction fuel generalizing i with
  | zero => exact ⟨i, hle, rfl⟩
  | succ fuel ih =>
      rw [copyWords]
      split_ifs with hlt hend
      · exact ⟨i, hle, rfl⟩
      · rw [copyWord_copyTo h hi]
        unfold wordSize at *
        exact ih (by omega) (by omega)
      · exact ⟨i, hle, rfl⟩

/-- `memcpy` copies byte by byte in effect. -/
theorem memcpy_eq_copyTo (h : WordsApart dst src) (aligned : Bool) (count : ℕ) (m : α → β) :
    memcpy dst src aligned count m = Copy.copyTo dst src count m := by
  rw [memcpy]
  cases aligned with
  | false =>
      have hbytes : copyBytes dst src count 0 m = Copy.copyTo dst src (0 + count) m :=
        copyBytes_copyTo count 0 m
      rwa [Nat.zero_add] at hbytes
  | true =>
      obtain ⟨stop, hstop, hwords⟩ :=
        copyWords_copyTo h count count (Nat.zero_mod _) (Nat.zero_le count) m
      have hstart : Copy.copyTo dst src 0 m = m := rfl
      rw [hstart] at hwords
      dsimp only
      rw [if_pos rfl, hwords]
      dsimp only
      split_ifs with htail
      · rw [copyBytes_copyTo, Nat.add_sub_cancel' hstop]
      · have heq : stop = count := by omega
        rw [heq]

end Memcpy

end BaoHypervisor
