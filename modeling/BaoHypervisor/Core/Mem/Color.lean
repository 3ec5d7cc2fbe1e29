import BaoHypervisor.Lib.Util
import Mathlib.Tactic.Ring

/-!
# Page colours

The colour of a page is decided by the bits of its address that index the last
level cache. `Coloring` holds the two globals `COLOR_NUM` and `COLOR_SIZE` of
`core/cache.c`; a `ColorMap` selects colours by its low bits. `ppNextClr` steps
to the next page of a selected colour, and `clrPages` lists the pages a walk by
`ppNextClr` visits, which is how coloured memory is marked, freed and mapped.
-/

namespace BaoHypervisor

abbrev ColorMap := BitVec 64

/-- The globals `COLOR_NUM` and `COLOR_SIZE`. -/
structure Coloring where
  colorNum : ℕ
  colorSize : ℕ
  colorNum_pos : 0 < colorNum
  colorNum_lt : colorNum < 64
  colorSize_pos : 0 < colorSize

namespace Coloring

/-- The values the globals start with, those of a platform without a cache to
colour. -/
def initial : Coloring where
  colorNum := 1
  colorSize := 1
  colorNum_pos := by decide
  colorNum_lt := by decide
  colorSize_pos := by decide

variable (c : Coloring)

def allClrs (clrs : ColorMap) : Bool :=
  let mask := (1#64 <<< c.colorNum) - 1#64
  let maskedColors := clrs &&& mask
  decide (maskedColors = 0#64) || decide (maskedColors = mask)

/-- The colour of the page `index` of a pool that starts at `base`. -/
def colorOf (base : Addr) (index : ℕ) : ℕ :=
  let clrOffset := (base.toNat / pageSize) % (c.colorNum * c.colorSize)
  (index + clrOffset) / c.colorSize % c.colorNum

/-- The page `index` has a colour of the map. -/
def inColors (base : Addr) (colors : ColorMap) (index : ℕ) : Bool :=
  ((colors >>> c.colorOf base index) &&& 1#64) != 0#64

/-- The loop of `pp_next_clr`. The colours repeat every `colorNum * colorSize`
pages, so a map with some colour stops it within that many rounds; without one
the loop of the source runs for ever. -/
def ppNextClrLoop (base : Addr) (colors : ColorMap) : ℕ → ℕ → ℕ
  | 0, index => index
  | fuel + 1, index =>
      if c.inColors base colors index then index
      else ppNextClrLoop base colors fuel (index + 1)

def ppNextClr (base : Addr) (from_ : ℕ) (colors : ColorMap) : ℕ :=
  ppNextClrLoop c base colors (c.colorNum * c.colorSize) from_

/-- The `n` pages met by calling `pp_next_clr` from `index` on. -/
def clrPages (base : Addr) (colors : ColorMap) : ℕ → ℕ → List ℕ
  | 0, _ => []
  | n + 1, index =>
      c.ppNextClr base index colors ::
        clrPages base colors n (c.ppNextClr base index colors + 1)

def HasColor (colors : ColorMap) : Prop :=
  ∃ k < c.colorNum, colors.getLsbD k = true

theorem allClrs_zero : c.allClrs 0#64 = true := by
  rw [allClrs, BitVec.zero_and, decide_eq_true rfl, Bool.true_or]

/-! ## The next page of a colour -/

variable {c} {base : Addr} {colors : ColorMap}

theorem inColors_iff {index : ℕ} :
    c.inColors base colors index = true ↔
      colors.getLsbD (c.colorOf base index) = true := by
  rw [inColors, bne_iff_ne, BitVec.and_one_eq_setWidth_ofBool_getLsbD,
    BitVec.getLsbD_ushiftRight, Nat.add_zero]
  cases colors.getLsbD (c.colorOf base index) <;> decide

/-- Every colour comes up within `colorNum * colorSize` consecutive pages. -/
theorem exists_inColors (h : c.HasColor colors) (base : Addr) (start : ℕ) :
    ∃ p, start ≤ p ∧ p < start + c.colorNum * c.colorSize ∧
      c.inColors base colors p = true := by
  obtain ⟨k, hk, hbit⟩ := h
  have hsize := c.colorSize_pos
  obtain ⟨off, hoff⟩ : ∃ off, off =
      (base.toNat / pageSize) % (c.colorNum * c.colorSize) := ⟨_, rfl⟩
  obtain ⟨period, hperiod⟩ : ∃ period, period = c.colorNum * c.colorSize := ⟨_, rfl⟩
  have hpos : 0 < period := by
    rw [hperiod]
    exact Nat.mul_pos c.colorNum_pos hsize
  have hkl : k * c.colorSize < period := by
    rw [hperiod]
    exact Nat.mul_lt_mul_of_pos_right hk hsize
  have hdiv := Nat.div_add_mod (start + off) period
  have hmod := Nat.mod_lt (start + off) hpos
  -- the first multiple of the period at or after the start, moved to colour `k`
  have hcolor : ∀ q, (period * q + k * c.colorSize) / c.colorSize % c.colorNum = k := by
    intro q
    have hfactor : period * q + k * c.colorSize =
        c.colorSize * (c.colorNum * q + k) := by rw [hperiod]; ring
    rw [hfactor, Nat.mul_div_cancel_left _ hsize, Nat.mul_add_mod,
      Nat.mod_eq_of_lt hk]
  have hfound : ∀ q, start + off ≤ period * q + k * c.colorSize →
      c.inColors base colors (period * q + k * c.colorSize - off) = true := by
    intro q hle
    have hcancel : period * q + k * c.colorSize - off + off =
        period * q + k * c.colorSize := by omega
    rw [inColors_iff, colorOf, ← hoff, hcancel, hcolor]
    exact hbit
  rw [← hperiod]
  by_cases hle : start + off ≤ period * ((start + off) / period) + k * c.colorSize
  · exact ⟨_, by omega, by omega, hfound _ hle⟩
  · have hstep : period * ((start + off) / period + 1) =
        period * ((start + off) / period) + period := by ring
    exact ⟨_, by omega, by omega, hfound ((start + off) / period + 1) (by omega)⟩

theorem ppNextClrLoop_spec (fuel : ℕ) {index : ℕ}
    (h : ∃ p, index ≤ p ∧ p < index + fuel ∧ c.inColors base colors p = true) :
    index ≤ ppNextClrLoop c base colors fuel index ∧
      c.inColors base colors (ppNextClrLoop c base colors fuel index) = true ∧
      ∀ p, index ≤ p → p < ppNextClrLoop c base colors fuel index →
        c.inColors base colors p = false := by
  induction fuel generalizing index with
  | zero =>
      obtain ⟨p, h1, h2, -⟩ := h
      omega
  | succ fuel ih =>
      rw [ppNextClrLoop]
      by_cases hin : c.inColors base colors index = true
      · rw [if_pos hin]
        exact ⟨le_rfl, hin, fun p h1 h2 => absurd h1 (by omega)⟩
      · rw [if_neg hin]
        obtain ⟨p, h1, h2, hp⟩ := h
        have hne : p ≠ index := fun heq => hin (heq ▸ hp)
        have hnext : ∃ p, index + 1 ≤ p ∧ p < index + 1 + fuel ∧
            c.inColors base colors p = true := ⟨p, by omega, by omega, hp⟩
        obtain ⟨hle, hcol, hfirst⟩ := ih hnext
        refine ⟨by omega, hcol, fun q h3 h4 => ?_⟩
        by_cases hq : q = index
        · rw [hq]
          exact Bool.eq_false_iff.mpr hin
        · exact hfirst q (by omega) h4

theorem le_ppNextClr (h : c.HasColor colors) (base : Addr) (index : ℕ) :
    index ≤ c.ppNextClr base index colors :=
  (ppNextClrLoop_spec _ (exists_inColors h base index)).1

theorem inColors_ppNextClr (h : c.HasColor colors) (base : Addr) (index : ℕ) :
    c.inColors base colors (c.ppNextClr base index colors) = true :=
  (ppNextClrLoop_spec _ (exists_inColors h base index)).2.1

theorem inColors_eq_false_of_lt (h : c.HasColor colors) {index p : ℕ}
    (h1 : index ≤ p) (h2 : p < c.ppNextClr base index colors) :
    c.inColors base colors p = false :=
  (ppNextClrLoop_spec _ (exists_inColors h base index)).2.2 p h1 h2

theorem ppNextClr_eq_self (h : c.HasColor colors) {index : ℕ}
    (hin : c.inColors base colors index = true) :
    c.ppNextClr base index colors = index := by
  have hle := le_ppNextClr h base index
  rcases Nat.lt_or_ge index (c.ppNextClr base index colors) with hlt | hge
  · rw [inColors_eq_false_of_lt h le_rfl hlt] at hin
    cases hin
  · omega

/-- From a page outside the colours the walk goes on as from the page after. -/
theorem ppNextClr_succ (h : c.HasColor colors) {index : ℕ}
    (hin : c.inColors base colors index = false) :
    c.ppNextClr base (index + 1) colors = c.ppNextClr base index colors := by
  have hcol := inColors_ppNextClr h base index
  have hcol' := inColors_ppNextClr h base (index + 1)
  have hle := le_ppNextClr h base index
  have hle' := le_ppNextClr h base (index + 1)
  have hne : c.ppNextClr base index colors ≠ index := by
    intro heq
    rw [heq, hin] at hcol
    cases hcol
  rcases lt_trichotomy (c.ppNextClr base (index + 1) colors)
    (c.ppNextClr base index colors) with hlt | heq | hlt
  · rw [inColors_eq_false_of_lt h (by omega) hlt] at hcol'
    cases hcol'
  · exact heq
  · rw [inColors_eq_false_of_lt h (by omega) hlt] at hcol
    cases hcol

/-! ## The pages of a coloured walk -/

theorem mem_clrPages_ge (h : c.HasColor colors) {n index p : ℕ}
    (hp : p ∈ c.clrPages base colors n index) : index ≤ p := by
  induction n generalizing index with
  | zero => cases hp
  | succ n ih =>
      have hle := le_ppNextClr h base index
      rw [clrPages, List.mem_cons] at hp
      rcases hp with rfl | hp
      · exact hle
      · have := ih hp
        omega

theorem length_clrPages (n index : ℕ) :
    (c.clrPages base colors n index).length = n := by
  induction n generalizing index with
  | zero => rfl
  | succ n ih => rw [clrPages, List.length_cons, ih]

theorem nodup_clrPages (h : c.HasColor colors) (n index : ℕ) :
    (c.clrPages base colors n index).Nodup := by
  induction n generalizing index with
  | zero => exact List.nodup_nil
  | succ n ih =>
      rw [clrPages, List.nodup_cons]
      refine ⟨fun hmem => ?_, ih _⟩
      have := mem_clrPages_ge h hmem
      omega

end Coloring

end BaoHypervisor
