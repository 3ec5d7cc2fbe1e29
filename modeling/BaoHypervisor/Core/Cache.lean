import BaoHypervisor.Core.Mem.Color

/-!
# Caches and the colours they give

`cache_calc_colors` of `core/cache.c` derives the number of colours and the pages of one colour in
a row from the geometry of the last level cache and of the first level. It divides by what it has
computed; a division by zero answers `none`. The arrays of a description are functions of the
level, and the second index of those that keep two caches apart is 0 for the unified or the data
cache and 1 for the instruction cache.
-/

namespace BaoHypervisor

inductive CacheType
  | unified
  | separate
  | data
  | instruction
deriving DecidableEq, Repr

inductive CacheIndexing
  | pipt
  | vipt
deriving DecidableEq, Repr

/-- `struct cache`, but for the associativity, which the colours do not depend on. -/
structure Cache where
  lvls : SizeT
  minSharedLvl : SizeT
  type : ℕ → CacheType
  indexed : ℕ → ℕ → CacheIndexing
  lineSize : ℕ → ℕ → SizeT
  numset : ℕ → ℕ → SizeT

/-- The globals `COLOR_NUM` and `COLOR_SIZE` as words. -/
structure ColorGlobals where
  colorNum : SizeT
  colorSize : SizeT
deriving DecidableEq, Repr

def divide (a b : SizeT) : Option SizeT :=
  if b = 0#64 then none else some (a / b)

namespace Cache

variable (dscr : Cache)

def waySize (lvl i : ℕ) : SizeT := dscr.numset lvl i * dscr.lineSize lvl i

/-- The last level is not one that can be coloured, or there is none. -/
def Uncolored : Prop :=
  dscr.lvls = 0#64 ∨ dscr.type dscr.minSharedLvl.toNat ≠ .unified ∨
    dscr.indexed dscr.minSharedLvl.toNat 0 ≠ .pipt

instance : Decidable dscr.Uncolored := inferInstanceAs (Decidable (_ ∨ _))

def flcWaySize : SizeT :=
  if dscr.type 0 ≠ .unified then
    let flcWaySize := dscr.numset 0 0 * dscr.lineSize 0 0
    let flcIWaySize := dscr.numset 0 1 * dscr.lineSize 0 1
    if (dscr.indexed 0 0 = .pipt ∨ flcIWaySize < flcWaySize) ∧ dscr.indexed 0 1 = .pipt then
      flcIWaySize
    else flcWaySize
  else 0#64

def cacheCalcColors (pageSize : SizeT) (globals : ColorGlobals) : Option ColorGlobals :=
  if dscr.lvls = 0#64 then some globals
  else
    let llc := dscr.minSharedLvl.toNat
    if dscr.type llc ≠ .unified ∨ dscr.indexed llc 0 ≠ .pipt then some globals
    else do
      let llcNumColors ← divide (dscr.numset llc 0 * dscr.lineSize llc 0) pageSize
      let flcNumColors ← divide dscr.flcWaySize pageSize
      let colorNum ← divide llcNumColors flcNumColors
      some { colorNum := colorNum, colorSize := flcNumColors }

/-- The first level cache whose colours are spared: the instruction cache if it is physically
indexed and the data cache is too or has larger ways, else the data cache. -/
def spared : ℕ :=
  if (dscr.indexed 0 0 = .pipt ∨ dscr.waySize 0 1 < dscr.waySize 0 0) ∧
    dscr.indexed 0 1 = .pipt then 1 else 0

/-- The first level is split, a way of its spared cache holds a page or more, and a way of the
last level holds as many and less than 64 times as many. -/
def Colorable (pageSize : SizeT) : Prop :=
  let pages (lvl i : ℕ) := (dscr.waySize lvl i).toNat / pageSize.toNat
  dscr.type 0 ≠ .unified ∧ 0 < pages 0 dscr.spared ∧
    pages 0 dscr.spared ≤ pages dscr.minSharedLvl.toNat 0 ∧
    pages dscr.minSharedLvl.toNat 0 < 64 * pages 0 dscr.spared

instance (pageSize : SizeT) : Decidable (dscr.Colorable pageSize) :=
  inferInstanceAs (Decidable (_ ∧ _))

end Cache

namespace ColorGlobals

/-- What the code that works with colours takes for granted: a colour map is shifted by less than
its width, and the remainders are by numbers that are not zero, the product of the two included. -/
structure Safe (g : ColorGlobals) : Prop where
  colorSize_pos : 1 ≤ g.colorSize.toNat
  colorNum_pos : 1 ≤ g.colorNum.toNat
  colorNum_lt : g.colorNum.toNat < 64
  period : (g.colorNum * g.colorSize).toNat = g.colorNum.toNat * g.colorSize.toNat

/-- Safe globals are a colouring. -/
def Safe.coloring {g : ColorGlobals} (h : g.Safe) : Coloring where
  colorNum := g.colorNum.toNat
  colorSize := g.colorSize.toNat
  colorNum_pos := h.colorNum_pos
  colorNum_lt := h.colorNum_lt
  colorSize_pos := h.colorSize_pos

end ColorGlobals

namespace Cache

variable {dscr : Cache} {pageSize : SizeT}

theorem flcWaySize_eq (h : dscr.type 0 ≠ .unified) :
    dscr.flcWaySize = dscr.waySize 0 dscr.spared := by
  rw [flcWaySize, if_pos h, spared]
  by_cases hspared : (dscr.indexed 0 0 = .pipt ∨ dscr.waySize 0 1 < dscr.waySize 0 0) ∧
      dscr.indexed 0 1 = .pipt
  · rw [if_pos hspared]
    exact if_pos hspared
  · rw [if_neg hspared]
    exact if_neg hspared

theorem cacheCalcColors_of_uncolored (h : dscr.Uncolored) (globals : ColorGlobals) :
    dscr.cacheCalcColors pageSize globals = some globals := by
  unfold cacheCalcColors
  rcases h with hlvls | hllc
  · rw [if_pos hlvls]
  · dsimp only
    rw [if_pos hllc, ite_self]

theorem exists_coloring_of_uncolored (h : dscr.Uncolored) :
    ∃ g, dscr.cacheCalcColors pageSize ⟨1#64, 1#64⟩ = some g ∧
      ∃ hsafe : g.Safe, hsafe.coloring = Coloring.initial :=
  ⟨_, cacheCalcColors_of_uncolored h _, ⟨by decide, by decide, by decide, by decide⟩, rfl⟩

theorem cacheCalcColors_of_not_uncolored (h : ¬ dscr.Uncolored) (hpage : pageSize ≠ 0#64)
    (globals : ColorGlobals) :
    dscr.cacheCalcColors pageSize globals =
      (divide (dscr.waySize dscr.minSharedLvl.toNat 0 / pageSize)
        (dscr.flcWaySize / pageSize)).map fun colorNum =>
          { colorNum := colorNum, colorSize := dscr.flcWaySize / pageSize } := by
  obtain ⟨hlvls, hllc⟩ := not_or.mp h
  unfold cacheCalcColors
  rw [if_neg hlvls]
  dsimp only
  rw [if_neg hllc, divide, if_neg hpage, divide, if_neg hpage, Option.bind_eq_bind,
    Option.bind_some, Option.bind_some, Option.map_eq_bind]
  rfl

theorem toNat_div (a b : SizeT) : (a / b).toNat = a.toNat / b.toNat := BitVec.toNat_udiv

/-- What `divide` leaves is safe exactly if the quotient is in its bounds. -/
theorem exists_safe_divide_iff {llc flc : SizeT} :
    (∃ g, (divide llc flc).map (fun colorNum =>
        ({ colorNum := colorNum, colorSize := flc } : ColorGlobals)) = some g ∧ g.Safe) ↔
      0 < flc.toNat ∧ flc.toNat ≤ llc.toNat ∧ llc.toNat < 64 * flc.toNat := by
  by_cases hzero : flc = 0#64
  · rw [divide, if_pos hzero, hzero]
    refine iff_of_false ?_ (by simp)
    rintro ⟨g, hg, -⟩
    cases hg
  have hpos : 0 < flc.toNat := by
    refine Nat.pos_of_ne_zero fun h => hzero (BitVec.eq_of_toNat_eq ?_)
    rw [h]
    rfl
  rw [divide, if_neg hzero, Option.map_some, and_iff_right hpos]
  constructor
  · rintro ⟨g, hg, -, hnum, hlt, -⟩
    obtain rfl := Option.some.inj hg
    rw [toNat_div] at hnum hlt
    exact ⟨Nat.le_of_mul_le_mul_left (by simpa using (Nat.le_div_iff_mul_le hpos).mp hnum)
      Nat.one_pos, (Nat.div_lt_iff_lt_mul hpos).mp hlt⟩
  · rintro ⟨hle, hlt⟩
    have hdiv := toNat_div llc flc
    refine ⟨_, rfl, hpos, ?_, ?_, ?_⟩
    · rw [hdiv]
      exact Nat.div_pos hle hpos
    · rw [hdiv]
      exact (Nat.div_lt_iff_lt_mul hpos).mpr hlt
    · rw [BitVec.toNat_mul, hdiv]
      exact Nat.mod_eq_of_lt (Nat.lt_of_le_of_lt (Nat.div_mul_le_self _ _) llc.isLt)

/-- From the values the globals start with, `cache_calc_colors` divides by nothing that is zero
and leaves globals that are safe to work with exactly if there is nothing to colour or the
geometry of the caches gives the bounds. -/
theorem cacheCalcColors_safe_iff (dscr : Cache) (hpage : pageSize ≠ 0#64) :
    (∃ g, dscr.cacheCalcColors pageSize ⟨1#64, 1#64⟩ = some g ∧ g.Safe) ↔
      dscr.Uncolored ∨ dscr.Colorable pageSize := by
  by_cases hun : dscr.Uncolored
  · obtain ⟨g, hg, hsafe, -⟩ := exists_coloring_of_uncolored hun
    exact iff_of_true ⟨g, hg, hsafe⟩ (.inl hun)
  rw [or_iff_right hun, cacheCalcColors_of_not_uncolored hun hpage, exists_safe_divide_iff,
    Colorable]
  simp only [toNat_div]
  by_cases hsplit : dscr.type 0 ≠ .unified
  · rw [flcWaySize_eq hsplit, and_iff_right hsplit]
  · rw [flcWaySize, if_neg hsplit]
    refine iff_of_false ?_ fun h => hsplit h.1
    simp

/-- Two levels, the first of them split, with so many lines of 64 bytes in their ways. -/
def twoLevels (lvls llc lineSize flcSets llcSets : SizeT) : Cache where
  lvls := lvls
  minSharedLvl := llc
  type := fun lvl => if lvl = 0 then .separate else .unified
  indexed := fun _ _ => .pipt
  lineSize := fun _ _ => lineSize
  numset := fun lvl _ => if lvl = 0 then flcSets else llcSets

/-- A first level with ways of two pages and a last level with ways of sixteen. -/
theorem cacheCalcColors_safe_twoLevels :
    (∃ g, (twoLevels 2#64 1#64 64#64 128#64 1024#64).cacheCalcColors 0x1000#64 ⟨1#64, 1#64⟩ =
      some g ∧ g.Safe) ↔
      (twoLevels 2#64 1#64 64#64 128#64 1024#64).Uncolored ∨
        (twoLevels 2#64 1#64 64#64 128#64 1024#64).Colorable 0x1000#64 :=
  cacheCalcColors_safe_iff _ (by decide)

/-- The ways of the first level are smaller than a page: the division is by zero. -/
theorem cacheCalcColors_smallWays :
    (twoLevels 2#64 1#64 64#64 32#64 1024#64).cacheCalcColors 0x1000#64 ⟨1#64, 1#64⟩ = none ∧
      ¬ ∃ g, (twoLevels 2#64 1#64 64#64 32#64 1024#64).cacheCalcColors 0x1000#64
        ⟨1#64, 1#64⟩ = some g ∧ g.Safe := by
  have hnone : (twoLevels 2#64 1#64 64#64 32#64 1024#64).cacheCalcColors 0x1000#64
      ⟨1#64, 1#64⟩ = none := by decide
  refine ⟨hnone, ?_⟩
  rintro ⟨g, hg, -⟩
  cases hnone.symm.trans hg

end Cache

end BaoHypervisor
