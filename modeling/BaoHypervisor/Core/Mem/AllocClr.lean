import BaoHypervisor.Core.Mem.Alloc

/-!
# Coloured allocation

A round of `pp_alloc_clr` skips marked pages to a head and counts the free
pages of the selected colours from there. The head itself is tested for being
free and not for its colour: only the first round is sure to start on a page
of the colours. The walk that marks the pages found starts at the first
coloured page from the head on, so behind a head off the colours it ends one
page after the last one counted.

`ClrVisits` says which heads a search comes to, and `HeadExact` for which of
them the pages marked are pages counted.
-/

namespace BaoHypervisor

open Bitmap BitRun

namespace Coloring

variable (c : Coloring) {base : Addr} {colors : ColorMap}

/-- The page a walk from `index` is at after `k` steps of `pp_next_clr`. The
start itself counts as the first page, whatever its colour. -/
def clrWalk (base : Addr) (colors : ColorMap) (index : ℕ) : ℕ → ℕ
  | 0 => index
  | k + 1 => c.ppNextClr base (clrWalk base colors index k + 1) colors

variable {c}

theorem clrWalk_lt_succ (h : c.HasColor colors) (base : Addr) (index k : ℕ) :
    c.clrWalk base colors index k < c.clrWalk base colors index (k + 1) :=
  le_ppNextClr h base (c.clrWalk base colors index k + 1)

theorem clrWalk_strictMono (h : c.HasColor colors) (base : Addr) (index : ℕ) :
    StrictMono (c.clrWalk base colors index) :=
  strictMono_nat_of_lt_succ (clrWalk_lt_succ h base index)

theorem clrWalk_add (index k j : ℕ) :
    c.clrWalk base colors (c.clrWalk base colors index k) j =
      c.clrWalk base colors index (k + j) := by
  induction j with
  | zero => rfl
  | succ j ih => rw [← Nat.add_assoc, clrWalk, clrWalk, ih]

theorem le_clrWalk (h : c.HasColor colors) (base : Addr) (index k : ℕ) :
    index ≤ c.clrWalk base colors index k :=
  (clrWalk_strictMono h base index).monotone (Nat.zero_le k)

/-- The marked pages of a walk are the steps after its start, and the start
too when it has a colour. -/
theorem clrPages_eq_map (n index : ℕ) :
    c.clrPages base colors n index =
      (List.range n).map (c.clrWalk base colors (c.ppNextClr base index colors)) := by
  induction n generalizing index with
  | zero => rfl
  | succ n ih =>
      rw [clrPages, ih, List.range_succ_eq_map, List.map_cons, List.map_map]
      congr 1
      apply List.map_congr_left
      intro k _
      rw [Function.comp_apply, Nat.succ_eq_add_one, Nat.add_comm k 1, ← clrWalk_add]
      rfl

end Coloring

namespace PagePool

section Search

variable (c : Coloring) (pool : PagePool) (colors : ColorMap) (n : ℕ)

def FreePage (p : ℕ) : Prop := p < pool.size.toNat ∧ pool.bits p = false

/-- The first `k` pages of the walk from a head are free. -/
def FreeWalk (head k : ℕ) : Prop :=
  ∀ j < k, pool.FreePage (c.clrWalk pool.base colors head j)

/-- A round begun at `index` has the head `head`. -/
inductive ClrHead : ℕ → ℕ → Prop
  | free {index : ℕ} : pool.FreePage index → ClrHead index index
  | skip {index head : ℕ} : index < pool.size.toNat → pool.bits index = true →
      ClrHead (c.ppNextClr pool.base (index + 1) colors) head → ClrHead index head

/-- A search begun at `index` comes to `head`. A round whose walk is cut short
by a page that is not free is followed by one that begins right behind it. -/
inductive ClrVisits : ℕ → ℕ → Prop
  | first {index head : ℕ} : ClrHead c pool colors index head → ClrVisits index head
  | next {index head k head' : ℕ} : ClrHead c pool colors index head → k < n →
      pool.FreeWalk c colors head k →
      ¬ pool.FreePage (c.clrWalk pool.base colors head k) →
      ClrVisits (c.clrWalk pool.base colors head k + 1) head' → ClrVisits index head'

/-- A search begun at `index` comes to a head with `n` free pages. -/
def ClrSettles (index head : ℕ) : Prop :=
  ClrVisits c pool colors n index head ∧ pool.FreeWalk c colors head n

/-- The pages marked from the head are pages counted from it: the head has a
colour of the map, or the coloured page after the last one counted is free
too. -/
def HeadExact (head : ℕ) : Prop :=
  c.inColors pool.base colors head = true ∨
    pool.FreePage (c.clrWalk pool.base colors head n)

/-- The condition for a coloured allocation to mark only free pages of the
pool: the search does not settle on a head off the colours behind which the
walk that marks runs into a page that is not free. -/
def AllocClrExact : Prop :=
  0 < n →
    (∀ head, pool.ClrSettles c colors n (c.ppNextClr pool.base pool.last colors) head →
        pool.HeadExact c colors n head) ∧
      ((∀ head, ¬ pool.ClrSettles c colors n
            (c.ppNextClr pool.base pool.last colors) head) →
        ∀ head, pool.ClrSettles c colors n 0 head → pool.HeadExact c colors n head)

end Search

variable {c : Coloring} {pool : PagePool} {colors : ColorMap} {n : ℕ}

/-! ## One round -/

theorem ClrHead.spec (h : c.HasColor colors) {index head : ℕ}
    (hhead : ClrHead c pool colors index head) :
    index ≤ head ∧ pool.FreePage head := by
  induction hhead with
  | free hfree => exact ⟨le_rfl, hfree⟩
  | @skip index head _ _ _ ih =>
      have hle := Coloring.le_ppNextClr h pool.base (index + 1)
      exact ⟨by omega, ih.2⟩

theorem ClrHead.unique {index head head' : ℕ}
    (h : ClrHead c pool colors index head) (h' : ClrHead c pool colors index head') :
    head = head' := by
  induction h with
  | free hfree =>
      cases h' with
      | free _ => rfl
      | skip _ hmark _ =>
          rw [hfree.2] at hmark
          cases hmark
  | skip _ hmark _ ih =>
      cases h' with
      | free hfree =>
          rw [hfree.2] at hmark
          cases hmark
      | skip _ _ hrest => exact ih hrest

/-- Skipping marked pages ends at the head of the round, or behind the pool if
there is none. -/
theorem skipMarked_spec (h : c.HasColor colors) (pool : PagePool) (fuel : ℕ) {index : ℕ}
    (hfuel : pool.size.toNat ≤ index + fuel) :
    ClrHead c pool colors index (pool.skipMarked c colors fuel index) ∨
      (pool.size.toNat ≤ pool.skipMarked c colors fuel index ∧
        ∀ head, ¬ ClrHead c pool colors index head) := by
  have hout : ∀ i, pool.size.toNat ≤ i → ∀ head, ¬ ClrHead c pool colors i head := by
    intro i hi head hhead
    have := hhead.spec h
    have := this.2.1
    omega
  induction fuel generalizing index with
  | zero => exact .inr ⟨by rw [skipMarked]; omega, hout index (by omega)⟩
  | succ fuel ih =>
      rw [skipMarked]
      by_cases hlt : index < pool.size.toNat
      · cases hbit : bitmapGet pool.bitmap index with
        | false =>
            rw [if_neg (by simp)]
            exact .inl (.free ⟨hlt, hbit⟩)
        | true =>
            rw [if_pos ⟨hlt, rfl⟩]
            have hle := Coloring.le_ppNextClr h pool.base (index + 1)
            have hfuel' : pool.size.toNat ≤
                c.ppNextClr pool.base (index + 1) colors + fuel := by omega
            rcases ih hfuel' with hhead | ⟨hge, hnone⟩
            · exact .inl (.skip hlt hbit hhead)
            · refine .inr ⟨hge, fun head hhead => ?_⟩
              cases hhead with
              | free hfree =>
                  have hclear := hfree.2
                  rw [PagePool.bits, hbit] at hclear
                  cases hclear
              | skip _ _ hrest => exact hnone head hrest
      · rw [if_neg (by omega)]
        exact .inr ⟨by omega, hout index (by omega)⟩

/-- Counting from a head stops after `k` free pages, with `k` the count asked
for or the page after them not free. -/
structure CountedFree (c : Coloring) (pool : PagePool) (colors : ColorMap)
    (n head : ℕ) (r : ℕ × ℕ) : Prop where
  le : r.1 ≤ n
  index_eq : r.2 = c.clrWalk pool.base colors head r.1
  free : pool.FreeWalk c colors head r.1
  stop : r.1 < n → ¬ pool.FreePage (c.clrWalk pool.base colors head r.1)

theorem countFree_spec (h : c.HasColor colors) (pool : PagePool) (n head fuel : ℕ)
    {k : ℕ} (hk : k ≤ n) (hfree : pool.FreeWalk c colors head k)
    (hfuel : pool.size.toNat ≤ c.clrWalk pool.base colors head k + fuel) :
    CountedFree c pool colors n head
      (pool.countFree c colors n fuel k (c.clrWalk pool.base colors head k)) := by
  induction fuel generalizing k with
  | zero =>
      refine ⟨hk, rfl, hfree, fun _ hpage => ?_⟩
      have hlt : c.clrWalk pool.base colors head k < pool.size.toNat := hpage.1
      omega
  | succ fuel ih =>
      rw [countFree]
      split_ifs with hcond
      · obtain ⟨hlt, hbit, hkn⟩ := hcond
        have hstep := Coloring.clrWalk_lt_succ h pool.base head k
        have hfree' : pool.FreeWalk c colors head (k + 1) := by
          intro j hj
          rcases Nat.lt_succ_iff_lt_or_eq.mp hj with hlt' | rfl
          · exact hfree j hlt'
          · exact ⟨hlt, hbit⟩
        exact ih hkn hfree' (by omega)
      · refine ⟨hk, rfl, hfree, fun hkn hpage => hcond ?_⟩
        exact ⟨hpage.1, hpage.2, hkn⟩

/-! ## The search -/

theorem not_clrHead_of_le (h : c.HasColor colors) {index head : ℕ}
    (hle : pool.size.toNat ≤ index) : ¬ ClrHead c pool colors index head := by
  intro hhead
  obtain ⟨hindex, hlt, -⟩ := hhead.spec h
  omega

theorem ClrVisits.exists_head {index head : ℕ}
    (hv : ClrVisits c pool colors n index head) :
    ∃ head', ClrHead c pool colors index head' := by
  cases hv with
  | first hhead => exact ⟨_, hhead⟩
  | next hhead _ _ _ _ => exact ⟨_, hhead⟩

theorem FreeWalk.stop_unique {head k k' : ℕ} (h : pool.FreeWalk c colors head k)
    (hstop : ¬ pool.FreePage (c.clrWalk pool.base colors head k))
    (h' : pool.FreeWalk c colors head k')
    (hstop' : ¬ pool.FreePage (c.clrWalk pool.base colors head k')) : k = k' := by
  rcases lt_trichotomy k k' with hlt | heq | hlt
  · exact absurd (h' k hlt) hstop
  · exact heq
  · exact absurd (h k' hlt) hstop'

/-- A search settles on its first head if the walk from it is long enough, and
else on what it settles on behind the page that cut the walk short. -/
theorem clrSettles_of_stop {index head k : ℕ}
    (hhead : ClrHead c pool colors index head) (hk : k < n)
    (hfree : pool.FreeWalk c colors head k)
    (hstop : ¬ pool.FreePage (c.clrWalk pool.base colors head k)) (head' : ℕ) :
    pool.ClrSettles c colors n index head' ↔
      pool.ClrSettles c colors n (c.clrWalk pool.base colors head k + 1) head' := by
  constructor
  · rintro ⟨hvisits, hwalk⟩
    cases hvisits with
    | first hhead' =>
        rw [← hhead.unique hhead'] at hwalk
        exact absurd (hwalk k hk) hstop
    | next hhead' hk' hfree' hstop' hrest =>
        obtain rfl := hhead.unique hhead'
        obtain rfl := hfree.stop_unique hstop hfree' hstop'
        exact ⟨hrest, hwalk⟩
  · rintro ⟨hvisits, hwalk⟩
    exact ⟨.next hhead hk hfree hstop hvisits, hwalk⟩

theorem clrSettles_of_walk {index head : ℕ} (hhead : ClrHead c pool colors index head)
    (hfree : pool.FreeWalk c colors head n) (head' : ℕ) :
    pool.ClrSettles c colors n index head' ↔ head' = head := by
  constructor
  · rintro ⟨hvisits, -⟩
    cases hvisits with
    | first hhead' => exact hhead'.unique hhead
    | next hhead' hk' _ hstop' _ =>
        rw [← hhead.unique hhead'] at hstop'
        exact absurd (hfree _ hk') hstop'
  · rintro rfl
    exact ⟨.first hhead, hfree⟩

theorem not_clrSettles_of_no_head {index : ℕ}
    (hnone : ∀ head, ¬ ClrHead c pool colors index head) (head : ℕ) :
    ¬ pool.ClrSettles c colors n index head := by
  rintro ⟨hvisits, -⟩
  obtain ⟨head', hhead⟩ := hvisits.exists_head
  exact hnone head' hhead

/-- What one search of `pp_alloc_clr` leaves: the count asked for and the head
it settles on, or a smaller count if it settles on none. -/
theorem ppAllocClrPass_spec (h : c.HasColor colors) (pool : PagePool) (fuel : ℕ)
    {s : ClrSearch}
    (hs : s.allocated < n) (hfuel : pool.size.toNat ≤ s.index + fuel) :
    ((pool.ppAllocClrPass c colors n (fuel + 1) s).allocated = n ∧
        ∀ head, pool.ClrSettles c colors n s.index head ↔
          head = (pool.ppAllocClrPass c colors n (fuel + 1) s).firstIndex) ∨
      ((pool.ppAllocClrPass c colors n (fuel + 1) s).allocated < n ∧
        ∀ head, ¬ pool.ClrSettles c colors n s.index head) := by
  have hout : ∀ {i : ℕ}, pool.size.toNat ≤ i →
      ∀ head, ¬ pool.ClrSettles c colors n i head := fun hi =>
    not_clrSettles_of_no_head fun _ => not_clrHead_of_le h hi
  induction fuel generalizing s with
  | zero =>
      rw [ppAllocClrPass, if_neg (by omega)]
      exact .inr ⟨hs, hout (by omega)⟩
  | succ fuel ih =>
      rw [ppAllocClrPass]
      by_cases hlt : s.index < pool.size.toNat
      · rw [if_pos ⟨hs, hlt⟩]
        dsimp only
        have hcounted := countFree_spec h pool n
          (pool.skipMarked c colors pool.size.toNat s.index) pool.size.toNat
          (Nat.zero_le n) (fun j hj => absurd hj (Nat.not_lt_zero j)) (Nat.le_add_left _ _)
        rw [Coloring.clrWalk] at hcounted
        obtain ⟨r, hr⟩ : ∃ r, pool.countFree c colors n pool.size.toNat 0
          (pool.skipMarked c colors pool.size.toNat s.index) = r := ⟨_, rfl⟩
        rw [hr] at hcounted ⊢
        have hindex := Coloring.le_clrWalk h pool.base
          (pool.skipMarked c colors pool.size.toNat s.index) r.1
        rw [← hcounted.index_eq] at hindex
        rcases skipMarked_spec h pool pool.size.toNat
          (Nat.le_add_left pool.size.toNat s.index) with hhead | ⟨hge, hnone⟩
        · have hle := (hhead.spec h).1
          rcases Nat.lt_or_ge r.1 n with hshort | hfull
          · -- cut short: the search goes on behind the page that is not free
            have hsettles := clrSettles_of_stop hhead hshort hcounted.free
              (hcounted.stop hshort)
            rw [← hcounted.index_eq] at hsettles
            simp only [hsettles]
            exact ih hshort (by dsimp only; omega)
          · have hn : r.1 = n := le_antisymm hcounted.le hfull
            rw [ppAllocClrPass, if_neg (by dsimp only; omega)]
            exact .inl ⟨hn, clrSettles_of_walk hhead (hn ▸ hcounted.free)⟩
        · refine .inr ⟨?_, not_clrSettles_of_no_head hnone⟩
          have hshort : r.1 < n := by
            by_contra hfull
            have hpage := hcounted.free 0 (by omega)
            have hlt' : pool.skipMarked c colors pool.size.toNat s.index <
              pool.size.toNat := hpage.1
            omega
          rw [ppAllocClrPass, if_neg (by dsimp only; omega)]
          exact hshort
      · rw [if_neg (by omega)]
        exact .inr ⟨hs, hout (by omega)⟩

theorem ppAllocClrSearch_eq_some_iff (h : c.HasColor colors) (hn : 0 < n) {head : ℕ} :
    pool.ppAllocClrSearch c n colors = some head ↔
      pool.ClrSettles c colors n (c.ppNextClr pool.base pool.last colors) head ∨
        ((∀ head', ¬ pool.ClrSettles c colors n
            (c.ppNextClr pool.base pool.last colors) head') ∧
          pool.ClrSettles c colors n 0 head) := by
  rw [ppAllocClrSearch]
  dsimp only
  obtain ⟨first, hfirst⟩ : ∃ first, pool.ppAllocClrPass c colors n
      (pool.size.toNat + 1)
      { allocated := 0
        index := c.ppNextClr pool.base pool.last colors
        firstIndex := 0 } = first := ⟨_, rfl⟩
  rcases ppAllocClrPass_spec h pool pool.size.toNat
    (s := { allocated := 0
            index := c.ppNextClr pool.base pool.last colors
            firstIndex := 0 }) hn (Nat.le_add_left _ _) with ⟨hall, hsettles⟩ | ⟨hall, hnone⟩
  · rw [hfirst] at hall hsettles ⊢
    rw [if_pos hall]
    simp only [hsettles, Option.some.injEq]
    constructor
    · intro heq
      exact .inl heq.symm
    · rintro (heq | ⟨hnot, -⟩)
      · exact heq.symm
      · exact absurd rfl (hnot _)
  · rw [hfirst] at hall ⊢
    rw [if_neg (by omega)]
    rcases ppAllocClrPass_spec h pool pool.size.toNat
      (s := { first with index := 0 }) hall (Nat.le_add_left _ _)
      with ⟨hall', hsettles⟩ | ⟨hall', hnone'⟩
    · rw [if_pos hall']
      dsimp only at hsettles
      simp only [hsettles, Option.some.injEq]
      constructor
      · intro heq
        exact .inr ⟨hnone, heq.symm⟩
      · rintro (hfalse | ⟨-, heq⟩)
        · exact absurd hfalse (hnone head)
        · exact heq.symm
    · rw [if_neg (by omega)]
      constructor
      · intro hfalse
        cases hfalse
      · rintro (hfalse | ⟨-, hfalse⟩)
        · exact absurd hfalse (hnone head)
        · exact absurd hfalse (hnone' head)

theorem ppAllocClrSearch_freeWalk (h : c.HasColor colors) (hn : 0 < n) {head : ℕ}
    (hfind : pool.ppAllocClrSearch c n colors = some head) :
    pool.FreeWalk c colors head n := by
  rcases (ppAllocClrSearch_eq_some_iff h hn).mp hfind with hsettles | ⟨-, hsettles⟩
  · exact hsettles.2
  · exact hsettles.2

/-- Behind a head with `n` free pages the pages marked are free exactly when
the head is exact. -/
theorem forall_clrPages_freePage_iff (h : c.HasColor colors) (hn : 0 < n) {head : ℕ}
    (hfree : pool.FreeWalk c colors head n) :
    (∀ p ∈ c.clrPages pool.base colors n head, pool.FreePage p) ↔
      pool.HeadExact c colors n head := by
  rw [Coloring.clrPages_eq_map, HeadExact]
  cases hcol : c.inColors pool.base colors head with
  | true =>
      rw [Coloring.ppNextClr_eq_self h hcol]
      simp only [true_or, iff_true, List.mem_map, List.mem_range]
      rintro p ⟨k, hk, rfl⟩
      exact hfree k hk
  | false =>
      -- the walk that marks runs one step ahead of the walk that counts
      have hahead : ∀ k, c.clrWalk pool.base colors (c.ppNextClr pool.base head colors) k =
          c.clrWalk pool.base colors head (1 + k) := by
        intro k
        rw [← Coloring.ppNextClr_succ h hcol, ← Coloring.clrWalk_add]
        rfl
      simp only [hahead, reduceCtorEq, false_or, List.mem_map, List.mem_range]
      constructor
      · intro hall
        exact hall _ ⟨n - 1, by omega, by rw [Nat.add_sub_cancel' hn]⟩
      · rintro hlast p ⟨k, hk, rfl⟩
        rcases Nat.lt_or_ge (1 + k) n with hlt | hge
        · exact hfree _ hlt
        · rw [show 1 + k = n by omega]
          exact hlast

/-- The pages marked by a coloured allocation are free exactly under
`AllocClrExact`. -/
theorem ppAllocClrSearch_exact_iff (h : c.HasColor colors) :
    (∀ head, pool.ppAllocClrSearch c n colors = some head →
        ∀ p ∈ c.clrPages pool.base colors n head, pool.FreePage p) ↔
      pool.AllocClrExact c colors n := by
  rw [AllocClrExact]
  rcases Nat.eq_zero_or_pos n with rfl | hn
  · simp [Coloring.clrPages]
  · have hpages : ∀ head, pool.ppAllocClrSearch c n colors = some head →
        ((∀ p ∈ c.clrPages pool.base colors n head, pool.FreePage p) ↔
          pool.HeadExact c colors n head) := fun head hfind =>
      forall_clrPages_freePage_iff h hn (ppAllocClrSearch_freeWalk h hn hfind)
    constructor
    · intro hall _
      refine ⟨fun head hsettles => ?_, fun hnone head hsettles => ?_⟩
      · have hfind := (ppAllocClrSearch_eq_some_iff h hn).mpr (.inl hsettles)
        exact (hpages head hfind).mp (hall head hfind)
      · have hfind := (ppAllocClrSearch_eq_some_iff h hn).mpr (.inr ⟨hnone, hsettles⟩)
        exact (hpages head hfind).mp (hall head hfind)
    · intro hexact head hfind
      rw [hpages head hfind]
      obtain ⟨hone, htwo⟩ := hexact hn
      rcases (ppAllocClrSearch_eq_some_iff h hn).mp hfind with hsettles | ⟨hnone, hsettles⟩
      · exact hone head hsettles
      · exact htwo hnone head hsettles

end PagePool

end BaoHypervisor
