import BaoHypervisor.Core.Mem.AddrSpace
import BaoHypervisor.Core.Mem.RunAlloc
import BaoHypervisor.Theory.Client

/-!
# Pools that CPUs share

Each CPU calls `pp_alloc` for one pool after the other, as `mem_alloc_ppages` does, and holds the
lock of the pool in each call. So the calls of the CPUs come in any order. Whatever the order, the
pages that they get were free and are those of one call only (`replays_sound`), as long as no call
has run over the end of its pool.
-/

namespace BaoHypervisor

/-- A call of `pp_alloc`, for a pool by its place in `page_pool_list`. -/
structure PoolCall where
  pool : ℕ
  numPages : SizeT
  aligned : Bool
deriving DecidableEq, Repr

/-- `pp_alloc`, with the address that it returns in `ppages->base`. -/
def ppAllocAt (pools : List PagePool) (c : PoolCall) : Option Addr × List PagePool :=
  match pools[c.pool]? with
  | none => (none, pools)
  | some pool =>
      let alloc := pool.ppAlloc c.numPages c.aligned ⟨0#64, 0#64, 0#64⟩
      (if alloc.ok then some alloc.ppages.base else none, pools.set c.pool alloc.pool)

/-- A program of a CPU that calls `pp_alloc`. -/
abbrev PoolProg := Client PoolCall (Option Addr)

/-- `mem_alloc_ppages` without colours, with the pools that are left. -/
def allocPpages (numPages : SizeT) (aligned : Bool) : ℕ → ℕ → PoolProg (Option Addr)
  | 0, _ => .ret none
  | left + 1, pool =>
      .call ⟨pool, numPages, aligned⟩ fun
        | some base => .ret (some base)
        | none => allocPpages numPages aligned left (pool + 1)

def outPages (pools : List PagePool) : Set (ℕ × ℕ) :=
  {r | ∃ pool, pools[r.1]? = some pool ∧ pool.bits r.2 = true}

def Inside (pools : List PagePool) (r : ℕ × ℕ) : Prop :=
  ∃ pool, pools[r.1]? = some pool ∧ r.2 < pool.size.toNat

/-- The page numbers of what a call has returned. -/
def HasPage (e : PoolCall × Option Addr) (p : ℕ) : Prop :=
  ∃ base, e.2 = some base ∧ base.toNat / pageSize ≤ p ∧
    p < base.toNat / pageSize + e.1.numPages.toNat

/-- What has been returned are pages that physical addresses of `width` bits have room for, aligned
as the calls ask for, and no page is returned twice. -/
structure Sound (width : ℕ) (log : List (PoolCall × Option Addr)) : Prop where
  page : ∀ c base, (c, some base) ∈ log → pageSize ∣ base.toNat
  aligned : ∀ c base, (c, some base) ∈ log → c.aligned = true →
    c.numPages.toNat * pageSize ∣ base.toNat
  fits : ∀ c base, (c, some base) ∈ log →
    base.toNat + c.numPages.toNat * pageSize ≤ 2 ^ width
  apart : log.Pairwise fun e e' => ∀ p, ¬ (HasPage e p ∧ HasPage e' p)

theorem Sound.sublist {width : ℕ} {log log' : List (PoolCall × Option Addr)}
    (h : Sound width log) (hsub : log'.Sublist log) : Sound width log' where
  page := fun c base hmem => h.page c base (hsub.subset hmem)
  aligned := fun c base hmem => h.aligned c base (hsub.subset hmem)
  fits := fun c base hmem => h.fits c base (hsub.subset hmem)
  apart := h.apart.sublist hsub

/-! ## A call -/

variable {pools pools' : List PagePool} {pool : PagePool} {c : PoolCall} {base : Addr}

abbrev places (pools : List PagePool) : List (Addr × SizeT) :=
  pools.map fun pool => (pool.base, pool.size)

/-- The pages that a call has returned start at a place of its pool. -/
structure Takes (pools : List (Addr × SizeT)) (e : PoolCall × Option Addr) (place : Addr × SizeT)
    (bit : ℕ) : Prop where
  get : pools[e.1.pool]? = some place
  base : e.2 = some (pageAddr place.1 bit)
  lt_size : bit < place.2.toNat
  aligned : e.1.aligned = true → (place.1.toNat / pageSize + bit) % e.1.numPages.toNat = 0

/-- The pages that a call has returned were free, and are marked. -/
structure Taken (pools pools' : List PagePool) (e : PoolCall × Option Addr)
    (place : Addr × SizeT) (bit : ℕ) : Prop where
  takes : Takes (places pools) e place bit
  free : ∀ x < e.1.numPages.toNat, (e.1.pool, bit + x) ∉ outPages pools
  taken : ∀ x < e.1.numPages.toNat, (e.1.pool, bit + x) ∈ outPages pools'

theorem getElem?_set_elim {pools : List PagePool} {i j : ℕ} {pool pool' new : PagePool}
    (hi : pools[i]? = some pool) (hj : pools[j]? = some pool') :
    (pools.set i new)[j]? = some (if i = j then new else pool') := by
  rw [List.getElem?_set]
  by_cases hij : i = j
  · subst hij
    have hlt := (List.getElem?_eq_some_iff.mp hi).1
    simp [hlt]
  · simp [hij, hj]

theorem ppAllocAt_append (before pools : List PagePool) (pool : PagePool) (n : SizeT)
    (aligned : Bool) :
    ppAllocAt (before ++ pool :: pools) ⟨before.length, n, aligned⟩ =
      let alloc := pool.ppAlloc n aligned ⟨0#64, 0#64, 0#64⟩
      (if alloc.ok then some alloc.ppages.base else none, before ++ alloc.pool :: pools) := by
  have hat : (before ++ pool :: pools)[before.length]? = some pool := by simp
  rw [ppAllocAt, hat]
  simp

theorem places_ppAllocAt (pools : List PagePool) (c : PoolCall) :
    places (ppAllocAt pools c).2 = places pools := by
  rw [ppAllocAt]
  cases hpool : pools[c.pool]? with
  | none => rfl
  | some pool =>
      obtain ⟨hlt, rfl⟩ := List.getElem?_eq_some_iff.mp hpool
      have hsame : ((pools[c.pool].ppAlloc c.numPages c.aligned ⟨0#64, 0#64, 0#64⟩).pool.base,
          (pools[c.pool].ppAlloc c.numPages c.aligned ⟨0#64, 0#64, 0#64⟩).pool.size) =
            (pools[c.pool].base, pools[c.pool].size) := by
        rw [PagePool.ppAlloc]
        dsimp only
        split_ifs
        · rfl
        · cases pools[c.pool].ppAllocSearch c.numPages.toNat c.aligned <;> rfl
      rw [places, List.map_set, hsame]
      apply List.ext_getElem?
      intro j
      rw [List.getElem?_set]
      by_cases hj : c.pool = j
      · subst hj
        simp [hlt]
      · simp [hj]

theorem outPages_ppAllocAt (pools : List PagePool) (c : PoolCall) (r : ℕ × ℕ)
    (hr : r ∈ outPages pools) : r ∈ outPages (ppAllocAt pools c).2 := by
  obtain ⟨other, hother, hbits⟩ := hr
  rw [ppAllocAt]
  cases hpool : pools[c.pool]? with
  | none => exact ⟨other, hother, hbits⟩
  | some pool =>
      refine ⟨_, getElem?_set_elim hpool hother, ?_⟩
      by_cases heq : c.pool = r.1
      · rw [if_pos heq]
        obtain rfl : pool = other := by
          rw [heq] at hpool
          exact Option.some.inj (hpool.symm.trans hother)
        by_cases hn : c.numPages = 0#64
        · rwa [PagePool.ppAlloc, if_pos hn]
        · cases hsearch : pool.ppAllocSearch c.numPages.toNat c.aligned with
          | none => rwa [PagePool.ppAlloc_of_search_none hn hsearch]
          | some bit =>
              have htaken := PagePool.taken_of_search_some Coloring.initial hn hsearch
                ⟨0#64, 0#64, 0#64⟩
              by_cases hin : bit ≤ r.2 ∧ r.2 < bit + c.numPages.toNat
              · exact (htaken.run r.2 hin.1 hin.2).2
              · rw [htaken.frame r.2 hin, hbits]
      · rwa [if_neg heq]

theorem taken_ppAllocAt (hn : c.numPages ≠ 0#64) (hbase : (ppAllocAt pools c).1 = some base) :
    ∃ place bit, Taken pools (ppAllocAt pools c).2 (c, some base) place bit := by
  rw [ppAllocAt] at hbase ⊢
  cases hpool : pools[c.pool]? with
  | none =>
      rw [hpool] at hbase
      cases hbase
  | some pool =>
      rw [hpool] at hbase
      cases hsearch : pool.ppAllocSearch c.numPages.toNat c.aligned with
      | none =>
          dsimp only at hbase
          rw [PagePool.ppAlloc_of_search_none hn hsearch] at hbase
          cases hbase
      | some bit =>
          have htaken := PagePool.taken_of_search_some Coloring.initial hn hsearch
            ⟨0#64, 0#64, 0#64⟩
          have hok := congrArg PagePool.Alloc.ok
            (PagePool.ppAlloc_of_search_some hn hsearch ⟨0#64, 0#64, 0#64⟩)
          dsimp only at hbase
          rw [hok, if_pos rfl, htaken.ppages] at hbase
          refine ⟨(pool.base, pool.size), bit, ⟨?_, hbase.symm, htaken.lt_size, htaken.aligned⟩,
            fun x hx hmem => ?_, fun x hx => ?_⟩
          · rw [places, List.getElem?_map, hpool, Option.map_some]
          · obtain ⟨other, hother, hbits⟩ := hmem
            obtain rfl : pool = other := Option.some.inj (hpool.symm.trans hother)
            rw [(htaken.run (bit + x) (Nat.le_add_right _ _) (Nat.add_lt_add_left hx bit)).1]
              at hbits
            cases hbits
          · refine ⟨_, getElem?_set_elim hpool hpool, ?_⟩
            rw [if_pos rfl]
            exact (htaken.run (bit + x) (Nat.le_add_right _ _) (Nat.add_lt_add_left hx bit)).2

theorem ppAllocAt_none (hn : c.numPages = 0#64) (hbase : (ppAllocAt pools c).1 = some base) :
    base = 0#64 := by
  rw [ppAllocAt] at hbase
  cases hpool : pools[c.pool]? with
  | none =>
      rw [hpool] at hbase
      cases hbase
  | some pool =>
      rw [hpool] at hbase
      simp only [PagePool.ppAlloc, hn, if_true, Option.some.injEq] at hbase
      exact hbase.symm

/-! ## Calls of many CPUs -/

/-- What calls have done, one after the other. -/
structure Served (pools pools' : List PagePool) (log : List (PoolCall × Option Addr)) : Prop where
  places : places pools' = places pools
  grows : ∀ r ∈ outPages pools, r ∈ outPages pools'
  taken : ∀ c base, (c, some base) ∈ log → c.numPages ≠ 0#64 →
    ∃ place bit, Taken pools pools' (c, some base) place bit
  none : ∀ c base, (c, some base) ∈ log → c.numPages = 0#64 → base = 0#64
  apart : log.Pairwise fun e e' => ∀ place bit place' bit',
    Takes (BaoHypervisor.places pools) e place bit →
      Takes (BaoHypervisor.places pools) e' place' bit' →
        ∀ x < e.1.numPages.toNat, ∀ x' < e'.1.numPages.toNat,
          (e.1.pool, bit + x) ≠ (e'.1.pool, bit' + x')

/-- A place and an address tell the index. -/
theorem Takes.unique {pools : List (Addr × SizeT)} {e : PoolCall × Option Addr}
    {place place' : Addr × SizeT} {bit bit' : ℕ} (hext : ∀ place ∈ pools,
      place.1.toNat + place.2.toNat * pageSize < 2 ^ 64)
    (h : Takes pools e place bit) (h' : Takes pools e place' bit') : bit = bit' := by
  obtain rfl : place = place' := Option.some.inj (h.get.symm.trans h'.get)
  have haddr : pageAddr place.1 bit = pageAddr place.1 bit' :=
    Option.some.inj (h.base.symm.trans h'.base)
  have hroom := hext place (List.mem_of_getElem? h.get)
  have hlt := h.lt_size
  have hlt' := h'.lt_size
  have hmul : ∀ i < place.2.toNat, i * pageSize < 2 ^ 64 := fun i hi =>
    ((Nat.mul_lt_mul_of_pos_right hi (by decide)).trans_le (Nat.le_add_left _ _)).trans hroom
  rw [pageAddr, pageAddr, BitVec.add_right_inj] at haddr
  have hnat := congrArg BitVec.toNat haddr
  rw [BitVec.toNat_ofNat, BitVec.toNat_ofNat, Nat.mod_eq_of_lt (hmul bit hlt),
    Nat.mod_eq_of_lt (hmul bit' hlt')] at hnat
  exact Nat.eq_of_mul_eq_mul_right (by decide) hnat

theorem extent_places {place : Addr × SizeT} (h : place ∈ places pools) :
    place.1.toNat + place.2.toNat * pageSize < 2 ^ 64 := by
  obtain ⟨pool, -, rfl⟩ := List.mem_map.mp h
  exact pool.extent

theorem served_replays {log : List (PoolCall × Option Addr)}
    (h : Client.Replays ppAllocAt pools log pools') : Served pools pools' log := by
  induction log generalizing pools with
  | nil =>
      obtain rfl : pools' = pools := h
      exact ⟨rfl, fun _ => id, by simp, by simp, List.Pairwise.nil⟩
  | cons e log ih =>
      obtain ⟨c, answer⟩ := e
      obtain ⟨hanswer, hrest⟩ := h
      have hserved := ih hrest
      have hplaces := places_ppAllocAt pools c
      have hgrows := outPages_ppAllocAt pools c
      -- what the first call takes is marked for the others
      have hfirst : ∀ base, answer = some base → c.numPages ≠ 0#64 →
          ∃ place bit, Taken pools (ppAllocAt pools c).2 (c, some base) place bit :=
        fun base hbase hn => taken_ppAllocAt hn (by rw [← hanswer, hbase])
      have hlater : ∀ c' base, (c', some base) ∈ log → c'.numPages ≠ 0#64 → ∃ place bit,
          Taken (ppAllocAt pools c).2 pools' (c', some base) place bit := hserved.taken
      refine ⟨hserved.places.trans hplaces, fun r hr => hserved.grows r (hgrows r hr), ?_, ?_,
        List.pairwise_cons.mpr ⟨?_, ?_⟩⟩
      · intro c' base hmem hn
        rcases List.mem_cons.mp hmem with heq | hmem
        · obtain ⟨rfl, hbase⟩ := Prod.mk.inj heq
          obtain ⟨place, bit, htaken⟩ := hfirst base hbase.symm hn
          exact ⟨place, bit, htaken.takes, htaken.free,
            fun x hx => hserved.grows _ (htaken.taken x hx)⟩
        · obtain ⟨place, bit, htaken⟩ := hlater c' base hmem hn
          exact ⟨place, bit, hplaces ▸ htaken.takes,
            fun x hx hout => htaken.free x hx (hgrows _ hout), htaken.taken⟩
      · intro c' base hmem hn
        rcases List.mem_cons.mp hmem with heq | hmem
        · obtain ⟨rfl, hbase⟩ := Prod.mk.inj heq
          exact ppAllocAt_none hn (by rw [← hanswer, hbase])
        · exact hserved.none c' base hmem hn
      · intro e' he' place bit place' bit' htakes htakes' x hx x' hx' heq
        obtain ⟨c', answer'⟩ := e'
        have hn : c.numPages ≠ 0#64 := fun hzero => by simp [hzero] at hx
        have hn' : c'.numPages ≠ 0#64 := fun hzero => by simp [hzero] at hx'
        obtain ⟨place₁, bit₁, htaken⟩ := hfirst _ htakes.base hn
        obtain ⟨place₂, bit₂, htaken'⟩ := hlater c' _ (by rw [← htakes'.base]; exact he') hn'
        have htakes₁ : Takes (places pools) (c, answer) place₁ bit₁ := by
          rw [show answer = some _ from htakes.base]
          exact htaken.takes
        have htakes₂ : Takes (places pools) (c', answer') place₂ bit₂ := by
          rw [show answer' = some _ from htakes'.base, ← hplaces]
          exact htaken'.takes
        rw [htakes.unique (fun _ => extent_places) htakes₁,
          htakes'.unique (fun _ => extent_places) htakes₂] at heq
        exact htaken'.free x' hx' (heq ▸ htaken.taken x hx)
      · rw [← hplaces]
        exact hserved.apart

theorem Served.marked_behind {log : List (PoolCall × Option Addr)} (h : Served pools pools' log)
    (hend : ∀ pool ∈ pools, ∀ i, pool.size.toNat ≤ i → pool.bits i = true) :
    ∀ pool ∈ pools', ∀ i, pool.size.toNat ≤ i → pool.bits i = true := by
  intro pool' hpool' i hi
  obtain ⟨k, hk⟩ := List.mem_iff_getElem?.mp hpool'
  have hplace := congrArg (·[k]?) h.places
  simp only [List.getElem?_map, hk, Option.map_some] at hplace
  obtain ⟨pool, hpool, heq⟩ := Option.map_eq_some_iff.mp hplace.symm
  rw [← (Prod.mk.inj heq).2] at hi
  obtain ⟨other, hother, hbits⟩ := h.grows (k, i)
    ⟨pool, hpool, hend pool (List.mem_of_getElem? hpool) i hi⟩
  rwa [Option.some.inj (hk.symm.trans hother)]

def IsPage (pools : List PagePool) (r : ℕ × ℕ) (p : ℕ) : Prop :=
  ∃ pool, pools[r.1]? = some pool ∧ r.2 < pool.size.toNat ∧ p = pool.firstPage + r.2

theorem IsPage.unique {r r' : ℕ × ℕ} {p : ℕ} (hapart : pools.Pairwise PagePool.Apart)
    (h : IsPage pools r p) (h' : IsPage pools r' p) : r = r' := by
  obtain ⟨pool, hpool, hlt, rfl⟩ := h
  obtain ⟨pool', hpool', hlt', heq⟩ := h'
  have hcovers := PagePool.covers_pageAddr hlt
  have haddr : (pool.pageAddr r.2).toNat = (pool'.pageAddr r'.2).toNat := by
    have hbase := Nat.div_mul_cancel (Nat.dvd_of_mod_eq_zero pool.base_aligned)
    have hbase' := Nat.div_mul_cancel (Nat.dvd_of_mod_eq_zero pool'.base_aligned)
    rw [PagePool.firstPage, PagePool.firstPage] at heq
    rw [PagePool.toNat_pageAddr hlt, PagePool.toNat_pageAddr hlt', ← hbase, ← hbase',
      ← Nat.add_mul, ← Nat.add_mul, heq]
  by_cases hplace : r'.1 = r.1
  · rw [hplace] at hpool'
    obtain rfl : pool = pool' := Option.some.inj (hpool.symm.trans hpool')
    exact Prod.ext hplace.symm (Nat.add_left_cancel heq)
  · have hnot := PagePool.not_covers_of_pairwise hapart hpool hpool' hplace hcovers
    rw [haddr] at hnot
    exact absurd (PagePool.covers_pageAddr hlt') hnot

section Inside

variable {log : List (PoolCall × Option Addr)} {c : PoolCall} {base : Addr}
  (hserved : Served pools pools' log)
  (hinside : ∀ r ∈ outPages pools', r ∉ outPages pools → Inside pools r)
include hserved hinside

/-- Where the pages are that a call has returned. -/
theorem Served.exists_place (hmem : (c, some base) ∈ log) (hn : c.numPages ≠ 0#64) :
    ∃ (pool : PagePool) (bit : ℕ),
      Takes (BaoHypervisor.places pools) (c, some base) (pool.base, pool.size) bit ∧
        pools[c.pool]? = some pool ∧ base.toNat = pool.base.toNat + bit * pageSize ∧
        ∀ x < c.numPages.toNat, (c.pool, bit + x) ∉ outPages pools ∧
          (c.pool, bit + x) ∈ outPages pools' ∧ bit + x < pool.size.toNat := by
  obtain ⟨place, bit, htaken⟩ := hserved.taken c base hmem hn
  have hget := htaken.takes.get
  rw [BaoHypervisor.places, List.getElem?_map, Option.map_eq_some_iff] at hget
  obtain ⟨pool, hpool, rfl⟩ := hget
  refine ⟨pool, bit, htaken.takes, hpool, ?_, fun x hx =>
    ⟨htaken.free x hx, htaken.taken x hx, ?_⟩⟩
  · rw [Option.some.inj htaken.takes.base]
    exact PagePool.toNat_pageAddr htaken.takes.lt_size
  · obtain ⟨pool', hpool', hlt⟩ := hinside _ (htaken.taken x hx) (htaken.free x hx)
    obtain rfl : pool = pool' := Option.some.inj (hpool.symm.trans hpool')
    exact hlt

/-- A page that a call has returned is one of those that it took. -/
theorem Served.exists_page {e : PoolCall × Option Addr} {p : ℕ} (hmem : e ∈ log)
    (hpage : HasPage e p) :
    ∃ (pool : PagePool) (bit x : ℕ),
      Takes (BaoHypervisor.places pools) e (pool.base, pool.size) bit ∧
        x < e.1.numPages.toNat ∧
        ((e.1.pool, bit + x) ∉ outPages pools ∧ (e.1.pool, bit + x) ∈ outPages pools') ∧
          IsPage pools (e.1.pool, bit + x) p := by
  obtain ⟨c, answer⟩ := e
  obtain ⟨base, rfl, hle, hlt⟩ := hpage
  dsimp only at hmem hlt ⊢
  have hn : c.numPages ≠ 0#64 := by
    rintro hzero
    rw [hzero] at hlt
    exact absurd (hle.trans_lt hlt) (lt_irrefl _)
  obtain ⟨pool, bit, htakes, hpool, hbase, hfree⟩ := hserved.exists_place hinside hmem hn
  have hfirst : base.toNat / pageSize = pool.firstPage + bit := by
    rw [hbase, Nat.add_mul_div_right _ _ (by decide)]
    rfl
  obtain ⟨x, rfl⟩ := Nat.exists_eq_add_of_le hle
  have hx : x < c.numPages.toNat := Nat.lt_of_add_lt_add_left hlt
  exact ⟨pool, bit, x, htakes, hx, ⟨(hfree x hx).1, (hfree x hx).2.1⟩, pool, hpool,
    (hfree x hx).2.2, by rw [hfirst, Nat.add_assoc]⟩

end Inside

/-- Pages that calls have returned were free and are marked, if no call has run over the end of its
pool, and the calls have returned different ones. -/
theorem replays_sound {log : List (PoolCall × Option Addr)} {width : ℕ}
    (h : Client.Replays ppAllocAt pools log pools') (hapart : pools.Pairwise PagePool.Apart)
    (hroom : ∀ pool ∈ pools, pool.base.toNat + pool.size.toNat * pageSize ≤ 2 ^ width)
    (hinside : ∀ r ∈ outPages pools', r ∉ outPages pools → Inside pools r) :
    Sound width log ∧ ∀ e ∈ log, ∀ p, HasPage e p →
      ∃ r ∉ outPages pools, r ∈ outPages pools' ∧ IsPage pools r p := by
  have hserved := served_replays h
  refine ⟨⟨?_, ?_, ?_, ?_⟩, fun e he p hp => ?_⟩
  · intro c base hmem
    by_cases hn : c.numPages = 0#64
    · rw [hserved.none c base hmem hn]
      exact Nat.dvd_zero pageSize
    · obtain ⟨pool, bit, -, -, hbase, -⟩ := hserved.exists_place hinside hmem hn
      rw [hbase]
      exact Nat.dvd_add (Nat.dvd_of_mod_eq_zero pool.base_aligned) (Nat.dvd_mul_left _ _)
  · intro c base hmem haligned
    by_cases hn : c.numPages = 0#64
    · rw [hserved.none c base hmem hn]
      exact Nat.dvd_zero _
    · obtain ⟨pool, bit, htakes, -, hbase, -⟩ := hserved.exists_place hinside hmem hn
      have hmod : (pool.base.toNat / pageSize + bit) % c.numPages.toNat = 0 :=
        htakes.aligned haligned
      rw [hbase, ← Nat.div_mul_cancel (Nat.dvd_of_mod_eq_zero pool.base_aligned), ← Nat.add_mul]
      exact Nat.mul_dvd_mul_right (Nat.dvd_of_mod_eq_zero hmod) _
  · intro c base hmem
    by_cases hn : c.numPages = 0#64
    · rw [hserved.none c base hmem hn, hn]
      exact Nat.zero_le _
    · obtain ⟨pool, bit, -, hpool, hbase, hfree⟩ := hserved.exists_place hinside hmem hn
      have hpos : 0 < c.numPages.toNat := Nat.pos_of_ne_zero (BitVec.toNat_ne.mp hn)
      have hlast := (hfree (c.numPages.toNat - 1) (Nat.sub_lt hpos Nat.one_pos)).2.2
      have hle : bit + c.numPages.toNat ≤ pool.size.toNat := by omega
      rw [hbase, Nat.add_assoc, ← Nat.add_mul]
      exact (Nat.add_le_add_left (Nat.mul_le_mul_right _ hle) _).trans
        (hroom pool (List.mem_of_getElem? hpool))
  · refine List.Pairwise.imp_of_mem ?_ hserved.apart
    intro e e' he he' hne p hboth
    obtain ⟨pool, bit, x, htakes, hx, -, hpage⟩ := hserved.exists_page hinside he hboth.1
    obtain ⟨pool', bit', x', htakes', hx', -, hpage'⟩ := hserved.exists_page hinside he' hboth.2
    exact hne _ bit _ bit' htakes htakes' x hx x' hx' (hpage.unique hapart hpage')
  · obtain ⟨pool, bit, x, -, -, ⟨hfree, htaken⟩, hpage⟩ := hserved.exists_page hinside he hp
    exact ⟨_, hfree, htaken, hpage⟩

theorem inside_of_marked {log : List (PoolCall × Option Addr)}
    (h : Client.Replays ppAllocAt pools log pools')
    (hend : ∀ pool ∈ pools, ∀ i, pool.size.toNat ≤ i → pool.bits i = true) :
    ∀ r ∈ outPages pools', r ∉ outPages pools → Inside pools r := by
  rintro r ⟨pool', hpool', -⟩ hfree
  have hplace := congrArg (·[r.1]?) (served_replays h).places
  simp only [places, List.getElem?_map, hpool', Option.map_some] at hplace
  obtain ⟨pool, hpool, -⟩ := Option.map_eq_some_iff.mp hplace.symm
  refine ⟨pool, hpool, Nat.lt_of_not_le fun hle => hfree ⟨pool, hpool, ?_⟩⟩
  exact hend pool (List.mem_of_getElem? hpool) r.2 hle

end BaoHypervisor
