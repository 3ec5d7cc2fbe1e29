import BaoHypervisor.Core.Image
import BaoHypervisor.Core.Mem.PageTable.Inflate
import BaoHypervisor.Core.Mem.PageTable.MapCpy
import BaoHypervisor.Core.Mem.Reclr

/-!
# Recolouring

`mem_map_reclr` maps an image that lies in the memory already. Pages with one of the colours of
the address space stay where they are. The others are copied to new pages, through two windows of
the hypervisor, and are freed. A window shows the pages that it is made for.
-/

namespace BaoHypervisor

open Bitmap

namespace Mmu

variable (m : Mmu) (c : Coloring) (colors : ColorMap)

/-- The pages that `mem_map` makes a window of `n` pages show. -/
def windowPages (ppages : PPages) (n : ℕ) : List Addr :=
  if !c.allClrs ppages.colors then PagePool.clrMapped c ppages
  else (List.range n).map (pageAddr ppages.base)

/-- The loop of `mem_map_reclr`, after `i` pages of the image and `k` pages that were copied. The
windows show the lists of pages. There is no result where a page has no entry of the last level, or
no window shows a page that is copied. -/
def reclrLoop (image run : Addr) (flags : Pte) (physPages reclrdPages : List Addr) :
    ℕ → PtEntries → PhysMem → ℕ → ℕ → ℕ → ℕ → Option (PtEntries × PhysMem)
  | 0, t, mem, _, _, _, _ => some (t, mem)
  | left + 1, t, mem, vaddr, i, k, index =>
      let clrOffset := image.toNat / pageSize % (c.colorNum * c.colorSize)
      (m.ptGetPte t (m.dscr.lvls - 1) vaddr).bind fun _ =>
        if bitmapGet (colorBitmap colors) ((i + clrOffset) / c.colorSize % c.colorNum) then
          reclrLoop image run flags physPages reclrdPages left
            (m.setPte t (m.dscr.lvls - 1) vaddr (m.fmt.pteSet (pageAddr image i) .page flags)) mem
            (vaddr + pageSize) (i + 1) k index
        else
          reclrdPages[k]?.bind fun clrd =>
            physPages[i]?.bind fun phys =>
              let index' := c.ppNextClr run index colors
              reclrLoop image run flags physPages reclrdPages left
                (m.setPte t (m.dscr.lvls - 1) vaddr
                  (m.fmt.pteSet (pageAddr run index') .page flags))
                (memcpy (fun o => clrd + BitVec.ofNat 64 o) (fun o => phys + BitVec.ofNat 64 o) true
                  pageSize mem)
                (vaddr + pageSize) (i + 1) (k + 1) (index' + 1)

/-- The pages that `mem_map_reclr` allocates, with the pools after it. -/
def reclrAlloc (pools : List PagePool) (image : PPages) (n : ℕ) : PPages × List PagePool :=
  let reclrdNum := c.reclrdNum colors image.base n
  if c.allClrs colors || reclrdNum == 0 then (⟨0#64, 0#64, 0#64⟩, pools)
  else memAllocPpages c colors (BitVec.ofNat 64 reclrdNum) false pools

def unusedPages (image : PPages) (n : ℕ) : PPages where
  base := image.base
  numPages := BitVec.ofNat 64 (c.reclrdNum colors image.base n)
  colors := ~~~colors

/-- `mem_map_reclr` for some `ppages`, in an address space with the colours `colors`. -/
def memMapReclr (rounds : ℕ) (t : PtEntries) (pools : List PagePool) (mem : PhysMem) (va : ℕ)
    (image : PPages) (n : ℕ) (flags : Pte) :
    Option (PtEntries × List PagePool × PhysMem × Bool) :=
  if c.allClrs colors || c.reclrdNum colors image.base n == 0 then
    (m.memMapPages c colors rounds t pools va (some image) n flags).map
      fun (t', pools', ok) => (t', pools', mem, ok)
  else
    let run := reclrAlloc c colors pools image n
    (m.reclrLoop c colors image.base run.1.base flags (windowPages c image n)
      (windowPages c run.1 (c.reclrdNum colors image.base n)) n
      (m.memInflatePt t (pageFloor va) (n * pageSize)) mem (pageFloor va) 0 0 0).map
        fun (t', mem') =>
          (t', PagePool.freeInPools c run.2 (unusedPages c colors image n), mem', true)

/-! ## What a call is for -/

/-- An image of `n` pages in one of the pools, some colours but not all of them, pages that are
allocated for those off the colours, and tables that come down to each page of the range. -/
structure Recolourable (t : PtEntries) (pools : List PagePool) (va : ℕ) (image : PPages) (n : ℕ) :
    Prop where
  closed : m.Closed t
  span : n * pageSize ≤ m.dscr.shape.span
  notAll : c.allClrs colors = false
  aligned : pageSize ∣ image.base.toNat
  plain : c.allClrs image.colors = true
  apart : pools.Pairwise PagePool.Apart
  inPool : ∃ pool ∈ pools, ∀ i < n, pool.Owns (image.base.toNat / pageSize + i)
  allocated : (reclrAlloc c colors pools image n).1.numPages.toNat =
    c.reclrdNum colors image.base n
  runInPools : ∀ frame ∈ (reclrAlloc c colors pools image n).1.frames c,
    ∃ pool ∈ pools, pool.Owns frame
  inflated : c.reclrdNum colors image.base n ≠ 0 →
    m.Inflated (m.memInflatePt t (pageFloor va) (n * pageSize)) (pageFloor va) (n * pageSize)
  unmapped : c.reclrdNum colors image.base n = 0 →
    m.InSection (pageFloor va) n ∧ m.Unmapped t (pageFloor va) n

/-- Pages of the image with one of the colours are mapped in place. The others are mapped to new
pages with their contents, and just these are free now. -/
structure Recolours (pools pools' : List PagePool) (run image : PPages) (va n : ℕ)
    (t' : PtEntries) (mem mem' : PhysMem) : Prop where
  count : c.reclrdNum colors image.base n = (c.offColors colors image.base n).length
  inPlace : ∀ i < n, c.inColors image.base colors i = true →
    m.ShowsFrom t' (pageFloor va + i * pageSize) (pageAddr image.base i) 1
  copied : List.Forall₂ (fun i page => m.ShowsFrom t' (pageFloor va + i * pageSize) page 1 ∧
      ∀ o < pageSize, mem' (page + BitVec.ofNat 64 o) =
        mem (pageAddr image.base i + BitVec.ofNat 64 o))
    (c.offColors colors image.base n) (PagePool.clrMapped c run)
  distinct : (PagePool.clrMapped c run).Nodup
  others : ∀ a, (∀ page ∈ PagePool.clrMapped c run, ∀ o < pageSize,
    a ≠ page + BitVec.ofNat 64 o) → mem' a = mem a
  freed : ∀ (j : ℕ) (pool : PagePool), pools[j]? = some pool → ∃ pool', pools'[j]? = some pool' ∧
    ∀ p < pool.size.toNat, pool'.bits p = (pool.bits p &&
      !decide (pool.firstPage + p ∈
        (c.offColors colors image.base n).map (image.base.toNat / pageSize + ·)))

variable {m c colors} {t t' : PtEntries} {pools pools' : List PagePool} {va n : ℕ}
  {page clrd phys : Addr} {flags : Pte} {mem : PhysMem}

/-! ## One page -/

theorem look_setPage (hclosed : m.Closed t) (hflags : m.fmt.FlagsOk flags)
    (hpath : m.Path t (m.dscr.lvls - 1) va) (hva : pageSize ∣ va) (page : Addr) :
    m.Closed (m.setPte t (m.dscr.lvls - 1) va (m.fmt.pteSet page .page flags)) ∧
      (∀ x < pageSize, m.look (m.setPte t (m.dscr.lvls - 1) va
        (m.fmt.pteSet page .page flags)) (va + x) =
          (m.dscr.lvls - 1, m.fmt.pteSet page .page flags)) ∧
      ∀ b, (∀ x < pageSize, b % m.dscr.shape.span ≠ (va + x) % m.dscr.shape.span) →
        m.look (m.setPte t (m.dscr.lvls - 1) va (m.fmt.pteSet page .page flags)) b =
          m.look t b := by
  have hlvls := m.dscr.lvls_pos
  have hlvl : m.dscr.lvls - 1 < m.dscr.lvls := Nat.sub_lt hlvls Nat.one_pos
  have hlast : m.isLast (m.dscr.lvls - 1) = true := isLast_eq_true (Nat.sub_add_cancel hlvls)
  have htable : m.fmt.pteTable (m.isLast (m.dscr.lvls - 1)) (m.fmt.pteSet page .page flags) =
      false := by
    rw [hlast]
    exact m.fmt.pteTable_of_ptePage _ _ (m.fmt.ptePage_pteSet true _ _ hflags)
  have hsize : m.dscr.shape.size (m.dscr.lvls - 1) = pageSize := PtDscr.ptLvlsize_last
  have hdvd : m.dscr.shape.size (m.dscr.lvls - 1) ∣ va := by rwa [hsize]
  have hlook := look_setPte hclosed hlvl hpath htable
  refine ⟨closed_setPte hclosed hlvl hpath htable, fun x hx => ?_, fun b hb => ?_⟩
  · rw [hlook, if_pos (Radix.Shape.pos_add hdvd (by rwa [hsize]))]
  · rw [hlook, if_neg]
    intro hpos
    obtain ⟨x, hx, hmod⟩ := (Radix.Shape.pos_eq_iff (g := m.dscr.shape) hlvl hdvd).mp hpos
    exact hb x (by rwa [hsize] at hx) hmod

/-- An entry of the last level shows its page. -/
theorem showsFrom_of_look (hva : pageSize ∣ va) (hpage : pageSize ∣ page.toNat)
    (hlook : ∀ x < pageSize,
      m.look t (va + x) = (m.dscr.lvls - 1, m.fmt.pteSet page .page flags)) :
    m.ShowsFrom t va page 1 := by
  have hlvl : m.dscr.lvls - 1 < m.dscr.lvls := Nat.sub_lt m.dscr.lvls_pos Nat.one_pos
  have hsize : m.dscr.ptLvlsize (m.dscr.lvls - 1) = pageSize := PtDscr.ptLvlsize_last
  have hwidth : pageSize ∣ 2 ^ m.fmt.addrWidth := by
    rw [← hsize]
    exact ptLvlsize_dvd_addrWidth hlvl
  have haligned : pageSize ∣ page.toNat % 2 ^ m.fmt.addrWidth := (Nat.dvd_mod_iff hwidth).mpr hpage
  have haddr : (m.fmt.pteAddr (m.fmt.pteSet page .page flags)).toNat =
      page.toNat % 2 ^ m.fmt.addrWidth := by
    rw [m.fmt.toNat_pteAddr_pteSet]
    exact Nat.div_mul_cancel haligned
  have hleaf : ∀ x < pageSize, m.leafAt t (va + x) =
      some (m.dscr.lvls - 1, m.fmt.pteSet page .page flags) := fun x hx =>
    leafAt_eq_some_iff.mpr ⟨hlook x hx, m.fmt.pteValid_pteSet _ _ _⟩
  have hdvd : m.dscr.ptLvlsize (m.dscr.lvls - 1) ∣
      (m.fmt.pteAddr (m.fmt.pteSet page .page flags)).toNat := by
    rw [hsize, haddr]
    exact haligned
  rw [← Nat.one_mul pageSize] at hleaf
  refine ⟨fun x hx => ?_, fun x hx e he => ?_⟩
  · have hx' : x < pageSize := by rwa [Nat.one_mul] at hx
    have hoffset : (va + x) % pageSize = x := by
      rw [Nat.add_mod, Nat.mod_eq_zero_of_dvd hva, Nat.zero_add, Nat.mod_mod, Nat.mod_eq_of_lt hx']
    rw [memTranslate_eq, hleaf x hx, Option.map_some]
    refine congrArg some (BitVec.eq_of_toNat_eq ?_)
    rw [toNat_leafAddr hlvl hdvd, haddr, hsize, hoffset, BitVec.toNat_ofNat,
      Nat.mod_eq_of_lt ((Nat.mod_lt _ (Nat.two_pow_pos _)).trans_le
        (Nat.pow_le_pow_right Nat.two_pos m.fmt.addrWidth_lt.le)),
      add_mod_of_dvd hwidth hpage hx']
  · rw [hleaf x hx] at he
    cases he
    exact hdvd

theorem page_eq_of_byte_eq (hclrd : pageSize ∣ clrd.toNat) (hphys : pageSize ∣ phys.toNat)
    {o o' : ℕ} (ho : o < pageSize) (ho' : o' < pageSize)
    (h : clrd + BitVec.ofNat 64 o = phys + BitVec.ofNat 64 o') : clrd = phys ∧ o = o' := by
  have hnat := congrArg BitVec.toNat h
  have hlt := clrd.isLt
  have hlt' := phys.isLt
  rw [BitVec.toNat_add, BitVec.toNat_add, BitVec.toNat_ofNat, BitVec.toNat_ofNat] at hnat
  have hboth : clrd.toNat = phys.toNat ∧ o = o' := by
    unfold pageSize at *
    omega
  exact ⟨BitVec.eq_of_toNat_eq hboth.1, hboth.2⟩

/-- A page is copied to another one. -/
theorem memcpy_page (hclrd : pageSize ∣ clrd.toNat) (hphys : pageSize ∣ phys.toNat)
    (hne : phys ≠ clrd) (mem : PhysMem) :
    (∀ o < pageSize, memcpy (fun o => clrd + BitVec.ofNat 64 o)
      (fun o => phys + BitVec.ofNat 64 o) true pageSize mem (clrd + BitVec.ofNat 64 o) =
        mem (phys + BitVec.ofNat 64 o)) ∧
      ∀ a, (∀ o < pageSize, a ≠ clrd + BitVec.ofNat 64 o) →
        memcpy (fun o => clrd + BitVec.ofNat 64 o) (fun o => phys + BitVec.ofNat 64 o) true
          pageSize mem a = mem a := by
  have hwords : WordsApart (fun o => clrd + BitVec.ofNat 64 o)
      fun o => phys + BitVec.ofNat 64 o := by
    intro i j k hi hj hk heq
    have hnat := congrArg BitVec.toNat heq
    dsimp only at hnat
    rw [BitVec.toNat_add, BitVec.toNat_add, BitVec.toNat_ofNat, BitVec.toNat_ofNat] at hnat
    unfold pageSize wordSize at *
    omega
  rw [memcpy_eq_copyTo hwords]
  refine ⟨fun o ho => ?_, fun a ha => Copy.copyTo_of_ne mem ha⟩
  have hsource := @Copy.source_of_disjoint _ _ (fun o => clrd + BitVec.ofNat 64 o)
    (fun o => phys + BitVec.ofNat 64 o) pageSize
    (fun j hj k hk h => (page_eq_of_byte_eq hclrd hclrd hj hk h).2)
    (fun j hj k hk h => hne (page_eq_of_byte_eq hphys hclrd hj hk h).1) o ho
  rw [Copy.copyTo_apply, hsource]

/-! ## The loop -/

/-- What the loop leaves behind for the pages of the image from `i` on, with the pages that are
left in the window. -/
structure LoopDone (m : Mmu) (c : Coloring) (colors : ColorMap) (image : Addr) (flags : Pte)
    (va i left : ℕ) (pages : List Addr) (t t' : PtEntries) (mem mem' : PhysMem) : Prop where
  inPlace : ∀ j, i ≤ j → j < i + left → c.inColors image colors j = true → ∀ x < pageSize,
    m.look t' (va + j * pageSize + x) =
      (m.dscr.lvls - 1, m.fmt.pteSet (pageAddr image j) .page flags)
  copied : List.Forall₂ (fun j page => (∀ x < pageSize, m.look t' (va + j * pageSize + x) =
      (m.dscr.lvls - 1, m.fmt.pteSet page .page flags)) ∧
    ∀ o < pageSize, mem' (page + BitVec.ofNat 64 o) =
      mem (pageAddr image j + BitVec.ofNat 64 o))
    ((List.range' i left).filter fun j => !c.inColors image colors j) pages
  frame : ∀ b, (∀ j, i ≤ j → j < i + left → ∀ x < pageSize,
    b % m.dscr.shape.span ≠ (va + j * pageSize + x) % m.dscr.shape.span) →
      m.look t' b = m.look t b
  others : ∀ a, (∀ page ∈ pages, ∀ o < pageSize, a ≠ page + BitVec.ofNat 64 o) → mem' a = mem a

section Loop

variable {image run : Addr} {i k left index : ℕ} {pages physPages reclrdPages : List Addr}
  {mem' mem'' : PhysMem} {t'' : PtEntries}

theorem LoopDone.keeps_first
    (h : m.LoopDone c colors image flags va (i + 1) left pages t t' mem mem')
    (hspan : (i + (left + 1)) * pageSize ≤ m.dscr.shape.span) {x : ℕ} (hx : x < pageSize) :
    m.look t' (va + i * pageSize + x) = m.look t (va + i * pageSize + x) := by
  refine h.frame _ fun j hj hj' y hy => ?_
  have hle : (i + 1) * pageSize ≤ j * pageSize := Nat.mul_le_mul_right _ hj
  have hle' : (j + 1) * pageSize ≤ (i + (left + 1)) * pageSize :=
    Nat.mul_le_mul_right _ (by omega)
  rw [Nat.succ_mul] at hle hle'
  exact Radix.mod_ne_of_lt (by omega) (by omega)

theorem LoopDone.frame_first
    (h : m.LoopDone c colors image flags va (i + 1) left pages t t' mem mem')
    {b : ℕ} (hb : ∀ j, i ≤ j → j < i + (left + 1) → ∀ x < pageSize,
      b % m.dscr.shape.span ≠ (va + j * pageSize + x) % m.dscr.shape.span) :
    m.look t' b = m.look t b :=
  h.frame b fun j hj hj' => hb j (Nat.le_of_succ_le hj) (by omega)

/-- The page `i` is mapped in place. -/
theorem LoopDone.cons_inPlace (hin : c.inColors image colors i = true)
    (hspan : (i + (left + 1)) * pageSize ≤ m.dscr.shape.span)
    (hfirst : ∀ x < pageSize, m.look t' (va + i * pageSize + x) =
      (m.dscr.lvls - 1, m.fmt.pteSet (pageAddr image i) .page flags))
    (hframe : ∀ b, (∀ x < pageSize,
      b % m.dscr.shape.span ≠ (va + i * pageSize + x) % m.dscr.shape.span) →
        m.look t' b = m.look t b)
    (h : m.LoopDone c colors image flags va (i + 1) left pages t' t'' mem mem') :
    m.LoopDone c colors image flags va i (left + 1) pages t t'' mem mem' := by
  refine ⟨fun j hj hj' hcol x hx => ?_, ?_, fun b hb => ?_, h.others⟩
  · rcases hj.eq_or_lt with rfl | hlt
    · rw [h.keeps_first hspan hx, hfirst x hx]
    · exact h.inPlace j hlt (by omega) hcol x hx
  · rw [List.range'_succ, List.filter_cons_of_neg (by rw [hin]; exact Bool.false_ne_true)]
    exact h.copied
  · rw [h.frame_first hb, hframe b (hb i le_rfl (by omega))]

/-- The page `i` is copied to a page that is not copied to again. -/
theorem LoopDone.cons_copied (hin : c.inColors image colors i = false)
    (hspan : (i + (left + 1)) * pageSize ≤ m.dscr.shape.span)
    (hfirst : ∀ x < pageSize, m.look t' (va + i * pageSize + x) =
      (m.dscr.lvls - 1, m.fmt.pteSet clrd .page flags))
    (hframe : ∀ b, (∀ x < pageSize,
      b % m.dscr.shape.span ≠ (va + i * pageSize + x) % m.dscr.shape.span) →
        m.look t' b = m.look t b)
    (hcopy : ∀ o < pageSize, mem' (clrd + BitVec.ofNat 64 o) =
      mem (pageAddr image i + BitVec.ofNat 64 o))
    (hothers : ∀ a, (∀ o < pageSize, a ≠ clrd + BitVec.ofNat 64 o) → mem' a = mem a)
    (hpages : ∀ page ∈ pages, ∀ o < pageSize, ∀ o' < pageSize,
      clrd + BitVec.ofNat 64 o ≠ page + BitVec.ofNat 64 o')
    (hphys : ∀ j, i < j → j < i + (left + 1) → c.inColors image colors j = false →
      ∀ o < pageSize, ∀ o' < pageSize,
        pageAddr image j + BitVec.ofNat 64 o ≠ clrd + BitVec.ofNat 64 o')
    (h : m.LoopDone c colors image flags va (i + 1) left pages t' t'' mem' mem'') :
    m.LoopDone c colors image flags va i (left + 1) (clrd :: pages) t t'' mem mem'' := by
  refine ⟨fun j hj hj' hcol x hx => ?_, ?_, fun b hb => ?_, fun a ha => ?_⟩
  · rcases hj.eq_or_lt with rfl | hlt
    · rw [hin] at hcol
      cases hcol
    · exact h.inPlace j hlt (by omega) hcol x hx
  · rw [List.range'_succ, List.filter_cons_of_pos (by rw [hin]; rfl)]
    refine List.Forall₂.cons ⟨fun x hx => ?_, fun o ho => ?_⟩ ?_
    · rw [h.keeps_first hspan hx, hfirst x hx]
    · rw [h.others _ fun page hpage o' ho' => hpages page hpage o ho o' ho', hcopy o ho]
    · have hmem := (List.forall₂_and_left _ _).mpr ⟨fun j hj => hj, h.copied⟩
      refine hmem.imp fun j page ⟨hj, hlook, hbytes⟩ => ⟨hlook, fun o ho => ?_⟩
      obtain ⟨hj, hcol⟩ := List.mem_filter.mp hj
      have hbound := List.mem_range'_1.mp hj
      rw [hbytes o ho, hothers _ fun o' ho' => hphys j hbound.1 (by omega)
        (by simpa using hcol) o ho o' ho']
  · rw [h.frame_first hb, hframe b (hb i le_rfl (by omega))]
  · rw [h.others a fun page hpage => ha page (List.mem_cons_of_mem _ hpage),
      hothers a (ha clrd List.mem_cons_self)]

/-- The loop comes to the last page. -/
theorem reclrLoop_spec (hclosed : m.Closed t) (hflags : m.fmt.FlagsOk flags) (hva : pageSize ∣ va)
    (hspan : (i + left) * pageSize ≤ m.dscr.shape.span)
    (hpath : ∀ j, i ≤ j → j < i + left → m.Path t (m.dscr.lvls - 1) (va + j * pageSize))
    (himage : pageSize ∣ image.toNat) (hle : i + left ≤ n)
    (hpages : reclrdPages.drop k = (c.clrPages run colors
      ((List.range' i left).countP fun j => !c.inColors image colors j) index).map (pageAddr run))
    (haligned : ∀ page ∈ reclrdPages, pageSize ∣ page.toNat) (hnodup : reclrdPages.Nodup)
    (hoff : ∀ page ∈ reclrdPages, ∀ j < n, c.inColors image colors j = false →
      pageAddr image j ≠ page) :
    ∃ t' mem', m.reclrLoop c colors image run flags ((List.range n).map (pageAddr image))
        reclrdPages left t mem (va + i * pageSize) i k index = some (t', mem') ∧
      m.LoopDone c colors image flags va i left (reclrdPages.drop k) t t' mem mem' := by
  induction left generalizing t mem i k index with
  | zero =>
      have hnil : reclrdPages.drop k = [] := hpages
      rw [hnil]
      exact ⟨t, mem, rfl, fun j hj hj' => absurd hj (by omega), List.Forall₂.nil,
        fun _ _ => rfl, fun _ _ => rfl⟩
  | succ left ih =>
      have hpath' := hpath i le_rfl (by omega)
      have hva' : pageSize ∣ va + i * pageSize := Nat.dvd_add hva (Nat.dvd_mul_left _ _)
      have hnext : va + i * pageSize + pageSize = va + (i + 1) * pageSize := by
        rw [Nat.succ_mul, Nat.add_assoc]
      have hpte : m.ptGetPte t (m.dscr.lvls - 1) (va + i * pageSize) =
          some (m.pteAt t (m.dscr.lvls - 1) (va + i * pageSize)) := by
        rw [ptGetPte, if_pos hpath']
      have hcolor : bitmapGet (colorBitmap colors)
          ((i + image.toNat / pageSize % (c.colorNum * c.colorSize)) / c.colorSize % c.colorNum) =
            c.inColors image colors i := by
        rw [Coloring.inColors_eq_getLsbD, bitmapGet_colorBitmap, Coloring.colorOf]
      have hlvl : m.dscr.lvls - 1 < m.dscr.lvls := Nat.sub_lt m.dscr.lvls_pos Nat.one_pos
      have hspan' : (i + 1 + left) * pageSize ≤ m.dscr.shape.span := by
        rwa [Nat.add_right_comm, Nat.add_assoc]
      have hpaths : ∀ page j, i + 1 ≤ j → j < i + 1 + left → m.Path
          (m.setPte t (m.dscr.lvls - 1) (va + i * pageSize) (m.fmt.pteSet page .page flags))
            (m.dscr.lvls - 1) (va + j * pageSize) := by
        intro page j hj hj'
        exact (path_iff_of_agreeOff (agreeOff_setPte t _ _ _) hlvl le_rfl _).mpr
          (hpath j (by omega) (by omega))
      rw [reclrLoop, hpte, Option.bind_some, hcolor, hnext]
      rw [List.range'_succ] at hpages
      cases hin : c.inColors image colors i with
      | true =>
          obtain ⟨hclosed', hfirst, hframe⟩ :=
            look_setPage hclosed hflags hpath' hva' (pageAddr image i)
          rw [List.countP_cons_of_neg (by rw [hin]; exact Bool.false_ne_true)] at hpages
          obtain ⟨t', mem', hloop, hdone⟩ := ih hclosed' hspan' (hpaths _) (by omega) hpages
          rw [if_pos rfl]
          exact ⟨t', mem', hloop, hdone.cons_inPlace hin hspan hfirst hframe⟩
      | false =>
          rw [List.countP_cons_of_pos (by rw [hin]; rfl), Coloring.clrPages, List.map_cons]
            at hpages
          obtain ⟨clrd, hclrd⟩ : ∃ clrd,
              clrd = pageAddr run (c.ppNextClr run index colors) := ⟨_, rfl⟩
          rw [← hclrd] at hpages
          have hget : reclrdPages[k]? = some clrd := by
            rw [← List.head?_drop, hpages, List.head?_cons]
          have hrest : reclrdPages.drop (k + 1) = (c.clrPages run colors
              ((List.range' (i + 1) left).countP fun j => !c.inColors image colors j)
                (c.ppNextClr run index colors + 1)).map (pageAddr run) := by
            rw [← List.tail_drop, hpages, List.tail_cons]
          have hphysGet : ((List.range n).map (pageAddr image))[i]? = some (pageAddr image i) := by
            rw [List.getElem?_map, List.getElem?_range (by omega), Option.map_some]
          have hmem := List.mem_of_getElem? hget
          obtain ⟨hclosed', hfirst, hframe⟩ := look_setPage hclosed hflags hpath' hva' clrd
          have hphys := fun j => pageSize_dvd_toNat_pageAddr himage j
          obtain ⟨hcopy, hothers⟩ := memcpy_page (haligned clrd hmem) (hphys i)
            (hoff clrd hmem i (by omega) hin) mem
          obtain ⟨t', mem', hloop, hdone⟩ := @ih _ _ _ _ _ hclosed' hspan' (hpaths _) (by omega)
            hrest
          have hdrop : reclrdPages.drop k = clrd :: reclrdPages.drop (k + 1) := by
            rw [hpages, hrest]
          have hnot : clrd ∉ reclrdPages.drop (k + 1) := by
            have hsub := hnodup.sublist (List.drop_sublist k _)
            rw [hdrop] at hsub
            exact (List.nodup_cons.mp hsub).1
          rw [if_neg Bool.false_ne_true, hget, Option.bind_some, hphysGet, Option.bind_some,
            hdrop]
          dsimp only
          rw [← hclrd]
          refine ⟨t', mem', hloop, hdone.cons_copied hin hspan hfirst hframe hcopy hothers
            (fun page hpage o ho o' ho' heq => ?_) fun j hj hj' hcol o ho o' ho' heq => ?_⟩
          · have hmem' := List.mem_of_mem_drop hpage
            obtain ⟨rfl, -⟩ := page_eq_of_byte_eq (haligned clrd hmem) (haligned page hmem') ho ho'
              heq
            exact hnot hpage
          · exact hoff clrd hmem j (by omega) hcol
              (page_eq_of_byte_eq (hphys j) (haligned clrd hmem) ho ho' heq).1

end Loop

/-! ## The pages that are allocated and freed -/

section Pages

variable {image run : PPages} {base : Addr} {index : ℕ} {pool : PagePool}

theorem toNat_pageAddr_of_owns (hbase : pageSize ∣ base.toNat)
    (h : pool.Owns (base.toNat / pageSize + index)) :
    (pageAddr base index).toNat = base.toNat + index * pageSize := by
  have haligned := pool.base_aligned
  have hextent := pool.extent
  obtain ⟨-, hlt⟩ := h
  rw [pageAddr, BitVec.toNat_add, BitVec.toNat_ofNat]
  unfold PagePool.firstPage at hlt
  unfold pageSize at *
  omega

theorem frame_eq_of_pageAddr_eq {pool' : PagePool} {base' : Addr} {index' : ℕ}
    (hbase : pageSize ∣ base.toNat) (hbase' : pageSize ∣ base'.toNat)
    (h : pool.Owns (base.toNat / pageSize + index))
    (h' : pool'.Owns (base'.toNat / pageSize + index'))
    (heq : pageAddr base index = pageAddr base' index') :
    base.toNat / pageSize + index = base'.toNat / pageSize + index' := by
  have hnat := congrArg BitVec.toNat heq
  rw [toNat_pageAddr_of_owns hbase h, toNat_pageAddr_of_owns hbase' h'] at hnat
  unfold pageSize at *
  omega

theorem inColors_eq_of_frame_eq {base' : Addr} {index' : ℕ}
    (h : base.toNat / pageSize + index = base'.toNat / pageSize + index') :
    c.inColors base colors index = c.inColors base' colors index' := by
  have hcolor : c.colorOf base index = c.colorOf base' index' := by
    rw [Coloring.colorOf_eq, Coloring.colorOf_eq, Nat.add_comm, h, Nat.add_comm]
  rw [Coloring.inColors, Coloring.inColors, hcolor]

/-- The pages of a coloured run in the pools: aligned, different, and of the colours. -/
theorem clrMapped_spec (hclr : c.allClrs colors = false) (hcolors : run.colors = colors)
    (hbase : pageSize ∣ run.base.toNat)
    (hrun : ∀ frame ∈ run.frames c, ∃ pool ∈ pools, pool.Owns frame)
    (himage : pageSize ∣ image.base.toNat)
    (hown : ∀ i < n, pool.Owns (image.base.toNat / pageSize + i)) :
    (∀ page ∈ PagePool.clrMapped c run, pageSize ∣ page.toNat) ∧
      (PagePool.clrMapped c run).Nodup ∧
      ∀ page ∈ PagePool.clrMapped c run, ∀ j < n, c.inColors image.base colors j = false →
        pageAddr image.base j ≠ page := by
  have hcolor := Coloring.hasColor_of_allClrs hclr
  have hframes : ∀ index ∈ c.clrPages run.base colors run.numPages.toNat 0,
      ∃ pool ∈ pools, pool.Owns (run.base.toNat / pageSize + index) := by
    intro index hindex
    refine hrun _ ?_
    rw [PPages.frames, hcolors, hclr, if_neg Bool.false_ne_true]
    exact List.mem_map_of_mem hindex
  rw [PagePool.clrMapped, hcolors]
  refine ⟨fun page hpage => ?_, ?_, fun page hpage j hj hoff heq => ?_⟩
  · obtain ⟨index, -, rfl⟩ := List.mem_map.mp hpage
    exact pageSize_dvd_toNat_pageAddr hbase index
  · refine (Coloring.nodup_clrPages hcolor _ _).map_on fun index hindex index' hindex' heq => ?_
    obtain ⟨pool, -, howns⟩ := hframes index hindex
    obtain ⟨pool', -, howns'⟩ := hframes index' hindex'
    exact Nat.add_left_cancel (frame_eq_of_pageAddr_eq hbase hbase howns howns' heq)
  · obtain ⟨index, hindex, rfl⟩ := List.mem_map.mp hpage
    obtain ⟨pool', -, howns⟩ := hframes index hindex
    have hframe := frame_eq_of_pageAddr_eq himage hbase (hown j hj) howns heq
    have hin := Coloring.inColors_of_mem_clrPages hcolor hindex
    rw [← inColors_eq_of_frame_eq hframe, hoff] at hin
    cases hin

theorem frames_unusedPages (hclr : c.allClrs colors = false)
    (hlt : c.reclrdNum colors image.base n < 2 ^ 64) :
    (unusedPages c colors image n).frames c =
      (c.offColors colors image.base n).map (image.base.toNat / pageSize + ·) := by
  have hnum : (unusedPages c colors image n).numPages.toNat =
      c.reclrdNum colors image.base n := by
    rw [unusedPages, BitVec.toNat_ofNat, Nat.mod_eq_of_lt hlt]
  have hcolors : (unusedPages c colors image n).colors = ~~~colors := rfl
  have hbase : (unusedPages c colors image n).base = image.base := rfl
  rw [PPages.frames, hnum, hcolors, hbase, Coloring.allClrs_not hclr, if_neg Bool.false_ne_true,
    Coloring.clrPages_not hclr]

theorem mem_offColors {i : ℕ} : i ∈ c.offColors colors base n ↔
    i < n ∧ c.inColors base colors i = false := by
  rw [Coloring.offColors, List.mem_filter, List.mem_range, Bool.not_eq_true']

theorem not_owns_of_pairwise (hapart : pools.Pairwise PagePool.Apart) {i j : ℕ}
    {other : PagePool} (hi : pools[i]? = some pool) (hj : pools[j]? = some other) (hne : j ≠ i)
    {frame : ℕ} (h : pool.Owns frame) : ¬ other.Owns frame := by
  have hcovers : ∀ {p : PagePool}, p.Owns frame → p.Covers (frame * pageSize) := by
    rintro p ⟨hle, hlt⟩
    have haligned := p.base_aligned
    unfold PagePool.firstPage at hle hlt
    unfold PagePool.Covers
    unfold pageSize at *
    omega
  exact fun hother => PagePool.not_covers_of_pairwise hapart hi hj hne (hcovers h) (hcovers hother)

/-- A free of pages in the pools clears the bits of these pages, and of no others. -/
theorem bits_freeInPools {ppages : PPages} (hapart : pools.Pairwise PagePool.Apart)
    (hown : ∃ own ∈ pools, own.Covers ppages.base.toNat ∧ ∀ frame ∈ ppages.frames c,
      own.Owns frame) (j : ℕ) (pool : PagePool) (hj : pools[j]? = some pool) :
    ∃ pool', (PagePool.freeInPools c pools ppages)[j]? = some pool' ∧
      ∀ p < pool.size.toNat, pool'.bits p =
        (pool.bits p && !decide (pool.firstPage + p ∈ ppages.frames c)) := by
  obtain ⟨own, hmem, hcovers, howns⟩ := hown
  refine ⟨pool.memFreePpages c ppages, ?_, fun p hp => ?_⟩
  · rw [PagePool.freeInPools, List.getElem?_map, hj, Option.map_some]
  · rw [PagePool.bits_memFreePpages_calls]
    by_cases hin : inRange ppages.base pool.base (pageBytes pool.size) = true
    · simp only [PagePool.mem_clearCalls_iff hin]
    · have hnot : pool.firstPage + p ∉ ppages.frames c := by
        intro hframe
        obtain ⟨i, hi⟩ := List.getElem?_of_mem hmem
        by_cases hij : j = i
        · rw [hij, hi] at hj
          cases hj
          exact hin ((PagePool.inRange_iff _).mpr ⟨hcovers.1, hcovers.2.le⟩)
        · exact not_owns_of_pairwise hapart hi hj hij (howns _ hframe)
            ⟨Nat.le_add_right _ _, Nat.add_lt_add_left hp _⟩
      rw [PagePool.clearCalls, if_neg hin]
      simp only [hnot, List.not_mem_nil]

end Pages

theorem extent_reclrAlloc (c : Coloring) (colors : ColorMap) (pools : List PagePool)
    (image : PPages) (n : ℕ) :
    (reclrAlloc c colors pools image n).2.map (fun pool => (pool.base, pool.size)) =
      pools.map fun pool => (pool.base, pool.size) := by
  rw [reclrAlloc]
  split_ifs
  · rfl
  · exact map_extent_allocPpagesLoop c colors _ false pools _

theorem apart_of_extent {pools₁ : List PagePool} (h : pools.Pairwise PagePool.Apart)
    (hextent : pools₁.map (fun pool => (pool.base, pool.size)) =
      pools.map fun pool => (pool.base, pool.size)) : pools₁.Pairwise PagePool.Apart := by
  have hplaces : (pools.map fun pool => (pool.base, pool.size)).Pairwise fun e e' => ∀ a,
      ¬ ((e.1.toNat ≤ a ∧ a < e.1.toNat + e.2.toNat * pageSize) ∧
        e'.1.toNat ≤ a ∧ a < e'.1.toNat + e'.2.toNat * pageSize) := List.pairwise_map.mpr h
  rw [← hextent] at hplaces
  have hapart := List.pairwise_map.mp hplaces
  exact hapart

theorem exists_owns_of_extent {pools₁ : List PagePool} (hpool : pool ∈ pools)
    (hextent : pools₁.map (fun pool => (pool.base, pool.size)) =
      pools.map fun pool => (pool.base, pool.size)) :
    ∃ own ∈ pools₁, ∀ frame, pool.Owns frame → own.Owns frame := by
  have hmem : (pool.base, pool.size) ∈ pools₁.map fun pool => (pool.base, pool.size) := by
    rw [hextent]
    exact List.mem_map_of_mem hpool
  obtain ⟨own, hown, heq⟩ := List.mem_map.mp hmem
  obtain ⟨hbase, hsize⟩ := Prod.mk.inj heq
  refine ⟨own, hown, fun frame h => ?_⟩
  rw [PagePool.Owns, PagePool.firstPage, hbase, hsize]
  exact h

/-! ## The whole call -/

section Whole

variable {image : PPages} {rounds : ℕ}

/-- With no page off the colours the image is mapped as it is. -/
theorem memMapReclr_inPlace (h : m.Recolourable c colors t pools va image n)
    (hflags : m.fmt.FlagsOk flags) (hzero : c.reclrdNum colors image.base n = 0) :
    ∃ t', m.memMapReclr c colors rounds t pools mem va image n flags =
        some (t', pools, mem, true) ∧
      m.ShowsFrom t' (pageFloor va) image.base n := by
  obtain ⟨hsec, hfree⟩ := h.unmapped hzero
  have hva : pageSize ∣ pageFloor va := Nat.dvd_mul_left _ _
  obtain ⟨hdone, hmapped⟩ := memMapLoop_mapped image.base (pageFloor va) h.closed hflags h.span
  have hpage : ∀ i < 0 + n, i * pageSize < n * pageSize := fun i hi =>
    Nat.mul_lt_mul_of_pos_right (by omega) (by decide)
  have hall := @mapEntries_done m t (pageFloor va) 0 n n image.base h.closed
    (fun i hi => (hfree _ (hpage i hi)).2) hva h.aligned le_rfl
    fun i hi => (hfree _ (hpage i hi)).1
  rw [hall] at hdone
  have hgiven : m.memMapGiven c t (pageFloor va) image n flags =
      (m.memMapLoop flags n t (pageFloor va) image.base n) := by
    rw [memMapGiven, h.plain, Bool.not_true, if_neg Bool.false_ne_true]
  refine ⟨(m.memMapLoop flags n t (pageFloor va) image.base n).1, ?_,
    fun x hx => hmapped.memTranslate hall hx, fun x hx e he => hmapped.dvd_leaf hall hx he⟩
  rw [memMapReclr, hzero, beq_self_eq_true, Bool.or_true, if_pos rfl, memMapPages]
  dsimp only
  rw [if_pos hsec, hgiven, hdone, if_pos rfl, Option.map_some]

theorem ShowsFrom.one_page (h : m.ShowsFrom t va image.base n) {i : ℕ} (hi : i < n)
    (hroom : (pageAddr image.base i).toNat = image.base.toNat + i * pageSize) :
    m.ShowsFrom t (va + i * pageSize) (pageAddr image.base i) 1 := by
  have hbound : ∀ x < 1 * pageSize, i * pageSize + x < n * pageSize := by
    intro x hx
    have hle : (i + 1) * pageSize ≤ n * pageSize := Nat.mul_le_mul_right _ hi
    rw [Nat.succ_mul] at hle
    omega
  refine ⟨fun x hx => ?_, fun x hx e he => ?_⟩
  · rw [Nat.add_assoc, h.translate _ (hbound x hx), hroom, Nat.add_assoc]
  · rw [Nat.add_assoc] at he
    exact h.aligned _ (hbound x hx) e he

namespace Recolourable

theorem reclrdNum_lt (h : m.Recolourable c colors t pools va image n) :
    c.reclrdNum colors image.base n < 2 ^ 64 := by
  have hspan := h.span.trans (Nat.le_of_dvd (Nat.two_pow_pos 64) PtDscr.span_dvd_two_pow)
  have hle := List.length_filter_le (fun i => !c.inColors image.base colors i) (List.range n)
  rw [List.length_range] at hle
  rw [Coloring.reclrdNum_eq, Coloring.offColors]
  unfold pageSize at hspan
  omega

/-- The run that is allocated has the colours. -/
theorem run (h : m.Recolourable c colors t pools va image n)
    (hnum : c.reclrdNum colors image.base n ≠ 0) :
    (reclrAlloc c colors pools image n).1.colors = colors ∧
      pageSize ∣ (reclrAlloc c colors pools image n).1.base.toNat := by
  have hallocated := h.allocated
  have hall : ¬ (c.allClrs colors || c.reclrdNum colors image.base n == 0) = true := by
    rw [h.notAll, Bool.false_or, beq_iff_eq]
    exact hnum
  rw [reclrAlloc, if_neg hall] at hallocated ⊢
  have hword : (memAllocPpages c colors (BitVec.ofNat 64 (c.reclrdNum colors image.base n)) false
      pools).1.numPages = BitVec.ofNat 64 (c.reclrdNum colors image.base n) :=
    BitVec.eq_of_toNat_eq (by
      rw [hallocated, BitVec.toNat_ofNat, Nat.mod_eq_of_lt h.reclrdNum_lt])
  refine allocPpagesLoop_clr h.notAll ?_ pools rfl hword
  rw [BitVec.toNat_ne, BitVec.toNat_ofNat, Nat.mod_eq_of_lt h.reclrdNum_lt]
  exact hnum

/-- The loop of the call. -/
theorem loop (h : m.Recolourable c colors t pools va image n) (hflags : m.fmt.FlagsOk flags)
    (hnum : c.reclrdNum colors image.base n ≠ 0) (mem : PhysMem) :
    (∀ page ∈ PagePool.clrMapped c (reclrAlloc c colors pools image n).1,
        pageSize ∣ page.toNat) ∧
      (PagePool.clrMapped c (reclrAlloc c colors pools image n).1).Nodup ∧
      ∃ t' mem', m.reclrLoop c colors image.base (reclrAlloc c colors pools image n).1.base flags
          (windowPages c image n) (windowPages c (reclrAlloc c colors pools image n).1
            (c.reclrdNum colors image.base n)) n
          (m.memInflatePt t (pageFloor va) (n * pageSize)) mem (pageFloor va) 0 0 0 =
            some (t', mem') ∧
        m.LoopDone c colors image.base flags (pageFloor va) 0 n
          (PagePool.clrMapped c (reclrAlloc c colors pools image n).1)
          (m.memInflatePt t (pageFloor va) (n * pageSize)) t' mem mem' := by
  obtain ⟨hcolors, hbase⟩ := h.run hnum
  have hallocated := h.allocated
  have hrunInPools := h.runInPools
  obtain ⟨run, hrun⟩ : ∃ run, run = (reclrAlloc c colors pools image n).1 := ⟨_, rfl⟩
  rw [← hrun] at hcolors hbase hallocated hrunInPools ⊢
  obtain ⟨pool, -, hown⟩ := h.inPool
  obtain ⟨haligned, hnodup, hoff⟩ :=
    clrMapped_spec h.notAll hcolors hbase hrunInPools h.aligned hown
  have hpages : (PagePool.clrMapped c run).drop 0 = (c.clrPages run.base colors
      ((List.range' 0 n).countP fun j => !c.inColors image.base colors j) 0).map
        (pageAddr run.base) := by
    rw [List.drop_zero, PagePool.clrMapped, hcolors, hallocated, Coloring.reclrdNum_eq,
      Coloring.offColors, List.countP_eq_length_filter, ← List.range_eq_range']
    rfl
  have hspan : (0 + n) * pageSize ≤ m.dscr.shape.span := by
    rw [Nat.zero_add]
    exact h.span
  have hpath : ∀ j, 0 ≤ j → j < 0 + n → m.Path (m.memInflatePt t (pageFloor va) (n * pageSize))
      (m.dscr.lvls - 1) (pageFloor va + j * pageSize) := by
    intro j _ hj
    exact (isSome_ptGetPte _ _ _).mp (h.inflated hnum _
      (Nat.mul_lt_mul_of_pos_right (by omega) (by decide)))
  obtain ⟨t', mem', hloop, hdone⟩ := @reclrLoop_spec m c colors
    (m.memInflatePt t (pageFloor va) (n * pageSize)) (pageFloor va) n flags mem image.base run.base
    0 0 n 0 (PagePool.clrMapped c run) (closed_memInflatePt h.closed _ _) hflags
    (Nat.dvd_mul_left _ _) hspan hpath h.aligned (Nat.zero_add n).le hpages haligned hnodup hoff
  have hphys : windowPages c image n = (List.range n).map (pageAddr image.base) := by
    rw [windowPages, h.plain, Bool.not_true, if_neg Bool.false_ne_true]
  have hreclrd : windowPages c run (c.reclrdNum colors image.base n) =
      PagePool.clrMapped c run := by
    rw [windowPages, hcolors, h.notAll, Bool.not_false, if_pos rfl]
  rw [Nat.zero_mul, Nat.add_zero] at hloop
  rw [List.drop_zero] at hdone
  rw [hphys, hreclrd]
  exact ⟨haligned, hnodup, t', mem', hloop, hdone⟩

/-- The call frees the pages of the image that are off the colours. -/
theorem freed (h : m.Recolourable c colors t pools va image n)
    (hnum : c.reclrdNum colors image.base n ≠ 0) (j : ℕ) (pool : PagePool)
    (hj : (reclrAlloc c colors pools image n).2[j]? = some pool) :
    ∃ pool', (PagePool.freeInPools c (reclrAlloc c colors pools image n).2
        (unusedPages c colors image n))[j]? = some pool' ∧
      ∀ p < pool.size.toNat, pool'.bits p = (pool.bits p &&
        !decide (pool.firstPage + p ∈
          (c.offColors colors image.base n).map (image.base.toNat / pageSize + ·))) := by
  obtain ⟨own', hown', hin⟩ := h.inPool
  have hextent := extent_reclrAlloc c colors pools image n
  obtain ⟨own, hmem, howns⟩ := exists_owns_of_extent hown' hextent
  have hframes := frames_unusedPages h.notAll h.reclrdNum_lt
  rw [← hframes]
  refine bits_freeInPools (apart_of_extent h.apart hextent) ⟨own, hmem, ?_, ?_⟩ j pool hj
  · have hpos : 0 < n := by
      rw [Coloring.reclrdNum_eq] at hnum
      obtain ⟨i, hi⟩ := List.exists_mem_of_length_pos (Nat.pos_of_ne_zero hnum)
      exact Nat.zero_lt_of_lt (mem_offColors.mp hi).1
    obtain ⟨hfirst, hlast⟩ := howns _ (hin 0 hpos)
    have hpool := own.base_aligned
    have himage := h.aligned
    change own.Covers image.base.toNat
    unfold PagePool.firstPage at hfirst hlast
    unfold PagePool.Covers
    unfold pageSize at *
    omega
  · rw [hframes]
    intro frame hframe
    obtain ⟨i, hi, rfl⟩ := List.mem_map.mp hframe
    exact howns _ (hin i (mem_offColors.mp hi).1)

end Recolourable

/-- `mem_map_reclr` counts the pages of the image that are off the colours. It maps these to
different pages of those it allocates, with their contents, maps the others in place, and frees
the pages that it has copied. -/
theorem memMapReclr_recolours (h : m.Recolourable c colors t pools va image n)
    (hflags : m.fmt.FlagsOk flags) :
    ∃ t' pools' mem', m.memMapReclr c colors rounds t pools mem va image n flags =
        some (t', pools', mem', true) ∧
      m.Recolours c colors (reclrAlloc c colors pools image n).2 pools'
        (reclrAlloc c colors pools image n).1 image va n t' mem mem' := by
  have hcount := @Coloring.reclrdNum_eq c colors image.base n
  by_cases hnum : c.reclrdNum colors image.base n = 0
  · obtain ⟨pool, -, hown⟩ := h.inPool
    obtain ⟨t', hcall, hshows⟩ :=
      @memMapReclr_inPlace m c colors t pools va n flags mem image rounds h hflags hnum
    have hnone : c.offColors colors image.base n = [] :=
      List.eq_nil_of_length_eq_zero (by rw [← hcount, hnum])
    have hrun : reclrAlloc c colors pools image n = (⟨0#64, 0#64, 0#64⟩, pools) := by
      rw [reclrAlloc, hnum, beq_self_eq_true, Bool.or_true, if_pos rfl]
    have hmapped : PagePool.clrMapped c ⟨0#64, 0#64, 0#64⟩ = [] := rfl
    rw [hrun]
    refine ⟨t', pools, mem, hcall, hcount, fun i hi _ => ?_, ?_, ?_, fun _ _ => rfl,
      fun j pool hj => ⟨pool, hj, fun p _ => ?_⟩⟩
    · exact hshows.one_page hi (toNat_pageAddr_of_owns h.aligned (hown i hi))
    · rw [hnone, hmapped]
      exact List.Forall₂.nil
    · rw [hmapped]
      exact List.nodup_nil
    · rw [hnone]
      simp
  · obtain ⟨haligned, hnodup, t', mem', hloop, hdone⟩ := h.loop hflags hnum mem
    have hall : ¬ (c.allClrs colors || c.reclrdNum colors image.base n == 0) = true := by
      rw [h.notAll, Bool.false_or, beq_iff_eq]
      exact hnum
    have hdvd : ∀ i, pageSize ∣ pageFloor va + i * pageSize := fun i =>
      Nat.dvd_add (Nat.dvd_mul_left _ _) (Nat.dvd_mul_left _ _)
    refine ⟨t', PagePool.freeInPools c (reclrAlloc c colors pools image n).2
      (unusedPages c colors image n), mem', ?_, hcount, fun i hi hin => ?_, ?_, hnodup,
      hdone.others, h.freed hnum⟩
    · rw [memMapReclr, if_neg hall]
      dsimp only
      rw [hloop, Option.map_some]
    · exact showsFrom_of_look (hdvd i) (pageSize_dvd_toNat_pageAddr h.aligned i)
        (hdone.inPlace i (Nat.zero_le i) (by omega) hin)
    · have hcopied := hdone.copied
      rw [← List.range_eq_range'] at hcopied
      have hboth := ((List.forall₂_and_left _ _).mpr ⟨haligned, hcopied.flip⟩).flip
      exact hboth.imp fun i page ⟨hpage, hlook, hbytes⟩ =>
        ⟨showsFrom_of_look (hdvd i) hpage hlook, hbytes⟩

end Whole

end Mmu

/-- Two pages of which the second one is recoloured. -/
theorem recolourable_two_pages :
    someVmMmu.Recolourable PagePool.twoColors 1#64 emptyTables [sixteenPages] 0x200000
      (memPpagesGet 0x90002000#64 2#64) 2 where
  closed := (Mmu.wellFormed_emptyTables someVmMmu).closed
  span := by decide
  notAll := by decide
  aligned := by decide
  plain := by decide
  apart := List.pairwise_singleton _ _
  inPool := ⟨sixteenPages, List.mem_singleton.mpr rfl, by decide⟩
  allocated := by decide
  runInPools := by decide
  inflated := by
    intro _ x hx
    rw [Mmu.isSome_ptGetPte, Mmu.path_memInflatePt_iff
      (Mmu.wellFormed_emptyTables someVmMmu).closed]
    intro lvl hlvl
    refine (Mmu.swept_or_path_iff (Nat.lt_of_succ_lt hlvl) (by decide) (by decide)).mpr
      (.inl ?_) x hx
    have hlvls : lvl + 1 < 3 := hlvl
    obtain rfl | rfl : lvl = 0 ∨ lvl = 1 := by omega
    · decide
    · decide
  unmapped := fun hzero => absurd hzero (by decide)

theorem memMapReclr_recolours_two_pages :
    ∃ t' pools' mem', someVmMmu.memMapReclr PagePool.twoColors 1#64 1 emptyTables [sixteenPages]
        (fun _ => 0#8) 0x200000 (memPpagesGet 0x90002000#64 2#64) 2 someVmMmu.fmt.vmFlags =
          some (t', pools', mem', true) ∧
      someVmMmu.Recolours PagePool.twoColors 1#64
        (Mmu.reclrAlloc PagePool.twoColors 1#64 [sixteenPages] (memPpagesGet 0x90002000#64 2#64)
          2).2 pools'
        (Mmu.reclrAlloc PagePool.twoColors 1#64 [sixteenPages] (memPpagesGet 0x90002000#64 2#64)
          2).1 (memPpagesGet 0x90002000#64 2#64) 0x200000 2 t' (fun _ => 0#8) mem' :=
  Mmu.memMapReclr_recolours recolourable_two_pages someVmMmu.fmt.vmFlags_ok

end BaoHypervisor
