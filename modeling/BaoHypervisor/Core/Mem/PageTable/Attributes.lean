import BaoHypervisor.Arch.Armv8.PageTable
import BaoHypervisor.Core.Mem.PageTable.Expand

/-!
# Attributes of expanded superpages

`mem_expand_pte` fills the table in the place of a superpage with the flags that the type of the
address space has for memory, so that a superpage with other flags, as those of a device, loses
them (`memExpandPte_same_iff`).
-/

namespace BaoHypervisor

/-- The bits of a page or a superpage that say how its memory may be used: not those that tell
the two apart, and not the software bits. -/
def PteFormat.attrsMsk (f : PteFormat) : Pte :=
  f.flagsMsk &&& ~~~(f.typeBits .page ^^^ f.typeBits .superpage) &&& ~~~f.rswMsk

namespace Mmu

variable {m : Mmu} {t t' : PtEntries} {lvl va : ℕ}

def attrsAt (m : Mmu) (t : PtEntries) (va : ℕ) : Option Pte :=
  (m.leafAt t va).map fun e => e.2 &&& m.fmt.attrsMsk

/-- The tables say the same of each address. -/
structure Same (m : Mmu) (t t' : PtEntries) : Prop where
  translate : ∀ b, m.memTranslate t' b = m.memTranslate t b
  attrs : ∀ b, m.attrsAt t' b = m.attrsAt t b
  reserved : ∀ b, m.isReserved t' b = m.isReserved t b

def expandAttrs (m : Mmu) : Pte :=
  (m.fmt.typeBits .superpage ||| m.expandFlags) &&& m.fmt.attrsMsk

theorem typeBits_or_and_attrsMsk (lvl : ℕ) (flags : Pte) :
    (m.fmt.typeBits (m.ptPageType lvl) ||| flags) &&& m.fmt.attrsMsk =
      (m.fmt.typeBits .superpage ||| flags) &&& m.fmt.attrsMsk := by
  rw [ptPageType, PteFormat.attrsMsk]
  split_ifs
  · refine BitVec.eq_of_getLsbD_eq fun i hi => ?_
    simp only [BitVec.getLsbD_and, BitVec.getLsbD_or, BitVec.getLsbD_not, BitVec.getLsbD_xor, hi,
      decide_true, Bool.true_and]
    cases (m.fmt.typeBits .page).getLsbD i <;> cases (m.fmt.typeBits .superpage).getLsbD i <;> simp
  · rfl

theorem attrs_expandedPte {pte : Pte} (hvalid : m.fmt.pteValid pte = true) (i : ℕ) :
    m.expandedPte lvl pte i &&& m.fmt.attrsMsk = m.expandAttrs := by
  have hflags := m.fmt.flags_pteSet
    (m.fmt.pteAddr pte + BitVec.ofNat 64 (i * m.dscr.ptLvlsize (lvl + 1)))
    (m.ptPageType (lvl + 1)) m.expandFlags (ptPageType_ne_table _)
  have hmsk : ∀ w : Pte, w &&& m.fmt.attrsMsk = w &&& m.fmt.flagsMsk &&& m.fmt.attrsMsk := by
    intro w
    rw [PteFormat.attrsMsk, BitVec.and_assoc m.fmt.flagsMsk, BitVec.and_assoc w,
      ← BitVec.and_assoc m.fmt.flagsMsk m.fmt.flagsMsk, BitVec.and_self]
  rw [expandedPte, if_pos hvalid, hmsk, hflags, ← hmsk, typeBits_or_and_attrsMsk, expandAttrs]

/-- To expand an entry says the same of each address exactly if the entry is not a superpage, or
one with the flags that the type of the address space has for memory. -/
theorem memExpandPte_same_iff (hwf : m.WellFormed t) (hlvl : lvl + 1 < m.dscr.lvls)
    (hpath : m.Path t lvl va)
    (htable : m.fmt.pteTable (m.isLast lvl) (m.pteAt t lvl va) = false) :
    m.Same t (m.memExpandPte t lvl va) ↔
      (m.fmt.pteValid (m.pteAt t lvl va) = true →
        m.pteAt t lvl va &&& m.fmt.attrsMsk = m.expandAttrs) := by
  have hlook := look_memExpandPte hwf.closed hlvl hpath htable
  constructor
  · intro h hvalid
    have hbefore := look_of_expandable hwf.closed hlvl hpath htable (b := va) rfl
    have hattrs := h.attrs va
    rw [attrsAt, attrsAt, leafAt, leafAt, hlook, if_pos rfl, hbefore, pteValid_expandedPte,
      if_pos hvalid, if_pos hvalid, Option.map_some, Option.map_some,
      attrs_expandedPte hvalid] at hattrs
    exact (Option.some.inj hattrs).symm
  · refine fun h => ⟨memTranslate_memExpandPte hwf.closed hwf.leavesAligned hlvl hpath htable,
      fun b => ?_, isReserved_memExpandPte hwf.closed hlvl hpath htable⟩
    have hb := hlook b
    split_ifs at hb with hpos
    · rw [attrsAt, attrsAt, leafAt, leafAt, hb,
        look_of_expandable hwf.closed hlvl hpath htable hpos, pteValid_expandedPte]
      split_ifs with hvalid
      · rw [Option.map_some, Option.map_some, attrs_expandedPte hvalid, h hvalid]
      · rfl
    · rw [attrsAt, attrsAt, leafAt_congr hb]

end Mmu

theorem memExpandPte_same_iff_superpage :
    someVmMmu.Same secondSuperpage (someVmMmu.memExpandPte secondSuperpage 1 0x200000) :=
  (Mmu.memExpandPte_same_iff wellFormed_secondSuperpage (by decide) (by decide) (by decide)).mpr
    fun _ => by decide

def deviceSuperpage : PtEntries := fun lvl k =>
  if lvl = 0 ∧ k = 0 then Armv8.pteSet 0x90000000#64 .table Armv8.pteHypFlags
  else if lvl = 1 ∧ k = 1 then Armv8.pteSet 0x40000000#64 .superpage Armv8.pteVmDevFlags
  else 0#64

/-- The address space of a VM on Armv8 that has the physical pages from `0xa0000000` on for its
tables. -/
def someArmMmu : Mmu :=
  Armv8.vmMmu fun lvl k => BitVec.ofNat 64 (0xa0000000 + (2048 * lvl + k) * pageSize)

theorem wellFormed_deviceSuperpage : someArmMmu.WellFormed deviceSuperpage := by
  refine wellFormed_of_superpages (by decide) (by decide) (by decide) rfl fun lvl k h => ?_
  rw [deviceSuperpage] at h
  split_ifs at h with htable hleaf
  · exact .inl htable
  · obtain ⟨rfl, rfl⟩ := hleaf
    exact .inr (by decide)
  · cases h

/-- The memory of an expanded device is no longer that of a device. -/
theorem not_same_device_superpage :
    someArmMmu.WellFormed deviceSuperpage ∧ someArmMmu.Path deviceSuperpage 1 0x40000000 ∧
      Armv8.ptePage false (someArmMmu.pteAt deviceSuperpage 1 0x40000000) = true ∧
      ¬ someArmMmu.Same deviceSuperpage (someArmMmu.memExpandPte deviceSuperpage 1 0x40000000) :=
  ⟨wellFormed_deviceSuperpage, by decide, by decide, fun h =>
    absurd (h.attrs 0x40000000) (by decide +kernel)⟩

end BaoHypervisor
