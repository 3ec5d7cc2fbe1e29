import BaoHypervisor.Core.Mem.PageTable.AllocLaw
import BaoHypervisor.Core.Mem.PageTable.Law
import BaoHypervisor.Theory.BitField

/-!
# Page tables as address spaces

The address space of `Core.Mem.AddrSpace` that the walks of some tables make up. Its translations
are those of `mem_translate` where entries are aligned to their levels.
-/

namespace BaoHypervisor

/-- To align down to a power of two is to drop the remainder. -/
theorem toNat_sub_alignFloor (val : SizeT) {k : ℕ} (hk : k < 64) :
    (val - alignFloor val (BitVec.ofNat 64 (2 ^ k))).toNat = val.toNat % 2 ^ k := by
  have hmask : BitVec.ofNat 64 (2 ^ k) - 1#64 = BitVec.ofNat 64 (2 ^ k - 1) := by
    have hpow : 2 ^ k < 2 ^ 64 := Nat.pow_lt_pow_right (by decide) hk
    have hpos := Nat.two_pow_pos k
    refine BitVec.eq_of_toNat_eq ?_
    rw [BitVec.toNat_sub, BitVec.toNat_ofNat, BitVec.toNat_ofNat, BitVec.toNat_ofNat]
    omega
  have hsplit : ∀ mask : SizeT, val - (val &&& ~~~mask) = val &&& mask := by
    intro mask
    have hzero : val &&& mask &&& (val &&& ~~~mask) = 0#64 := by
      ext i hi
      simp +contextual
    have hor : val &&& mask ||| val &&& ~~~mask = val := by
      ext i hi
      cases hval : val[i] <;> simp [hval]
    rw [← BitVec.add_eq_or_of_and_eq_zero _ _ hzero] at hor
    exact BitVec.sub_eq_iff_eq_add.mpr hor.symm
  rw [alignFloor, hmask, hsplit, BitField.toNat_and_mask _ hk.le]

namespace Mmu

variable (m : Mmu) (t : PtEntries)

/-- What walks find in the tables. -/
def addrSpace : AddrSpace := fun va =>
  (m.leafAt t va.toNat).bind fun e =>
    if h : pageSize ∣ (BitVec.ofNat 64 (m.dscr.ptLvlsize e.1)).toNat then
      some ⟨BitVec.ofNat 64 (m.dscr.ptLvlsize e.1), m.fmt.pteAddr e.2, h⟩
    else none

variable {m t} {va : Addr} {e : ℕ × Pte}

theorem translate_addrSpace (hclosed : m.Closed t) (va : Addr) :
    (m.addrSpace t).translate va = (m.leafAt t va.toNat).map fun e =>
      m.fmt.pteAddr e.2 + BitVec.ofNat 64 (va.toNat % m.dscr.ptLvlsize e.1) := by
  rw [AddrSpace.translate, addrSpace]
  cases hleaf : m.leafAt t va.toNat with
  | none => rfl
  | some e =>
      have hlvl : e.1 < m.dscr.lvls := by
        rw [← (leafAt_eq_some_iff.mp hleaf).1]
        exact look_fst_lt hclosed _
      have hoff := lvlOff_lt_word hlvl
      have hsize : (BitVec.ofNat 64 (m.dscr.ptLvlsize e.1)).toNat = m.dscr.ptLvlsize e.1 := by
        rw [BitVec.toNat_ofNat]
        exact Nat.mod_eq_of_lt (Nat.pow_lt_pow_right (by decide) hoff)
      have hdvd : pageSize ∣ (BitVec.ofNat 64 (m.dscr.ptLvlsize e.1)).toNat := by
        rw [hsize]
        exact PtDscr.pageSize_dvd_ptLvlsize hlvl
      rw [Option.bind_some, dif_pos hdvd, Option.map_some, Option.map_some, AddrSpace.physAddr]
      refine congrArg (fun off => some (m.fmt.pteAddr e.2 + off)) (BitVec.eq_of_toNat_eq ?_)
      rw [BitVec.toNat_ofNat, Nat.mod_eq_of_lt ((Nat.mod_le _ _).trans_lt va.isLt)]
      exact toNat_sub_alignFloor va hoff

theorem addrSpace_eq_some {leaf : PteLeaf} (hclosed : m.Closed t)
    (h : m.addrSpace t va = some leaf) : ∃ e, m.leafAt t va.toNat = some e ∧
      leaf.lvlSize.toNat = m.dscr.ptLvlsize e.1 := by
  rw [addrSpace] at h
  obtain ⟨e, he, h⟩ := Option.bind_eq_some_iff.mp h
  split_ifs at h
  have hlvl : e.1 < m.dscr.lvls := by
    rw [← (leafAt_eq_some_iff.mp he).1]
    exact look_fst_lt hclosed _
  refine ⟨e, he, ?_⟩
  rw [← Option.some.inj h, BitVec.toNat_ofNat]
  exact Nat.mod_eq_of_lt (Nat.pow_lt_pow_right (by decide) (lvlOff_lt_word hlvl))

theorem isSome_translate (hclosed : m.Closed t) (va : Addr) :
    ((m.addrSpace t).translate va).isSome = (m.leafAt t va.toNat).isSome := by
  rw [translate_addrSpace hclosed, Option.isSome_map]

/-- In an aligned entry the address space translates as `mem_translate` does. -/
theorem translate_eq_memTranslate (hclosed : m.Closed t)
    (hdvd : ∀ e, m.leafAt t va.toNat = some e →
      m.dscr.ptLvlsize e.1 ∣ (m.fmt.pteAddr e.2).toNat) :
    (m.addrSpace t).translate va = m.memTranslate t va.toNat := by
  rw [translate_addrSpace hclosed, memTranslate_eq]
  cases hleaf : m.leafAt t va.toNat with
  | none => rfl
  | some e =>
      have hlvl : e.1 < m.dscr.lvls := by
        rw [← (leafAt_eq_some_iff.mp hleaf).1]
        exact look_fst_lt hclosed _
      have haddr := toNat_leafAddr hlvl (hdvd e hleaf) va.toNat
      have hlt := (m.leafAddr (e.1, e.2) va.toNat).isLt
      rw [haddr] at hlt
      refine congrArg some (BitVec.eq_of_toNat_eq ?_)
      rw [haddr, BitVec.toNat_add, BitVec.toNat_ofNat,
        Nat.mod_eq_of_lt ((Nat.le_add_left _ _).trans_lt hlt), Nat.mod_eq_of_lt hlt]

theorem leafAt_of_div_eq (hclosed : m.Closed t) {a b : ℕ} (he : m.leafAt t a = some e)
    (h : b / m.dscr.ptLvlsize e.1 = a / m.dscr.ptLvlsize e.1) : m.leafAt t b = some e := by
  rw [← (leafAt_eq_some_iff.mp he).1] at h
  rw [leafAt_congr (look_of_pos_eq hclosed
    (congrArg (· % m.dscr.shape.count (m.look t a).1) h)), he]

theorem leafAt_of_page (hclosed : m.Closed t) {a o : ℕ} (ha : pageSize ∣ a) (ho : o < pageSize) :
    m.leafAt t (a + o) = m.leafAt t a := by
  refine leafAt_congr (look_of_pos_eq hclosed ?_)
  have hlvl := look_fst_lt hclosed a
  have hdiv : (a + o) / pageSize = a / pageSize := by
    obtain ⟨q, rfl⟩ := ha
    rw [Nat.mul_add_div (by decide), Nat.div_eq_of_lt ho, Nat.add_zero,
      Nat.mul_div_cancel_left _ (by decide)]
  exact congrArg (· % m.dscr.shape.count (m.look t a).1)
    (Radix.Shape.div_eq_of_dvd_of_div_eq (PtDscr.pageSize_dvd_ptLvlsize hlvl) hdiv)

/-- The addresses of a page translate with their offset. -/
theorem translate_add_offset (hclosed : m.Closed t) (hva : pageSize ∣ va.toNat) {o : ℕ}
    (ho : o < pageSize) : (m.addrSpace t).translate (va + BitVec.ofNat 64 o) =
      ((m.addrSpace t).translate va).map (· + BitVec.ofNat 64 o) := by
  have hlt : va.toNat + o < 2 ^ 64 := by
    have hword := va.isLt
    unfold pageSize at *
    omega
  have hadd : (va + BitVec.ofNat 64 o).toNat = va.toNat + o := by
    rw [BitVec.toNat_add, BitVec.toNat_ofNat, Nat.mod_eq_of_lt ((Nat.le_add_left _ _).trans_lt hlt),
      Nat.mod_eq_of_lt hlt]
  rw [translate_addrSpace hclosed, translate_addrSpace hclosed, hadd, leafAt_of_page hclosed hva ho,
    Option.map_map]
  cases hleaf : m.leafAt t va.toNat with
  | none => rfl
  | some e =>
      have hlvl : e.1 < m.dscr.lvls := by
        rw [← (leafAt_eq_some_iff.mp hleaf).1]
        exact look_fst_lt hclosed _
      have hmod : (va.toNat + o) % m.dscr.ptLvlsize e.1 = va.toNat % m.dscr.ptLvlsize e.1 + o :=
        add_mod_of_dvd (PtDscr.pageSize_dvd_ptLvlsize hlvl) hva ho
      rw [Option.map_some, Option.map_some, Function.comp_apply, hmod, BitVec.ofNat_add,
        BitVec.add_assoc]

end Mmu

end BaoHypervisor
