import BaoHypervisor.Core.Mem.PageTable.MapCpy

/-!
# The pages of a device

`mem_alloc_map_dev` maps the pages of a device where the search of a section finds room for them.
It does not look at what `mem_map` returns: where the search has left the section nothing is
mapped, and the address is returned all the same.
-/

namespace BaoHypervisor

namespace Mmu

/-- `mem_alloc_map_dev`, with the address it returns. There is no result where the call stops. -/
def memAllocMapDev (m : Mmu) (rounds : ℕ) (t : PtEntries) (sectionIdx : ℕ) (at' : Option ℕ)
    (pa : Addr) (n : ℕ) (flags : Pte) : Option (PtEntries × Option ℕ) :=
  (m.memAllocVpage n rounds t sectionIdx at').bind fun (t', address) =>
    match address with
    | none => some (t', none)
    | some va =>
        let r := m.memMap t' va pa n flags
        r.2.map fun _ => (r.1, some va)

variable {m : Mmu} {t t₁ : PtEntries} {rounds n v : ℕ} {pa : Addr} {flags : Pte} {sec : VaSection}

theorem inSection_of_global (hsec : m.sections[secHypGlobal]? = some sec)
    (hlast : sec.last ≤ maxVa) (hn : 0 < n)
    (hin : sec.beg ≤ v ∧ v + n * pageSize ≤ sec.last + 1) : m.InSection v n := by
  have hfirst : ∀ a, sec.beg ≤ a → a ≤ sec.last → m.memFindSec a = some secHypGlobal := by
    intro a hbeg hle
    obtain ⟨hlt, hget⟩ := List.getElem?_eq_some_iff.mp hsec
    rw [memFindSec, List.findIdx?_eq_some_iff_getElem]
    refine ⟨hlt, ?_, fun j hj => absurd hj (Nat.not_lt_zero j)⟩
    rw [hget, decide_eq_true hbeg, decide_eq_true hle, Bool.and_self]
  have hpages : 0 < n * pageSize := Nat.mul_pos hn (by decide)
  have hend : (v + n * pageSize + maxVa) % 2 ^ 64 = v + n * pageSize - 1 := by
    unfold maxVa at *
    omega
  rw [InSection, hend, hfirst v hin.1 (by omega), hfirst _ (by omega) (by omega)]
  exact ⟨rfl, rfl⟩

/-- The call shows the pages of the device at the address that the search has found, if the search
has stayed in the section. -/
theorem exists_memAllocMapDev (hwf : m.WellFormed t) (hflags : m.fmt.FlagsOk flags) (hn : 0 < n)
    (hspan : n * pageSize ≤ m.dscr.shape.span) (hsec : m.sections[secHypGlobal]? = some sec)
    (hlast : sec.last ≤ maxVa) (hstays : m.AllocStays t sec n) (hpa : pageSize ∣ pa.toNat)
    (h : m.memAllocVpage n rounds t secHypGlobal none = some (t₁, some v)) :
    ∃ t', m.memAllocMapDev rounds t secHypGlobal none pa n flags = some (t', some v) ∧
      m.ShowsFrom t' v pa n ∧ v + n * pageSize ≤ 2 ^ 64 := by
  obtain ⟨-, hres, -⟩ := ends_of_memAllocVpage hwf hn hspan hsec hlast h
  have hdvd := pageSize_dvd_memAllocVpage hwf.closed hwf.table hspan hn hsec hlast h
  have hfloor : pageFloor v = v := Nat.div_mul_cancel hdvd
  have hinside := inside_of_stays hwf hn hspan hsec hlast (fun _ _ => hstays) h
  have hin := inSection_of_global hsec hlast hn hinside
  obtain ⟨hdone, hmapped⟩ :=
    memMap_mapped pa hres.closed hflags hspan (hfloor.symm ▸ hin : m.InSection (pageFloor v) n)
  rw [hfloor] at hdone hmapped
  have hall : (m.mapEntries t₁ v pa n 0 n).2 = true := by
    refine mapEntries_done pa hres.closed (fun i hi => ?_) hdvd hpa le_rfl fun i hi => ?_
    · exact hres.term _ (Nat.mul_lt_mul_of_pos_right (by omega) (by decide))
    · rw [hres.leafAt]
      exact (hres.free _ (Nat.mul_lt_mul_of_pos_right (by omega) (by decide))).leafAt
  rw [hall, if_pos rfl] at hdone
  refine ⟨(m.memMap t₁ v pa n flags).1, ?_, ⟨fun x hx => hmapped.memTranslate hall hx,
    fun x hx e he => hmapped.dvd_leaf hall hx he⟩, hinside.2.trans (Nat.succ_le_succ hlast)⟩
  rw [memAllocMapDev, h, Option.bind_some]
  dsimp only
  rw [hdone, Option.map_some]

end Mmu

end BaoHypervisor
