import BaoHypervisor.Core.Interrupts

/-!
# Interrupts of VMs on Arm

Private interrupts are those of each CPU, so every VM may have them, and the check of an
assignment passes them. It passes the first shared interrupt as well. All others belong to
one VM or to the hypervisor, and this one does as long as it is assigned once only, and not
at all once the hypervisor has reserved it.
-/

namespace BaoHypervisor

open Bitmap

abbrev gicCpuPriv : ℕ := 32

abbrev gicMaxInterrupts : ℕ := 1024

/-- `interrupts_arch_conflict`. -/
def gicConflict (interruptBitmap : Bitmap) (intId : ℕ) : Bool :=
  bitmapGet interruptBitmap intId && decide (gicCpuPriv < intId)

namespace InterruptMaps

variable {V H : Type*} [DecidableEq V] {s s' : InterruptMaps V H}

omit [DecidableEq V] in
/-- The shared interrupts are assigned once at most, each to one VM, and none of those that
the hypervisor has reserved is. -/
structure Exclusive (s : InterruptMaps V H) (calls : List (V × ℕ)) : Prop where
  once : ∀ id, gicCpuPriv ≤ id → (calls.map Prod.snd).count id ≤ 1
  oneVm : ∀ id, gicCpuPriv ≤ id → ∀ v w, bitmapGet (s.interruptBitmap v) id = true →
    bitmapGet (s.interruptBitmap w) id = true → v = w
  notReserved : ∀ id, gicCpuPriv ≤ id → bitmapGet s.hypInterruptBitmap id = true →
    ∀ v, bitmapGet (s.interruptBitmap v) id = false

/-- Behind the first shared interrupt an assignment without an error finds the interrupt
free, and so do no two for the same one. -/
theorem count_le_of_assignAll {calls : List (V × ℕ)} (h : assignAll gicConflict s calls = some s')
    {id : ℕ} (hid : gicCpuPriv < id) :
    (calls.map Prod.snd).count id ≤ 1 ∧
      (bitmapGet s.globalInterruptBitmap id = true → id ∉ calls.map Prod.snd) := by
  induction calls generalizing s with
  | nil => exact ⟨Nat.zero_le _, fun _ hmem => absurd hmem List.not_mem_nil⟩
  | cons call calls ih =>
      rw [assignAll, List.foldlM_cons, Option.bind_eq_bind, Option.bind_eq_some_iff] at h
      obtain ⟨t, hcall, hrest⟩ := h
      obtain ⟨hfree, -, hglobal, -⟩ := interruptsVmAssign_eq_some hcall
      obtain ⟨hcount, hnot⟩ := ih hrest
      rw [List.map_cons, List.mem_cons, List.count_cons]
      by_cases heq : call.2 = id
      · subst heq
        have hnotin : call.2 ∉ calls.map Prod.snd := hnot (by simp [hglobal])
        have hclear : bitmapGet s.globalInterruptBitmap call.2 = false := by
          simpa [gicConflict, hid] using hfree
        rw [List.count_eq_zero_of_not_mem hnotin]
        refine ⟨by simp, fun hset => ?_⟩
        cases hclear.symm.trans hset
      · have hne : id ≠ call.2 := fun h => heq h.symm
        refine ⟨by simpa [heq] using hcount, fun hset => ?_⟩
        rw [not_or]
        exact ⟨hne, hnot (by simp [hglobal, hset])⟩

omit [DecidableEq V] in
theorem eq_of_count_le {calls : List (V × ℕ)} {id : ℕ}
    (h : (calls.map Prod.snd).count id ≤ 1) {v w : V} (hv : (v, id) ∈ calls)
    (hw : (w, id) ∈ calls) : v = w := by
  by_contra hne
  have hsub : List.Subperm [(v, id), (w, id)] calls := by
    refine (List.nodup_cons.mpr ⟨?_, List.nodup_singleton _⟩).subperm fun call hcall => ?_
    · rw [List.mem_singleton, Prod.mk.injEq]
      exact fun heq => hne heq.1
    · rcases List.mem_cons.mp hcall with rfl | hcall
      · exact hv
      · rwa [List.mem_singleton.mp hcall]
  rw [List.count, List.countP_map] at h
  have hcount := (hsub.countP_le ((· == id) ∘ Prod.snd)).trans h
  simp at hcount

/-- In a run without an error the shared interrupts are exclusive if and only if the first
one is. -/
theorem exclusive_iff (reserved : List (ℕ × H)) (calls : List (V × ℕ))
    (hids : ∀ call ∈ calls, call.2 < gicMaxInterrupts)
    (h : assignAll gicConflict (reserveAll gicMaxInterrupts start reserved) calls = some s) :
    s.Exclusive calls ↔
      (calls.map Prod.snd).count gicCpuPriv ≤ 1 ∧
        (gicCpuPriv ∈ reserved.map Prod.fst → gicCpuPriv ∉ calls.map Prod.snd) := by
  obtain ⟨hhyp, -, hvm⟩ := bitmapGet_assignAll h
  obtain ⟨hstart, hreserved⟩ :
      (reserveAll gicMaxInterrupts start reserved).interruptBitmap =
        (start : InterruptMaps V H).interruptBitmap ∧ _ := bitmapGet_reserveAll start reserved
  have hassigned : ∀ v id, bitmapGet (s.interruptBitmap v) id = true ↔ (v, id) ∈ calls := by
    intro v id
    rw [hvm v id, hstart]
    simp [start]
  have hhas : ∀ id, id < gicMaxInterrupts →
      (bitmapGet s.hypInterruptBitmap id = true ↔ id ∈ reserved.map Prod.fst) := by
    intro id hid
    rw [hhyp, (hreserved id hid).1]
    simp [start]
  constructor
  · intro hexclusive
    refine ⟨hexclusive.once _ le_rfl, fun hres hmem => ?_⟩
    obtain ⟨⟨v, id⟩, hcall, rfl⟩ := List.mem_map.mp hmem
    have hset := (hassigned v gicCpuPriv).mpr hcall
    have hclear := hexclusive.notReserved gicCpuPriv le_rfl ((hhas _ (by decide)).mpr hres) v
    cases hset.symm.trans hclear
  · rintro ⟨honce, hfirst⟩
    have hcount : ∀ id, gicCpuPriv ≤ id → (calls.map Prod.snd).count id ≤ 1 := by
      intro id hid
      rcases hid.eq_or_lt with rfl | hlt
      · exact honce
      · exact (count_le_of_assignAll h hlt).1
    refine ⟨hcount, fun id hid v w hv hw => ?_, fun id hid hset v => ?_⟩
    · exact eq_of_count_le (hcount id hid) ((hassigned v id).mp hv) ((hassigned w id).mp hw)
    · rw [Bool.eq_false_iff]
      intro hget
      have hcall := (hassigned v id).mp hget
      have hlt : id < gicMaxInterrupts := hids _ hcall
      have hmem : id ∈ calls.map Prod.snd := List.mem_map.mpr ⟨_, hcall, rfl⟩
      have hres := (hhas id hlt).mp hset
      rcases hid.eq_or_lt with rfl | hgt
      · exact hfirst hres hmem
      · refine (count_le_of_assignAll h hgt).2 ?_ hmem
        exact (hreserved id hlt).2.mpr (.inr hres)

/-- The hypervisor reserves an SGI, and two VMs get an interrupt each. -/
theorem exclusive_pair :
    ∃ s : InterruptMaps Bool Unit,
      assignAll gicConflict (reserveAll gicMaxInterrupts start [(1, ())])
        [(false, 32), (true, 33)] = some s ∧ s.Exclusive [(false, 32), (true, 33)] :=
  ⟨_, rfl, (exclusive_iff [(1, ())] [(false, 32), (true, 33)] (by decide) rfl).mpr (by decide)⟩

/-- The first shared interrupt is assigned to two VMs without an error. -/
theorem interruptsVmAssign_shares :
    ∃ s : InterruptMaps Bool Unit,
      assignAll gicConflict (reserveAll gicMaxInterrupts start [])
        [(false, 32), (true, 32)] = some s ∧ ¬ s.Exclusive [(false, 32), (true, 32)] :=
  ⟨_, rfl, fun h => absurd (h.once 32 le_rfl) (by decide)⟩

end InterruptMaps

end BaoHypervisor
