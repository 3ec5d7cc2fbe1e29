import BaoHypervisor.Arch.Riscv.Vplic.Layout
import BaoHypervisor.Theory.FirstMax

/-!
# Which source is delivered

`vplic_next_pending` scans the sources and keeps the first one of the greatest
priority. It delivers it if that priority exceeds the threshold of the context.
Source 0 stands for no interrupt; it is never pending.
-/

namespace BaoHypervisor

namespace Vplic

open Bitmap FirstMax

/-- The source can be delivered to the context: it is pending, not active and
enabled, and its priority exceeds the threshold. -/
def deliverable (v : Vplic) (vcntxt id : ℕ) : Bool :=
  v.candidate vcntxt id && decide (v.threshold vcntxt < v.vplicGetPrio id)

theorem deliverable_iff {v : Vplic} {vcntxt id : ℕ} :
    v.deliverable vcntxt id = true ↔
      v.candidate vcntxt id = true ∧ v.threshold vcntxt < v.vplicGetPrio id := by
  rw [deliverable, Bool.and_eq_true, decide_eq_true_iff]

theorem nextPendingLoop_eq (v : Vplic) (vcntxt : ℕ) (ids : List ℕ) (best : BitVec 32 × ℕ) :
    v.nextPendingLoop vcntxt ids best =
      ids.foldl (select (v.candidate vcntxt) v.vplicGetPrio) best := rfl

theorem candidate_le {v : Vplic} {vcntxt id : ℕ} (h : v.candidate vcntxt id = true) :
    id ≤ plicMaxInterrupts := by
  rw [candidate, Bool.and_eq_true, Bool.and_eq_true, vplicGetPend, Bool.and_eq_true] at h
  exact of_decide_eq_true h.1.1.1

theorem candidate_iff {v : Vplic} {vcntxt i : ℕ} (hi : i ≤ plicMaxInterrupts) :
    v.candidate vcntxt i = true ↔
      bitmapGet v.pend i = true ∧ bitmapGet v.act i = false ∧
        bitmapGet (v.enbl vcntxt) i = true := by
  rw [candidate, vplicGetPend, vplicGetAct, vplicGetEnbl, decide_eq_true hi]
  simp [and_assoc]

def Unmasked (v : Vplic) (vcntxt id : ℕ) : Prop :=
  bitmapGet (v.enbl vcntxt) id = true ∧ v.threshold vcntxt < v.prio id

theorem deliverable_iff_source {v : Vplic} {vcntxt id : ℕ} :
    v.deliverable vcntxt id = true ↔
      id ≤ plicMaxInterrupts ∧ (v.source id).pend = true ∧ (v.source id).act = false ∧
        v.Unmasked vcntxt id := by
  rw [deliverable_iff]
  by_cases hid : id ≤ plicMaxInterrupts
  · rw [candidate_iff hid, vplicGetPrio, if_pos hid, and_iff_right hid]
    simp only [source, Unmasked, and_assoc]
  · exact iff_of_false (fun h => hid (candidate_le h.1)) fun h => hid h.1

theorem mem_range_of_candidate {v : Vplic} {vcntxt id : ℕ}
    (h : v.candidate vcntxt id = true) : id ∈ List.range (plicMaxInterrupts + 1) :=
  List.mem_range.mpr (Nat.lt_succ_of_le (candidate_le h))

/-- The outcome of the scan: nothing is deliverable, or what is delivered is the
first candidate of the greatest priority. -/
theorem vplicNextPending_cases (v : Vplic) (vcntxt : ℕ) :
    (v.vplicNextPending vcntxt = 0 ∧ ∀ id, v.deliverable vcntxt id = false) ∨
      (v.deliverable vcntxt (v.vplicNextPending vcntxt) = true ∧
        IsFirstMax (v.candidate vcntxt) v.vplicGetPrio (List.range (plicMaxInterrupts + 1))
          (v.vplicNextPending vcntxt)) := by
  rw [vplicNextPending, nextPendingLoop_eq]
  rcases foldl_select_cases (v.candidate vcntxt) v.vplicGetPrio
    List.pairwise_lt_range (0#32, 0) with ⟨heq, hle⟩ | ⟨id, heq, -, hfirst⟩
  · left
    rw [heq]
    refine ⟨ite_self 0, fun id => Bool.eq_false_iff.mpr fun hid => ?_⟩
    obtain ⟨hcand, hprio⟩ := deliverable_iff.mp hid
    have hzero : v.vplicGetPrio id ≤ 0#32 := hle id (mem_range_of_candidate hcand) hcand
    bv_omega
  · rw [heq]
    dsimp only
    split_ifs with hprio
    · exact .inr ⟨deliverable_iff.mpr ⟨hfirst.eligible, hprio⟩, hfirst⟩
    · refine .inl ⟨rfl, fun j => Bool.eq_false_iff.mpr fun hj => ?_⟩
      obtain ⟨hcand, hprio'⟩ := deliverable_iff.mp hj
      have hmax := hfirst.le j (mem_range_of_candidate hcand) hcand
      exact hprio (Std.lt_of_lt_of_le hprio' hmax)

theorem vplicNextPending_ne_zero_iff {v : Vplic} {vcntxt : ℕ}
    (hzero : v.deliverable vcntxt 0 = false) :
    v.vplicNextPending vcntxt ≠ 0 ↔ ∃ id, v.deliverable vcntxt id = true := by
  rcases vplicNextPending_cases v vcntxt with ⟨heq, hnone⟩ | ⟨hsome, -⟩
  · refine iff_of_false (not_not_intro heq) ?_
    rintro ⟨id, hid⟩
    exact Bool.false_ne_true ((hnone id).symm.trans hid)
  · refine iff_of_true (fun heq => ?_) ⟨_, hsome⟩
    rw [heq, hzero] at hsome
    exact Bool.false_ne_true hsome

end Vplic

end BaoHypervisor
