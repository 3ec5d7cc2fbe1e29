import BaoHypervisor.Lib.Bitmap

/-!
# Whom an interrupt belongs to

An interrupt is reserved by the hypervisor, which has a handler for it then, or assigned to
VMs. Both are marked in a bitmap of their own and in the one of all interrupts that are
taken, which an assignment is checked against. The check is up to the architecture, as is
the number of interrupts.
-/

namespace BaoHypervisor

open Bitmap

/-- `hyp_interrupt_bitmap`, `global_interrupt_bitmap`, `interrupt_handlers` and the
`interrupt_bitmap` of each VM. -/
structure InterruptMaps (V H : Type*) where
  hypInterruptBitmap : Bitmap
  globalInterruptBitmap : Bitmap
  interruptHandlers : ℕ → Option H
  interruptBitmap : V → Bitmap

namespace InterruptMaps

variable {V H : Type*} [DecidableEq V]

/-- The maps at boot. -/
def start : InterruptMaps V H where
  hypInterruptBitmap _ := 0#32
  globalInterruptBitmap _ := 0#32
  interruptHandlers _ := none
  interruptBitmap _ _ := 0#32

def interruptsReserve (maxInterrupts : ℕ) (s : InterruptMaps V H) (intId : ℕ) (handler : H) :
    InterruptMaps V H :=
  if intId < maxInterrupts then
    { s with
      interruptHandlers := Function.update s.interruptHandlers intId (some handler)
      hypInterruptBitmap := bitmapSet s.hypInterruptBitmap intId
      globalInterruptBitmap := bitmapSet s.globalInterruptBitmap intId }
  else s

/-- `interrupts_vm_assign`, or `none` if it raises an `ERROR`. -/
def interruptsVmAssign (archConflict : Bitmap → ℕ → Bool) (s : InterruptMaps V H) (vm : V)
    (id : ℕ) : Option (InterruptMaps V H) :=
  if archConflict s.globalInterruptBitmap id then none
  else
    some { s with
      interruptBitmap :=
        Function.update s.interruptBitmap vm (bitmapSet (s.interruptBitmap vm) id)
      globalInterruptBitmap := bitmapSet s.globalInterruptBitmap id }

variable {maxInterrupts : ℕ} {archConflict : Bitmap → ℕ → Bool} {s s' : InterruptMaps V H}

omit [DecidableEq V] in
@[simp] theorem bitmapGet_zero (bit : ℕ) : bitmapGet (fun _ => 0#32) bit = false := by
  simp [bitmapGet]

omit [DecidableEq V] in
theorem interruptsReserve_eq (maxInterrupts : ℕ) (s : InterruptMaps V H) (intId : ℕ)
    (handler : H) :
    (s.interruptsReserve maxInterrupts intId handler).interruptBitmap = s.interruptBitmap ∧
      ∀ id, id < maxInterrupts →
        bitmapGet (s.interruptsReserve maxInterrupts intId handler).hypInterruptBitmap id =
            (bitmapGet s.hypInterruptBitmap id || decide (id = intId)) ∧
          bitmapGet (s.interruptsReserve maxInterrupts intId handler).globalInterruptBitmap id =
            (bitmapGet s.globalInterruptBitmap id || decide (id = intId)) := by
  rw [interruptsReserve]
  split_ifs with hlt
  · exact ⟨rfl, fun id _ => ⟨bitmapGet_bitmapSet .., bitmapGet_bitmapSet ..⟩⟩
  · refine ⟨rfl, fun id hid => ?_⟩
    have hne : id ≠ intId := fun heq => hlt (heq ▸ hid)
    simp [hne]

/-- An assignment without an error marks the interrupt, which was in no conflict. -/
theorem interruptsVmAssign_eq_some {vm : V} {id : ℕ}
    (h : s.interruptsVmAssign archConflict vm id = some s') :
    archConflict s.globalInterruptBitmap id = false ∧
      s'.hypInterruptBitmap = s.hypInterruptBitmap ∧
        (∀ j, bitmapGet s'.globalInterruptBitmap j =
          (bitmapGet s.globalInterruptBitmap j || decide (j = id))) ∧
          ∀ v j, bitmapGet (s'.interruptBitmap v) j =
            (bitmapGet (s.interruptBitmap v) j || decide (v = vm ∧ j = id)) := by
  rw [interruptsVmAssign] at h
  split_ifs at h with hconflict
  obtain rfl := Option.some.inj h
  refine ⟨Bool.eq_false_iff.mpr hconflict, rfl, fun j => bitmapGet_bitmapSet .., fun v j => ?_⟩
  dsimp only
  by_cases hv : v = vm
  · subst hv
    rw [Function.update_self, bitmapGet_bitmapSet]
    simp
  · rw [Function.update_of_ne hv]
    simp [hv]

def reserveAll (maxInterrupts : ℕ) (s : InterruptMaps V H) (reserved : List (ℕ × H)) :
    InterruptMaps V H :=
  reserved.foldl (fun s call => s.interruptsReserve maxInterrupts call.1 call.2) s

/-- The assignments to VMs, one after the other, or `none` if one raises an `ERROR`. -/
def assignAll (archConflict : Bitmap → ℕ → Bool) (s : InterruptMaps V H)
    (calls : List (V × ℕ)) : Option (InterruptMaps V H) :=
  calls.foldlM (fun s call => s.interruptsVmAssign archConflict call.1 call.2) s

omit [DecidableEq V] in
/-- The interrupts that the hypervisor has after its reservations. -/
theorem bitmapGet_reserveAll (s : InterruptMaps V H) (reserved : List (ℕ × H)) :
    (reserveAll maxInterrupts s reserved).interruptBitmap = s.interruptBitmap ∧
      ∀ id, id < maxInterrupts →
        (bitmapGet (reserveAll maxInterrupts s reserved).hypInterruptBitmap id = true ↔
          bitmapGet s.hypInterruptBitmap id = true ∨ id ∈ reserved.map Prod.fst) ∧
        (bitmapGet (reserveAll maxInterrupts s reserved).globalInterruptBitmap id = true ↔
          bitmapGet s.globalInterruptBitmap id = true ∨ id ∈ reserved.map Prod.fst) := by
  induction reserved generalizing s with
  | nil => exact ⟨rfl, fun id _ => by simp [reserveAll]⟩
  | cons call reserved ih =>
      obtain ⟨hvm, hget⟩ := interruptsReserve_eq maxInterrupts s call.1 call.2
      obtain ⟨hvm', hget'⟩ := ih (s.interruptsReserve maxInterrupts call.1 call.2)
      refine ⟨hvm'.trans hvm, fun id hid => ?_⟩
      obtain ⟨hhyp, hglobal⟩ := hget id hid
      obtain ⟨hhyp', hglobal'⟩ := hget' id hid
      rw [hhyp, Bool.or_eq_true, decide_eq_true_eq, or_assoc] at hhyp'
      rw [hglobal, Bool.or_eq_true, decide_eq_true_eq, or_assoc] at hglobal'
      rw [List.map_cons, List.mem_cons]
      exact ⟨hhyp', hglobal'⟩

/-- What assignments without an error leave. -/
theorem bitmapGet_assignAll {calls : List (V × ℕ)}
    (h : assignAll archConflict s calls = some s') :
    s'.hypInterruptBitmap = s.hypInterruptBitmap ∧
      (∀ j, bitmapGet s'.globalInterruptBitmap j = true ↔
        bitmapGet s.globalInterruptBitmap j = true ∨ j ∈ calls.map Prod.snd) ∧
        ∀ v j, bitmapGet (s'.interruptBitmap v) j = true ↔
          bitmapGet (s.interruptBitmap v) j = true ∨ (v, j) ∈ calls := by
  induction calls generalizing s with
  | nil =>
      obtain rfl := Option.some.inj h
      exact ⟨rfl, fun j => by simp, fun v j => by simp⟩
  | cons call calls ih =>
      rw [assignAll, List.foldlM_cons, Option.bind_eq_bind, Option.bind_eq_some_iff] at h
      obtain ⟨t, hcall, hrest⟩ := h
      obtain ⟨-, hhyp, hglobal, hvm⟩ := interruptsVmAssign_eq_some hcall
      obtain ⟨hhyp', hglobal', hvm'⟩ := ih hrest
      refine ⟨hhyp'.trans hhyp, fun j => ?_, fun v j => ?_⟩
      · rw [hglobal' j, hglobal j, Bool.or_eq_true, decide_eq_true_eq, or_assoc, List.map_cons,
          List.mem_cons]
      · rw [hvm' v j, hvm v j, Bool.or_eq_true, decide_eq_true_eq, or_assoc, List.mem_cons,
          Prod.ext_iff]

end InterruptMaps

end BaoHypervisor
