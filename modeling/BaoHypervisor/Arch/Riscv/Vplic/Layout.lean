import BaoHypervisor.Arch.Riscv.Vplic.Source

/-!
# Completions and the layout of the vPLIC

The guest completes whatever number it writes, and `vplic_complete` clears that
bit of `act` without comparing it with the length of the bitmap. A bit behind
its end belongs to a later field of the structure, in the order of its
declaration: the deferred bits, the priorities, the enables, the thresholds and
the buckets.
-/

namespace BaoHypervisor

open Bitmap

/-- `bitmap_clear` on the memory of a bucket, ten words long: the sixth one is
padding, and the times and counts of 64 bits take two. -/
def IrqTokenBucket.clearBit (b : IrqTokenBucket) (bit : ℕ) : IrqTokenBucket :=
  let mask := ~~~(1#32 <<< (bit % 32))
  match bit / 32 with
  | 0 => { b with tokens := b.tokens &&& mask }
  | 1 => { b with maxTokens := b.maxTokens &&& mask }
  | 2 => { b with rate := b.rate &&& mask }
  | 3 => { b with deferredCount := b.deferredCount &&& mask }
  | 4 => { b with maxDeferred := b.maxDeferred &&& mask }
  | 5 => b
  | 6 | 7 => { b with lastRefill := b.lastRefill &&& ~~~(1#64 <<< (bit - 192)) }
  | _ => { b with dropped := b.dropped &&& ~~~(1#64 <<< (bit - 256)) }

namespace Vplic

/-- `bitmap_clear` on `act`, on a platform of `platCpuNum` CPUs. The bits behind
the buckets are not the vPLIC's. -/
def clearAct (platCpuNum : ℕ) (v : Vplic) (bit : ℕ) : Vplic :=
  if bit < plicMaxInterrupts then { v with act := bitmapClear v.act bit }
  else
    let bit := bit - plicMaxInterrupts
    if bit < plicMaxInterrupts then { v with deferred := bitmapClear v.deferred bit }
    else
      let bit := bit - plicMaxInterrupts
      if bit < plicMaxInterrupts * 32 then { v with prio := bitmapClear v.prio bit }
      else
        let bit := bit - plicMaxInterrupts * 32
        let cntxts := platCpuNum * 2
        if bit < cntxts * plicMaxInterrupts then
          let vcntxt := bit / plicMaxInterrupts
          { v with
            enbl := Function.update v.enbl vcntxt
              (bitmapClear (v.enbl vcntxt) (bit % plicMaxInterrupts)) }
        else
          let bit := bit - cntxts * plicMaxInterrupts
          if bit < cntxts * 32 then { v with threshold := bitmapClear v.threshold bit }
          else
            let bit := bit - cntxts * 32
            if bit < plicMaxInterrupts * 320 then
              { v with
                buckets := Function.update v.buckets (bit / 320)
                  ((v.buckets (bit / 320)).clearBit (bit % 320)) }
            else v

/-- `vplic_complete` of any number. The bit behind the end of `hw` is the first
one of `pend`. -/
def completeAny (platCpuNum : ℕ) (v : Vplic) (vcntxt id : ℕ) : Vplic × List VplicEffect :=
  let hw := if id = plicMaxInterrupts then bitmapGet v.pend 0 else v.vplicGetHw id
  (v.clearAct platCpuNum id,
    (if hw then [.plicComplete id] else []) ++ [.updateHartLine vcntxt])

theorem completeAny_of_lt (platCpuNum : ℕ) (v : Vplic) (vcntxt : ℕ) {id : ℕ}
    (hid : id < plicMaxInterrupts) :
    v.completeAny platCpuNum vcntxt id = v.vplicComplete vcntxt id := by
  rw [completeAny, if_neg hid.ne, clearAct, if_pos hid]
  rfl

/-- The vPLIC after an access, whatever number it completes. -/
def guestAccess (platCpuNum : ℕ) (v : Vplic) : Access → Vplic
  | .complete vcntxt id =>
      if v.vcntxtValid vcntxt then (v.completeAny platCpuNum vcntxt id).1 else v
  | a => v.access a

/-- What the access does outside the vPLIC. -/
def guestEffects (platCpuNum : ℕ) (v : Vplic) : Access → List VplicEffect
  | .setPrio id prio => (v.vplicSetPrio id prio).2
  | .setEnbl vcntxt id set => if v.vcntxtValid vcntxt then (v.vplicSetEnbl vcntxt id set).2 else []
  | .setThreshold vcntxt threshold =>
      if v.vcntxtValid vcntxt then (v.vplicSetThreshold vcntxt threshold).2 else []
  | .claim vcntxt now => if v.vcntxtValid vcntxt then (v.vplicClaim vcntxt now).2.2 else []
  | .complete vcntxt id =>
      if v.vcntxtValid vcntxt then (v.completeAny platCpuNum vcntxt id).2 else []
  | .plicInject _ _ => []
  | .inject vcpuId id now => (v.vplicInject vcpuId id now).2

/-- The interrupt that an access names, 0 if it names none. -/
def Access.number : Access → ℕ
  | .setPrio id _ | .setEnbl _ id _ | .complete _ id | .plicInject id _ | .inject _ id _ => id
  | .setThreshold .. | .claim .. => 0

def Access.Below (a : Access) : Prop := a.number < plicMaxInterrupts

instance (a : Access) : Decidable a.Below := inferInstanceAs (Decidable (_ < _))

/-- A guest cannot make every access: the handlers take the number of a priority or of an enable
from the address, and what is injected comes from the physical PLIC, so these numbers are below
`plicMaxInterrupts`. A completion names any number. -/
def Access.Emulated : Access → Prop
  | .setPrio id _ | .setEnbl _ id _ | .inject _ id _ => id < plicMaxInterrupts
  | .setThreshold .. | .claim .. | .complete .. | .plicInject .. => True

instance (a : Access) : Decidable a.Emulated := by
  cases a <;> unfold Access.Emulated <;> infer_instance

theorem guestAccess_of_below (platCpuNum : ℕ) (v : Vplic) {a : Access} (ha : a.Below) :
    v.guestAccess platCpuNum a = v.access a := by
  cases a with
  | complete vcntxt id =>
      have hid : id < plicMaxInterrupts := ha
      rw [guestAccess, completeAny_of_lt platCpuNum v vcntxt hid, access]
  | _ => rfl

end Vplic

end BaoHypervisor
