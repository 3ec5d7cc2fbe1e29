import BaoHypervisor.Lib.BitmapRun
import BaoHypervisor.Theory.Masked
import BaoHypervisor.Theory.Run

/-!
# Stream matching of the SMMU

A device is known to the SMMU by the ids of its streams. A stream match register has an id
and a mask, and its stream-to-context register the context bank that translates what it
matches. VMs add devices and groups of them from several CPUs: each of the functions of
`smmuv2.c` takes its lock for itself, so other CPUs may run between any two of them.
-/

namespace BaoHypervisor

open Bitmap

/-- A call of `iommu_vm_arch_add`. -/
structure AddCall (ι : Type*) where
  vm : ι
  mask : BitVec 32
  id : BitVec 32
deriving DecidableEq, Repr

/-- Where a CPU is in `iommu_vm_arch_add`: which critical section it enters next, with what
it has found so far. `cleared` is the number of entries that its request has superseded. -/
inductive AddStage (ι : Type*)
  | idle
  | allocCtxbnk (call : AddCall ι)
  | writeCtxbnk (call : AddCall ι) (ctx : ℕ)
  | compatible (call : AddCall ι) (ctx : ℕ)
  | allocSme (call : AddCall ι) (ctx cleared : ℕ)
  | writeSme (call : AddCall ι) (ctx cleared sme : ℕ)
  | writeS2c (call : AddCall ι) (ctx cleared sme : ℕ)
deriving DecidableEq, Repr

/-- What is fixed: `sme_num`, `ctx_num` and the `global_mask` of each VM. -/
structure SmmuPlatform (ι : Type*) where
  smeNum : ℕ
  ctxNum : ℕ
  globalMask : ι → BitVec 32
  smeNum_le : smeNum ≤ 128
  ctxNum_le : ctxNum ≤ 128

/-- `smmu`, with the stream match and stream-to-context registers, the `ctx_id` of each VM and
where each CPU is. Of a context bank only the VM is kept whose id and page table are in its
registers. `granted` are the calls that have returned true, and `error` is for `ERROR`. -/
structure SmmuState (ι : Type*) (cpuNum : ℕ) where
  smr : ℕ → BitVec 32
  s2cr : ℕ → BitVec 32
  bank : ℕ → Option ι
  smeBitmap : Bitmap
  grpBitmap : Bitmap
  ctxbankBitmap : Bitmap
  ctxId : ι → Option ℕ
  stage : Fin cpuNum → AddStage ι
  granted : List (AddCall ι)
  error : Bool

/-- A CPU calls `iommu_vm_arch_add`, or goes through the next critical section of its call. -/
inductive SmmuAct (ι : Type*) (cpuNum : ℕ)
  | add (c : Fin cpuNum) (call : AddCall ι)
  | advance (c : Fin cpuNum)
deriving DecidableEq, Repr

def smmuIdMsk : BitVec 32 := 0x7fff#32

def smmuSmrId (smr : BitVec 32) : BitVec 32 := (smr.extractLsb' 0 15).setWidth 32

def smmuSmrMask (smr : BitVec 32) : BitVec 32 := (smr.extractLsb' 16 15).setWidth 32

def s2crCbndx (s2cr : BitVec 32) : ℕ := (s2cr.extractLsb' 0 8).toNat

/-- The value that `smmu_write_sme` writes, with `SMMUV2_SMR_VALID`. -/
def smrValue (mask id : BitVec 32) : BitVec 32 :=
  mask <<< 16 ||| id &&& smmuIdMsk ||| 0x80000000#32

/-- The value that `smmu_write_s2c` writes, which keeps the bits of `S2CR_IMPL_MASK`. -/
def s2crValue (s2cr : BitVec 32) (ctxId : ℕ) : BitVec 32 :=
  s2cr &&& 0xc0000000#32 ||| BitVec.ofNat 32 ctxId &&& 0xff#32

namespace AddCall

variable {ι : Type*} (platform : SmmuPlatform ι) (call : AddCall ι)

def prepMask : BitVec 32 := (call.mask &&& smmuIdMsk) ||| platform.globalMask call.vm

def prepId : BitVec 32 := call.id &&& smmuIdMsk

def group : Bool := call.mask != 0#32

end AddCall

namespace SmmuState

variable {ι : Type*} {cpuNum : ℕ}

section Functions

variable (platform : SmmuPlatform ι) (s : SmmuState ι cpuNum)

/-- The loop of `smmu_compatible_sme_exists`, which has `left` entries to look at from `sme`
on, and changes the bitmap. There is no result after an `ERROR`. -/
def compatibleLoop (mask id : BitVec 32) (ctx : ℕ) (group : Bool) :
    ℕ → ℕ → Bitmap → Option (Bool × Bitmap)
  | 0, _, bitmap => some (false, bitmap)
  | left + 1, sme, bitmap =>
      if bitmapGet bitmap sme = false then
        compatibleLoop mask id ctx group left (sme + 1) bitmap
      else
        let smeMask := smmuSmrMask (s.smr sme)
        let maskR := mask &&& smeMask
        let diffId := (smmuSmrId (s.smr sme) ^^^ id) &&& ~~~ (mask ||| smeMask)
        if diffId = 0#32 then
          if (group || bitmapGet s.grpBitmap sme) ∧ (maskR = mask ∨ maskR = smeMask) ∧
              ctx = s2crCbndx (s.s2cr sme) then
            if smeMask < mask then
              compatibleLoop mask id ctx group left (sme + 1) (bitmapClear bitmap sme)
            else some (true, bitmap)
          else none
        else compatibleLoop mask id ctx group left (sme + 1) bitmap

/-- `smmu_compatible_sme_exists`, with the bitmap that it leaves. -/
def smmuCompatibleSmeExists (mask id : BitVec 32) (ctx : ℕ) (group : Bool) :
    Option (Bool × Bitmap) :=
  s.compatibleLoop mask id ctx group platform.smeNum 0 s.smeBitmap

def clearedNum (bitmap : Bitmap) : ℕ :=
  (List.range platform.smeNum).countP fun i =>
    bitmapGet s.smeBitmap i && !bitmapGet bitmap i

def setStage (c : Fin cpuNum) (stage : AddStage ι) : SmmuState ι cpuNum :=
  { s with stage := Function.update s.stage c stage }

def grant (c : Fin cpuNum) (call : AddCall ι) : SmmuState ι cpuNum :=
  { s.setStage c .idle with granted := s.granted ++ [call] }

/-- A CPU in a call makes no other. -/
def add (c : Fin cpuNum) (call : AddCall ι) : SmmuState ι cpuNum :=
  match s.stage c, s.ctxId call.vm with
  | .idle, some ctx => s.setStage c (.compatible call ctx)
  | .idle, none => s.setStage c (.allocCtxbnk call)
  | _, _ => s

end Functions

section Step

variable [DecidableEq ι] (platform : SmmuPlatform ι) (s : SmmuState ι cpuNum)

/-- The next critical section of a CPU. Without an `ERROR` the bank that it writes is
allocated, and so is the entry. -/
def advance (c : Fin cpuNum) : SmmuState ι cpuNum :=
  match s.stage c with
  | .idle => s
  | .allocCtxbnk call =>
      match bitmapFindNth s.ctxbankBitmap platform.ctxNum 1 0 false with
      | some ctx =>
          { s.setStage c (.writeCtxbnk call ctx) with
            ctxbankBitmap := bitmapSet s.ctxbankBitmap ctx }
      | none => s.setStage c .idle
  | .writeCtxbnk call ctx =>
      if bitmapGet s.ctxbankBitmap ctx = false then { s with error := true }
      else
        { s.setStage c (.compatible call ctx) with
          bank := Function.update s.bank ctx (some call.vm)
          ctxId := Function.update s.ctxId call.vm (some ctx) }
  | .compatible call ctx =>
      match s.smmuCompatibleSmeExists platform (call.prepMask platform) call.prepId ctx
          call.group with
      | none => { s with error := true }
      | some (true, bitmap) => { s.grant c call with smeBitmap := bitmap }
      | some (false, bitmap) =>
          { s.setStage c (.allocSme call ctx (s.clearedNum platform bitmap)) with
            smeBitmap := bitmap }
  | .allocSme call ctx cleared =>
      match bitmapFindNth s.smeBitmap platform.smeNum 1 0 false with
      | some sme =>
          { s.setStage c (.writeSme call ctx cleared sme) with
            smeBitmap := bitmapSet s.smeBitmap sme }
      | none => s.setStage c .idle
  | .writeSme call ctx cleared sme =>
      if bitmapGet s.smeBitmap sme = false then { s with error := true }
      else
        { s.setStage c (.writeS2c call ctx cleared sme) with
          smr := Function.update s.smr sme (smrValue (call.prepMask platform) call.prepId)
          grpBitmap := if call.group then bitmapSet s.grpBitmap sme else s.grpBitmap }
  | .writeS2c call ctx _ sme =>
      if bitmapGet s.ctxbankBitmap ctx = false ∨ bitmapGet s.smeBitmap sme = false then
        { s with error := true }
      else
        { s.grant c call with s2cr := Function.update s.s2cr sme (s2crValue (s.s2cr sme) ctx) }

/-- After an `ERROR` nothing happens. -/
def step : SmmuAct ι cpuNum → SmmuState ι cpuNum
  | .add c call => if s.error then s else s.add c call
  | .advance c => if s.error then s else s.advance platform c

end Step

/-- The state after `smmu_init`, which leaves the stream-to-context registers as they are. -/
def start (s2cr : ℕ → BitVec 32) : SmmuState ι cpuNum where
  smr _ := 0#32
  s2cr := s2cr
  bank _ := none
  smeBitmap _ := 0#32
  grpBitmap _ := 0#32
  ctxbankBitmap _ := 0#32
  ctxId _ := none
  stage _ := .idle
  granted := []
  error := false

/-- `SMMUV2_SMR_VALID`. -/
def Valid (s : SmmuState ι cpuNum) (sme : ℕ) : Prop := (s.smr sme).getLsbD 31 = true

def entry (s : SmmuState ι cpuNum) (sme : ℕ) : Masked 15 :=
  ⟨(s.smr sme).extractLsb' 0 15, (s.smr sme).extractLsb' 16 15⟩

/-- The SMMU takes the register for the stream. -/
def Matches (platform : SmmuPlatform ι) (s : SmmuState ι cpuNum) (sme : ℕ) (stream : BitVec 15) :
    Prop :=
  sme < platform.smeNum ∧ s.Valid sme ∧ (s.entry sme).Matches stream

def Quiet (s : SmmuState ι cpuNum) : Prop := ∀ c, s.stage c = .idle

end SmmuState

def AddCall.request {ι : Type*} (platform : SmmuPlatform ι) (call : AddCall ι) : Masked 15 :=
  ⟨(call.prepId).setWidth 15, (call.prepMask platform).setWidth 15⟩

/-- The request that a CPU has checked and not yet put into an entry. -/
def AddStage.pending {ι : Type*} : AddStage ι → Option (AddCall ι)
  | .allocSme call _ _ | .writeSme call _ _ _ | .writeS2c call _ _ _ => some call
  | .idle | .allocCtxbnk _ | .writeCtxbnk _ _ | .compatible _ _ => none

/-- The entry that a CPU has allocated and not yet bound to a context bank. -/
def AddStage.held {ι : Type*} : AddStage ι → Option ℕ
  | .writeSme _ _ _ sme | .writeS2c _ _ _ sme => some sme
  | .idle | .allocCtxbnk _ | .writeCtxbnk _ _ | .compatible _ _ | .allocSme _ _ _ => none

namespace SmmuState

variable {ι : Type*} {cpuNum : ℕ}

/-- A request is checked while no other that it meets is on its way into an entry, it meets
nothing that is still in an entry which another CPU has just allocated, and it meets one
entry at most. A call that has superseded an entry finds a free one. -/
def OrderlyStage (platform : SmmuPlatform ι) (s : SmmuState ι cpuNum) : AddStage ι → Prop
  | .compatible call _ =>
      (∀ d, ∀ other ∈ (s.stage d).pending,
          ¬ (other.request platform).Meets (call.request platform)) ∧
        (∀ d, ∀ sme ∈ (s.stage d).held, ¬ (s.entry sme).Meets (call.request platform)) ∧
        ∀ i < platform.smeNum, ∀ j < platform.smeNum, bitmapGet s.smeBitmap i = true ∧
          bitmapGet s.smeBitmap j = true ∧ (s.entry i).Meets (call.request platform) ∧
          (s.entry j).Meets (call.request platform) → i = j
  | .allocSme _ _ cleared =>
      cleared ≠ 0 → bitmapFindNth s.smeBitmap platform.smeNum 1 0 false ≠ none
  | _ => True

def Orderly (platform : SmmuPlatform ι) (s : SmmuState ι cpuNum) : SmmuAct ι cpuNum → Prop
  | .add _ _ => True
  | .advance c => s.OrderlyStage platform (s.stage c)

/-- No stream matches two registers, and one that a granted request covers matches a register
with a context bank of the VM that made the request. -/
structure Isolated (platform : SmmuPlatform ι) (s : SmmuState ι cpuNum) : Prop where
  unique : ∀ stream i j, s.Matches platform i stream → s.Matches platform j stream → i = j
  granted : ∀ call ∈ s.granted, ∀ stream, (call.request platform).Matches stream →
    ∃ sme, s.Matches platform sme stream
  bound : ∀ call ∈ s.granted, ∀ stream sme, (call.request platform).Matches stream →
    s.Matches platform sme stream → s.bank (s2crCbndx (s.s2cr sme)) = some call.vm

end SmmuState

end BaoHypervisor
