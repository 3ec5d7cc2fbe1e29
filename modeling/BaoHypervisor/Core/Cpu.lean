import Mathlib.Data.BitVec

/-!
# CPU messages

CPUs tell each other what to do by messages, which name the function that handles
them by its number in the table of handlers. The numbers are given out when the
hypervisor is linked.
-/

namespace BaoHypervisor

structure CpuMsg where
  handler : BitVec 32
  event : BitVec 32
  data : BitVec 64
deriving DecidableEq, Repr, Inhabited

end BaoHypervisor
