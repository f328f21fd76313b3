import Offload.Fault

/-!
# Capacity

No list can hold more than `2^45` items. To ask for more, or for a negative number, is a fault before
anything is made.
-/

namespace Offload

def capacity : Int := 35184372088832

def checkLength (n : Int) : Except Fault Nat :=
  if 0 ≤ n ∧ n < capacity then .ok n.toNat else .error .crash

end Offload
