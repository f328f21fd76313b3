import Offload.Dialect.Functions
import Offload.Dialect.Handle
import Offload.Dialect.Reduction
import Offload.Dialect.Views
import Offload.Dialect.Workgroup

/-!
# The catalogue of operations

All kinds of operations that are known.
-/

namespace Offload

def catalogue : Registry :=
  Functions.registry ++ Arith.registry ++ Reduction.registry ++ Views.registry ++ Workgroup.registry ++
    Register.registry ++ Handle.registry

end Offload
