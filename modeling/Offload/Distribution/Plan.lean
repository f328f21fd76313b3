import Offload.Dialect.Workgroup

/-!
# Distribution of a tensor

The elements of a tensor are dealt out evenly in row-major order: the first worker gets the first `k`, the
next worker the next `k`, and so on. For that the tensor is reshaped to the extents of the workgroup,
followed by `k` unless `k` is one, and every worker has a buffer for `k` elements.
-/

namespace Offload.Distribution

def computeShapes (dims extents : List Int) : Except Fault (List Int × List Int) :=
  let elements := Word.product dims
  let workers := Workgroup.workers extents
  if workers = 0 then .error .crash
  else if Word.rem elements workers ≠ 0 then .error (.uneven elements dims extents workers)
  else
    let perWorker := Word.quot elements workers
    .ok (if perWorker = 1 then (extents, []) else (extents ++ [perWorker], [perWorker]))

/-- The map of a transfer. It has two inputs for each axis, of which only the first half is used; the
results are the quotients of the indices by the extents, and then the remainders. -/
def transferMap (extents : List Int) : Affine.Map :=
  { dims := 2 * extents.length
    results := extents.zipIdx.map (fun (e, i) => .floorDiv (.dim i) e) ++
      extents.zipIdx.map (fun (e, i) => .mod (.dim i) e) }

structure Plan where
  operand : Slot
  source : Shape
  reshaped : List Int
  buffer : Shape
  extents : List Int
  deriving Inhabited

namespace Plan

def bufferType (plan : Plan) : Ty := .buffer plan.buffer plan.extents 0

def map (plan : Plan) : Affine.Map := transferMap plan.extents

end Plan

def planOperand (p : Program) (operand : Slot) (extents : List Int) : Except Fault Plan :=
  match p.slotType? operand with
  | none => .error .crash
  | some (.tensor s) => do
    let (reshaped, perWorker) ← computeShapes s.dims extents
    let buffer ← Fault.ofShape (Shape.make s.element perWorker)
    return { operand, source := s, reshaped, buffer, extents }
  | some t => .error (.notATensor t)

end Offload.Distribution
