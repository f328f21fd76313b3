import Offload.Dialect.Workgroup
import Offload.Execution.Tensor

/-!
# Transfers

Scattering deals the elements of a tensor out to one buffer for each worker, and gathering collects them.
A map says where an element goes: from the indices on the axes of the workgroup it computes a block of a
buffer and the coordinates of a worker, and the other indices are the place in the block.
-/

namespace Offload

inductive Stop (ε : Type) where
  | error (cause : ε)
  | fault (cause : Fault)

inductive TransferError where
  | bufferCount (given : Nat) (workers : Int) (extents : List Int)
  | uneven (shape : Shape) (workers : Int)
  | map (cause : Affine.EvalError)
  | goesNowhere (indices : List Int) (layout : Shape) (slot worker : Int) (buffer : Shape)
  | comesFromNowhere (indices : List Int) (layout : Shape) (slot worker : Int) (buffer : Shape)

def TransferError.message : TransferError → String
  | bufferCount given workers extents =>
    "got " ++ toString given ++ " buffers for the " ++ toString workers ++ " workers of " ++
      (Ty.workgroup extents).render
  | uneven shape workers =>
    "tensor " ++ shape.render ++ " doesn't split into " ++ toString workers ++ " buffers"
  | map cause => cause.message
  | goesNowhere indices layout slot worker buffer =>
    "element " ++ renderInts indices ++ " of " ++ layout.render ++ " goes to slot " ++ toString slot ++
      " of worker #" ++ toString worker ++ ", but its buffer is a " ++ buffer.render
  | comesFromNowhere indices layout slot worker buffer =>
    "element " ++ renderInts indices ++ " of " ++ layout.render ++ " comes from slot " ++ toString slot ++
      " of worker #" ++ toString worker ++ ", but its buffer is a " ++ buffer.render

namespace Transfer

abbrev Result := Except (Stop TransferError)

def orFault {α : Type} (x : Except Fault α) : Result α := x.mapError .fault

/-- The shape by which a tensor is dealt out. A tensor whose first axes are not those of the workgroup is
seen as reshaped to the extents of the workgroup, followed by the elements for each worker. -/
def layoutOf (shape : Shape) (buffers : Nat) (extents : List Int) : Result Shape := do
  let workers := Workgroup.workers extents
  if (buffers : Int) ≠ workers then throw (.error (.bufferCount buffers workers extents))
  if shape.dims.take extents.length = extents then return shape
  if workers = 0 then throw (.fault .crash)
  if Word.rem shape.size workers ≠ 0 then throw (.error (.uneven shape workers))
  let perWorker := Word.quot shape.size workers
  orFault (Fault.ofShape (shape.withDims (if perWorker = 1 then extents else extents ++ [perWorker])))

def blockSize (layout : Shape) (extents : List Int) : Int :=
  Word.product (layout.dims.drop extents.length)

def mixedRadix (bases digits : List Int) : Int :=
  (bases.zip digits).foldl (fun n (b, d) => Word.add (Word.mul n b) d) 0

def blockCounts (layout : Shape) (extents : List Int) : List Int :=
  (layout.dims.zip extents).map fun (d, e) => Word.quot (Word.sub (Word.add d e) 1) e

def locate (map : Affine.Map) (layout : Shape) (extents indices : List Int) : Result (Int × Int) := do
  let rank := extents.length
  match map.eval (indices.take rank ++ List.replicate rank 0) with
  | .error e => throw (.error (.map e))
  | .ok results =>
    if results.length < 2 * rank then throw (.fault .crash)
    let block := mixedRadix (blockCounts layout extents) results
    let worker := mixedRadix extents (results.drop rank)
    let inner := mixedRadix (layout.dims.drop rank) (indices.drop rank)
    return (worker, Word.add (Word.mul block (blockSize layout extents)) inner)

def bufferOf (buffers : Array Tensor) (worker : Int) : Result Tensor :=
  match if 0 ≤ worker then buffers[worker.toNat]? else none with
  | some b => .ok b
  | none => .error (.fault .crash)

def targetOf (map : Affine.Map) (layout : Shape) (extents indices : List Int) (buffers : Array Tensor) :
    Result (Nat × Nat) := do
  let (worker, slot) ← locate map layout extents indices
  let b ← bufferOf buffers worker
  if (b.data.size : Int) ≤ slot then throw (.error (.goesNowhere indices layout slot worker b.shape))
  if slot < 0 then throw (.fault .crash)
  return (worker.toNat, slot.toNat)

def put (buffers : Array Tensor) (worker slot : Nat) (x : Float) : Array Tensor :=
  buffers.modify worker fun ⟨shape, data⟩ => ⟨shape, data.setIfInBounds slot (shape.element.round x)⟩

/-- Puts the listed elements into the buffers. The buffers keep what they got before something failed. -/
def scatterElements (t : Tensor) (map : Affine.Map) (layout : Shape) (extents : List Int) :
    List (Nat × List Int) → Array Tensor → Array Tensor × Option (Stop TransferError)
  | [], buffers => (buffers, none)
  | (flat, indices) :: rest, buffers =>
    match targetOf map layout extents indices buffers, t.get flat with
    | .error e, _ => (buffers, some e)
    | .ok _, .error e => (buffers, some (.fault e))
    | .ok (worker, slot), .ok x => scatterElements t map layout extents rest (put buffers worker slot x)

def scatter (t : Tensor) (extents : List Int) (map : Affine.Map) (buffers : Array Tensor) :
    Array Tensor × Option (Stop TransferError) :=
  match layoutOf t.shape buffers.size extents with
  | .error e => (buffers, some e)
  | .ok layout => scatterElements t map layout extents layout.indices buffers

def elementAt (map : Affine.Map) (layout : Shape) (extents indices : List Int) (buffers : Array Tensor) :
    Result Float := do
  let (worker, slot) ← locate map layout extents indices
  let b ← bufferOf buffers worker
  if (b.data.size : Int) ≤ slot then throw (.error (.comesFromNowhere indices layout slot worker b.shape))
  orFault (b.get slot)

def gather (buffers : Array Tensor) (shape : Shape) (extents : List Int) (map : Affine.Map) :
    Result Tensor := do
  let layout ← layoutOf shape buffers.size extents
  discard (orFault (checkLength shape.size))
  let elements ← layout.indices.mapM fun (_, indices) => elementAt map layout extents indices buffers
  return ⟨shape, (elements.map shape.element.round).toArray⟩

end Transfer

end Offload
