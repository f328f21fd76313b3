import Offload.Dialect.Views
import Offload.Distribution.Selector
import Offload.IR.Clone
import Offload.Rewrite.Conversion

/-!
# Distribution of reductions

A reduction is distributed over a workgroup in three steps. Its operands are reshaped and scattered to
buffers; a launch runs the same reduction on the part of every worker; the buffers of the accumulators are
gathered into the results.
-/

namespace Offload.Distribution

open Rewrite (Rewriting Pattern Outcome Stats Target ConversionError)

def passName : String := "convert-tiled-cinm-to-cnm"

def scatterOperand (plan : Plan) (workgroup : ValueId) : Build ValueId := do
  let reshaped ← Views.reshape plan.operand plan.reshaped
  let buffer ← Workgroup.alloc plan.bufferType (some workgroup)
  discard (Workgroup.scatter (some reshaped) (some buffer) (some workgroup) plan.map)
  return buffer

def scatterOperands (extents : List Int) (workgroup : ValueId) : List Slot → Build (List (Plan × ValueId))
  | [] => return []
  | operand :: rest => do
    let plan ← planOperand (← Build.program) operand extents
    let buffer ← scatterOperand plan workgroup
    return (plan, buffer) :: (← scatterOperands extents workgroup rest)

inductive View where
  /-- Nothing is reduced. -/
  | elementwise
  /-- All of an input goes into one accumulator. -/
  | row
  /-- An input is seen as so many rows of a length, and each row goes into an accumulator. -/
  | rows (count length : Int)
  deriving DecidableEq, Repr

def viewOf (shape : Shape) (axes extents : List Int) : Except Fault View :=
  let outputs := shape.volumeExcluding axes
  let workers := Workgroup.workers extents
  if outputs = 0 then .error .crash
  else
    let length := Word.quot shape.size outputs
    if workers = 0 then .error .crash
    else
      let count := Word.quot outputs workers
      .ok (if length = 1 then .elementwise else if count = 1 then .row else .rows count length)

def View.apply (inputs : List ValueId) : View → Build (List ValueId × List Int)
  | elementwise => return (inputs, [])
  | row => return (inputs, [0])
  | rows count length => do
    return (← inputs.mapM fun v => Views.expand (some v) [count, length], [1])

def buildBody (i : OpId) (body : BlockId) (extents : List Int) : Build Unit := do
  Build.toStart body
  let p ← Build.program
  let inputs ← Reduction.inputs p i
  let args := (p.block body).args
  match inputs.head?.bind p.slotType? with
  | some (.tensor shape) =>
    let view ← viewOf shape (Reduction.dimensions p i) extents
    let (seen, axes) ← view.apply (args.take inputs.length)
    let inner ← Reduction.reduce (seen.map some) ((args.drop inputs.length).map some) axes none
    discard (Edit.cloneRegion i 0 inner 0 {} : Edit Substitution)
    discard Workgroup.terminator
  | _ => throw .crash

def gatherResults (workgroup : ValueId) : List ValueId → List (Plan × ValueId) → Build (List ValueId)
  | [], _ => return []
  | _ :: _, [] => throw .crash
  | r :: rest, (plan, buffer) :: buffers => do
    match (← Build.program).typeOf r with
    | .tensor shape =>
      let gather ← Workgroup.gather shape (some buffer) (some workgroup) plan.map
      let v ← Build.resultOf gather 0
      return v :: (← gatherResults workgroup rest buffers)
    | _ => throw .crash

def lowerReduction (i : OpId) (extents : List Int) : Build (List ValueId) := do
  let workgroup ← Workgroup.newWorkgroup extents
  let buffers ← scatterOperands extents workgroup (← Edit.getOp i).operands
  let (launch, body) ← Workgroup.launch (some workgroup) (buffers.map fun (_, b) => some b)
  buildBody i body extents
  Build.toAfter launch
  let inputCount ← Reduction.inputCount (← Build.program) i
  gatherResults workgroup (← Edit.getOp i).results (buffers.drop inputCount)

def distributeReduction (sel : Selector) (i : OpId) : Rewriting Unit Outcome := do
  match ← Rewriting.fail (sel.select (← Rewriting.program) i) with
  | none => return .noMatch
  | some extents =>
    let values ← Rewriting.build (lowerReduction i extents)
    Rewriting.replaceOp i (values.map some)
    return .applied

def target (sel : Selector) : Target :=
  { dynamic := [(Reduction.reduceName, fun p i => do return (← sel.select p i).isNone)]
    recursivelyLegal := .ofList [Workgroup.launchName]
    unknownLegal := true }

def firstOnMemory (p : Program) : List OpId → Except Fault (Option OpId)
  | [] => .ok none
  | i :: rest =>
    if (p.op i).name = Reduction.reduceName then do
      if ← Reduction.onTensors p i then firstOnMemory p rest else return some i
    else firstOnMemory p rest

inductive DistributionError where
  | notTensors (name loc : String)
  | conversion (cause : ConversionError)

def DistributionError.message : DistributionError → String
  | notTensors name loc => name ++ " at " ++ loc ++ ": reduction operands must be tensors"
  | conversion cause => cause.message

/-- Distributes the reductions inside `root` for which there is a workgroup. A rewrite takes away one
reduction, and adds one only inside of a launch, so there are no more rewrites than operations. -/
def distribute (sel : Selector) (root : OpId) : Edit (Stats × Option DistributionError) := do
  let p ← get
  let outside := p.preorder (fun j => (p.op j).name ≠ Workgroup.launchName) root
  match firstOnMemory p outside with
  | .error e => throw e
  | .ok (some i) => return ({}, some (.notTensors (p.op i).name (p.op i).loc))
  | .ok none =>
    let patterns : List (Pattern Unit) := [⟨Reduction.reduceName, distributeReduction sel⟩]
    let (stats, error) ←
      Rewrite.asEdit true (Rewrite.convert .full root (target sel) patterns p.ops.size)
    return (stats, error.map .conversion)

end Offload.Distribution
