import Offload.Device.Kernel
import Offload.Execution.Tensor
import Offload.Pass.Manager
import Offload.Table
import Offload.Text.Grouped

/-!
# Reports

What the passes of a pipeline did, which kernels the launches of a program need, and whether two runs have
the same results.
-/

namespace Offload.Command

open Device (Kernel KernelError)

/-- One row for each pass. If the pipeline failed, its last pass is the one that failed. -/
def passesTable (pipeline : String) (reports : List Pass.Report) (failed : Bool) : Table :=
  { title := "Pipeline " ++ Text.quote pipeline
    columns := [⟨"Pass", .left⟩, ⟨"Rewritten", .right⟩, ⟨"Mutations", .right⟩, ⟨"Operations", .right⟩,
      ⟨"Duration", .right⟩]
    rows := reports.zipIdx.map fun (r, i) =>
      { failed := failed && i + 1 = reports.length
        cells := [r.pass, Text.renderGrouped r.stats.rewritten, Text.renderGrouped r.stats.mutations,
          Text.renderGrouped r.before ++ " -> " ++ Text.renderGrouped r.after, r.duration] } }

/-! ## Kernels -/

inductive LaunchError where
  | buffers (count : Nat)
  | rows (input output : Int)
  | kernel (cause : KernelError)

def LaunchError.message : LaunchError → String
  | buffers n => "launch with " ++ toString n ++ " buffers, the kernels take at least 2"
  | rows input output =>
    "input of " ++ toString input ++ " elements per worker doesn't split into " ++ toString output ++ " rows"
  | kernel cause => cause.message

def perWorkerSize (p : Program) (s : Slot) : Except Fault Int :=
  match p.slotType? s with
  | some (.buffer shape _ _) => .ok shape.size
  | _ => .error .crash

/-- The kernel of a launch: the last buffer is the result, with an element for each row, and the first is
the matrix. -/
def kernelOf (p : Program) (i : OpId) : Except Fault (Except LaunchError Kernel) := do
  match (p.op i).operands with
  | [] => throw .crash
  | _ :: params =>
    match params.head?, params.getLast? with
    | some first, some last =>
      if params.length < 2 then return .error (.buffers params.length)
      let input ← perWorkerSize p first
      let output ← perWorkerSize p last
      if output = 0 then throw .crash
      if Word.rem input output ≠ 0 then return .error (.rows input output)
      return .ok ⟨Device.word32 output, Device.word32 (Word.quot input output)⟩
    | _, _ => return .error (.buffers params.length)

def kernelRow (p : Program) (tasklets : Int) (i : OpId) : Except Fault Row := do
  let (kernel, error) ← match ← kernelOf p i with
    | .error e => pure (⟨0, 0⟩, some e)
    | .ok k =>
      match k.validate tasklets with
      | .ok () => pure (k, none)
      | .error e => pure (k, some (.kernel e))
  match (p.op i).operands.head?.bind p.slotType? with
  | some (.workgroup extents) =>
    return {
      failed := error.isSome
      cells := [(p.op i).loc, (Ty.workgroup extents).render, Text.renderGrouped kernel.rows,
        Text.renderGrouped kernel.columns, Text.renderBytes kernel.layout.finish,
        error.elim "ok" LaunchError.message] }
  | _ => throw .crash

def launches (p : Program) (root : OpId) : List OpId :=
  (p.preorder (fun _ => true) root).filter fun i => (p.op i).name = Workgroup.launchName

def hasLaunches (p : Program) (root : OpId) : Bool := !(launches p root).isEmpty

def kernelsTable (p : Program) (root : OpId) (tasklets : Int) : Except Fault Table := do
  return {
    title := "Kernels"
    columns := [⟨"Launch", .left⟩, ⟨"Workgroup", .left⟩, ⟨"MSize", .right⟩, ⟨"NSize", .right⟩,
      ⟨"MRAM", .right⟩, ⟨"Status", .left⟩]
    rows := ← (launches p root).mapM (kernelRow p tasklets) }

/-! ## Comparison -/

inductive Difference where
  | count (given wanted : Nat)
  | shape (index : Nat) (given wanted : Shape)
  | element (index place : Nat) (given wanted : Float)

def Difference.message : Difference → String
  | count given wanted => "got " ++ toString given ++ " results, wanted " ++ toString wanted
  | shape i given wanted =>
    "result #" ++ toString i ++ " has shape " ++ given.render ++ ", wanted " ++ wanted.render
  | element i place given wanted =>
    "result #" ++ toString i ++ " differs at element " ++ toString place ++ ": got " ++ Decimal.render given ++
      ", wanted " ++ Decimal.render wanted

def firstDifference? (want got : Tensor) : Option (Nat × Float × Float) :=
  ((want.data.zip got.data).toList.zipIdx.find? fun ((x, y), _) => x != y).map fun ((x, y), i) => (i, y, x)

def compareFrom : Nat → List (Tensor × Tensor) → Option Difference
  | _, [] => none
  | index, (want, got) :: rest =>
    if want.shape.dims ≠ got.shape.dims then some (.shape index got.shape want.shape)
    else
      match firstDifference? want got with
      | some (place, given, wanted) => some (.element index place given wanted)
      | none => compareFrom (index + 1) rest

def compare (want got : List Tensor) : Option Difference :=
  if want.length ≠ got.length then some (.count got.length want.length) else compareFrom 0 (want.zip got)

end Offload.Command
