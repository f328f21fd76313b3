import Offload.IR.Builder
import Offload.IR.Registry

/-!
# Workgroups

A workgroup is a grid of workers. A buffer on it gives every worker a memref of the same shape. Scatter
deals the elements of a tensor out to the buffers, gather collects them, and a launch runs its body once
for every worker on the memrefs of that worker.
-/

namespace Offload.Workgroup

def workgroupName : String := "cnm.workgroup"
def allocName : String := "cnm.alloc"
def scatterName : String := "cnm.scatter"
def gatherName : String := "cnm.gather"
def launchName : String := "cnm.launch"
def terminatorName : String := "cnm.terminator"
def scatterMapAttr : String := "scatter_map"
def gatherMapAttr : String := "gather_map"

def workers (extents : List Int) : Int := Word.product extents

def checkExtents (extents : List Int) : Except Fault Unit :=
  match extents with
  | [] => .error .workgroupWithoutAxes
  | _ =>
    match extents.zipIdx.find? fun (e, _) => e ≤ 0 with
    | some (_, axis) => .error (.workgroupExtent extents axis)
    | none => .ok ()

def type (extents : List Int) : Except Fault Ty := do
  checkExtents extents
  return .workgroup extents

def bufferType (element : ElementType) (perWorker extents : List Int) (level : Int) : Except Fault Ty := do
  return .buffer (← Fault.ofShape (Shape.make element perWorker)) extents level

/-! ## Checking -/

inductive Flaw where
  | workgroupArity
  | allocArity
  | scatterArity
  | gatherArity
  | launchArity
  | notAWorkgroup (type : Ty)
  | notABuffer (type : Ty)
  | otherWorkgroup (buffer workgroup : Ty)
  | noMap
  | mapArity (map : Affine.Map) (extents : List Int)
  | notATensor (type : Ty)
  | elementTypes (tensor buffer : Ty)
  | uneven (tensor buffer : Ty) (workers : Int)
  | notAToken (type : Ty)
  | bodyArguments (wanted : Nat)
  | parameter (index : Nat) (cause : Flaw)
  | bodyArgument (index : Nat) (type buffer : Ty)
  | bodyEnd
  deriving DecidableEq, Repr

def Flaw.message : Flaw → String
  | workgroupArity => "workgroup takes no operands and has one result"
  | allocArity => "alloc takes a workgroup and has one result"
  | scatterArity => "scatter takes a tensor, a buffer and a workgroup, and has no results"
  | gatherArity => "gather takes a buffer and a workgroup, and has two results"
  | launchArity => "launch takes a workgroup"
  | notAWorkgroup t => "expected a workgroup operand, got " ++ t.render
  | notABuffer t => "expected a buffer operand, got " ++ t.render
  | otherWorkgroup t u => "buffer " ++ t.render ++ " is not allocated on workgroup " ++ u.render
  | noMap => "missing affine map attribute"
  | mapArity m extents =>
    let n := toString (2 * extents.length)
    "map " ++ m.render ++ " doesn't fit workgroup " ++ (Ty.workgroup extents).render ++ ": wanted " ++ n ++
      " inputs and " ++ n ++ " results"
  | notATensor t => "expected a tensor, got " ++ t.render
  | elementTypes t u => "tensor " ++ t.render ++ " and buffer " ++ u.render ++ " have different element types"
  | uneven t u workers =>
    "tensor " ++ t.render ++ " doesn't split into " ++ toString workers ++ " buffers " ++ u.render
  | notAToken t => "second result must be a gather token, got " ++ t.render
  | bodyArguments wanted => "launch body must take one argument per parameter (" ++ toString wanted ++ ")"
  | parameter i cause => "parameter #" ++ toString i ++ ": " ++ cause.message
  | bodyArgument i t u =>
    "body argument #" ++ toString i ++ " has type " ++ t.render ++ ", but parameter is " ++ u.render
  | bodyEnd => "launch body must end with cnm.terminator"

def extentsOf : Ty → Except Flaw (List Int)
  | .workgroup extents => .ok extents
  | t => .error (.notAWorkgroup t)

def perWorkerOf (extents : List Int) : Ty → Except Flaw Shape
  | .buffer s on level =>
    if extents = on then .ok s else .error (.otherWorkgroup (.buffer s on level) (.workgroup extents))
  | t => .error (.notABuffer t)

def checkMap (extents : List Int) : Option Attr → Except Flaw Unit
  | some (.map m) =>
    if m.dims = 2 * extents.length ∧ m.results.length = 2 * extents.length then .ok ()
    else .error (.mapArity m extents)
  | _ => .error .noMap

def checkTransfer (extents : List Int) (tensor buffer : Ty) : Except Flaw Unit := do
  let s ← perWorkerOf extents buffer
  match tensor with
  | .tensor t =>
    if t.element ≠ s.element then throw (.elementTypes tensor buffer)
    else if t.size ≠ Word.mul s.size (workers extents) then throw (.uneven tensor buffer (workers extents))
  | t => throw (.notATensor t)

section Checks

variable (p : Program) (i : OpId)

def operandTypes : List Ty := (p.op i).operands.filterMap p.slotType?

def checkWorkgroup : Except Flaw Unit :=
  match operandTypes p i, p.resultTypes i with
  | [], [t] => discard (extentsOf t)
  | _, _ => .error .workgroupArity

def checkAlloc : Except Flaw Unit :=
  match operandTypes p i, p.resultTypes i with
  | [w], [t] => do discard (perWorkerOf (← extentsOf w) t)
  | _, _ => .error .allocArity

def checkScatter : Except Flaw Unit :=
  match operandTypes p i, p.resultTypes i with
  | [t, b, w], [] => do
    let extents ← extentsOf w
    checkTransfer extents t b
    checkMap extents ((p.op i).attr? scatterMapAttr)
  | _, _ => .error .scatterArity

def checkGather : Except Flaw Unit :=
  match operandTypes p i, p.resultTypes i with
  | [b, w], [t, order] => do
    let extents ← extentsOf w
    checkTransfer extents t b
    unless order = .token do throw (.notAToken order)
    checkMap extents ((p.op i).attr? gatherMapAttr)
  | _, _ => .error .gatherArity

def checkParameters (extents : List Int) : Nat → List (Ty × Ty) → Except Flaw Unit
  | _, [] => .ok ()
  | index, (param, arg) :: rest =>
    match perWorkerOf extents param with
    | .error e => .error (.parameter index e)
    | .ok s =>
      if .memref s = arg then checkParameters extents (index + 1) rest
      else .error (.bodyArgument index arg param)

def checkLaunch : Except (Option Flaw) Unit :=
  match operandTypes p i with
  | [] => .error (some .launchArity)
  | w :: params => do
    let extents ← (extentsOf w).mapError some
    match (p.op i).regions with
    | [] => throw none
    | blocks :: _ =>
      match blocks.head? with
      | none => throw (some (.bodyArguments params.length))
      | some b =>
        let args := p.argTypes b
        unless args.length = params.length do throw (some (.bodyArguments params.length))
        (checkParameters extents 0 (params.zip args)).mapError some
        match (p.last? b).map p.op with
        | some last => unless last.name = terminatorName do throw (some .bodyEnd)
        | none => throw (some .bodyEnd)

end Checks

def checkedBy (check : Program → OpId → Except Flaw Unit) : Check :=
  fun p i => (check p i).mapError (.violation ·.message)

def registry : Registry :=
  [{ name := workgroupName, check := checkedBy checkWorkgroup },
   { name := allocName, check := checkedBy checkAlloc },
   { name := scatterName, check := checkedBy checkScatter },
   { name := gatherName, check := checkedBy checkGather },
   { name := launchName, traits := { isolated := true }
     check := fun p i => (checkLaunch p i).mapError (.of Flaw.message) },
   { name := terminatorName, traits := { terminator := true } }]

/-! ## Building -/

def newWorkgroup (extents : List Int) : Build ValueId :=
  Build.createValue { name := workgroupName, results := [some (.workgroup extents)] }

def alloc (buffer : Ty) (workgroup : Slot) : Build ValueId :=
  Build.createValue { name := allocName, operands := [workgroup], results := [some buffer] }

def scatter (tensor buffer workgroup : Slot) (map : Affine.Map) : Build OpId :=
  Build.create {
    name := scatterName
    operands := [tensor, buffer, workgroup]
    attrs := [(scatterMapAttr, .map map)] }

def gather (shape : Shape) (buffer workgroup : Slot) (map : Affine.Map) : Build OpId :=
  Build.create {
    name := gatherName
    operands := [buffer, workgroup]
    results := [some (.tensor shape), some .token]
    attrs := [(gatherMapAttr, .map map)] }

def parameterType : Ty → Ty
  | .buffer s _ _ => .memref s
  | t => t

def launch (workgroup : Slot) (buffers : List Slot) : Build (OpId × BlockId) := do
  let i ← Build.create { name := launchName, operands := workgroup :: buffers, regions := 1 }
  let types ← buffers.mapM Build.typeOf
  let b ← Edit.newBlock i 0 (types.map fun t => some (parameterType t))
  return (i, b)

def terminator : Build OpId := Build.create { name := terminatorName }

/-! ## Reading launches -/

section Launches

variable (p : Program) (i : OpId)

structure Launch where
  workgroup : Ty
  buffers : List Ty
  body : Option BlockId
  deriving DecidableEq, Repr

def launchAt : Except Fault Launch :=
  match p.typesOf? (p.op i).operands, (p.op i).regions with
  | some (workgroup :: buffers), blocks :: _ => .ok { workgroup, buffers, body := blocks.head? }
  | _, _ => .error .crash

end Launches

end Offload.Workgroup
