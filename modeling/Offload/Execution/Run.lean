import Offload.Dialect.Functions
import Offload.Dialect.Reduction
import Offload.Dialect.Views
import Offload.Execution.Pool
import Offload.Execution.Store

/-!
# Running programs

A function is run on references to its arguments. Tensors, memrefs and scalars are all references; a
buffer is a reference for each worker. The body of a reduction runs once for each element of its inputs and
sees the values around it; the body of a launch runs once for each worker and sees nothing but its own
arguments.
-/

namespace Offload.Execution

inductive Datum where
  | ref (r : Ref)
  | workgroup (extents : List Int)
  | buffer (workers : List Ref)
  | token
  deriving Inhabited

def Datum.kind : Datum → String
  | ref _ => "*interp.Tensor"
  | workgroup _ => "*interp.workgroupValue"
  | buffer _ => "*interp.bufferValue"
  | token => "interp.tokenValue"

/-- The values that are visible. An entry hides those behind it. -/
abbrev Env := List (ValueId × Datum)

section

variable (p : Program)

def lookup (env : Env) : Slot → Exec Datum
  | none => Exec.crash
  | some v =>
    match env.lookup v with
    | some d => return d
    | none => throw (.fault (.undefinedValue (p.placeOf v) (p.typeOf v)))

def lookupRef (env : Env) (s : Slot) : Exec Ref := do
  match ← lookup p env s with
  | .ref r => return r
  | _ =>
    match p.slotType? s with
    | some t => throw (.fault (.notElements t))
    | none => Exec.crash

def lookupWorkgroup (env : Env) (s : Slot) : Exec (List Int) := do
  match ← lookup p env s with
  | .workgroup extents => return extents
  | _ => Exec.crash

def lookupBuffer (env : Env) (s : Slot) : Exec (List Ref) := do
  match ← lookup p env s with
  | .buffer workers => return workers
  | _ => Exec.crash

def operandAt (i : OpId) (index : Nat) : Exec Slot :=
  match (p.op i).operands[index]? with
  | some s => return s
  | none => Exec.crash

def resultAt (i : OpId) (index : Nat) : Exec ValueId :=
  match (p.op i).results[index]? with
  | some v => return v
  | none => Exec.crash

def shapeOf (t : Ty) : Except Fault Shape :=
  match t with
  | .scalar e => .ok (Shape.scalar e)
  | _ =>
    match t.shape? with
    | some s => .ok s
    | none => .error (.noShape t)

/-! ## Single operations -/

def applyBinary (b : Arith.Binary) (x y : Tensor) (shape : Shape) : Except Fault Tensor := do
  let n ← checkLength shape.size
  let elements ← (List.range n).mapM fun (i : Nat) => do
    return shape.element.round (b.apply (← x.get i) (← y.get i))
  return ⟨shape, elements.toArray⟩

def runBinary (b : Arith.Binary) (env : Env) (i : OpId) : Exec Env := do
  let v ← resultAt p i 0
  let x ← Exec.load (← lookupRef p env (← operandAt p i 0))
  let y ← Exec.load (← lookupRef p env (← operandAt p i 1))
  unless x.data.size = y.data.size do throw (.fault (.elementwise x.shape y.shape))
  let shape ← Exec.ofExcept (shapeOf (p.typeOf v))
  let r ← Exec.alloc (← Exec.ofExcept (applyBinary b x y shape))
  return (v, .ref r) :: env

def runConstant (env : Env) (i : OpId) : Exec Env := do
  match Arith.constantValues? (p.op i) with
  | none => Exec.fail .noConstant
  | some values =>
    let v ← resultAt p i 0
    let shape ← Exec.ofExcept (shapeOf (p.typeOf v))
    let r ← Exec.alloc (← Exec.ofExcept (Tensor.make shape values.toArray))
    return (v, .ref r) :: env

def runReshape (env : Env) (i : OpId) : Exec Env := do
  let source ← Exec.load (← lookupRef p env (← operandAt p i 0))
  let v ← resultAt p i 0
  let shape ← Exec.ofExcept (shapeOf (p.typeOf v))
  let r ← Exec.alloc (← Exec.ofExcept (Tensor.make shape source.data))
  return (v, .ref r) :: env

def runExpand (env : Env) (i : OpId) : Exec Env := do
  let source ← lookupRef p env (← operandAt p i 0)
  let v ← resultAt p i 0
  let shape ← Exec.ofExcept (shapeOf (p.typeOf v))
  let r ← Exec.view source shape.dims
  return (v, .ref r) :: env

def runWorkgroup (env : Env) (i : OpId) : Exec Env := do
  let v ← resultAt p i 0
  match p.typeOf v with
  | .workgroup extents => return (v, .workgroup extents) :: env
  | _ => Exec.crash

def runAlloc (env : Env) (i : OpId) : Exec Env := do
  let v ← resultAt p i 0
  match p.typeOf v with
  | .buffer shape _ _ =>
    let extents ← lookupWorkgroup p env (← operandAt p i 0)
    let n ← Exec.ofExcept (checkLength (Workgroup.workers extents))
    let workers ← (List.range n).mapM fun _ => do Exec.alloc (← Exec.ofExcept (Tensor.zeros shape))
    return (v, .buffer workers) :: env
  | _ => Exec.crash

def mapOf (i : OpId) (attr : String) : Affine.Map :=
  (((p.op i).attr? attr).bind Attr.map?).getD { dims := 0, results := [] }

def stopTransfer {α : Type} : Stop TransferError → Exec α
  | .error e => Exec.fail (.transfer e)
  | .fault e => throw (.fault e)

def runScatter (env : Env) (i : OpId) : Exec Env := do
  let workers ← lookupBuffer p env (← operandAt p i 1)
  let extents ← lookupWorkgroup p env (← operandAt p i 2)
  let t ← Exec.load (← lookupRef p env (← operandAt p i 0))
  let buffers ← workers.mapM Exec.load
  let (buffers, stop) := Transfer.scatter t extents (mapOf p i Workgroup.scatterMapAttr) buffers.toArray
  (workers.zip buffers.toList).forM fun (r, b) => Exec.store r b.data
  match stop with
  | some e => stopTransfer e
  | none => return env

def runGather (env : Env) (i : OpId) : Exec Env := do
  let workers ← lookupBuffer p env (← operandAt p i 0)
  let extents ← lookupWorkgroup p env (← operandAt p i 1)
  let v ← resultAt p i 0
  let shape ← Exec.ofExcept (shapeOf (p.typeOf v))
  let buffers ← workers.mapM Exec.load
  match Transfer.gather buffers.toArray shape extents (mapOf p i Workgroup.gatherMapAttr) with
  | .error e => stopTransfer e
  | .ok t =>
    let r ← Exec.alloc t
    let order ← resultAt p i 1
    return (order, .token) :: (v, .ref r) :: env

/-! ## Reductions -/

abbrev RunBody := Env → BlockId → Exec (List Datum)

/-- The references to the accumulators: the inits themselves, or copies of them. -/
def accumulatorOf (copied : Bool) (r : Ref) : Exec Ref := if copied then Exec.clone r else return r

def keptIndices (axes indices : List Int) : List Int :=
  (indices.zipIdx.filter fun (_, axis) => !axes.contains (axis : Int)).map Prod.fst

def loadScalars (place : Int) : List (Ref × Ref) → Exec Unit
  | [] => return
  | (source, scalar) :: rest => do
    Exec.setElement scalar 0 (← Exec.element source place)
    loadScalars place rest

def storeAccumulators (place : Int) : List Ref → List Datum → Exec Unit
  | [], _ => return
  | acc :: rest, .ref r :: yielded => do
    let x ← Exec.element r 0
    Exec.setElement acc place (acc.shape.element.round x)
    storeAccumulators place rest yielded
  | _ :: _, _ => Exec.crash

structure Reduce where
  inputs : List Ref
  accumulators : List Ref
  scalars : List Ref
  axes : List Int
  body : BlockId

def Reduce.bind (r : Reduce) (env : Env) : Env :=
  let args := (p.block r.body).args.zip (r.scalars.map Datum.ref)
  (args.take (r.inputs.length + r.accumulators.length)).reverse ++ env

def Reduce.step (r : Reduce) (run : RunBody) (env : Env) (flat : Nat) (indices : List Int) : Exec Unit := do
  match r.accumulators.head? with
  | none => Exec.crash
  | some acc =>
    let place ← Exec.ofExcept (Fault.ofShape (acc.shape.linearIndex (keptIndices r.axes indices)))
    if r.scalars.length < r.inputs.length + r.accumulators.length then Exec.crash
    loadScalars flat (r.inputs.zip r.scalars)
    loadScalars place (r.accumulators.zip (r.scalars.drop r.inputs.length))
    storeAccumulators place r.accumulators (← run (r.bind p env) r.body)

def Reduce.steps (r : Reduce) (run : RunBody) (env : Env) : List (Nat × List Int) → Exec Unit
  | [] => return
  | (flat, indices) :: rest => do
    r.step p run env flat indices
    r.steps run env rest

def runReduce (run : RunBody) (env : Env) (i : OpId) : Exec Env := do
  let inputs ← (← Exec.ofExcept (Reduction.inputs p i)).mapM (lookupRef p env)
  let inits ← Exec.ofExcept (Reduction.inits p i)
  let accumulators ← inits.mapM fun s => do
    let r ← lookupRef p env s
    accumulatorOf (← Exec.ofExcept (Reduction.onTensors p i)) r
  match inputs.head? with
  | none => Exec.crash
  | some input =>
    match ← Exec.ofExcept (Reduction.body? p i) with
    | none => Exec.crash
    | some body =>
      let scalars ← (p.block body).args.mapM fun v => do
        let shape ← Exec.ofExcept (shapeOf (p.typeOf v))
        Exec.alloc (← Exec.ofExcept (Tensor.zeros shape))
      let r : Reduce := { inputs, accumulators, scalars, axes := Reduction.dimensions p i, body }
      r.steps p run env input.shape.indices
      if ← Exec.ofExcept (Reduction.onTensors p i) then
        let results := (p.op i).results
        if accumulators.length < results.length then Exec.crash
        return (results.zip (accumulators.map Datum.ref)).reverse ++ env
      else return env

/-! ## Launches -/

def workerEnv (worker : Nat) : List ValueId → List (List Ref) → Except Fault Env
  | [], _ => .ok []
  | v :: args, buffer :: buffers => do
    match buffer[worker]? with
    | some r => return (v, .ref r) :: (← workerEnv worker args buffers)
    | none => throw .crash
  | _ :: _, [] => .error .crash

/-- Errors and faults of a worker are told to those who wait for it, unless they wait forever. -/
def runWorker (run : RunBody) (env : Env) (body : BlockId) (worker : Nat) : Exec (Option RunError) := fun s =>
  match run env body s with
  | .ok _ s => .ok none s
  | .error (.error e) s => .ok (some (.worker worker e)) s
  | .error (.fault .stuck) s => .error (.fault .stuck) s
  | .error (.fault e) s => .ok (some (.workerFault worker e)) s

def launchWorker (run : RunBody) (body : BlockId) (buffers : List (List Ref)) (worker : Nat) :
    Exec (Option RunError) := do
  let env ← Exec.ofExcept (workerEnv worker (p.block body).args buffers)
  runWorker run env body worker

/-- The number of workers, their body and their buffers. -/
def launchParts (env : Env) (i : OpId) : Exec (Nat × BlockId × List (List Ref)) := do
  let extents ← lookupWorkgroup p env (← operandAt p i 0)
  let buffers ← ((p.op i).operands.drop 1).mapM (lookupBuffer p env)
  match (p.op i).regions with
  | [] => Exec.crash
  | blocks :: _ =>
    let n ← Exec.ofExcept (checkLength (Workgroup.workers extents))
    match blocks.head? with
    | none => Exec.crash
    | some body => return (n, body, buffers)

def runWorkers (pool : Pool) (kept : Nat) (order : List Nat) (run : RunBody) (env : Env) (body : BlockId)
    (buffers : List (List Ref)) : Exec Env := do
  match ← pool.forEach kept order (launchWorker p run body buffers) with
  | none => throw (.fault .stuck)
  | some (some e) => Exec.fail e
  | some none => return env

def runLaunch (run : RunBody) (env : Env) (i : OpId) : Exec Env := do
  let (n, body, buffers) ← launchParts p env i
  runWorkers p .sequential 0 (List.range n) run env body buffers

/-! ## Blocks and functions -/

def runners : List (String × (RunBody → Env → OpId → Exec Env)) :=
  [(Arith.constantName, fun _ => runConstant p),
    (Views.reshapeName, fun _ => runReshape p),
    (Views.expandName, fun _ => runExpand p),
    (Reduction.reduceName, runReduce p),
    (Workgroup.workgroupName, fun _ => runWorkgroup p),
    (Workgroup.allocName, fun _ => runAlloc p),
    (Workgroup.scatterName, fun _ => runScatter p),
    (Workgroup.gatherName, fun _ => runGather p),
    (Workgroup.launchName, runLaunch p)]

def runOp (run : RunBody) (env : Env) (i : OpId) : Exec Env :=
  let name := (p.op i).name
  match Arith.Binary.ofName? name with
  | some b => runBinary p b env i
  | none =>
    match (runners p).lookup name with
    | some runner => runner run env i
    | none => Exec.fail (.unsupported name)

def withContext {α : Type} (i : OpId) (x : Exec α) : Exec α := fun s =>
  match x s with
  | .error (.error e) s => .error (.error (.executing (p.op i).name (p.op i).loc e)) s
  | result => result

def runOps (r : Registry) (run : RunBody) : Env → List OpId → Exec (List Datum)
  | _, [] => return []
  | env, i :: rest => do
    if r.isTerminator (p.op i) then (p.op i).operands.mapM (lookup p env)
    else
      let env ← withContext p i (runOp p run env i)
      runOps r run env rest

def runBlock (r : Registry) : Nat → RunBody
  | 0, _, _ => Exec.crash
  | depth + 1, env, b => runOps p r (runBlock r depth) env (p.block b).ops

inductive CallError where
  | notFound (name : String)
  | argumentCount (name : String) (wanted given : Nat)
  | argumentShape (index : Nat) (name : String) (given wanted : Shape)
  | returnKind (name : String) (kind : String)
  | run (cause : RunError)
  | fault (name : String) (cause : Fault)

namespace CallError

def message : CallError → String
  | notFound name => "interp: function " ++ Text.quote name ++ " not found"
  | argumentCount name wanted given =>
    "interp: function " ++ Text.quote name ++ " takes " ++ toString wanted ++ " arguments, got " ++
      toString given
  | argumentShape i name given wanted =>
    "interp: argument #" ++ toString i ++ " of " ++ Text.quote name ++ " has shape " ++ given.render ++
      ", wanted " ++ wanted.render
  | returnKind name kind =>
    "interp: function " ++ Text.quote name ++ " returns a " ++ kind ++ ", only tensors can be returned"
  | run cause => cause.message
  | fault name cause => "interp: calling " ++ Text.quote name ++ ": " ++ cause.message

def isUnsupported : CallError → Bool
  | run cause => cause.isUnsupported
  | _ => false

def isCrash : CallError → Bool
  | run cause => cause.isCrash
  | fault _ cause => cause.isCrash
  | _ => false

end CallError

def wrongShape? : Nat → List (ValueId × Ref) → Option (Nat × Shape × Shape)
  | _, [] => none
  | index, (param, arg) :: rest =>
    match (p.typeOf param).shape? with
    | some wanted =>
      if wanted = arg.shape then wrongShape? (index + 1) rest else some (index, arg.shape, wanted)
    | none => wrongShape? (index + 1) rest

def returned (name : String) : List Datum → List Ref × Option CallError
  | [] => ([], none)
  | .ref r :: rest =>
    let (refs, e) := returned name rest
    (r :: refs, e)
  | d :: _ => ([], some (.returnKind name d.kind))

structure CallOutcome where
  results : List Ref
  error : Option CallError
  store : Store

def entryEnv (body : BlockId) (args : List Ref) : Env := ((p.block body).args.zip (args.map Datum.ref)).reverse

def outcomeOf (name : String) : EStateM.Result (Stop RunError) Store (List Datum) → CallOutcome
  | .ok data s => ⟨(returned name data).1, (returned name data).2, s⟩
  | .error (.error e) s => ⟨[], some (.run e), s⟩
  | .error (.fault e) s => ⟨[], some (.fault name e), s⟩

/-- Calls a function whose body is run in the given way. -/
def callWith (run : RunBody) (module : OpId) (name : String) (args : List Ref) (s : Store) :
    Except Fault CallOutcome :=
  match Functions.lookup? p module name with
  | none => .error .crash
  | some none => .ok ⟨[], some (.notFound name), s⟩
  | some (some f) =>
    match p.entryBlock? f 0 with
    | none => .error .crash
    | some body =>
      let params := (p.block body).args
      if args.length ≠ params.length then .ok ⟨[], some (.argumentCount name params.length args.length), s⟩
      else
        match wrongShape? p 0 (params.zip args) with
        | some (i, given, wanted) => .ok ⟨[], some (.argumentShape i name given wanted), s⟩
        | none => .ok (outcomeOf name (run (entryEnv p body args) body s))

def call (r : Registry) (module : OpId) (name : String) (args : List Ref) (s : Store) : Except Fault CallOutcome :=
  callWith p (runBlock p r (p.ops.size + 1)) module name args s

end

end Offload.Execution
