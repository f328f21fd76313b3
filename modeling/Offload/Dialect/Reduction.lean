import Offload.IR.Builder
import Offload.IR.Registry

/-!
# Reductions

A reduction combines the elements of its inputs along the listed axes into accumulators, which start with
the elements of its inits. The body takes one scalar for each input and each init and yields the new
accumulators. On tensors there is one result for each init; on memory the inits are updated in place.
-/

namespace Offload.Reduction

def reduceName : String := "linalg.reduce"
def yieldName : String := "linalg.yield"
def dimensionsAttr : String := "dimensions"
def segmentsAttr : String := "operand_segment_sizes"

def elementOf (t : Ty) : Except Fault ElementType :=
  match t.element? with
  | some e => .ok e
  | none => .error (.noElementType t)

/-! ## Looking at a reduction -/

section View

variable (p : Program) (i : OpId)

def segments : Except Fault (Int × Int) :=
  match ((p.op i).attr? segmentsAttr).bind Attr.ints? with
  | some [inputs, inits] => .ok (inputs, inits)
  | _ => .error (.segments (p.op i).loc)

def inputCount : Except Fault Nat := do
  let (n, _) ← segments p i
  if 0 ≤ n ∧ n ≤ (p.op i).operands.length then return n.toNat else throw .crash

def inputs : Except Fault (List Slot) := return (p.op i).operands.take (← inputCount p i)

def inits : Except Fault (List Slot) := return (p.op i).operands.drop (← inputCount p i)

def dimensions : List Int := (((p.op i).attr? dimensionsAttr).bind Attr.ints?).getD []

/-- Whether all operands are tensors. No slot may be empty before the first that is not. -/
def onTensors : Except Fault Bool :=
  go ((p.op i).operands.map p.slotType?)
where
  go : List (Option Ty) → Except Fault Bool
    | [] => .ok true
    | none :: _ => .error .crash
    | some t :: rest => if t.isTensor then go rest else .ok false

def body? : Except Fault (Option BlockId) :=
  match (p.op i).regions with
  | [] => .error .crash
  | blocks :: _ => .ok blocks.head?

structure Operands where
  inputs : List Ty
  inits : List Ty
  onTensors : Bool
  deriving DecidableEq, Repr

def operandsAt : Except Fault Operands := do
  match p.typesOf? (← inputs p i), p.typesOf? (← inits p i) with
  | some inputs, some inits => return { inputs, inits, onTensors := ← onTensors p i }
  | _, _ => throw .crash

end View

/-! ## Checking -/

inductive Flaw where
  | segments (given : List Int) (operands : Nat)
  | noDimensions
  | operandType (index : Nat) (type : Ty)
  | inputShape (index : Nat) (shape : Shape) (dims : List Int)
  | dimensions (given : List Int) (rank : Nat)
  | initShape (index : Nat) (shape : Shape) (kept reduced : List Int) (input : Shape)
  | resultCount (wanted given : Nat)
  | resultType (index : Nat) (result init : Ty)
  | resultsOnMemory (given : Nat)
  | bodyArguments (wanted : Nat)
  | bodyEnd (wanted : Nat)
  | outsideReduction
  deriving DecidableEq, Repr

def Flaw.message : Flaw → String
  | segments given operands =>
    "invalid \"operand_segment_sizes\" attribute " ++ renderInts given ++ " for " ++ toString operands ++
      " operands"
  | noDimensions => "missing \"dimensions\" attribute"
  | operandType i t => "operand #" ++ toString i ++ " has non-shaped type " ++ t.render
  | inputShape i s dims =>
    "input #" ++ toString i ++ " has shape " ++ s.render ++ ", expected dimensions " ++ renderInts dims
  | dimensions given rank =>
    "dimensions " ++ renderInts given ++ " must be sorted, unique and within the input rank " ++ toString rank
  | initShape i s kept reduced input =>
    "init #" ++ toString i ++ " has shape " ++ s.render ++ ", expected dimensions " ++ renderInts kept ++
      " after reducing " ++ renderInts reduced ++ " of " ++ input.render
  | resultCount wanted given =>
    "reduce on tensors must have " ++ toString wanted ++ " results, got " ++ toString given
  | resultType i result init =>
    "result #" ++ toString i ++ " has type " ++ result.render ++ ", but its init has type " ++ init.render
  | resultsOnMemory given => "reduce on memrefs can't have results, got " ++ toString given
  | bodyArguments wanted => "body must take " ++ toString wanted ++ " arguments"
  | bodyEnd wanted => "body must end with a linalg.yield of " ++ toString wanted ++ " values"
  | outsideReduction => "linalg.yield must be nested directly in a linalg.reduce"

def axesFit (rank : Nat) : Option Int → List Int → Bool
  | _, [] => true
  | previous, d :: rest => 0 ≤ d && d < rank && previous.all (· < d) && axesFit rank (some d) rest

def keptDims (dims axes : List Int) : List Int :=
  (dims.zipIdx.filter fun (_, axis) => !axes.contains (axis : Int)).map Prod.fst

def operandShapes : Nat → List Ty → Except Flaw (List Shape)
  | _, [] => .ok []
  | i, t :: rest =>
    match t.shape? with
    | none => .error (.operandType i t)
    | some s => do return s :: (← operandShapes (i + 1) rest)

def rejectFirst {α : Type} (test : α → Bool) (flaw : Nat → α → Flaw) (xs : List α) : Except Flaw Unit :=
  match xs.zipIdx.find? fun (x, _) => !test x with
  | some (x, i) => .error (flaw i x)
  | none => .ok ()

section Checks

variable (p : Program) (i : OpId)

def checkTypes (operands results : List Ty) (inputCount : Nat) (axes : List Int) : Except Flaw Unit := do
  let shapes ← operandShapes 0 operands
  let inits := operands.drop inputCount
  let input := shapes.headD default
  rejectFirst (fun s => s.dims = input.dims) (fun i s => .inputShape i s input.dims) (shapes.take inputCount)
  unless axesFit input.rank none axes do throw (.dimensions axes input.rank)
  let kept := keptDims input.dims axes
  rejectFirst (fun s => s.dims = kept) (fun i s => .initShape i s kept axes input) (shapes.drop inputCount)
  if operands.all Ty.isTensor then
    unless results.length = inits.length do throw (.resultCount inits.length results.length)
    rejectFirst (fun (t, u) => t = u) (fun i (t, u) => .resultType i t u) (results.zip inits)
  else unless results.isEmpty do throw (.resultsOnMemory results.length)

def checkReduce : Except (Option Flaw) Unit := do
  let o := p.op i
  let operands := o.operands.filterMap p.slotType?
  let given := ((o.attr? segmentsAttr).bind Attr.ints?).getD []
  let inputCount ← match given with
    | [m, n] =>
      if 1 ≤ m ∧ 1 ≤ n ∧ Word.add m n = operands.length then pure m.toNat
      else throw (some (.segments given operands.length))
    | _ => throw (some (.segments given operands.length))
  match (o.attr? dimensionsAttr).bind Attr.ints? with
  | none => throw (some .noDimensions)
  | some axes =>
    (checkTypes operands (p.resultTypes i) inputCount axes).mapError some
    match o.regions with
    | [] => throw none
    | blocks :: _ =>
      let initCount := operands.length - inputCount
      match blocks.head? with
      | none => throw (some (.bodyArguments operands.length))
      | some b =>
        unless (p.block b).args.length = operands.length do throw (some (.bodyArguments operands.length))
        match (p.last? b).map p.op with
        | some last =>
          unless last.name = yieldName ∧ last.operands.length = initCount do throw (some (.bodyEnd initCount))
        | none => throw (some (.bodyEnd initCount))

def checkYield : Except Flaw Unit :=
  match (p.parent? i).map p.op with
  | some o => if o.name = reduceName then .ok () else .error .outsideReduction
  | none => .error .outsideReduction

end Checks

def registry : Registry :=
  [{ name := reduceName
     check := fun p i => (checkReduce p i).mapError (.of Flaw.message) },
   { name := yieldName, traits := { terminator := true }
     check := fun p i => (checkYield p i).mapError (.violation ·.message) }]

/-! ## Building -/

def yield (values : List Slot) : Build OpId := Build.create { name := yieldName, operands := values }

def resultTypesOf : List Slot → Build (List Ty)
  | [] => return []
  | s :: rest => do
    let t ← Build.typeOf s
    let ts ← resultTypesOf rest
    return if t.isTensor then t :: ts else ts

def argumentTypes : List Slot → Build (List Ty)
  | [] => return []
  | s :: rest => do
    let e ← elementOf (← Build.typeOf s)
    return .scalar e :: (← argumentTypes rest)

/-- A new reduction. The body builds the values to yield from the block arguments; without one the region
stays empty. -/
def reduce (inputs inits : List Slot) (axes : List Int) (body : Option (List ValueId → Build (List Slot))) :
    Build OpId := do
  let results ← resultTypesOf inits
  let i ← Build.create {
    name := reduceName
    operands := inputs ++ inits
    results := results.map some
    attrs := [(dimensionsAttr, .ints axes), (segmentsAttr, .ints [inputs.length, inits.length])]
    regions := 1 }
  match body with
  | none => return i
  | some body =>
    let args ← argumentTypes (inputs ++ inits)
    let b ← Edit.newBlock i 0 (args.map some)
    let loc := (← get).builder.loc
    Build.elsewhere { block := some b, loc } do
      let values ← body (← Edit.getBlock b).args
      discard (yield values)
    return i

end Offload.Reduction
