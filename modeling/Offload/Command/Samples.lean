import Offload.Execution.Run
import Offload.Pass.Registered

/-!
# Sample programs

Small programs to try the passes on, and arguments to run them with.
-/

namespace Offload.Command

structure Sample where
  name : String
  description : String
  pipeline : String
  build : Int → Int → ElementType → Build OpId
  executable : Bool

def mainName : String := "main"

def singleFunction (inputs results : List Ty) (loc : String) (body : List ValueId → Build Unit) :
    Build OpId := do
  let root ← Build.edit Functions.newModule
  let (_, entry) ← Build.edit (Functions.addFunc root mainName inputs results)
  Build.setLoc loc
  Build.toEnd entry
  body (← Edit.getBlock entry).args
  return root

def tensorType (element : ElementType) (dims : List Int) : Build Ty := do
  return .tensor (← Fault.ofShape (Shape.make element dims))

def reduceRows (inputs inits : List ValueId) (body : List ValueId → Build (List Slot)) : Build Unit := do
  let reduce ← Reduction.reduce (inputs.map some) (inits.map some) [1] (some body)
  discard (Functions.ret ((← Edit.getOp reduce).results.map some))

def buildReduce (rows cols : Int) (element : ElementType) : Build OpId := do
  let input ← tensorType element [rows, cols]
  let init ← tensorType element [rows]
  singleFunction [input, init] [init] "reduce:1" fun params =>
    reduceRows (params.take 1) (params.drop 1) fun
      | [x, acc] => do return [some (← Arith.binary .addf (some x) (some acc))]
      | _ => throw .crash

def buildMatVec (rows cols : Int) (element : ElementType) : Build OpId := do
  let matrix ← tensorType element [rows, cols]
  let init ← tensorType element [rows]
  singleFunction [matrix, matrix, init] [init] "matvec:1" fun params =>
    reduceRows (params.take 2) (params.drop 2) fun
      | [x, y, acc] => do
        let product ← Arith.binary .mulf (some x) (some y)
        return [some (← Arith.binary .addf (some acc) (some product))]
      | _ => throw .crash

def buildQubits (_ _ : Int) (_ : ElementType) : Build OpId :=
  singleFunction [] [.scalar .bool] "qubits:1" fun _ => do
    match ← Register.split (some (← Register.alloc 3)) [1, 1, 1] with
    | [a, b, c] =>
      let control ← Register.applyGate "h" (some a)
      let rotated ← Register.rotate "ry" (some b) 0.25
      let measurement ← Register.measure (some (← Register.applyGate "t" (some rotated)))
      let cnot ← Register.cnot (some control) (some c)
      let merged ← Register.merge
        [some (← Build.resultOf cnot 0), some (← Build.resultOf measurement 1), some (← Build.resultOf cnot 1)]
      discard (Register.dealloc (some merged))
      discard (Functions.ret [some (← Build.resultOf measurement 0)])
    | _ => throw .crash

def samples : List Sample :=
  [{ name := "matvec"
     description := "matrix-vector product, the vector broadcast to the rows of the matrix"
     pipeline := Distribution.passName
     build := buildMatVec
     executable := true },
   { name := "qubits"
     description := "3-qubit circuit with a measurement"
     pipeline := Qubits.phaseGatesName ++ "," ++ Qubits.loweringName
     build := buildQubits
     executable := false },
   { name := "reduce"
     description := "sum of the rows of a matrix"
     pipeline := Distribution.passName
     build := buildReduce
     executable := true }]

def sample? (name : String) : Option Sample := samples.find? (·.name = name)

def Sample.program (s : Sample) (rows cols : Int) (element : ElementType) : Except Fault (Program × OpId) :=
  match s.build rows cols element { program := {} } with
  | .ok root built => .ok (built.program, root)
  | .error e _ => .error e

/-! ## Arguments -/

def sampleInput (index : Nat) (t : Ty) : Except Fault Tensor :=
  match t.shape? with
  | none => .error .crash
  | some shape => do
    let n ← checkLength shape.size
    Tensor.make shape ((Array.range n).map fun j => Float.ofInt ((j * (index + 3) % 11 : Nat) - 5))

def sampleInputs (p : Program) (root : OpId) : Except Fault (List Tensor) :=
  match (Functions.lookup? p root mainName).join.bind fun f => Functions.signature? (p.op f) with
  | none => .error .crash
  | some (inputs, _) => inputs.zipIdx.mapM fun (t, i) => sampleInput i t

end Offload.Command
