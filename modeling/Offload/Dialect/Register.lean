import Offload.IR.Builder
import Offload.IR.Registry

/-!
# Registers of qubits

Registers are values: a gate takes a register and gives the register after the gate. Registers can be
split and merged, and single qubits entangled and measured.
-/

namespace Offload.Register

def dialect : String := "quantum"
def allocName : String := "quantum.alloc"
def deallocName : String := "quantum.dealloc"
def splitName : String := "quantum.split"
def mergeName : String := "quantum.merge"
def cnotName : String := "quantum.cnot"
def measureName : String := "quantum.measure"

def thetaAttr : String := "theta"

def plainGates : List String := ["h", "x", "y", "z", "s", "t", "sdg", "tdg"]

def rotations : List String := ["rx", "ry", "rz"]

def gates : List String := plainGates ++ rotations

def phaseGates : List String := ["s", "sdg", "t", "tdg", "z"]

def gateName (gate : String) : String := "quantum." ++ gate

def gate? (name : String) : Option String := gates.find? fun g => gateName g = name

def type (size : Int) : Except Fault Ty :=
  if size ≤ 0 then .error (.registerSize size) else .ok (.register size)

/-! ## Checking -/

inductive Side where
  | operand
  | result
  deriving DecidableEq, Repr

def Side.name : Side → String
  | operand => "operand"
  | result => "result"

inductive Flaw where
  | allocArity
  | deallocArity
  | splitArity
  | mergeArity
  | gateArity
  | cnotArity
  | measureArity
  | notARegister (side : Side) (index : Nat) (type : Ty)
  | splitSize (total size : Int)
  | mergeSize (size total : Int)
  | gateType (result operand : Ty)
  | angle
  | cnotSize (type : Ty)
  | measureSize (type : Ty)
  | measureBit (type : Ty)
  deriving DecidableEq, Repr

def Flaw.message : Flaw → String
  | allocArity => "alloc takes no operands and has one result"
  | deallocArity => "dealloc takes one register and has no results"
  | splitArity => "split takes one register and has at least one result"
  | mergeArity => "merge takes at least one register and has one result"
  | gateArity => "gates take one register and have one result"
  | cnotArity => "cnot takes a control and a target qubit, and has two results"
  | measureArity => "measure takes one qubit and has two results"
  | notARegister side i t =>
    side.name ++ " #" ++ toString i ++ " must be a qubit register, got " ++ t.render
  | splitSize total size =>
    "split results add up to " ++ toString total ++ " qubits, but the input has " ++ toString size
  | mergeSize size total =>
    "merge result has " ++ toString size ++ " qubits, but the inputs add up to " ++ toString total
  | gateType result operand =>
    "gate result " ++ result.render ++ " doesn't match its input " ++ operand.render
  | angle => "\"theta\" attribute is required on rotations and only on rotations"
  | cnotSize t => "cnot works on single qubits, got " ++ t.render
  | measureSize t => "measure works on a single qubit, got " ++ t.render
  | measureBit t => "measure result must be i1, got " ++ t.render

def totalQubits (ts : List Ty) : Int := ts.foldl (fun n t => Word.add n t.qubits) 0

def checkRegisters (side : Side) (ts : List Ty) : Except Flaw Unit :=
  match ts.zipIdx.find? fun (t, _) => t.qubits = 0 with
  | some (t, i) => .error (.notARegister side i t)
  | none => .ok ()

section Checks

variable (p : Program) (i : OpId)

def operands : List Ty := (p.op i).operands.filterMap p.slotType?

def checkAlloc : Except Flaw Unit :=
  match operands p i, p.resultTypes i with
  | [], [t] => checkRegisters .result [t]
  | _, _ => .error .allocArity

def checkDealloc : Except Flaw Unit :=
  match operands p i, p.resultTypes i with
  | [t], [] => checkRegisters .operand [t]
  | _, _ => .error .deallocArity

def checkSplit : Except Flaw Unit :=
  match operands p i, p.resultTypes i with
  | [t], u :: us => do
    checkRegisters .result (u :: us)
    unless totalQubits (u :: us) = t.qubits do throw (.splitSize (totalQubits (u :: us)) t.qubits)
  | _, _ => .error .splitArity

def checkMerge : Except Flaw Unit :=
  match operands p i, p.resultTypes i with
  | t :: ts, [u] => do
    checkRegisters .operand (t :: ts)
    unless totalQubits (t :: ts) = u.qubits do throw (.mergeSize u.qubits (totalQubits (t :: ts)))
  | _, _ => .error .mergeArity

def checkGate : Except Flaw Unit :=
  match operands p i, p.resultTypes i with
  | [t], [u] => do
    checkRegisters .operand [t]
    unless t = u do throw (.gateType u t)
    let o := p.op i
    let rotation := (gate? o.name).any rotations.contains
    unless ((o.attr? thetaAttr).bind Attr.float?).isSome = rotation do throw .angle
  | _, _ => .error .gateArity

def checkCnot : Except Flaw Unit :=
  match operands p i, p.resultTypes i with
  | [c, t], [c', t'] =>
    match [c, t, c', t'].find? fun u => u.qubits ≠ 1 with
    | some u => .error (.cnotSize u)
    | none => .ok ()
  | _, _ => .error .cnotArity

def checkMeasure : Except Flaw Unit :=
  match operands p i, p.resultTypes i with
  | [q], [bit, q'] =>
    if q.qubits ≠ 1 ∨ q'.qubits ≠ 1 then .error (.measureSize q)
    else if bit ≠ .scalar .bool then .error (.measureBit bit)
    else .ok ()
  | _, _ => .error .measureArity

end Checks

def kind (name : String) (check : Program → OpId → Except Flaw Unit) : OpInfo :=
  { name, check := fun p i => (check p i).mapError (.violation ·.message) }

def registry : Registry :=
  [kind allocName checkAlloc, kind deallocName checkDealloc, kind splitName checkSplit,
    kind mergeName checkMerge, kind cnotName checkCnot, kind measureName checkMeasure] ++
  gates.map fun g => kind (gateName g) checkGate

/-! ## Building -/

def alloc (size : Int) : Build ValueId := do
  let t ← type size
  Build.createValue { name := allocName, results := [some t] }

def dealloc (q : Slot) : Build OpId := Build.create { name := deallocName, operands := [q] }

def split (q : Slot) (sizes : List Int) : Build (List ValueId) := do
  let ts ← (sizes.mapM type : Except Fault (List Ty))
  let i ← Build.create { name := splitName, operands := [q], results := ts.map some }
  return (← Edit.getOp i).results

def merge (qs : List Slot) : Build ValueId := do
  let t ← type (totalQubits (← qs.mapM Build.typeOf))
  Build.createValue { name := mergeName, operands := qs, results := [some t] }

def applyGate (gate : String) (q : Slot) : Build ValueId := do
  unless plainGates.contains gate do throw (.registerGate gate)
  let t ← Build.typeOf q
  Build.createValue { name := gateName gate, operands := [q], results := [some t] }

def rotate (gate : String) (q : Slot) (theta : Float) : Build ValueId := do
  unless rotations.contains gate do throw (.registerRotation gate)
  let t ← Build.typeOf q
  Build.createValue {
    name := gateName gate
    operands := [q]
    results := [some t]
    attrs := [(thetaAttr, .float theta)] }

def cnot (control target : Slot) : Build OpId :=
  Build.create {
    name := cnotName
    operands := [control, target]
    results := [some (.register 1), some (.register 1)] }

def measure (q : Slot) : Build OpId :=
  Build.create {
    name := measureName
    operands := [q]
    results := [some (.scalar .bool), some (.register 1)] }

end Offload.Register
