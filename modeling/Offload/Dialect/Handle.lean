import Offload.Dialect.Register

/-!
# Handles to physical qubits

Here a qubit is a handle, and gates act on it in place. A measurement goes to a place of its own, from
which the bit is read.
-/

namespace Offload.Handle

def dialect : String := "qir"
def allocName : String := "qir.alloc"
def outcomeAllocName : String := "qir.result_alloc"
def cnotName : String := "qir.cnot"
def measureName : String := "qir.measure"
def readName : String := "qir.read_measurement"
def releaseName : String := "qir.release"

def gateName (gate : String) : String := "qir." ++ gate

inductive Flaw where
  | allocation (name : String) (type : Ty)
  | arity (name : String) (operands : Nat)
  | operandType (name : String) (index : Nat) (wanted given : Ty)
  | readArity
  | readBit (type : Ty)
  deriving DecidableEq, Repr

def Flaw.message : Flaw → String
  | allocation name t => name ++ " takes no operands and returns a " ++ t.render
  | arity name n => name ++ " takes " ++ toString n ++ " operands and has no results"
  | operandType name i wanted given =>
    name ++ " operand #" ++ toString i ++ " must be " ++ wanted.render ++ ", got " ++ given.render
  | readArity => "read_measurement takes a result handle and returns an i1"
  | readBit t => "read_measurement must return i1, got " ++ t.render

section Checks

variable (p : Program) (i : OpId)

def operands : List Ty := (p.op i).operands.filterMap p.slotType?

def checkAllocation (t : Ty) : Except Flaw Unit :=
  if operands p i = [] ∧ p.resultTypes i = [t] then .ok () else .error (.allocation (p.op i).name t)

def checkOperands (wanted : List Ty) : Except Flaw Unit :=
  let o := p.op i
  let given := operands p i
  if o.results ≠ [] ∨ given.length ≠ wanted.length then .error (.arity o.name wanted.length)
  else
    match (wanted.zip given).zipIdx.find? fun ((t, u), _) => t ≠ u with
    | some ((t, u), index) => .error (.operandType o.name index t u)
    | none => .ok ()

def checkRead : Except Flaw Unit :=
  match operands p i, p.resultTypes i with
  | [.outcome], [t] => if t = .scalar .bool then .ok () else .error (.readBit t)
  | _, _ => .error .readArity

end Checks

def handleKind (name : String) (check : Program → OpId → Except Flaw Unit) : OpInfo :=
  { name, check := fun p i => (check p i).mapError (.violation ·.message) }

def registry : Registry :=
  [handleKind allocName (checkAllocation · · .qubit),
    handleKind outcomeAllocName (checkAllocation · · .outcome),
    handleKind cnotName (checkOperands · · [.qubit, .qubit]),
    handleKind measureName (checkOperands · · [.qubit, .outcome]),
    handleKind readName checkRead,
    handleKind releaseName (checkOperands · · [.qubit])] ++
  Register.gates.map fun g => handleKind (gateName g) (checkOperands · · [.qubit])

/-! ## Building -/

def alloc : Build ValueId := Build.createValue { name := allocName, results := [some .qubit] }

def allocOutcome : Build ValueId := Build.createValue { name := outcomeAllocName, results := [some .outcome] }

def applyGate (gate : String) (q : Slot) (attrs : List (String × Attr)) : Build OpId := do
  unless Register.gates.contains gate do throw (.qubitGate gate)
  Build.create { name := gateName gate, operands := [q], attrs }

def cnot (control target : Slot) : Build OpId :=
  Build.create { name := cnotName, operands := [control, target] }

def measure (q outcome : Slot) : Build OpId :=
  Build.create { name := measureName, operands := [q, outcome] }

def read (outcome : Slot) : Build ValueId :=
  Build.createValue { name := readName, operands := [outcome], results := [some (.scalar .bool)] }

def release (q : Slot) : Build OpId := Build.create { name := releaseName, operands := [q] }

end Offload.Handle
