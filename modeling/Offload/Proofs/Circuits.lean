import Offload.Dialect.Handle
import Offload.Proofs.Updates

/-!
# What a program on registers does

A reference semantics: registers are lists of abstract qubits, and running an operation gives the events that
happen to them. A naming of qubits, outcomes and bits by values turns events into operations on handles.
-/

namespace Offload.Qubits

inductive Event where
  | alloc (qubit : Nat)
  | gate (name : String) (attrs : List (String × Attr)) (qubit : Nat)
  | cnot (control target : Nat)
  | measure (qubit outcome : Nat)
  | release (qubit : Nat)

def isQuantum (o : Op) : Bool := o.dialect = Register.dialect

structure Machine where
  registers : ValueId → Option (List Nat) := fun _ => none
  qubits : Nat := 0
  bits : List ValueId := []

namespace Machine

def bind (m : Machine) (v : ValueId) (qs : List Nat) : Machine :=
  { m with registers := fun w => if w = v then some qs else m.registers w }

def bindAll (m : Machine) : List (ValueId × List Nat) → Machine
  | [] => m
  | (v, qs) :: rest => (m.bind v qs).bindAll rest

def slot (m : Machine) (s : Slot) : Option (List Nat) := Option.bind s m.registers

def operand (m : Machine) (o : Op) (index : Nat) : Option (List Nat) := o.operands[index]?.bind m.slot

def cut (qs : List Nat) : List Int → Option (List (List Nat))
  | [] => some []
  | n :: ns =>
    if 0 ≤ n ∧ n ≤ qs.length then do return qs.take n.toNat :: (← cut (qs.drop n.toNat) ns) else none

def exec (p : Program) (i : OpId) (m : Machine) : Option (List Event × Machine) :=
  let o := p.op i
  if o.name = Register.allocName then do
    let r ← o.results[0]?
    let size := (p.typeOf r).qubits
    let qs := List.range' m.qubits size.toNat
    if 0 ≤ size then return (qs.map .alloc, { m.bind r qs with qubits := m.qubits + qs.length }) else none
  else if o.name = Register.deallocName then do
    let qs ← m.operand o 0
    return (qs.map .release, m)
  else if o.name = Register.splitName then do
    let qs ← m.operand o 0
    let pieces ← cut qs (o.results.map fun r => (p.typeOf r).qubits)
    return ([], m.bindAll (o.results.zip pieces))
  else if o.name = Register.mergeName then do
    let qss ← o.operands.mapM m.slot
    return ([], m.bind (← o.results[0]?) qss.flatten)
  else if o.name = Register.cnotName then
    match m.operand o 0, m.operand o 1 with
    | some [c], some [t] => do
      return ([.cnot c t], (m.bind (← o.results[0]?) [c]).bind (← o.results[1]?) [t])
    | _, _ => none
  else if o.name = Register.measureName then
    match m.operand o 0 with
    | some [q] => do
      let bit ← o.results[0]?
      return ([.measure q m.bits.length], { m.bind (← o.results[1]?) [q] with bits := m.bits ++ [bit] })
    | _ => none
  else do
    let gate ← Register.gate? o.name
    let qs ← m.operand o 0
    return (qs.map (.gate gate o.attrs), m.bind (← o.results[0]?) qs)

/-- Runs one operation. What does not work on registers does nothing to qubits. -/
def step (p : Program) (i : OpId) (m : Machine) : Option (List Event × Machine) :=
  if isQuantum (p.op i) then exec p i m else some ([], m)

def run (p : Program) : List OpId → Machine → Option (List (OpId × List Event) × Machine)
  | [], m => some ([], m)
  | i :: rest, m => do
    let (es, m) ← step p i m
    let (trace, m) ← run p rest m
    return ((i, es) :: trace, m)

end Machine

/-! ## Events as operations -/

/-- The values that stand for qubits, for outcomes, and for the bits read from the outcomes. -/
structure Naming where
  handles : List ValueId := []
  outcomes : List ValueId := []
  reads : List ValueId := []

namespace Naming

def instrs (n : Naming) : Event → Option (List Instr)
  | .alloc q => do return [{ name := Handle.allocName, results := [(← n.handles[q]?, .qubit)] }]
  | .gate g attrs q => do return [{ name := Handle.gateName g, attrs, operands := [some (← n.handles[q]?)] }]
  | .cnot c t => do
    return [{ name := Handle.cnotName, operands := [some (← n.handles[c]?), some (← n.handles[t]?)] }]
  | .measure q k => do
    let handle ← n.handles[q]?
    let outcome ← n.outcomes[k]?
    let bit ← n.reads[k]?
    return [
      { name := Handle.outcomeAllocName, results := [(outcome, .outcome)] },
      { name := Handle.measureName, operands := [some handle, some outcome] },
      { name := Handle.readName, operands := [some outcome], results := [(bit, .scalar .bool)] }]
  | .release q => do return [{ name := Handle.releaseName, operands := [some (← n.handles[q]?)] }]

def code (n : Naming) : List Event → Option (List Instr)
  | [] => some []
  | e :: es => do return (← n.instrs e) ++ (← code n es)

def rename (n : Naming) (m : Machine) (v : ValueId) : ValueId := ((m.bits.zip n.reads).lookup v).getD v

end Naming

end Offload.Qubits
