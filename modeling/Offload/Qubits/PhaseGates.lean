import Offload.Dialect.Catalogue
import Offload.Rewrite.Greedy

/-!
# Phases before a measurement

A gate that only changes the phase of a qubit does not change what is measured. It is dropped if its
result is measured and used nowhere else.
-/

namespace Offload.Qubits

open Rewrite (Rewriting Pattern Outcome Stats GreedyError)

def phaseGatesName : String := "quantum-optimise"

def isOnlyMeasured (p : Program) (v : ValueId) : Bool :=
  match (p.value v).uses with
  | [u] => (p.op u.op).name = Register.measureName
  | _ => false

def dropPhaseGate (i : OpId) : Rewriting Unit Outcome := do
  let p ← Rewriting.program
  match (p.op i).results.head? with
  | none => throw .crash
  | some v =>
    if isOnlyMeasured p v then
      match (p.op i).operands.head? with
      | none => throw .crash
      | some q =>
        Rewriting.replaceOp i [q]
        return .applied
    else return .noMatch

def phasePatterns : List (Pattern Unit) :=
  Register.phaseGates.map fun g => ⟨Register.gateName g, dropPhaseGate⟩

def dropPhaseGates (r : Registry) (maxSweeps : Int) (root : OpId) : Edit (Stats × Option GreedyError) :=
  Rewrite.asEdit false (Rewrite.greedily r phasePatterns root maxSweeps)

end Offload.Qubits
