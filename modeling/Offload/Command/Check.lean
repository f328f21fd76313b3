import Offload.Command.Reports
import Offload.Command.Samples

/-!
# Runs before and after

A pipeline must not change what a program computes. An expectation keeps the results of a run from before
the pipeline, together with the arguments, so that the run can be repeated afterwards.
-/

namespace Offload.Command

open Execution

def runMain (p : Program) (root : OpId) (args : List Ref) (s : Store) :
    Except (Stop CallError) (List Tensor × Store) :=
  match call p catalogue root mainName args s with
  | .error e => .error (.fault e)
  | .ok ⟨_, some e, _⟩ => .error (.error e)
  | .ok ⟨results, none, s⟩ =>
    (Exec.runOn s (results.mapM Exec.load)).mapError fun _ => .fault .crash

def storeTensors (ts : List Tensor) : List Ref × Store :=
  match ts.mapM Exec.alloc {} with
  | .ok refs s => (refs, s)
  | .error _ s => ([], s)

structure Expectation where
  inputs : List Tensor
  args : List Ref
  store : Store
  want : List Tensor

namespace Expectation

def of (p : Program) (root : OpId) : Except (Stop CallError) Expectation := do
  let inputs ← (sampleInputs p root).mapError .fault
  let (args, store) := storeTensors inputs
  let (want, store) ← runMain p root args store
  return { inputs, args, store, want }

def difference? (e : Expectation) (p : Program) (root : OpId) : Except (Stop CallError) (Option Difference) := do
  let (got, _) ← runMain p root e.args e.store
  return compare e.want got

end Expectation

end Offload.Command
