import Offload.Execution.Run

/-!
# Schedules

A schedule says on what pool the workers of launches run and in what order. All launches of a run share the
pool, so a launch in the body of a launch waits for places beside those that are kept around it.
-/

namespace Offload.Execution

/-- How launches run. The order of the workers, and how many other tasks keep places while one of them runs,
may depend on the launch, on what is visible there, on the number of workers and on the store. -/
structure Schedule where
  pool : Pool := .sequential
  order : OpId → Env → Nat → Store → List Nat := fun _ _ n _ => List.range n
  perm : ∀ i env n s, (order i env n s).Perm (List.range n) := by exact fun _ _ _ _ => .refl _
  others : OpId → Env → Nat → Store → Nat := fun _ _ _ _ => 0

section
variable (p : Program) (σ : Schedule) (r : Registry)

def scheduledLaunch (kept : Nat) (run : Nat → RunBody) (env : Env) (i : OpId) : Exec Env := do
  let (n, body, buffers) ← launchParts p env i
  let s ← get
  runWorkers p σ.pool kept (σ.order i env n s) (run (kept + 1 + σ.others i env n s)) env body buffers

def scheduledOp (kept : Nat) (run : Nat → RunBody) (env : Env) (i : OpId) : Exec Env :=
  if (p.op i).name = Workgroup.launchName then scheduledLaunch p σ kept run env i else runOp p (run kept) env i

def scheduledOps (kept : Nat) (run : Nat → RunBody) : Env → List OpId → Exec (List Datum)
  | _, [] => return []
  | env, i :: rest => do
    if r.isTerminator (p.op i) then (p.op i).operands.mapM (lookup p env)
    else
      let env ← withContext p i (scheduledOp p σ kept run env i)
      scheduledOps kept run env rest

/-- Runs a block as `runBlock` does, with all launches in it and below as the schedule says. -/
def scheduledBlock : Nat → Nat → RunBody
  | 0, _, _, _ => Exec.crash
  | depth + 1, kept, env, b => scheduledOps p σ r kept (scheduledBlock depth) env (p.block b).ops

/-- Calls a function, which may never return. -/
def scheduledCall (module : OpId) (name : String) (args : List Ref) (s : Store) : Option (Except Fault CallOutcome) :=
  match callWith p (scheduledBlock p σ r (p.ops.size + 1) 0) module name args s with
  | .ok ⟨_, some (.fault _ .stuck), _⟩ => none
  | outcome => some outcome

end

end Offload.Execution
