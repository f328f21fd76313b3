/-!
# Pools of tasks

A pool runs tasks side by side, up to a limit: with the limit zero one after the other, and any number of
them if the limit is negative. All tasks are run even if some fail, and the failure that counts is that of
the lowest task. With a limit above zero a task takes a place and keeps it until it ends. So tasks that are
started by a task need places beside its own, and wait forever if none is given back.
-/

namespace Offload

structure Pool where
  limit : Int
  deriving DecidableEq, Repr

namespace Pool

def sequential : Pool := ⟨0⟩

def isEnabled (p : Pool) : Bool := p.limit ≠ 0

def isUnlimited (p : Pool) : Bool := p.limit < 0

def hasRoom (p : Pool) (running : Nat) : Bool := p.isUnlimited || running < p.limit

def started (p : Pool) (n : Nat) : List Bool := (List.range n).map p.hasRoom

/-- Whether tasks wait forever if `kept` places are not given back before they end. -/
def waits (p : Pool) (kept tasks : Nat) : Bool := p.isEnabled && !p.hasRoom kept && tasks ≠ 0

variable {m : Type → Type} [Monad m] {ε : Type}

def runAll (task : Nat → m (Option ε)) : List Nat → m (List (Nat × ε))
  | [] => return []
  | i :: rest => do
    match ← task i with
    | none => runAll task rest
    | some e => return (i, e) :: (← runAll task rest)

def lowestFailure : List (Nat × ε) → Option (Nat × ε)
  | [] => none
  | (i, e) :: rest =>
    match lowestFailure rest with
    | some (j, e') => if j < i then some (j, e') else some (i, e)
    | none => some (i, e)

/-- Runs the tasks in the given order, all of them, and gives the failure of the lowest one that fails. -/
def runIn (order : List Nat) (task : Nat → m (Option ε)) : m (Option ε) := do
  return (lowestFailure (← runAll task order)).map Prod.snd

/-- Runs the tasks, unless they wait forever. -/
def forEach (p : Pool) (kept : Nat) (order : List Nat) (task : Nat → m (Option ε)) : m (Option (Option ε)) :=
  if p.waits kept order.length then return none else some <$> runIn order task

end Pool

end Offload
