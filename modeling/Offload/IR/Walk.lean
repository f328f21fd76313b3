import Offload.IR.Program

/-!
# Program order

An operation comes before the operations in its regions, and those come in the order of regions, blocks
and lists. Nesting is never deeper than the number of operations, so that number bounds the descent.
-/

namespace Offload.Program

variable (p : Program)

def children (i : OpId) : List OpId :=
  (p.op i).regions.flatMap fun blocks => blocks.flatMap fun b => (p.block b).ops

def nestedFrom (descend : OpId → Bool) : Nat → OpId → List OpId
  | 0, _ => []
  | fuel + 1, i => i :: if descend i then (p.children i).flatMap (nestedFrom descend fuel) else []

def nested (i : OpId) : List OpId := p.nestedFrom (fun _ => true) (p.ops.size + 1) i

/-- Everything nested in an operation, in program order, without the operation itself. Only the regions
of operations that `descend` accepts are entered. -/
def preorder (descend : OpId → Bool) (i : OpId) : List OpId :=
  (p.nestedFrom (fun j => j = i || descend j) (p.ops.size + 1) i).filter (· ≠ i)

inductive Visit where
  | advance
  | skip
  | interrupt
  deriving DecidableEq, Repr

def visited (visit : OpId → Visit) (i : OpId) : Bool × List OpId :=
  go (p.nestedFrom (fun j => visit j = .advance) (p.ops.size + 1) i)
where
  go : List OpId → Bool × List OpId
    | [] => (true, [])
    | j :: rest =>
      if visit j = .interrupt then (false, [j])
      else
        let (completed, seen) := go rest
        (completed, j :: seen)

end Offload.Program
