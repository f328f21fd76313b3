import Offload.IR.Registry
import Offload.Rewrite.Session

/-!
# Greedy rewriting

The program is swept in program order until a sweep changes nothing. Each sweep applies the patterns and
drops pure operations whose results nobody uses.
-/

namespace Offload.Rewrite

def defaultSweeps : Nat := 10

inductive GreedyError where
  | pattern (name loc : String) (cause : PatternError)
  | notConverged (sweeps : Nat)

def GreedyError.message : GreedyError → String
  | pattern name loc cause => name ++ " at " ++ loc ++ ": " ++ cause.message
  | notConverged n => "after " ++ toString n ++ " iterations: patterns did not converge"

def isDead (r : Registry) (p : Program) (i : OpId) : Bool :=
  let o := p.op i
  r.isPure o && !o.results.isEmpty && !p.hasUses i && o.regions.isEmpty

section

variable {σ : Type} (r : Registry) (patterns : List (Pattern σ))

def sweepOver (changed : Bool) : List OpId → Rewriting σ (Except GreedyError Bool)
  | [] => return .ok changed
  | i :: rest => do
    if ← Rewriting.isErased i then sweepOver changed rest
    else if isDead r (← Rewriting.program) i then
      Rewriting.eraseOp i
      sweepOver true rest
    else
      Rewriting.build (Build.toBefore i)
      let o := (← Rewriting.program).op i
      match ← Rewriting.applyPatterns patterns i with
      | .failed cause => return .error (.pattern o.name o.loc cause)
      | .noMatch => sweepOver changed rest
      | .applied =>
        Rewriting.countRewrite
        sweepOver true rest

def sweeps (root : OpId) (total : Nat) : Nat → Rewriting σ (Option GreedyError)
  | 0 => return some (.notConverged total)
  | left + 1 => do
    let p ← Rewriting.program
    match ← sweepOver r patterns false (p.preorder (fun _ => true) root) with
    | .error e => return some e
    | .ok changed =>
      discard Rewriting.takeInserted
      if changed then sweeps root total left else return none

/-- Rewrites everything nested in `root` until nothing changes. A number of sweeps that is not positive
stands for the default. -/
def greedily (root : OpId) (maxSweeps : Int) : Rewriting σ (Stats × Option GreedyError) := do
  let n := if maxSweeps ≤ 0 then defaultSweeps else maxSweeps.toNat
  let error ← sweeps r patterns root n n
  return (← Rewriting.stats, error)

end

end Offload.Rewrite
