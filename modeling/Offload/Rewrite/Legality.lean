import Offload.IR.Program
import Offload.Sequence

/-!
# Legal operations

A target says which operations a conversion may leave behind. The most specific rule counts: a test for
operations of a name, then names, then dialects; what has no rule at all is decided in one go.
-/

namespace Offload.Rewrite

inductive Legality where
  | unknown
  | legal
  | illegal
  deriving DecidableEq, Repr

def Legality.render : Legality → String
  | unknown => "unknown"
  | legal => "legal"
  | illegal => "illegal"

structure Target where
  legalOps : NameSet := {}
  illegalOps : NameSet := {}
  legalDialects : NameSet := {}
  illegalDialects : NameSet := {}
  /-- Tests for the operations with a name; the first entry for a name counts. -/
  dynamic : List (String × (Program → OpId → Except Fault Bool)) := []
  /-- Names of operations whose inside is left alone. -/
  recursivelyLegal : NameSet := {}
  unknownLegal : Bool := false

namespace Target

variable (t : Target) (p : Program) (i : OpId)

def isRecursivelyLegal : Bool := t.recursivelyLegal.contains (p.op i).name

def staticLegality (o : Op) : Legality :=
  if t.legalOps.contains o.name then .legal
  else if t.illegalOps.contains o.name then .illegal
  else if t.legalDialects.contains o.dialect then .legal
  else if t.illegalDialects.contains o.dialect then .illegal
  else .unknown

def legality : Except Fault Legality :=
  match t.dynamic.lookup (p.op i).name with
  | some test => do return if ← test p i then .legal else .illegal
  | none => .ok (t.staticLegality (p.op i))

def accepts : Legality → Bool
  | .legal => true
  | .illegal => false
  | .unknown => t.unknownLegal

def isLegal : Except Fault Bool := do return t.accepts (← t.legality p i)

def isInside (root : OpId) : Bool :=
  ((p.enclosing i).drop 1 |>.takeWhile (· ≠ root)).any (t.isRecursivelyLegal p)

end Target

end Offload.Rewrite
