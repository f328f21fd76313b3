import Offload.Word

/-!
# Affine expressions and maps

Expressions over the positions of an index tuple: sums, products with a constant on one side, and floor
quotients and remainders by a positive constant. A map is a list of expressions over the same positions.
The smart constructors refuse what is not affine, so evaluation of what they build never divides by zero.
-/

namespace Offload.Affine

inductive Expr where
  | dim (position : Nat)
  | const (value : Int)
  | add (lhs rhs : Expr)
  | mul (lhs rhs : Expr)
  | floorDiv (lhs : Expr) (divisor : Int)
  | mod (lhs : Expr) (divisor : Int)
  deriving DecidableEq, Repr, Inhabited

namespace Expr

def isAtom : Expr → Bool
  | dim _ | const _ => true
  | _ => false

def isConst : Expr → Bool
  | const _ => true
  | _ => false

/-- Only the operands of products, quotients and remainders are put into parentheses. -/
def render : Expr → String
  | dim i => "d" ++ toString i
  | const c => toString c
  | add a b => a.render ++ " + " ++ b.render
  | mul a b => (if a.isAtom then a.render else "(" ++ a.render ++ ")") ++ " * " ++
      (if b.isAtom then b.render else "(" ++ b.render ++ ")")
  | floorDiv a n => (if a.isAtom then a.render else "(" ++ a.render ++ ")") ++ " floordiv " ++ toString n
  | mod a n => (if a.isAtom then a.render else "(" ++ a.render ++ ")") ++ " mod " ++ toString n

def span : Expr → Nat
  | dim i => i + 1
  | const _ => 0
  | add a b | mul a b => max a.span b.span
  | floorDiv a _ | mod a _ => a.span

end Expr

/-- `dims` inputs, named but unused `symbols`, and one expression for each result. -/
structure Map where
  dims : Int
  symbols : Int := 0
  results : List Expr
  deriving DecidableEq, Repr, Inhabited

private def nameRow (letter : String) (count : Int) : String :=
  ", ".intercalate ((List.range count.toNat).map fun i => letter ++ toString i)

def Map.render (m : Map) : String :=
  "(" ++ nameRow "d" m.dims ++ ")" ++ (if 0 < m.symbols then "[" ++ nameRow "s" m.symbols ++ "]" else "") ++
    " -> (" ++ ", ".intercalate (m.results.map Expr.render) ++ ")"

inductive Fault where
  | negativePosition (position : Int)
  | notAffine (lhs rhs : Expr)
  | floorDivBy (divisor : Int)
  | modBy (divisor : Int)
  | outOfRange (dims : Int) (result : Expr)
  deriving DecidableEq, Repr

def Fault.message : Fault → String
  | .negativePosition i => "affine.Dim(" ++ toString i ++ "): position must be >= 0"
  | .notAffine a b =>
    "affine: " ++ a.render ++ " * " ++ b.render ++ " is not affine, one side must be constant"
  | .floorDivBy n => "affine: floordiv by non-positive constant " ++ toString n
  | .modBy n => "affine: mod by non-positive constant " ++ toString n
  | .outOfRange dims r =>
    "affine.NewMap(" ++ toString dims ++ " dims): result " ++ r.render ++ " uses an out-of-range dimension"

inductive EvalError where
  | missing (position given : Nat)
  | arity (map : Map) (given : Nat)
  | result (index : Nat) (map : Map) (cause : EvalError)
  deriving Repr

def EvalError.message : EvalError → String
  | .missing i given =>
    "affine expression d" ++ toString i ++ " uses d" ++ toString i ++ ", but only " ++ toString given ++
      " dims given"
  | .arity m given =>
    "affine map " ++ m.render ++ " expects " ++ toString m.dims ++ " dims, got " ++ toString given
  | .result i m cause => "evaluating result #" ++ toString i ++ " of " ++ m.render ++ ": " ++ cause.message

namespace Expr

def ofDim (position : Int) : Except Fault Expr :=
  if position < 0 then .error (.negativePosition position) else .ok (.dim position.toNat)

def times (a b : Expr) : Except Fault Expr :=
  if a.isConst || b.isConst then .ok (.mul a b) else .error (.notAffine a b)

def floorDivBy (a : Expr) (divisor : Int) : Except Fault Expr :=
  if divisor ≤ 0 then .error (.floorDivBy divisor) else .ok (.floorDiv a divisor)

def modBy (a : Expr) (divisor : Int) : Except Fault Expr :=
  if divisor ≤ 0 then .error (.modBy divisor) else .ok (.mod a divisor)

def eval (dims : List Int) : Expr → Except EvalError Int
  | dim i =>
    match dims[i]? with
    | some d => .ok d
    | none => .error (.missing i dims.length)
  | const c => .ok c
  | add a b => do return Word.add (← a.eval dims) (← b.eval dims)
  | mul a b => do return Word.mul (← a.eval dims) (← b.eval dims)
  | floorDiv a n => do return Word.floorDiv (← a.eval dims) n
  | mod a n => do
    let x ← a.eval dims
    return Word.sub x (Word.mul (Word.floorDiv x n) n)

end Expr

namespace Map

def make (dims : Int) (results : List Expr) : Except Fault Map :=
  match results.find? fun r => dims < r.span with
  | some r => .error (.outOfRange dims r)
  | none => .ok ⟨dims, 0, results⟩

def evalFrom (m : Map) (dims : List Int) (index : Nat) : List Expr → Except EvalError (List Int)
  | [] => .ok []
  | r :: rest =>
    match r.eval dims with
    | .error e => .error (.result index m e)
    | .ok x => do return x :: (← m.evalFrom dims (index + 1) rest)

def eval (m : Map) (dims : List Int) : Except EvalError (List Int) :=
  if dims.length = m.dims then m.evalFrom dims 0 m.results else .error (.arity m dims.length)

end Map

end Offload.Affine
