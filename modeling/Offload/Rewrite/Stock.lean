import Offload.Rewrite.Session

/-!
# Stock rewrites

Rewrites of single operations that do not depend on what the operations mean. A pattern is one of them
together with the name of the operations it is for.
-/

namespace Offload.Rewrite.Stock

variable {σ : Type}

def operand (o : Op) (index : Nat) : Rewriting σ Slot :=
  match o.operands[index]? with
  | some v => return v
  | none => throw .crash

def createLike (i : OpId) (name : String) (operands : List Slot) : Rewriting σ (List Slot) := do
  let types := (← Rewriting.program).resultTypes i
  let j ← Rewriting.build (Build.create { name, operands, results := types.map some })
  return ((← Rewriting.program).op j).results.map some

/-- Puts a chain of operations in the place of one. The first takes its operands, and each of the others
the results of the one before. -/
def chain (names : List String) (i : OpId) : Rewriting σ Outcome := do
  let values ← names.foldlM (fun values name => createLike i name values) ((← Rewriting.program).op i).operands
  Rewriting.replaceOp i values
  return .applied

def rename (name : String) (i : OpId) : Rewriting σ Outcome := chain [name] i

/-- Puts an operation `outer` in the place of one, with an operation `inner` on its operands inside. -/
def wrap (outer inner : String) (i : OpId) : Rewriting σ Outcome := do
  let p ← Rewriting.program
  let o ← Rewriting.build (Build.create { name := outer, results := (p.resultTypes i).map some, regions := 1 })
  let b ← Rewriting.edit (Edit.newBlock o 0 [])
  Rewriting.build (Build.toEnd b)
  discard (createLike i inner (p.op i).operands : Rewriting σ (List Slot))
  Rewriting.replaceOp i (((← Rewriting.program).op o).results.map some)
  return .applied

def forward (i : OpId) : Rewriting σ Outcome := do
  Rewriting.replaceOp i ((← Rewriting.program).op i).operands
  return .applied

/-- Takes out an operation together with its inverse, if it is applied to one with the same name. The
inner one is left for others that use it. -/
def cancel (i : OpId) : Rewriting σ Outcome := do
  let p ← Rewriting.program
  match ← operand (p.op i) 0 with
  | none => throw .crash
  | some v =>
    match p.definingOp? v with
    | none => return .noMatch
    | some j =>
      if (p.op j).name ≠ (p.op i).name then return .noMatch
      Rewriting.replaceOp i [← operand (p.op j) 0]
      return .applied

def erase (is : List OpId) : Rewriting σ Outcome := do
  is.forM Rewriting.eraseOp
  return .applied

def eraseWithUsers (i : OpId) : Rewriting σ Outcome := do
  let p ← Rewriting.program
  match (p.op i).results with
  | [] => throw .crash
  | v :: _ => erase (p.users v ++ [i])

def count (o : Op) (attr : String) : Int := ((o.attr? attr).bind Attr.int?).getD 0

def increment (attr : String) (limit : Option Int) (i : OpId) : Rewriting σ Outcome := do
  let n := count ((← Rewriting.program).op i) attr
  if limit.any (· ≤ n) then return .noMatch
  Rewriting.modifyInPlace (Edit.setAttr i attr (.int (Word.add n 1)))
  return .applied

end Offload.Rewrite.Stock
