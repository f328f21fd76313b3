import Offload.Dialect.Arith

/-!
# Other shapes for the same elements

Reshaping gives a tensor with the same elements in another shape, which is also an operand. Expanding
looks at memory through a shape with at least as many axes.
-/

namespace Offload.Views

def reshapeName : String := "tensor.reshape"
def expandName : String := "memref.expand_shape"

inductive Flaw where
  | reshapeArity
  | reshapeSource (type : Ty)
  | reshapeResult (type : Ty)
  | reshapeElement (source result : Ty)
  | reshapeSize (source result : Ty)
  | reshapeShape (type : Ty) (rank : Nat)
  | expandArity
  | expandTypes (source result : Ty)
  | expandSize (source result : Ty)
  | expandRank (source result : Ty)
  deriving DecidableEq, Repr

def Flaw.message : Flaw → String
  | reshapeArity => "reshape takes a source and a shape, and has one result"
  | reshapeSource t => "reshape source must be a tensor, got " ++ t.render
  | reshapeResult t => "reshape result must be a tensor, got " ++ t.render
  | reshapeElement t u => "reshape can't change the dtype: " ++ t.render ++ " -> " ++ u.render
  | reshapeSize t u => "reshape can't change the number of elements: " ++ t.render ++ " -> " ++ u.render
  | reshapeShape t rank =>
    "reshape shape operand " ++ t.render ++ " doesn't match result rank " ++ toString rank
  | expandArity => "expand_shape takes one operand and has one result"
  | expandTypes t u => "expand_shape works on memrefs, got " ++ t.render ++ " -> " ++ u.render
  | expandSize t u => "expand_shape must keep dtype and size: " ++ t.render ++ " -> " ++ u.render
  | expandRank t u => "expand_shape can't reduce the rank: " ++ t.render ++ " -> " ++ u.render

section Checks

variable (p : Program) (i : OpId)

def checkReshapeTypes (source shape : Ty) (result : Ty) : Except Flaw Unit :=
  match source, result with
  | .tensor s, .tensor t =>
    if s.element ≠ t.element then .error (.reshapeElement source result)
    else if s.size ≠ t.size then .error (.reshapeSize source result)
    else
      match shape with
      | .tensor ⟨_, [n]⟩ => if n = t.rank then .ok () else .error (.reshapeShape shape t.rank)
      | _ => .error (.reshapeShape shape t.rank)
  | .tensor _, _ => .error (.reshapeResult result)
  | _, _ => .error (.reshapeSource source)

def checkReshape : Except Flaw Unit :=
  match (p.op i).operands.filterMap p.slotType?, p.resultTypes i with
  | [source, shape], [result] => checkReshapeTypes source shape result
  | _, _ => .error .reshapeArity

def checkExpandTypes (source result : Ty) : Except Flaw Unit :=
  match source, result with
  | .memref s, .memref t =>
    if s.element ≠ t.element ∨ s.size ≠ t.size then .error (.expandSize source result)
    else if t.rank < s.rank then .error (.expandRank source result)
    else .ok ()
  | _, _ => .error (.expandTypes source result)

def checkExpand : Except Flaw Unit :=
  match (p.op i).operands.filterMap p.slotType?, p.resultTypes i with
  | [source], [result] => checkExpandTypes source result
  | _, _ => .error .expandArity

end Checks

def registry : Registry :=
  [{ name := reshapeName, traits := { pure := true }
     check := fun p i => (checkReshape p i).mapError (.violation ·.message) },
   { name := expandName, traits := { pure := true }
     check := fun p i => (checkExpand p i).mapError (.violation ·.message) }]

/-! ## Building -/

def reshape (source : Slot) (dims : List Int) : Build ValueId := do
  match ← Build.typeOf source with
  | .tensor s =>
    let shape ← Arith.constantShape dims
    let t ← Fault.ofShape (Shape.make s.element dims)
    Build.createValue {
      name := reshapeName
      operands := [source, some shape]
      results := [some (.tensor t)] }
  | _ => throw .crash

def expand (source : Slot) (dims : List Int) : Build ValueId := do
  match ← Build.typeOf source with
  | .memref s =>
    let t ← Fault.ofShape (Shape.make s.element dims)
    Build.createValue { name := expandName, operands := [source], results := [some (.memref t)] }
  | _ => throw .crash

end Offload.Views
