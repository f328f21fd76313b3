import Offload.IR.Attr

/-!
# Faults

A fault is a broken contract: a request that its caller should not have made. It ends the whole operation
that was under way, and what was changed before stays changed. `crash` is the fault of reading something
that is not there.
-/

namespace Offload

inductive Fault where
  | crash
  | shape (cause : ShapeFault)
  | affine (cause : Affine.Fault)
  -- Editing a program.
  | opName (name : String)
  | emptyOperand (name : String) (index : Nat)
  | emptyResult (name : String) (index : Nat)
  | emptyAssignment (name : String) (index : Int)
  | emptyReplacement (type : Ty)
  | emptyArgument
  | lostUse (type : Ty) (name : String) (index : Nat)
  | lostOp (name : String)
  | attached (name : String)
  | inUse (name loc : String) (result uses : Nat)
  | afterDetached (name : String)
  | beforeDetached (name : String)
  -- Building types and operations.
  | workgroupWithoutAxes
  | workgroupExtent (extents : List Int) (axis : Nat)
  | registerSize (size : Int)
  | noElementType (type : Ty)
  | segments (loc : String)
  | constantCount (shape : Shape) (given : Nat)
  | scalarShape
  | registerGate (gate : String)
  | registerRotation (gate : String)
  | qubitGate (gate : String)
  -- Distributing reductions.
  | uneven (elements : Int) (dims extents : List Int) (workers : Int)
  | notATensor (type : Ty)
  -- Rewriting.
  | replacementCount (name loc : String) (given results : Nat)
  | erasedTwice (name loc : String)
  | cyclicUses (count : Nat)
  | unallocated (description : String)
  | rewriteLimit
  -- Running.
  | undefinedValue (index : Nat) (type : Ty)
  | notElements (type : Ty)
  | noShape (type : Ty)
  | elementwise (lhs rhs : Shape)
  | tensorCount (shape : Shape) (given : Nat)
  | badView (shape : Shape) (dims : List Int)
  /-- No end at all: the run waits forever. -/
  | stuck
  deriving Inhabited

namespace Fault

def message : Fault → String
  | crash => "crash"
  | shape cause => cause.message
  | affine cause => cause.message
  | opName name => "invalid operation name " ++ Text.quote name ++ ": it must be formatted as <dialect>.<op>"
  | emptyOperand name i => name ++ ": operand #" ++ toString i ++ " is nil"
  | emptyResult name i => name ++ ": result type #" ++ toString i ++ " is nil"
  | emptyAssignment name i => name ++ ".SetOperand(" ++ toString i ++ ", nil)"
  | emptyReplacement t => "ReplaceAllUsesWith(nil) for value of type " ++ t.render
  | emptyArgument => "Block.AddArgument(nil)"
  | lostUse t name i =>
    "internal error: value of type " ++ t.render ++ " has no use (" ++ name ++ ", #" ++ toString i ++ ")"
  | lostOp name => "internal error: operation " ++ name ++ " not found in its parent block"
  | attached name => "cannot insert " ++ name ++ ": it is already attached to a block"
  | inUse name loc result uses =>
    "cannot erase " ++ name ++ " at " ++ loc ++ ": result #" ++ toString result ++ " still has " ++
      toString uses ++ " use(s)"
  | afterDetached name => "SetInsertionPointAfter(" ++ name ++ "): operation is detached"
  | beforeDetached name => "SetInsertionPointBefore(" ++ name ++ "): operation is detached"
  | workgroupWithoutAxes => "cnm.Workgroup(): a workgroup needs at least one axis"
  | workgroupExtent extents axis =>
    "cnm.Workgroup(" ++ renderInts extents ++ "): extent of axis " ++ toString axis ++ " must be > 0"
  | registerSize size => "quantum.Qubit(" ++ toString size ++ "): size must be > 0"
  | noElementType t => "type " ++ t.render ++ " has no element type"
  | segments loc =>
    "linalg.reduce at " ++ loc ++ ": missing or invalid \"operand_segment_sizes\" attribute"
  | constantCount s given =>
    "arith.Constant(" ++ (Ty.tensor s).render ++ "): got " ++ toString given ++ " values, wanted " ++
      toString s.size
  | scalarShape => "arith.ConstantShape: cannot create the shape of a scalar"
  | registerGate gate => "quantum.Gate(" ++ Text.quote gate ++ "): unknown gate"
  | registerRotation gate => "quantum.Rotate(" ++ Text.quote gate ++ "): unknown rotation gate"
  | qubitGate gate => "qir.Gate(" ++ Text.quote gate ++ "): unknown gate"
  | uneven elements dims extents workers =>
    "cannot distribute " ++ toString elements ++ " elements (dimensions " ++ renderInts dims ++ ") over " ++
      toString workers ++ " workers of " ++ (Ty.workgroup extents).render
  | notATensor t => "cannot plan the distribution of a " ++ t.render ++ ", only tensors are supported"
  | replacementCount name loc given results =>
    "ReplaceOp(" ++ name ++ " at " ++ loc ++ "): got " ++ toString given ++ " values for " ++
      toString results ++ " results"
  | erasedTwice name loc => "EraseOp(" ++ name ++ " at " ++ loc ++ "): operation erased twice"
  | cyclicUses n => "rewrite.Commit: cyclic uses among " ++ toString n ++ " erased operations"
  | unallocated description =>
    "logical resource not allocated\nno physical resources for " ++ description
  | rewriteLimit => "too many rewrites"
  | undefinedValue i t => "interp: value #" ++ toString i ++ " (" ++ t.render ++ ") used before being defined"
  | notElements t => "interp: value of type " ++ t.render ++ " is not a tensor, memref or scalar"
  | noShape t => "interp: type " ++ t.render ++ " has no shape"
  | elementwise a b => "interp: binary operation on " ++ a.render ++ " and " ++ b.render
  | tensorCount s given =>
    "interp.NewTensor(" ++ s.render ++ "): got " ++ toString given ++ " elements, wanted " ++ toString s.size
  | badView s dims => "interp: cannot view " ++ s.render ++ " as " ++ renderInts dims
  | stuck => "stuck"

def isCrash : Fault → Bool
  | crash => true
  | _ => false

def ofShape {α : Type} (x : Except ShapeFault α) : Except Fault α := x.mapError shape

end Fault

end Offload
