import Offload.IR.Registry
import Offload.IR.Walk

/-!
# Well-formed programs

Every operand is visible where it is used: it is defined in an enclosing block, before the operation that
uses it, and no isolated operation lies between. Terminators stand at the end of their blocks, and every
operation passes the check of its kind. Operations are looked at in program order, and the first thing
that is wrong is reported.
-/

namespace Offload

inductive Invisible where
  | detached (type : Ty)
  | early (type : Ty) (definedBy : String)
  | captured (type : Ty) (above : String)
  | elsewhere (type : Ty)
  deriving DecidableEq, Repr

def Invisible.message : Invisible → String
  | detached t => "value of type " ++ t.render ++ " is defined by a detached operation"
  | early t name => "value of type " ++ t.render ++ " (result of " ++ name ++ ") is used before it is defined"
  | captured t name =>
    "value of type " ++ t.render ++ " is captured from above " ++ name ++ ", which is isolated from above"
  | elsewhere t => "value of type " ++ t.render ++ " is not defined in an enclosing block"

inductive VerifyCause where
  | emptyOperand (index : Nat)
  | invisible (index : Nat) (cause : Invisible)
  | misplacedTerminator
  | flaw (message : String)
  deriving DecidableEq, Repr

inductive VerifyError where
  | crash
  | at (name loc : String) (cause : VerifyCause)
  deriving DecidableEq, Repr

def VerifyCause.message : VerifyCause → String
  | emptyOperand i => "operand #" ++ toString i ++ " is nil (erased value?)"
  | invisible i cause => "operand #" ++ toString i ++ ": " ++ cause.message
  | misplacedTerminator => "terminator is not the last operation of its block"
  | flaw message => message

def VerifyError.message : VerifyError → String
  | crash => "crash"
  | .at name loc cause => name ++ " at " ++ loc ++ ": " ++ cause.message

namespace Program

variable (r : Registry) (p : Program)

/-- An operation that is in exactly those operations whose regions hold the definition of `v`. -/
def anchorOf (v : ValueId) : OpId :=
  match (p.value v).source with
  | .result o _ => o
  | .argument b _ => (p.block b).owner

/-- Looks for the block that defines `v` from an operation outwards, as far as `root`. -/
def visibleFrom (root : OpId) (v : ValueId) (home : BlockId) : List OpId → Except Invisible Unit
  | [] => .error (.elsewhere (p.typeOf v))
  | i :: rest =>
    if (p.op i).block = some home then
      match p.definingOp? v with
      | some d =>
        let ops := (p.block home).ops
        if ops.idxOf i ≤ ops.idxOf d then .error (.early (p.typeOf v) (p.op d).name) else .ok ()
      | none => .ok ()
    else
      match p.parent? i with
      | some q =>
        if r.isIsolated (p.op q) && !p.isAncestor q (p.anchorOf v) then
          .error (.captured (p.typeOf v) (p.op q).name)
        else if i = root then .error (.elsewhere (p.typeOf v))
        else visibleFrom root v home rest
      | none => .error (.elsewhere (p.typeOf v))

def visible (root user : OpId) (v : ValueId) : Except Invisible Unit :=
  match p.homeOf v with
  | none => .error (.detached (p.typeOf v))
  | some home => p.visibleFrom r root v home (p.enclosing user)

def checkOperands (root i : OpId) : Nat → List Slot → Except VerifyCause Unit
  | _, [] => .ok ()
  | index, none :: _ => .error (.emptyOperand index)
  | index, some v :: rest =>
    match p.visible r root i v with
    | .error e => .error (.invisible index e)
    | .ok () => checkOperands root i (index + 1) rest

def isLast (i : OpId) : Bool := (p.op i).block.all fun b => p.last? b = some i

def verifyOp (root i : OpId) : Except VerifyError Unit :=
  let o := p.op i
  let fail (cause : VerifyCause) : Except VerifyError Unit := .error (.at o.name o.loc cause)
  match p.checkOperands r root i 0 o.operands with
  | .error cause => fail cause
  | .ok () =>
    if r.isTerminator o && !p.isLast i then fail .misplacedTerminator
    else
      match (r.info? o.name).elim (.ok ()) fun info => info.check p i with
      | .ok () => .ok ()
      | .error .crash => .error .crash
      | .error (.violation message) => fail (.flaw message)

def verify (root : OpId) : Except VerifyError Unit := (p.nested root).forM (p.verifyOp r root)

end Program

end Offload
