import Offload.Execution.Transfer

/-!
# Storage while a program runs

Elements are kept in cells, and a reference looks at a cell through a shape. Several references may look
at one cell. Nothing is ever removed.
-/

namespace Offload.Execution

structure Ref where
  shape : Shape
  cell : Nat
  deriving DecidableEq, Repr, Inhabited

structure Store where
  cells : Array (Array Float) := #[]
  deriving Inhabited

inductive RunError where
  | noConstant
  | unsupported (name : String)
  | transfer (cause : TransferError)
  | executing (name loc : String) (cause : RunError)
  | worker (index : Nat) (cause : RunError)
  | workerFault (index : Nat) (cause : Fault)

namespace RunError

def message : RunError → String
  | noConstant => "constant without a value"
  | unsupported name => Text.quote name ++ ": operation not supported by the interpreter"
  | transfer cause => cause.message
  | executing name loc cause => "executing " ++ name ++ " at " ++ loc ++ ": " ++ cause.message
  | worker i cause => "worker #" ++ toString i ++ ": " ++ cause.message
  | workerFault i cause => "worker #" ++ toString i ++ ": " ++ cause.message

def isUnsupported : RunError → Bool
  | unsupported _ => true
  | executing _ _ cause => cause.isUnsupported
  | worker _ cause => cause.isUnsupported
  | _ => false

def isCrash : RunError → Bool
  | workerFault _ cause => cause.isCrash
  | executing _ _ cause => cause.isCrash
  | worker _ cause => cause.isCrash
  | _ => false

end RunError

abbrev Exec := EStateM (Stop RunError) Store

namespace Exec

def runOn {α : Type} (s : Store) (x : Exec α) : Except (Stop RunError) (α × Store) :=
  match x s with
  | .ok a s => .ok (a, s)
  | .error e _ => .error e

def ofExcept {α : Type} : Except Fault α → Exec α
  | .ok a => pure a
  | .error e => throw (.fault e)

instance : MonadLift (Except Fault) Exec := ⟨ofExcept⟩

def fail {α : Type} (e : RunError) : Exec α := throw (.error e)

def crash {α : Type} : Exec α := throw (.fault .crash)

def alloc (t : Tensor) : Exec Ref := fun s =>
  .ok ⟨t.shape, s.cells.size⟩ ⟨s.cells.push t.data⟩

def load (r : Ref) : Exec Tensor := do
  match (← get).cells[r.cell]? with
  | some data => return ⟨r.shape, data⟩
  | none => crash

def element (r : Ref) (i : Int) : Exec Float := do
  ofExcept ((← load r).get i)

def setElement (r : Ref) (i : Int) (x : Float) : Exec Unit := do
  discard (element r i)
  modify fun ⟨cells⟩ => ⟨cells.modify r.cell (·.setIfInBounds i.toNat x)⟩

def store (r : Ref) (data : Array Float) : Exec Unit :=
  modify fun ⟨cells⟩ => ⟨cells.setIfInBounds r.cell data⟩

def view (r : Ref) (dims : List Int) : Exec Ref := do
  let shape ← ofExcept ((← load r).viewShape dims)
  return { r with shape }

def clone (r : Ref) : Exec Ref := do alloc (← load r)

end Exec

end Offload.Execution
