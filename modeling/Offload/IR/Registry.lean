import Offload.IR.Program

/-!
# Kinds of operations

A registry says what is known of the operations with a name: their traits, and which of them are well
formed. Operations with other names are allowed; nothing is known of them.
-/

namespace Offload

structure Traits where
  /-- Regions see nothing but their own block arguments. -/
  isolated : Bool := false
  /-- Only the last operation of a block. -/
  terminator : Bool := false
  /-- No effect but the results. -/
  pure : Bool := false
  deriving DecidableEq, Repr, Inhabited

inductive Flaw where
  /-- The check itself read something that is not there. -/
  | crash
  | violation (message : String)
  deriving DecidableEq, Repr

def Flaw.of {ε : Type} (message : ε → String) : Option ε → Flaw
  | some e => violation (message e)
  | none => crash

abbrev Check := Program → OpId → Except Flaw Unit

structure OpInfo where
  name : String
  traits : Traits := {}
  check : Check := fun _ _ => .ok ()

abbrev Registry := List OpInfo

namespace Registry

variable (r : Registry)

def info? (name : String) : Option OpInfo := r.find? (·.name = name)

def traits (name : String) : Traits := (r.info? name).elim {} OpInfo.traits

def isPure (o : Op) : Bool := (r.traits o.name).pure

def isTerminator (o : Op) : Bool := (r.traits o.name).terminator

def isIsolated (o : Op) : Bool := (r.traits o.name).isolated

def terminator? (p : Program) (b : BlockId) : Option OpId := (p.last? b).filter fun i => r.isTerminator (p.op i)

end Registry

end Offload
