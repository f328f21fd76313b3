import Offload.IR.Edit

/-!
# Building at an insertion point

A builder stands at a place in a block, or nowhere. New operations are inserted there one after the other,
and it keeps a list of everything it created.
-/

namespace Offload

structure Builder where
  block : Option BlockId := none
  place : Nat := 0
  loc : String := "unknown"
  deriving Inhabited

structure Construction where
  program : Program
  builder : Builder := {}
  created : List OpId := []
  deriving Inhabited

abbrev Build := EStateM Fault Construction

namespace Build

def edit {α : Type} (x : Edit α) : Build α := fun ⟨program, builder, created⟩ =>
  match x program with
  | .ok a program => .ok a ⟨program, builder, created⟩
  | .error e program => .error e ⟨program, builder, created⟩

instance : MonadLift Edit Build := ⟨edit⟩

def ofExcept {α : Type} : Except Fault α → Build α
  | .ok a => pure a
  | .error e => throw e

instance : MonadLift (Except Fault) Build := ⟨ofExcept⟩

def program : Build Program := return (← get).program

def setBuilder (b : Builder) : Build Unit :=
  modify fun ⟨program, _, created⟩ => ⟨program, b, created⟩

def setLoc (loc : String) : Build Unit := do
  setBuilder { (← get).builder with loc }

def setPoint (block : BlockId) (place : Nat) : Build Unit := do
  setBuilder { (← get).builder with block := some block, place }

def toStart (b : BlockId) : Build Unit := setPoint b 0

def toEnd (b : BlockId) : Build Unit := do
  setPoint b (← Edit.getBlock b).ops.length

def toAfter (i : OpId) : Build Unit := do
  let o ← Edit.getOp i
  match o.block with
  | none => throw (.afterDetached o.name)
  | some b => setPoint b ((← Edit.placeIn b i) + 1)

def toBefore (i : OpId) : Build Unit := do
  let o ← Edit.getOp i
  match o.block with
  | none => throw (.beforeDetached o.name)
  | some b => setPoint b (← Edit.placeIn b i)

def insert (i : OpId) : Build Unit := do
  let b := (← get).builder
  if let some block := b.block then
    Edit.insertAt block b.place i
    setPoint block (b.place + 1)
  modify fun ⟨program, builder, created⟩ => ⟨program, builder, created ++ [i]⟩

def create (s : Edit.Spec) : Build OpId := do
  let loc := (← get).builder.loc
  let i ← Edit.newOp { s with loc := if s.loc.isEmpty then loc else s.loc }
  insert i
  return i

def resultOf (i : OpId) (index : Nat) : Build ValueId := do
  match (← Edit.getOp i).results[index]? with
  | some v => return v
  | none => throw .crash

def createValue (s : Edit.Spec) : Build ValueId := do
  resultOf (← create s) 0

def typeOf (v : Slot) : Build Ty := do
  match (← program).slotType? v with
  | some t => return t
  | none => throw .crash

def elsewhere {α : Type} (b : Builder) (x : Build α) : Build α := fun ⟨program, builder, created⟩ =>
  match x ⟨program, b, []⟩ with
  | .ok a s => .ok a ⟨s.program, builder, created⟩
  | .error e s => .error e ⟨s.program, builder, created⟩

end Build

end Offload
