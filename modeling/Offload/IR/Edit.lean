import Offload.Capacity
import Offload.IR.Walk

/-!
# Editing a program

The elementary changes: new operations and blocks, operands, insertion into blocks and removal. Each keeps
the use lists and the lists of the blocks in step with the operands and the parents. An edit that meets a
fault stops there, and the part of it that was already done remains.
-/

namespace Offload

abbrev Edit := EStateM Fault Program

namespace Edit

def modifyOp (i : OpId) (f : Op → Op) : Edit Unit :=
  modify fun ⟨ops, blocks, values⟩ => ⟨ops.modify i.index f, blocks, values⟩

def modifyBlock (i : BlockId) (f : Block → Block) : Edit Unit :=
  modify fun ⟨ops, blocks, values⟩ => ⟨ops, blocks.modify i.index f, values⟩

def modifyValue (i : ValueId) (f : Value → Value) : Edit Unit :=
  modify fun ⟨ops, blocks, values⟩ => ⟨ops, blocks, values.modify i.index f⟩

def getOp (i : OpId) : Edit Op := return (← get).op i

def getBlock (i : BlockId) : Edit Block := return (← get).block i

def getValue (i : ValueId) : Edit Value := return (← get).value i

def pushOp (o : Op) : Edit OpId := do
  let i := (← get).ops.size
  modify fun ⟨ops, blocks, values⟩ => ⟨ops.push o, blocks, values⟩
  return ⟨i⟩

def pushBlock (b : Block) : Edit BlockId := do
  let i := (← get).blocks.size
  modify fun ⟨ops, blocks, values⟩ => ⟨ops, blocks.push b, values⟩
  return ⟨i⟩

def pushValue (v : Value) : Edit ValueId := do
  let i := (← get).values.size
  modify fun ⟨ops, blocks, values⟩ => ⟨ops, blocks, values.push v⟩
  return ⟨i⟩

/-! ## Uses and operands -/

def addUse (v : ValueId) (u : Use) : Edit Unit :=
  modifyValue v fun x => { x with uses := x.uses ++ [u] }

def removeUse (v : ValueId) (u : Use) : Edit Unit := do
  let x ← getValue v
  if u ∈ x.uses then modifyValue v fun x => { x with uses := x.uses.erase u }
  else throw (.lostUse x.type (← getOp u.op).name u.index)

def fill (u : Use) (s : Slot) : Edit Unit :=
  modifyOp u.op fun o => { o with operands := o.operands.set u.index s }

def connect (u : Use) (v : ValueId) : Edit Unit := do
  fill u (some v)
  addUse v u

def setOperand (i : OpId) (index : Int) (v : Slot) : Edit Unit := do
  let o ← getOp i
  match v with
  | none => throw (.emptyAssignment o.name index)
  | some v =>
    match if index < 0 then none else o.operands[index.toNat]? with
    | some (some old) =>
      removeUse old ⟨i, index.toNat⟩
      connect ⟨i, index.toNat⟩ v
    | _ => throw .crash

def replaceAllUses (v : ValueId) (w : Slot) : Edit Unit := do
  let x ← getValue v
  match w with
  | none => throw (.emptyReplacement x.type)
  | some w => if w = v then return else x.uses.forM fun u => setOperand u.op u.index (some w)

def setType (v : ValueId) (t : Ty) : Edit Unit := modifyValue v fun x => { x with type := t }

def setAttr (i : OpId) (name : String) (a : Attr) : Edit Unit := modifyOp i (·.setAttr name a)

/-! ## New operations and blocks -/

structure Spec where
  name : String
  loc : String := ""
  operands : List Slot := []
  results : List (Option Ty) := []
  attrs : List (String × Attr) := []
  regions : Int := 0

def connectAll (i : OpId) (name : String) : Nat → List Slot → Edit Unit
  | _, [] => return
  | index, none :: _ => throw (.emptyOperand name index)
  | index, some v :: rest => do
    connect ⟨i, index⟩ v
    connectAll i name (index + 1) rest

def newResults (i : OpId) (name : String) : Nat → List (Option Ty) → Edit (List ValueId)
  | _, [] => return []
  | index, t :: rest => do
    match t.bind Ty.present? with
    | none => throw (.emptyResult name index)
    | some t =>
      let v ← pushValue ⟨t, .result i index, []⟩
      return v :: (← newResults i name (index + 1) rest)

def newOp (s : Spec) : Edit OpId := do
  unless s.name.toList.contains '.' do throw (.opName s.name)
  let i ← pushOp {
    name := s.name
    loc := if s.loc.isEmpty then "unknown" else s.loc
    operands := s.operands.map fun _ => none
    attrs := s.attrs }
  connectAll i s.name 0 s.operands
  let results ← newResults i s.name 0 s.results
  modifyOp i fun o => { o with results }
  match checkLength s.regions with
  | .error e => throw e
  | .ok n =>
    modifyOp i fun o => { o with regions := List.replicate n [] }
    return i

def addArgument (b : BlockId) (t : Option Ty) : Edit ValueId := do
  match t.bind Ty.present? with
  | none => throw .emptyArgument
  | some t =>
    let v ← pushValue ⟨t, .argument b (← getBlock b).args.length, []⟩
    modifyBlock b fun x => { x with args := x.args ++ [v] }
    return v

def newBlock (i : OpId) (region : Nat) (args : List (Option Ty)) : Edit BlockId := do
  if (← getOp i).regions.length ≤ region then throw .crash
  let b ← pushBlock { owner := i, region }
  args.forM fun t => discard (addArgument b t)
  modifyOp i fun o => { o with regions := o.regions.modify region (· ++ [b]) }
  return b

/-! ## Places in blocks -/

def placeIn (b : BlockId) (i : OpId) : Edit Nat := do
  match (← getBlock b).ops.idxOf? i with
  | some n => return n
  | none => throw (.lostOp (← getOp i).name)

def insertAt (b : BlockId) (place : Nat) (i : OpId) : Edit Unit := do
  let o ← getOp i
  if o.block.isSome then throw (.attached o.name)
  if (← getBlock b).ops.length < place then throw .crash
  modifyBlock b fun x => { x with ops := x.ops.insertIdx place i }
  modifyOp i fun o => { o with block := some b }

def append (b : BlockId) (i : OpId) : Edit Unit := do
  insertAt b (← getBlock b).ops.length i

def detach (i : OpId) : Edit Unit := do
  match (← getOp i).block with
  | none => return
  | some b =>
    let place ← placeIn b i
    modifyBlock b fun x => { x with ops := x.ops.eraseIdx place }
    modifyOp i fun o => { o with block := none }

def moveBefore (i other : OpId) : Edit Unit := do
  detach i
  match (← getOp other).block with
  | none => throw .crash
  | some b => insertAt b (← placeIn b other) i

/-! ## Erasure -/

def dropFrom (i : OpId) : Nat → List Slot → Edit Unit
  | _, [] => return
  | index, none :: rest => dropFrom i (index + 1) rest
  | index, some v :: rest => do
    removeUse v ⟨i, index⟩
    fill ⟨i, index⟩ none
    dropFrom i (index + 1) rest

def dropOperands (i : OpId) : Edit Unit := do
  dropFrom i 0 (← getOp i).operands

/-- Takes an operation out of its block and empties the operand slots of everything in it. Nothing may
use its results. -/
def erase (i : OpId) : Edit Unit := do
  let inside := (← get).nested i
  match (← get).firstUsed? i with
  | some (place, uses) =>
    let o ← getOp i
    throw (.inUse o.name o.loc place uses)
  | none =>
    detach i
    inside.forM dropOperands

end Edit

end Offload
