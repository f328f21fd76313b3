import Offload.IR.Edit

/-!
# Copies of operations

A copy has new operations, blocks and values throughout. A substitution says what stands for a value in
the copy; the values defined inside are added to it on the way, and values it does not mention stay as
they are.
-/

namespace Offload

/-- What stands for which value and block. Later entries come first and hide earlier ones. -/
structure Substitution where
  values : List (ValueId × ValueId) := []
  blocks : List (BlockId × BlockId) := []
  deriving Inhabited

namespace Substitution

def value? (m : Substitution) (v : ValueId) : Option ValueId := m.values.lookup v

def block? (m : Substitution) (b : BlockId) : Option BlockId := m.blocks.lookup b

def apply (m : Substitution) (v : ValueId) : ValueId := (m.value? v).getD v

def addValue (m : Substitution) (v w : ValueId) : Substitution := { m with values := (v, w) :: m.values }

def addBlock (m : Substitution) (b c : BlockId) : Substitution := { m with blocks := (b, c) :: m.blocks }

end Substitution

abbrev Cloning := StateT Substitution Edit

namespace Cloning

def cloneBlock (dest : OpId) (region : Nat) (b : BlockId) : Cloning BlockId := do
  let c ← Edit.newBlock dest region []
  for arg in (← Edit.getBlock b).args do
    let copy ← Edit.addArgument c (some (← Edit.getValue arg).type)
    modify (·.addValue arg copy)
  modify (·.addBlock b c)
  return c

def blocksOf (i : OpId) (region : Nat) : Cloning (List BlockId) := do
  match (← Edit.getOp i).regions[region]? with
  | some blocks => return blocks
  | none => throw .crash

/-- Copies the blocks of one region to the end of another. All of them are there before the first operation
is copied, so operations can refer to any of their arguments. The copies may have become part of what is
copied; a region cannot be copied to its own end unless it has no operations. -/
def cloneBlocks (cloneOp : OpId → Cloning OpId) (source : OpId) (region : Nat) (dest : OpId)
    (destRegion : Nat) : Cloning Unit := do
  let copies ← (← blocksOf source region).mapM (cloneBlock dest destRegion)
  for (b, index) in (← blocksOf source region).zipIdx do
    for i in (← Edit.getBlock b).ops do
      let copy ← cloneOp i
      match copies[index]? with
      | some c => Edit.append c copy
      | none => throw .crash

def cloneFrom : Nat → OpId → Cloning OpId
  | 0, _ => throw .crash
  | fuel + 1, i => do
    let o ← Edit.getOp i
    let m ← get
    let copy ← Edit.newOp {
      name := o.name
      loc := o.loc
      operands := o.operands.map fun s => s.map m.apply
      results := (← (getThe Program : Edit Program)).resultTypes i |>.map some
      attrs := o.attrs
      regions := o.regions.length }
    let results := (← Edit.getOp copy).results
    modify fun m => (o.results.zip results).foldl (fun m (v, w) => m.addValue v w) m
    for region in List.range o.regions.length do
      cloneBlocks (cloneFrom fuel) i region copy region
    return copy

end Cloning

namespace Edit

def clone (i : OpId) (m : Substitution) : Edit (OpId × Substitution) := do
  (Cloning.cloneFrom ((← get).ops.size + 1) i).run m

def cloneRegion (source : OpId) (region : Nat) (dest : OpId) (destRegion : Nat) (m : Substitution) :
    Edit Substitution := do
  let fuel := (← get).ops.size + 1
  if ((← get).op dest).regions.length ≤ destRegion then throw .crash
  let (_, m) ← (Cloning.cloneBlocks (Cloning.cloneFrom fuel) source region dest destRegion).run m
  return m

end Edit

end Offload
