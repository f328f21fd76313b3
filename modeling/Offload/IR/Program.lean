import Offload.IR.Attr

/-!
# Programs

A program is a collection of operations, blocks and values that refer to each other by number. An
operation uses values, defines results and holds regions, each a list of blocks; a block has arguments and
a list of operations. A value knows where it comes from and lists its uses, so `uses` and `operands` tell
the same story from both ends.

Nothing is ever taken out of the collection: an erased operation is one that no block lists any more.
-/

namespace Offload

structure OpId where
  index : Nat
  deriving DecidableEq, Repr, Inhabited, Hashable

structure BlockId where
  index : Nat
  deriving DecidableEq, Repr, Inhabited, Hashable

structure ValueId where
  index : Nat
  deriving DecidableEq, Repr, Inhabited, Hashable

instance {n : Nat} : OfNat OpId n := ⟨⟨n⟩⟩
instance {n : Nat} : OfNat BlockId n := ⟨⟨n⟩⟩
instance {n : Nat} : OfNat ValueId n := ⟨⟨n⟩⟩

structure Use where
  op : OpId
  index : Nat
  deriving DecidableEq, Repr, Inhabited

inductive Source where
  | result (op : OpId) (index : Nat)
  | argument (block : BlockId) (index : Nat)
  deriving DecidableEq, Repr, Inhabited

structure Value where
  type : Ty
  source : Source
  uses : List Use := []
  deriving Inhabited

/-- An operand of an operation. The slots of an erased operation are empty. -/
abbrev Slot := Option ValueId

structure Op where
  name : String
  loc : String := ""
  operands : List Slot := []
  results : List ValueId := []
  attrs : List (String × Attr) := []
  regions : List (List BlockId) := []
  /-- The block that lists the operation, unless it is detached. -/
  block : Option BlockId := none
  deriving Inhabited

structure Block where
  owner : OpId
  region : Nat := 0
  args : List ValueId := []
  ops : List OpId := []
  deriving Inhabited

structure Program where
  ops : Array Op := #[]
  blocks : Array Block := #[]
  values : Array Value := #[]
  deriving Inhabited

namespace Op

def dialect (o : Op) : String := String.ofList (o.name.toList.takeWhile (· != '.'))

def attr? (o : Op) (name : String) : Option Attr := o.attrs.lookup name

def setAttr (o : Op) (name : String) (value : Attr) : Op :=
  { o with attrs := put o.attrs }
where
  put : List (String × Attr) → List (String × Attr)
    | [] => [(name, value)]
    | (n, v) :: rest => if n = name then (n, value) :: rest else (n, v) :: put rest

end Op

namespace Program

variable (p : Program)

def op (i : OpId) : Op := p.ops.getD i.index default

def block (i : BlockId) : Block := p.blocks.getD i.index default

def value (i : ValueId) : Value := p.values.getD i.index default

def typeOf (v : ValueId) : Ty := (p.value v).type

def slotType? (v : Slot) : Option Ty := v.map p.typeOf

def typesOf? (vs : List Slot) : Option (List Ty) := vs.mapM p.slotType?

def resultTypes (i : OpId) : List Ty := (p.op i).results.map p.typeOf

def argTypes (b : BlockId) : List Ty := (p.block b).args.map p.typeOf

def homeOf (v : ValueId) : Option BlockId :=
  match (p.value v).source with
  | .result o _ => (p.op o).block
  | .argument b _ => some b

def definingOp? (v : ValueId) : Option OpId :=
  match (p.value v).source with
  | .result o _ => some o
  | .argument _ _ => none

def placeOf (v : ValueId) : Nat :=
  match (p.value v).source with
  | .result _ i | .argument _ i => i

def users (v : ValueId) : List OpId := ((p.value v).uses.map Use.op).eraseDups

def hasUses (i : OpId) : Bool := (p.op i).results.any fun r => !(p.value r).uses.isEmpty

def firstUsed? (i : OpId) : Option (Nat × Nat) :=
  ((p.op i).results.find? fun r => !(p.value r).uses.isEmpty).map fun r =>
    (p.placeOf r, (p.value r).uses.length)

def parent? (i : OpId) : Option OpId := (p.op i).block.map fun b => (p.block b).owner

def enclosingFrom : Nat → OpId → List OpId
  | 0, _ => []
  | fuel + 1, i => i :: (p.parent? i).elim [] (enclosingFrom fuel)

/-- The operation and everything it is nested in, from the inside out. A chain of nested operations is
no longer than the program. -/
def enclosing (i : OpId) : List OpId := p.enclosingFrom (p.ops.size + 1) i

def isAncestor (a i : OpId) : Bool := (p.enclosing i).contains a

def entryBlock? (i : OpId) (region : Nat) : Option BlockId := (p.op i).regions[region]?.bind List.head?

def last? (b : BlockId) : Option OpId := (p.block b).ops.getLast?

end Program

end Offload
