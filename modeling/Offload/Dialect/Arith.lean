import Offload.IR.Builder
import Offload.IR.Registry

/-!
# Constants and arithmetic

Constants, and operations on two values of one type that work element by element.
-/

namespace Offload.Arith

def constantName : String := "arith.constant"
def valueAttr : String := "value"

def infinity : Float := 1.0 / 0.0

def nan : Float := 0.0 / 0.0

/-- The larger number. Infinity wins even over NaN, NaN over all else, and `+0` is larger than `-0`. -/
def maxNum (x y : Float) : Float :=
  if x == infinity || y == infinity then infinity
  else if x.isNaN || y.isNaN then nan
  else if x == 0 && y == 0 then (if x.toBits == 0 then x else y)
  else if x > y then x else y

/-- The smaller number. Negative infinity wins even over NaN, NaN over all else, and `-0` is smaller than
`+0`. -/
def minNum (x y : Float) : Float :=
  if x == -infinity || y == -infinity then -infinity
  else if x.isNaN || y.isNaN then nan
  else if x == 0 && y == 0 then (if x.toBits == 0 then y else x)
  else if x < y then x else y

inductive Binary where
  | addf
  | mulf
  | maxf
  | minf
  | addi
  | muli
  deriving DecidableEq, Repr

namespace Binary

def all : List Binary := [addf, mulf, maxf, minf, addi, muli]

def name : Binary → String
  | addf => "arith.addf"
  | mulf => "arith.mulf"
  | maxf => "arith.maxf"
  | minf => "arith.minf"
  | addi => "arith.addi"
  | muli => "arith.muli"

def ofName? (s : String) : Option Binary := all.find? (·.name = s)

def apply : Binary → Float → Float → Float
  | addf | addi => (· + ·)
  | mulf | muli => (· * ·)
  | maxf => maxNum
  | minf => minNum

end Binary

inductive Flaw where
  | constantArity
  | denseType (value : Option Shape) (result : Ty)
  | denseCount (type : Ty) (given : Nat)
  | scalarType (result : Ty)
  | noValue
  | binaryArity (name : String) (operands results : Nat)
  | binaryTypes (name : String) (lhs rhs result : Ty)
  deriving DecidableEq, Repr

def Flaw.message : Flaw → String
  | constantArity => "constant takes no operands and has one result"
  | denseType value result =>
    "constant value type " ++ Attr.denseType value ++ " doesn't match result type " ++ result.render
  | denseCount t given => "constant of type " ++ t.render ++ " has " ++ toString given ++ " values"
  | scalarType t => "scalar constant with non-scalar result type " ++ t.render
  | noValue => "constant has no valid \"value\" attribute"
  | binaryArity name operands results =>
    name ++ " takes 2 operands and has 1 result, got " ++ toString operands ++ " operands and " ++
      toString results ++ " results"
  | binaryTypes name x y result =>
    name ++ " operands and result must have the same type, got (" ++ x.render ++ ", " ++ y.render ++ ") -> " ++
      result.render

section Checks

variable (p : Program) (i : OpId)

/-- Elements without a type of their own are only told apart from what is not a tensor. -/
def checkConstant : Except (Option Flaw) Unit :=
  match (p.op i).operands, p.resultTypes i with
  | [], [t] =>
    match (p.op i).attr? valueAttr with
    | some (.dense none _) => if t.isTensor then .error none else .error (some (.denseType none t))
    | some (.dense (some shape) values) =>
      if .tensor shape ≠ t then .error (some (.denseType (some shape) t))
      else if (values.length : Int) ≠ shape.size then .error (some (.denseCount (.tensor shape) values.length))
      else .ok ()
    | some (.float _) | some (.int _) =>
      match t with
      | .scalar _ => .ok ()
      | _ => .error (some (.scalarType t))
    | _ => .error (some .noValue)
  | _, _ => .error (some .constantArity)

def checkBinary : Except (Option Flaw) Unit :=
  let o := p.op i
  match o.operands.filterMap p.slotType?, p.resultTypes i with
  | [x, y], [t] => Ty.demand [x, x] [y, t] (.binaryTypes o.name x y t)
  | xs, ts => .error (some (.binaryArity o.name xs.length ts.length))

end Checks

def registry : Registry :=
  { name := constantName, traits := { pure := true }
    check := fun p i => (checkConstant p i).mapError (.of Flaw.message) } ::
  Binary.all.map fun b =>
    { name := b.name, traits := { pure := true }
      check := fun p i => (checkBinary p i).mapError (.of Flaw.message) }

/-! ## Building -/

def constant (shape : Shape) (values : List Float) : Build ValueId := do
  unless (values.length : Int) = shape.size do throw (.constantCount shape values.length)
  Build.createValue {
    name := constantName
    results := [some (.tensor shape)]
    attrs := [(valueAttr, .dense (some shape) values)] }

def constantShape (dims : List Int) : Build ValueId := do
  if dims.isEmpty then throw .scalarShape
  constant ⟨.int64, [dims.length]⟩ (dims.map Float.ofInt)

def constantScalar (element : ElementType) (value : Float) : Build ValueId :=
  Build.createValue {
    name := constantName
    results := [some (.scalar element)]
    attrs := [(valueAttr, .float value)] }

def binary (b : Binary) (x y : Slot) : Build ValueId := do
  let t ← Build.typeOf x
  Build.createValue { name := b.name, operands := [x, y], results := [some t] }

inductive Term where
  | arg (index : Nat)
  | outer (v : Slot)
  | const (element : ElementType) (value : Float)
  | binary (b : Binary) (x y : Term)

def Term.build (args : List ValueId) : Term → Build Slot
  | arg index =>
    match args[index]? with
    | some v => return some v
    | none => throw .crash
  | outer v => return v
  | const element value => some <$> constantScalar element value
  | binary b x y => do
    let x ← x.build args
    let y ← y.build args
    some <$> Arith.binary b x y

/-! ## Looking up -/

def constantValues? (o : Op) : Option (List Float) :=
  if o.name = constantName then
    match o.attr? valueAttr with
    | some (.dense _ values) => some values
    | some (.float x) => some [x]
    | some (.int n) => some [Float.ofInt n]
    | _ => none
  else none

end Offload.Arith
