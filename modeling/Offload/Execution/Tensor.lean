import Offload.Capacity
import Offload.Rounding

/-!
# Tensors

A tensor is a shape and its elements in row-major order. Elements are numbers that the element type can
hold, so what goes into a tensor is rounded first.
-/

namespace Offload

structure Tensor where
  shape : Shape
  data : Array Float
  deriving Inhabited

namespace Tensor

def make (shape : Shape) (data : Array Float) : Except Fault Tensor :=
  if (data.size : Int) = shape.size then .ok ⟨shape, data.map shape.element.round⟩
  else .error (.tensorCount shape data.size)

def zeros (shape : Shape) : Except Fault Tensor := do
  return ⟨shape, Array.replicate (← checkLength shape.size) 0⟩

def iota (shape : Shape) : Except Fault Tensor := do
  let n ← checkLength shape.size
  return ⟨shape, (Array.range n).map fun i => shape.element.round i.toFloat⟩

def cyclic (shape : Shape) (step period shift : Int) : Except Fault Tensor := do
  let n ← checkLength shape.size
  make shape ((Array.range n).map fun (i : Nat) =>
    Float.ofInt (Word.sub (Word.rem (Word.mul i step) period) shift))

def get (t : Tensor) (i : Int) : Except Fault Float :=
  match if 0 ≤ i then t.data[i.toNat]? else none with
  | some x => .ok x
  | none => .error .crash

def elementAt (t : Tensor) (indices : List Int) : Except Fault Float := do
  t.get (← Fault.ofShape (t.shape.linearIndex indices))

def viewShape (t : Tensor) (dims : List Int) : Except Fault Shape := do
  let shape ← Fault.ofShape (t.shape.withDims dims)
  if shape.size = t.data.size then return shape else throw (.badView t.shape dims)

def shownElements : Nat := 8

def render (t : Tensor) : String :=
  let shown := (t.data.toList.take shownElements).map Decimal.render
  t.shape.render ++ "[" ++ " ".intercalate shown ++ "]" ++
    if shownElements < t.data.size then "..." else ""

end Tensor

end Offload
