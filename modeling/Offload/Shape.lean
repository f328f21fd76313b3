import Offload.ElementType
import Offload.Text.Quoted
import Offload.Word

/-!
# Shapes

A shape is an element type and the extents of the axes. Elements are stored in row-major order: the last
index changes fastest. `linearIndex` and `unravel` pass between index tuples and places in that order, and
`indices` enumerates both side by side.
-/

namespace Offload

structure Shape where
  element : ElementType
  dims : List Int
  deriving DecidableEq, Repr, Inhabited

def renderInts (xs : List Int) : String := "[" ++ " ".intercalate (xs.map toString) ++ "]"

def renderDims (dims : List Int) : String := "x".intercalate (dims.map toString)

namespace Shape

def rank (s : Shape) : Nat := s.dims.length

def render (s : Shape) : String :=
  "(" ++ s.element.name ++ ")" ++ if s.dims.isEmpty then "" else renderInts s.dims

end Shape

inductive ShapeFault where
  | emptyAxis (shape : Shape)
  | noAxis (axis : Int) (shape : Shape)
  | indexCount (indices : List Int) (shape : Shape)
  | noStorage (element : ElementType)
  deriving DecidableEq, Repr

def ShapeFault.message : ShapeFault → String
  | .emptyAxis s =>
    "shapes.Make(" ++ s.render ++ "): cannot create a shape with an axis with dimension <= 0"
  | .noAxis axis s =>
    "Shape.Dim(" ++ toString axis ++ ") out-of-bounds for rank " ++ toString s.rank ++ " (shape=" ++ s.render ++
      ")"
  | .indexCount indices s =>
    "LinearIndex(" ++ renderInts indices ++ ") for shape " ++ s.render ++ ": wrong number of indices"
  | .noStorage t =>
    "unknown dtype " ++ Text.quote t.name ++ " (" ++ toString t.code ++ ") in DType.GoType"

namespace Shape

def make (element : ElementType) (dims : List Int) : Except ShapeFault Shape :=
  if dims.all (0 < ·) then .ok ⟨element, dims⟩ else .error (.emptyAxis ⟨element, dims⟩)

def scalar (element : ElementType) : Shape := ⟨element, []⟩

def isValid (s : Shape) : Bool := s.element != .invalid

def isScalar (s : Shape) : Bool := s.isValid && s.dims.isEmpty

def size (s : Shape) : Int := Word.product s.dims

def memory (storage : Storage) (s : Shape) : Except ShapeFault Nat :=
  match storage s.element with
  | some n => .ok (n * Word.toUnsigned s.size % 18446744073709551616)
  | none => .error (.noStorage s.element)

def dim (s : Shape) (axis : Int) : Except ShapeFault Int :=
  let i := if axis < 0 then axis + s.rank else axis
  match if i < 0 then none else s.dims[i.toNat]? with
  | some d => .ok d
  | none => .error (.noAxis axis s)

def withDims (s : Shape) (dims : List Int) : Except ShapeFault Shape := make s.element dims

def strides (s : Shape) : List Int :=
  (s.dims.foldr (fun d (stride, rest) => (Word.mul stride d, stride :: rest)) (1, [])).2

def linearIndex (s : Shape) (indices : List Int) : Except ShapeFault Int :=
  if indices.length = s.rank then
    .ok ((s.dims.zip indices).foldl (fun flat (d, i) => Word.add (Word.mul flat d) i) 0)
  else .error (.indexCount indices s)

def unravel (s : Shape) (flat : Int) : List Int :=
  (s.dims.foldr (fun d (flat, rest) => (Word.quot flat d, Word.rem flat d :: rest)) (flat, [])).2

/-- One step of the index tuple in row-major order, and whether it went past the end back to zero. -/
def advance : List Int → List Int → Bool × List Int
  | d :: dims, i :: indices =>
    let (carry, rest) := advance dims indices
    if carry then
      if i + 1 < d then (false, (i + 1) :: rest) else (true, 0 :: rest)
    else (false, i :: rest)
  | _, _ => (true, [])

/-- The places in `seen`, latest first, and then the next `count` places from `flat` on, whose index tuple
is `indices`. -/
def indicesFrom (dims : List Int) : Nat → Nat → List Int → List (Nat × List Int) → List (Nat × List Int)
  | 0, _, _, seen => seen.reverse
  | count + 1, flat, indices, seen =>
    indicesFrom dims count (flat + 1) (advance dims indices).2 ((flat, indices) :: seen)

def firstIndices (s : Shape) (count : Nat) : List (Nat × List Int) :=
  indicesFrom s.dims (min count s.size.toNat) 0 (s.dims.map fun _ => 0) []

def indices (s : Shape) : List (Nat × List Int) := s.firstIndices s.size.toNat

/-- The product of the extents of the axes from `axis` on that are not listed in `axes`. Both go in the
same direction, so `axes` has to be sorted. -/
def volumeFrom (axis : Int) (axes : List Int) (volume : Int) : List Int → Int
  | [] => volume
  | d :: dims =>
    if axes.head? = some axis then volumeFrom (axis + 1) axes.tail volume dims
    else volumeFrom (axis + 1) axes (Word.mul volume d) dims

def volumeExcluding (s : Shape) (axes : List Int) : Int := volumeFrom 0 axes 1 s.dims

end Shape

end Offload
