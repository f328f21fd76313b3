import Offload.Affine
import Offload.Decimal.General
import Offload.IR.Type

/-!
# Attributes

Constants that are part of an operation: numbers, texts, types, affine maps and the elements of a tensor,
whose type may have been left out.
-/

namespace Offload

inductive Attr where
  | int (value : Int)
  | float (value : Float)
  | str (value : String)
  | ints (values : List Int)
  | type (value : Ty)
  | map (value : Affine.Map)
  | dense (shape : Option Shape) (values : List Float)
  deriving Inhabited

namespace Attr

def denseType (shape : Option Shape) : String := shape.elim "<nil>" fun s => (Ty.tensor s).render

def renderDense (shape : Option Shape) (values : List Float) : String :=
  let elements :=
    match values with
    | v :: _ =>
      if values.all (· == v) then Decimal.render v
      else "[" ++ ", ".intercalate (values.map Decimal.render) ++ "]"
    | [] => "[]"
  "dense<" ++ elements ++ "> : " ++ denseType shape

def render : Attr → String
  | int n => toString n
  | float x => Decimal.render x
  | str s => Text.quote s
  | ints ns => "[" ++ ", ".intercalate (ns.map toString) ++ "]"
  | type .absent => Ty.unprintable
  | type t => t.render
  | map m => "affine_map<" ++ m.render ++ ">"
  | dense shape values => renderDense shape values

def int? : Attr → Option Int
  | int n => some n
  | _ => none

def float? : Attr → Option Float
  | float x => some x
  | _ => none

def str? : Attr → Option String
  | str s => some s
  | _ => none

def ints? : Attr → Option (List Int)
  | ints ns => some ns
  | _ => none

def map? : Attr → Option Affine.Map
  | map m => some m
  | _ => none

def signature? : Attr → Option (List Ty × List Ty)
  | type (.function inputs results) => some (inputs, results)
  | _ => none

end Attr

end Offload
