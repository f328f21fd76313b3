import Offload.Text.Lower

/-!
# Element types

The types of the single elements of tensors and buffers. Every type has a name, a code and a short name
for use inside types of values; most of them also have a size in memory.
-/

namespace Offload

inductive ElementType where
  | invalid
  | bool
  | int8
  | int16
  | int32
  | int64
  | uint8
  | uint16
  | uint32
  | uint64
  | float16
  | float32
  | float64
  | bfloat16
  | complex64
  | complex128
  | f8e5m2
  | f8e4m3fn
  | f8e4m3b11fnuz
  | f8e5m2fnuz
  | f8e4m3fnuz
  | s4
  | u4
  | token
  | s2
  | u2
  | f8e4m3
  | f8e3m4
  | f8e8m0fnu
  | f4e2m1fn
  deriving DecidableEq, Repr, Inhabited

namespace ElementType

def all : List ElementType :=
  [invalid, bool, int8, int16, int32, int64, uint8, uint16, uint32, uint64, float16, float32, float64,
    bfloat16, complex64, complex128, f8e5m2, f8e4m3fn, f8e4m3b11fnuz, f8e5m2fnuz, f8e4m3fnuz, s4, u4, token,
    s2, u2, f8e4m3, f8e3m4, f8e8m0fnu, f4e2m1fn]

def name : ElementType → String
  | invalid => "InvalidDType"
  | bool => "Bool"
  | int8 => "Int8"
  | int16 => "Int16"
  | int32 => "Int32"
  | int64 => "Int64"
  | uint8 => "Uint8"
  | uint16 => "Uint16"
  | uint32 => "Uint32"
  | uint64 => "Uint64"
  | float16 => "Float16"
  | float32 => "Float32"
  | float64 => "Float64"
  | bfloat16 => "BFloat16"
  | complex64 => "Complex64"
  | complex128 => "Complex128"
  | f8e5m2 => "F8E5M2"
  | f8e4m3fn => "F8E4M3FN"
  | f8e4m3b11fnuz => "F8E4M3B11FNUZ"
  | f8e5m2fnuz => "F8E5M2FNUZ"
  | f8e4m3fnuz => "F8E4M3FNUZ"
  | s4 => "S4"
  | u4 => "U4"
  | token => "TOKEN"
  | s2 => "S2"
  | u2 => "U2"
  | f8e4m3 => "F8E4M3"
  | f8e3m4 => "F8E3M4"
  | f8e8m0fnu => "F8E8M0FNU"
  | f4e2m1fn => "F4E2M1FN"

def code (t : ElementType) : Nat := all.idxOf t

def ofName? (s : String) : Option ElementType :=
  all.find? fun t => Text.lower t.name == Text.lower s

structure Unknown where
  name : String
  deriving DecidableEq, Repr

def Unknown.message (e : Unknown) : String := e.name ++ " does not belong to DType values"

def parse (s : String) : Except Unknown ElementType :=
  match ofName? s with
  | some t => .ok t
  | none => .error ⟨s⟩

/-- The name inside the type of a value: a letter for the kind and the width for the common types, and
the lower case name for the others. -/
def shortName : ElementType → String
  | float16 => "f16"
  | bfloat16 => "bf16"
  | float32 => "f32"
  | float64 => "f64"
  | bool => "i1"
  | int8 => "i8"
  | int16 => "i16"
  | int32 => "i32"
  | int64 => "i64"
  | uint8 => "ui8"
  | uint32 => "ui32"
  | uint64 => "ui64"
  | t => Text.lower t.name

def bytes? : ElementType → Option Nat
  | bool | int8 | uint8 => some 1
  | int16 | uint16 | float16 | bfloat16 => some 2
  | int32 | uint32 | float32 => some 4
  | int64 | uint64 | float64 | complex64 => some 8
  | complex128 => some 16
  | _ => none

end ElementType

/-- The bytes that an element takes, for each type whose elements can be stored. -/
abbrev Storage := ElementType → Option Nat

end Offload
