import Offload.ElementType

/-!
# Rounding to an element type

Elements are computed as doubles and stored as the closest value of their type. Single precision and half
precision round to the nearest value, ties to even; the brain format drops the low half of a single;
integers drop the fraction, and unsigned ones read a negative value as zero. The types without a
representation here store doubles unchanged.

What an integer type makes of a value out of its range depends on the implementation: here 64 bits go to the
closest bound, and fewer bits wrap. No result depends on such a value.
-/

namespace Offload

def roundSingle (x : Float) : Float := x.toFloat32.toFloat

def halfBits (bits : UInt32) : UInt16 :=
  let sign := ((bits >>> 16) &&& 0x8000).toNat
  let biased := ((bits >>> 23) &&& 0xFF).toNat
  let fraction := (bits &&& 0x7FFFFF).toNat
  let magnitude :=
    if biased = 255 then
      -- Infinities stay, and NaNs stay quiet NaNs.
      if fraction = 0 then 0x7C00 else 0x7E00 + (fraction >>> 13) % 0x200
    else
      -- The value is `significand · 2^(biased - 150)` and a half is `n · 2^(scale - 24)`.
      let significand := fraction + 0x800000
      let scale := if 113 ≤ biased then biased - 113 else 0
      let shift := 126 + scale - biased
      if biased = 0 then 0
      else
        let unit := Nat.pow 2 shift
        let n := significand / unit
        let r := significand % unit
        let n := if unit < 2 * r ∨ (2 * r = unit ∧ n % 2 = 1) then n + 1 else n
        -- A carry out of the fraction moves to the next exponent by itself.
        min (n + scale * 0x400) 0x7C00
  (sign + magnitude).toUInt16

def halfValue (bits : UInt16) : Float :=
  let negative := bits >>> 15 == 1
  let biased := ((bits >>> 10) &&& 0x1F).toNat
  let fraction := (bits &&& 0x3FF).toNat
  let magnitude : Float :=
    if biased = 31 then (if fraction = 0 then 1.0 / 0.0 else 0.0 / 0.0)
    else if biased = 0 then Float.scaleB (Float.ofNat fraction) (-24)
    else Float.scaleB (Float.ofNat (fraction + 0x400)) ((biased : Int) - 25)
  if negative then -magnitude else magnitude

def truncateTo (bits : Nat) (x : Float) : Int := x.toInt64.toInt.bmod (Nat.pow 2 bits)

def clampBelow (x : Float) : Float := if x > 0 then x else 0

def ElementType.round (t : ElementType) (x : Float) : Float :=
  match t with
  | .float16 => halfValue (halfBits x.toFloat32.toBits)
  | .bfloat16 => (Float32.ofBits (x.toFloat32.toBits &&& 0xFFFF0000)).toFloat
  | .float32 => roundSingle x
  | .bool => if x == 0 then 0 else 1
  | .int8 => Float.ofInt (truncateTo 8 x)
  | .int16 => Float.ofInt (truncateTo 16 x)
  | .int32 => Float.ofInt (truncateTo 32 x)
  | .int64 => x.toInt64.toFloat
  | .uint8 => (clampBelow x).toUInt64.toUInt8.toFloat
  | .uint32 => (clampBelow x).toUInt64.toUInt32.toFloat
  | .uint64 => (clampBelow x).toUInt64.toFloat
  | _ => x

end Offload
