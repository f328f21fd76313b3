import Offload.Decimal.Shortest

/-!
# General form

How doubles are written in all output: the shortest digits, positionally while the decimal exponent is
between -4 and 5, and otherwise as one digit, the others after a point, and an exponent with a sign and
at least two digits.
-/

namespace Offload.Decimal

/-- The exponents that are written positionally, and the texts that are not digits. -/
structure Layout where
  lowest : Int
  highest : Int
  exponentWidth : Nat
  nan : String
  positiveInfinity : String
  negativeInfinity : String

def general : Layout := ⟨-4, 5, 2, "NaN", "+Inf", "-Inf"⟩

private def zeros (n : Nat) : String := String.ofList (List.replicate n '0')

/-- Digits with a point after the first `k` of them, zeros filled in on either side. -/
private def positional (digits : String) (k : Int) : String :=
  let len := digits.length
  if k ≤ 0 then "0." ++ zeros (-k).toNat ++ digits
  else if len ≤ k.toNat then digits ++ zeros (k.toNat - len)
  else (digits.take k.toNat).toString ++ "." ++ (digits.drop k.toNat).toString

private def scientific (n : Layout) (digits : String) (exponent : Int) : String :=
  let size := toString exponent.natAbs
  let head := (digits.take 1).toString
  let tail := (digits.drop 1).toString
  head ++ (if tail.isEmpty then "" else "." ++ tail) ++ "e" ++ (if exponent < 0 then "-" else "+")
    ++ zeros (n.exponentWidth - size.length) ++ size

def Layout.render (n : Layout) (d : Scaled) : String :=
  let digits := toString d.digits
  let exponent := d.scale + digits.length - 1
  if n.lowest ≤ exponent ∧ exponent ≤ n.highest then positional digits (exponent + 1)
  else scientific n digits exponent

/-- The text of any double. Both zeros keep their sign, all NaNs are written alike. -/
def Layout.ofFloat (n : Layout) (x : Float) : String :=
  let bits := x.toBits
  let negative := bits >>> 63 == 1
  if x.isNaN then n.nan
  else if x.isInf then (if negative then n.negativeInfinity else n.positiveInfinity)
  else
    let b := Binary.ofBits bits
    (if negative then "-" else "") ++ (if b.mantissa = 0 then "0" else n.render (shortest b))

def render (x : Float) : String := general.ofFloat x

end Offload.Decimal
